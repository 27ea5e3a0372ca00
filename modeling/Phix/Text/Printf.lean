import Phix.Foundation.Readings
import Phix.Foundation.Strings
import Phix.Fs.Names
import Phix.Text.Itoa

/-! # Formatted printing

`printk` of `string/string.c` and its twin `printf` in the user library's `stdio.c`. The format
is read character by character through a pointer; what is printed is the sequence of the
characters that are handed to `putchar` and `print`. The digits come from the static buffers of
`itoa` and `decimal_to_hex`.

The output is the expansion of the format, and nothing is read behind the format, unless the
format ends in a lone `'%'` or a null pointer is printed (`Phix.printf_follows_format_iff`).
-/

namespace Phix

open Backwards Reading

def percent : Byte := 0x25

/-- The static buffer of `decimal_to_hex`, with the index of the last digit that was written. Its
last byte is never written and stays zero. -/
structure HexText extends Backwards Byte where
  inside : loc ≤ 11
  terminated : text 11 = 0

/-- The buffer at the start of a call. -/
def HexText.start (hex : HexText) : HexText where
  text := hex.text
  loc := 11
  inside := Int.le_refl 11
  terminated := hex.terminated

/-- The static buffer before the first call. -/
def zeroHex : HexText where
  text := fun _ => 0
  loc := 11
  inside := Int.le_refl 11
  terminated := rfl

def HexText.putDigit (hex : HexText) (c : Byte) : HexText where
  toBackwards := hex.toBackwards.put c
  inside := by
    have inside := hex.inside
    change hex.loc - 1 ≤ 11
    omega
  terminated := by
    have different : (11 : Int) ≠ hex.loc - 1 := by
      have inside := hex.inside
      omega
    exact (Function.update_of_ne different c hex.text).trans hex.terminated

def decimalToHex.loop : (rounds : ℕ) → (decimal : Word) → HexText → Option HexText
  | 0, _, _ => none
  | rounds + 1, decimal, hex =>
      if decimal = 0 then some hex
      else
        let remainder := decimal % 16
        let hex := if remainder < 10 then hex.putDigit ((48 + remainder).setWidth 8)
          else hex.putDigit ((55 + remainder).setWidth 8)
        loop rounds (decimal / 16) hex

/-- `decimal_to_hex`; a round divides by sixteen. -/
def decimalToHex (hex : HexText) (decimal : Word) : Option HexText :=
  decimalToHex.loop 32 decimal hex.start

/-- The characters of the string that a pointer into a buffer points to. -/
def chars (text : Backwards Byte) : List Byte :=
  let byte := fun k : ℕ => text.text (text.loc + k)
  (List.range (Strings.length byte (2 ^ 32))).map byte

/-- An argument: a number in a word, or a string. -/
inductive Arg where
  | int (value : Word)
  | string (str : CString)

/-- `va_arg(ap, int)`. -/
def vaInt : List Arg → Option Word
  | .int value :: _ => some value
  | _ => none

/-- `va_arg(ap, char*)`. -/
def vaString : List Arg → Option CString
  | .string str :: _ => some str
  | _ => none

/-- The state of the loop: the arguments that are left, the static buffers, and what has been
printed. `va_end` does nothing on this machine. -/
structure Printing where
  args : List Arg
  text : Int → Byte
  hex : HexText
  output : List Byte

def Printing.putchar (state : Printing) (c : Byte) : Printing :=
  { state with output := state.output ++ [c] }

def Printing.print (state : Printing) (str : List Byte) : Printing :=
  { state with output := state.output ++ str }

/-- The `switch` on the character after a `'%'`; an argument of another type has no meaning. -/
def Printing.conversion (state : Printing) (c : Byte) : Option Printing :=
  if c = 0x64 then
    (vaInt state.args).bind fun ival => (itoa state.text ival).map fun text =>
      { state with args := state.args.tail, text := text.text }.print (chars text)
  else if c = 0x63 then
    (vaInt state.args).map fun ival =>
      { state with args := state.args.tail }.putchar (ival.setWidth 8)
  else if c = 0x73 then
    (vaString state.args).map fun sval => { state with args := state.args.tail }.print sval.bytes
  else if c = 0x70 then
    (vaInt state.args).bind fun ival => (decimalToHex state.hex ival).map fun hex =>
      ({ state with args := state.args.tail, hex := hex }.print [0x30, 0x58]).print
        (chars hex.toBackwards)
  else some (state.putchar c)

/-- The loop over the format from its character `p` on. -/
def printk.loop : (rounds : ℕ) → (p : ℕ) → Printing → Reading ℕ Byte (Option Printing)
  | 0, _, _ => pure none
  | rounds + 1, p, state => do
      let c ← cell p
      if c = 0 then pure (some state)
      else if c ≠ percent then loop rounds (p + 1) (state.putchar c)
      else
        let c ← cell (p + 1)
        match state.conversion c with
        | none => pure none
        | some state => loop rounds (p + 2) state

def printk (rounds : ℕ) (args : List Arg) (text : Int → Byte) (hex : HexText) :
    Reading ℕ Byte (Option Printing) :=
  printk.loop rounds 0 { args := args, text := text, hex := hex, output := [] }

namespace Stdlib

/-- The twin in `stdio.c`: the same loop, with `phix_print` where `printk` has `print`. Its output
is what it hands to `putchar` and to `phix_print`; the call behind the latter, `syscall1_print`,
cuts a string at 2047 characters. -/
def printf (rounds : ℕ) (args : List Arg) (text : Int → Byte) (hex : HexText) :
    Reading ℕ Byte (Option Printing) :=
  printk rounds args text hex

end Stdlib

/-! ## What a format means -/

/-- A literal character, a conversion with its argument, or a `'%'` at the end. -/
inductive Item where
  | literal (c : Byte)
  | decimal (value : Word)
  | character (value : Word)
  | string (str : CString)
  | pointer (value : Word)
  | lonePercent

def takesArgument (c : Byte) : Bool := c = 0x64 ∨ c = 0x63 ∨ c = 0x73 ∨ c = 0x70

/-- The item of a character after a `'%'`. -/
def conversionItem (c : Byte) (args : List Arg) : Option Item :=
  if c = 0x64 then (vaInt args).map .decimal
  else if c = 0x63 then (vaInt args).map .character
  else if c = 0x73 then (vaString args).map .string
  else if c = 0x70 then (vaInt args).map .pointer
  else some (.literal c)

/-- The items of a format, if there is an argument for each of its conversions. -/
def items : (format : List Byte) → List Arg → Option (List Item)
  | [], _ => some []
  | [c], _ => some [if c = percent then .lonePercent else .literal c]
  | c :: d :: rest, args =>
      if c = percent then
        (conversionItem d args).bind fun item =>
          (items rest (if takesArgument d then args.tail else args)).map (item :: ·)
      else (items (d :: rest) args).map (.literal c :: ·)

/-- The character of a hexadecimal digit. -/
def hexChar (digit : ℕ) : Byte :=
  if digit < 10 then BitVec.ofNat 8 (48 + digit) else BitVec.ofNat 8 (55 + digit)

/-- The decimal numeral of a number, with its sign. -/
def decimalText (i : Int) : List Byte := sign i ++ (numeralDigits 10 i.natAbs).map decimalChar

/-- What an item stands for. -/
def Item.expansion : Item → List Byte
  | .literal c => [c]
  | .decimal value => decimalText value.toInt
  | .character value => [value.setWidth 8]
  | .string str => str.bytes
  | .pointer value => [0x30, 0x58] ++ (numeralDigits 16 value.toNat).map hexChar
  | .lonePercent => []

/-- The characters of the format from `p` on, and the NUL behind them. -/
def FormatAt (memory : ℕ → Byte) : (p : ℕ) → List Byte → Prop
  | p, [] => memory p = 0
  | p, c :: rest => memory p = c ∧ c ≠ 0 ∧ FormatAt memory (p + 1) rest

end Phix
