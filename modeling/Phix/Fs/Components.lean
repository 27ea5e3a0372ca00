import Phix.Foundation.Segments
import Phix.Fs.Balance
import Phix.Fs.Lookup
import Phix.Fs.Room

/-! # The components of a path

The parser stops at the first empty segment, and when no block is left for the next part. The
parts of an accepted path are therefore as many of its leading segments as half of the free
blocks allow (`Phix.FileSystem.pparserParse_texts`), and no component is dropped exactly when
nothing follows an empty segment and there is room (`Phix.path_components_kept_iff`).
-/

namespace Phix

def slash : Byte := 0x2F

def isSlash (c : Byte) : Bool := decide (c = slash)

/-- The text of a path behind its drive. -/
def pathText (path : List Byte) : List Byte := path.drop 3

/-- The components of a path: its segments that are not empty. -/
def pathComponents (path : List Byte) : List (List Byte) :=
    Segments.nonempty isSlash (pathText path)

theorem ne_slash_eq : (fun c : Byte => decide (c ≠ 0x2F)) = fun c => !isSlash c := by
  funext c
  exact decide_not

namespace FileSystem

/-- A request of at most one block. -/
theorem kzalloc_room {fs : FileSystem} (sound : fs.machine.HeapSound) {size : Word}
    (positive : 1 ≤ size.toNat) (small : size.toNat ≤ 4096) :
    ((fs.kzalloc size).1 = null ∧ fs.machine.freeBlocks.card = 0) ∨
      ((fs.kzalloc size).1 ≠ null ∧ (fs.kzalloc size).2.machine.HeapSound ∧
        (fs.kzalloc size).2.machine.freeBlocks.card + 1 = fs.machine.freeBlocks.card) := by
  obtain ⟨after, full | free⟩ := sound.kzalloc_room .kernel positive small
  · exact .inl full
  · exact .inr ⟨free.1, after, free.2⟩

/-- How a part is parsed: its text is the first segment, when this has text and two blocks are
free for it. -/
theorem pparserParsePathPart_room {fs next : FileSystem} (sound : fs.machine.HeapSound)
    {path rest : List Byte} {part : Option PathPart}
    (parsed : fs.pparserParsePathPart path = (part, rest, next)) :
    (part = none ∧
        ((path.takeWhile fun c => !isSlash c) = [] ∨ fs.machine.freeBlocks.card < 2)) ∨
      (part.map PathPart.text = some (path.takeWhile fun c => !isSlash c) ∧
        (path.takeWhile fun c => !isSlash c) ≠ [] ∧
        rest = (path.dropWhile fun c => !isSlash c).tail ∧ next.machine.HeapSound ∧
        next.machine.freeBlocks.card + 2 = fs.machine.freeBlocks.card) := by
  unfold pparserParsePathPart pparserGetPathPart at parsed
  rw [ne_slash_eq] at parsed
  dsimp only at parsed
  by_cases empty : (path.takeWhile fun c => !isSlash c) = []
  · rw [if_pos empty] at parsed
    dsimp only at parsed
    rw [if_pos rfl] at parsed
    cases parsed
    exact .inl ⟨rfl, .inl empty⟩
  · rw [if_neg empty] at parsed
    dsimp only at parsed
    rcases kzalloc_room sound (show 1 ≤ ((phixMaxPath : ℕ) : Word).toNat by decide) (by decide)
      with ⟨full, free⟩ | ⟨found, after, free⟩
    · rw [if_pos full] at parsed
      cases parsed
      exact .inl ⟨rfl, .inr (by omega)⟩
    · rw [if_neg found] at parsed
      rcases kzalloc_room after (show 1 ≤ sizeofPathPart.toNat by decide) (by decide)
        with ⟨full, none⟩ | ⟨made, ends, last⟩
      · rw [if_pos full] at parsed
        cases parsed
        exact .inl ⟨rfl, .inr (by omega)⟩
      · rw [if_neg made] at parsed
        cases parsed
        exact .inr ⟨rfl, empty, rfl, ends, by omega⟩

/-- The loop takes the leading segments as long as two blocks are free for each. -/
theorem pparserParse.loop_texts {fs next : FileSystem} (sound : fs.machine.HeapSound)
    {path : List Byte} {parts : List PathPart}
    (parsed : pparserParse.loop fs path = (parts, next)) :
    parts.map PathPart.text =
      (Segments.leading isSlash path).take (fs.machine.freeBlocks.card / 2) := by
  induction fs, path using pparserParse.loop.induct generalizing parts next with
  | case1 fs path rest middle part =>
      rw [pparserParse.loop] at parsed
      split at parsed
      · cases parsed
        rcases pparserParsePathPart_room sound part with ⟨_, empty | full⟩ | ⟨absent, _⟩
        · rw [Segments.leading_of_nil empty, List.take_nil]
          rfl
        · rw [Nat.div_eq_of_lt full, List.take_zero]
          rfl
        · cases absent
      · rename_i same
        cases part.symm.trans same
  | case2 fs path part rest middle found others last looped ih =>
      rcases pparserParsePathPart_room sound found
        with ⟨absent, _⟩ | ⟨text, named, tail, after, room⟩
      · cases absent
      · rw [pparserParse.loop] at parsed
        split at parsed
        · rename_i same
          cases found.symm.trans same
        · rename_i same
          cases found.symm.trans same
          rw [looped] at parsed
          cases parsed
          have half : fs.machine.freeBlocks.card / 2 = middle.machine.freeBlocks.card / 2 + 1 := by
            omega
          rw [Segments.leading_of_ne_nil named, half, List.take_succ_cons, List.map_cons,
            ih after looped, tail, Option.some_inj.mp text]

/-- The parts of an accepted path are its leading segments, as many as there is room for. -/
theorem pparserParse_texts {fs : FileSystem} (sound : fs.machine.HeapSound) {path : List Byte}
    (accepted : ¬ PathRejected path) (room : fs.machine.freeBlocks ≠ ∅) :
    ∃ root next, fs.pparserParse path = (some root, next) ∧
      root.parts.map PathPart.text =
        (Segments.leading isSlash (pathText path)).take ((fs.machine.freeBlocks.card - 1) / 2) := by
  rcases kzalloc_room sound (show 1 ≤ sizeofPathRoot.toNat by decide) (by decide)
    with ⟨_, free⟩ | ⟨found, after, free⟩
  · exact absurd (Finset.card_eq_zero.mp free) room
  · have valid := (not_or.mp accepted).2
    have rest : (pparserGetDriveByPath path).2 = pathText path := by
      unfold pparserGetDriveByPath
      rw [if_neg valid]
      rfl
    cases looped : pparserParse.loop (fs.kzalloc sizeofPathRoot).2 (pathText path) with
    | mk parts last =>
        refine ⟨⟨(fs.kzalloc sizeofPathRoot).1, 0, parts⟩, last, ?_, ?_⟩
        · rw [fs.pparserParse_accepted accepted, if_neg found, rest, looped]
        · have texts := pparserParse.loop_texts after looped
          rwa [← free, Nat.add_sub_cancel]

end FileSystem

open FileSystem

/-- No component of the path is dropped: it is rejected, or the parts are all of its components,
so that they do not name a proper ancestor of what the path names. -/
def ComponentsKept (fs : FileSystem) (path : List Byte) : Prop :=
  ∀ root next, fs.pparserParse path = (some root, next) →
    (pathComponents path).Sublist (root.parts.map PathPart.text) ∧
      ¬ ((root.parts.map PathPart.text) <+: pathComponents path ∧
        root.parts.map PathPart.text ≠ pathComponents path)

/-- **No component is dropped exactly when the path is rejected, no block is free for its root,
or no segment with text follows an empty one and every component has two free blocks.** -/
theorem path_components_kept_iff {fs : FileSystem} (sound : fs.machine.HeapSound)
    {path : List Byte} :
    ComponentsKept fs path ↔
      PathRejected path ∨ fs.machine.freeBlocks = ∅ ∨
        ((pathText path).splitOnP isSlash).Pairwise (fun earlier later =>
          earlier = [] → later = []) ∧
        2 * (pathComponents path).length + 1 ≤ fs.machine.freeBlocks.card := by
  rw [← or_assoc]
  by_cases unparsed : PathRejected path ∨ fs.machine.freeBlocks = ∅
  · refine iff_of_true (fun root next parsed => ?_) (.inl unparsed)
    have none := (fs.pparserParse_eq_none path).mpr unparsed
    rw [parsed] at none
    cases none
  · obtain ⟨accepted, room⟩ := not_or.mp unparsed
    obtain ⟨root, next, parsed, texts⟩ := pparserParse_texts sound accepted room
    have positive := Finset.card_pos.mpr (Finset.nonempty_iff_ne_empty.mpr room)
    have fits : 2 * (pathComponents path).length + 1 ≤ fs.machine.freeBlocks.card ↔
        (pathComponents path).length ≤ (fs.machine.freeBlocks.card - 1) / 2 := by omega
    rw [or_iff_right unparsed, fits]
    have kept : (pathComponents path).Sublist (root.parts.map PathPart.text) ↔ _ :=
      texts ▸ Segments.sublist_leading_iff
    constructor
    · exact fun whole => kept.mp (whole root next parsed).1
    · intro condition other last same
      cases parsed.symm.trans same
      have sublist := kept.mpr condition
      exact ⟨sublist, fun ⟨ancestor, proper⟩ =>
        proper (ancestor.sublist.eq_of_length_le sublist.length_le)⟩

/-- The path `0:/a/`. -/
def trailingSlashPath : List Byte := [0x30, 0x3A, 0x2F, 0x61, 0x2F]

/-- Nothing follows the empty segment of `0:/a/`. -/
theorem path_components_kept_trailing : ComponentsKept freshFileSystem trailingSlashPath := by
  have room : 3 ≤ freshFileSystem.machine.freeBlocks.card := by
    change 3 ≤ (Machine.booted fun _ => 0).freeBlocks.card
    rw [Machine.booted_card]
    decide
  have cut : (pathText trailingSlashPath).splitOnP isSlash = [[0x61], []] := by decide
  refine (path_components_kept_iff freshFileSystem_sound).mpr (.inr (.inr ⟨?_, ?_⟩))
  · rw [cut]
    decide
  · unfold pathComponents Segments.nonempty
    rw [cut]
    exact room

/-- The path `0:/a//b`. -/
def doubledSlashPath : List Byte := [0x30, 0x3A, 0x2F, 0x61, 0x2F, 0x2F, 0x62]

/-- The component behind the doubled slash is dropped. -/
theorem path_components_kept_fails :
    [] ∈ (pathText doubledSlashPath).splitOnP isSlash ∧
      ¬ ComponentsKept freshFileSystem doubledSlashPath := by
  have cut : (pathText doubledSlashPath).splitOnP isSlash = [[0x61], [], [0x62]] := by decide
  have accepted : ¬ PathRejected doubledSlashPath := by
    unfold PathRejected
    decide
  obtain ⟨root, next, parsed, texts⟩ :=
    pparserParse_texts freshFileSystem_sound accepted freshFileSystem_room
  refine ⟨cut ▸ by decide, fun kept => ?_⟩
  have sublist := (kept root next parsed).1
  rw [texts] at sublist
  have ordered := (Segments.sublist_leading_iff.mp sublist).1
  rw [cut] at ordered
  exact absurd ordered (by decide)

end Phix
