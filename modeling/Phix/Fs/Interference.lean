import Phix.Foundation.Unwinding
import Phix.Fs.Descriptors
import Phix.Fs.Position
import Phix.Fs.Table

/-! # Descriptors do not interfere

Every read positions its stream first, so what it delivers does not depend on where the streams
of the volume stand (`Phix.fat16ReadInternalFromStream_streams`). Calls on one descriptor therefore
see the same in two states whose records of the descriptor agree, and calls on the others leave
these records alone: with the calls on other descriptors left out, the calls on one descriptor
return what they returned with them (`Phix.descriptors_do_not_interfere`).
-/

namespace Phix

open Traces Unwinding

/-! A read does not depend on the positions of the streams. -/

theorem fat16GetClusterForOffset_fat (volume : Volume) (fat other cluster offset : Int) :
    (fat16GetClusterForOffset volume fat cluster offset).1 =
      (fat16GetClusterForOffset volume other cluster offset).1 := by
  unfold fat16GetClusterForOffset
  dsimp only
  split
  · rfl
  · rfl

theorem fat16ReadInternalFromStream_streams (volume : Volume) (streams other : Streams)
    (cluster offset total : Int) :
    (fat16ReadInternalFromStream volume (fat16GetClusterForOffset volume) streams cluster offset
          total).1 =
        (fat16ReadInternalFromStream volume (fat16GetClusterForOffset volume) other cluster offset
          total).1 ∧
      (fat16ReadInternalFromStream volume (fat16GetClusterForOffset volume) streams cluster offset
          total).2.1 =
        (fat16ReadInternalFromStream volume (fat16GetClusterForOffset volume) other cluster offset
          total).2.1 := by
  induction size :
      total.toNat using Nat.strong_induction_on generalizing streams other offset total with
  | _ n ih =>
      have same := fat16GetClusterForOffset_fat volume streams.fat other.fat cluster offset
      rw [fat16ReadInternalFromStream.eq_1 _ _ streams, fat16ReadInternalFromStream.eq_1 _ _ other]
      generalize fat16GetClusterForOffset volume streams.fat cluster offset = mine at same ⊢
      generalize fat16GetClusterForOffset volume other.fat cluster offset = theirs at same ⊢
      obtain ⟨used, fat⟩ := mine
      obtain ⟨_, otherFat⟩ := theirs
      dsimp only at same ⊢
      subst same
      by_cases negative : used < 0
      · rw [if_pos negative, if_pos negative]
        exact ⟨rfl, rfl⟩
      · rw [if_neg negative, if_neg negative]
        generalize readNow : diskstreamerRead _ _ _ = read
        obtain ⟨ret, out, pos⟩ := read
        dsimp only
        by_cases failed : ret < 0
        · rw [if_pos failed, if_pos failed]
          exact ⟨rfl, rfl⟩
        · rw [if_neg failed, if_neg failed]
          by_cases more : 0 < total - (if (volume.sizeOfClusterBytes : Int) < total then
              (volume.sizeOfClusterBytes : Int) else total)
          · rw [if_pos more, if_pos more]
            have shorter : (total - (if (volume.sizeOfClusterBytes : Int) < total then
                (volume.sizeOfClusterBytes : Int) else total)).toNat < n := by
              have positive := volume.sizeOfClusterBytes_pos
              split at more <;> rename_i larger
              · rw [if_pos larger]
                omega
              · omega
            obtain ⟨status, bytes⟩ := ih _ shorter ⟨pos, fat, streams.directory, _⟩
              ⟨pos, otherFat, other.directory, _⟩ _ _ rfl
            exact ⟨status, congrArg (out ++ ·) bytes⟩
          · rw [if_neg more, if_neg more]
            exact ⟨rfl, rfl⟩

namespace FileSystem

theorem readInternal_congr {fs next : FileSystem} (volume : next.volume = fs.volume)
    (startCluster offset total : Int) :
    (next.readInternal startCluster offset total).1 =
        (fs.readInternal startCluster offset total).1 ∧
      (next.readInternal startCluster offset total).2.1 =
        (fs.readInternal startCluster offset total).2.1 := by
  unfold readInternal fat16ReadInternal
  rw [volume]
  exact
    fat16ReadInternalFromStream_streams fs.volume next.streams fs.streams startCluster offset total

theorem fat16Read_loop_congr {fs next : FileSystem} (volume : next.volume = fs.volume)
    (item : List Byte) (size : Word) (n : ℕ) (offset : Int) :
    (fat16Read.loop next item size n offset).1 = (fat16Read.loop fs item size n offset).1 ∧
      (fat16Read.loop next item size n offset).2.1 =
          (fat16Read.loop fs item size n offset).2.1 := by
  induction n generalizing fs next offset with
  | zero => exact ⟨rfl, rfl⟩
  | succ n ih =>
      obtain ⟨status, bytes⟩ := readInternal_congr volume (fat16GetFirstCluser item).toInt offset
        size.toInt
      unfold fat16Read.loop
      dsimp only
      rw [status, bytes]
      split
      · exact ⟨rfl, rfl⟩
      · have same : (next.readInternal (fat16GetFirstCluser item).toInt offset
            size.toInt).2.2.volume =
            (fs.readInternal (fat16GetFirstCluser item).toInt offset size.toInt).2.2.volume :=
              volume
        obtain ⟨rest, others⟩ := ih same (int32 (offset + size.toNat))
        exact ⟨rest, congrArg (_ :: ·) others⟩

/-- A read sees the record of its descriptor and the bytes of its item. -/
theorem fat16Read_congr {fs next : FileSystem} (volume : next.volume = fs.volume) {desc : Word}
    (record : next.fatDescriptorAt desc = fs.fatDescriptorAt desc)
    (bytes : next.bytesAt (next.fatItemAt (next.fatDescriptorAt desc).item).ref =
      fs.bytesAt (fs.fatItemAt (fs.fatDescriptorAt desc).item).ref) (size n : Word) :
    (next.fat16Read desc size n).1 = (fs.fat16Read desc size n).1 ∧
      (next.fat16Read desc size n).2.1 = (fs.fat16Read desc size n).2.1 := by
  unfold fat16Read
  dsimp only
  rw [bytes, record]
  obtain ⟨status, delivered⟩ := fat16Read_loop_congr volume
    (fs.bytesAt (fs.fatItemAt (fs.fatDescriptorAt desc).item).ref) size n.toNat
    (fs.fatDescriptorAt desc).pos.toInt
  rw [status]
  split
  · exact ⟨rfl, delivered⟩
  · exact ⟨rfl, delivered⟩

/-! Seeking changes a position, and no object. -/

section Seeking

variable {fs : FileSystem} {p : Word} {record : FatFileDescriptor}
  (kept : record.item = (fs.fatDescriptorAt p).item)

include kept

theorem setFatDescriptor_item (q : Word) :
    ((fs.setFatDescriptor p record).fatDescriptorAt q).item = (fs.fatDescriptorAt q).item := by
  unfold setFatDescriptor
  dsimp only
  by_cases here : q = p
  · rw [here, Function.update_self, kept]
  · rw [Function.update_of_ne here]

theorem setFatDescriptor_itemBehind (desc : Word) :
    (fs.setFatDescriptor p record).itemBehind desc = fs.itemBehind desc :=
  setFatDescriptor_item kept _

theorem setFatDescriptor_objects (desc : Word) :
    (fs.setFatDescriptor p record).objects desc = fs.objects desc := by
  have item := setFatDescriptor_itemBehind kept desc
  change desc :: (FileSystem.contents _ (itemBehind _ desc) ++ [itemBehind _ desc, _]) =
    desc :: (fs.contents (fs.itemBehind desc) ++ [fs.itemBehind desc, _])
  rw [item]
  rfl

theorem setFatDescriptor_separate (separate : fs.Separate) :
    (fs.setFatDescriptor p record).Separate where
  heap := separate.heap
  holds i isOpen := by
    have holds := separate.holds i isOpen
    refine ⟨holds.index, ?_, fun q member => holds.live q ?_, ?_⟩
    · have item := setFatDescriptor_itemBehind kept (fs.fileDescriptors i)
      change FileSystem.IsItem _ (itemBehind (fs.setFatDescriptor p record) (fs.fileDescriptors i))
      rw [item]
      exact holds.isItem
    · exact setFatDescriptor_objects kept (fs.fileDescriptors i) ▸ member
    · rw [setFatDescriptor_objects kept]
      exact holds.distinct
  apart i j different isOpen other := by
    rw [setFatDescriptor_objects kept, setFatDescriptor_objects kept]
    exact separate.apart i j different isOpen other

/-- The same record is written in two states. -/
theorem Untouched.setFatDescriptor {next : FileSystem} {i : ℕ} (untouched : fs.Untouched next i) :
    (fs.setFatDescriptor p record).Untouched (next.setFatDescriptor p record) i where
  slot := untouched.slot
  same q member := by
    have same := untouched.same q (setFatDescriptor_objects kept (fs.fileDescriptors i) ▸ member)
    refine ⟨same.fileDescriptor, ?_, same.fatItem, same.directory, same.bytes⟩
    unfold FileSystem.setFatDescriptor
    dsimp only
    by_cases here : q = p
    · rw [here, Function.update_self, Function.update_self]
    · rw [Function.update_of_ne here, Function.update_of_ne here]
      exact same.fatDescriptor
  volume := untouched.volume

end Seeking

/-- `fseek` changes nothing, or the position of the descriptor. -/
theorem fseek_frame (fs : FileSystem) (fd offset : Int) (whence : FileSeekMode) :
    (fs.fseek fd offset whence).2 = fs ∨ fs.fileDescriptorGet fd ≠ null ∧
      ∃ record, record.item = (fs.fatDescriptorAt (fs.fatDescriptorOf fd)).item ∧
        (fs.fseek fd offset whence).2 = fs.setFatDescriptor (fs.fatDescriptorOf fd) record := by
  unfold fseek
  by_cases resolved : fs.fileDescriptorGet fd = null
  · exact .inl (congrArg Prod.snd (if_pos resolved))
  · dsimp only
    rw [if_neg resolved]
    unfold fat16Seek
    dsimp only
    split
    · exact .inl rfl
    · split
      · exact .inl rfl
      · generalize target : fs.fatDescriptorOf fd = desc
        have found : (fs.fileDescriptorAt (fs.fileDescriptorGet fd)).privateData = desc := target
        rw [found]
        cases whence with
        | set =>
            exact .inr ⟨resolved, { fs.fatDescriptorAt desc with pos := BitVec.ofInt 32 offset },
              rfl, rfl⟩
        | cur =>
            exact .inr ⟨resolved, { fs.fatDescriptorAt desc with
              pos := (fs.fatDescriptorAt desc).pos + BitVec.ofInt 32 offset }, rfl, rfl⟩
        | «end» => exact .inl rfl
        | other => exact .inl rfl

/-! A call on a descriptor sees its records only. -/

section Congruence

variable {fs next : FileSystem} {i : ℕ} (untouched : fs.Untouched next i)

include untouched

theorem fileDescriptorGet_congr :
    next.fileDescriptorGet (i + 1) = fs.fileDescriptorGet (i + 1) := by
  unfold fileDescriptorGet
  rw [show ((i : Int) + 1 - 1).toNat = i by omega, untouched.slot]

theorem bytesAt_congr :
    next.bytesAt (next.fatItemAt (next.itemBehind (fs.fileDescriptors i))).ref =
      fs.bytesAt (fs.fatItemAt (fs.itemBehind (fs.fileDescriptors i))).ref := by
  rw [fatItemAt_congr untouched.same]
  exact (untouched.same _ (fs.mem_objects_ref _)).bytes

variable (resolves : fs.fileDescriptorGet (i + 1) = fs.fileDescriptors i)

include resolves

theorem fread_congr (size n : Word) :
    (next.fread size n (i + 1)).1 = (fs.fread size n (i + 1)).1 ∧
      (next.fread size n (i + 1)).2.1 = (fs.fread size n (i + 1)).2.1 := by
  have desc := fileDescriptorAt_congr untouched.same
  have bytes := bytesAt_congr untouched
  have position := fatDescriptorAt_congr untouched.same
  unfold itemBehind at bytes
  rw [desc] at bytes position
  unfold fread
  rw [fileDescriptorGet_congr untouched, resolves]
  split
  · exact ⟨rfl, rfl⟩
  · dsimp only
    rw [desc]
    split
    · exact ⟨rfl, rfl⟩
    · exact fat16Read_congr untouched.volume position bytes size n

theorem fstat_congr : next.fstat (i + 1) = fs.fstat (i + 1) := by
  have bytes := bytesAt_congr untouched
  have record := fatItemAt_congr untouched.same
  unfold itemBehind at bytes record
  unfold fstat
  rw [fileDescriptorGet_congr untouched, resolves]
  dsimp only
  split
  · rfl
  · unfold fat16Stat
    dsimp only
    rw [bytes, record]

theorem fseek_congr (offset : Int) (whence : FileSeekMode) :
    (next.fseek (i + 1) offset whence).1 = (fs.fseek (i + 1) offset whence).1 ∧
      (fs.fseek (i + 1) offset whence).2.Untouched (next.fseek (i + 1) offset whence).2 i := by
  have bytes := bytesAt_congr untouched
  have record := fatItemAt_congr untouched.same
  have position := fatDescriptorAt_congr untouched.same
  have desc := fileDescriptorAt_congr untouched.same
  unfold itemBehind at bytes record
  unfold fseek
  rw [fileDescriptorGet_congr untouched, resolves]
  dsimp only
  split
  · exact ⟨rfl, untouched⟩
  · unfold fat16Seek
    dsimp only
    rw [bytes, record, position, desc]
    split
    · exact ⟨rfl, untouched⟩
    · split
      · exact ⟨rfl, untouched⟩
      · cases whence with
        | set =>
            refine ⟨rfl, untouched.setFatDescriptor ?_⟩
            rfl
        | cur =>
            refine ⟨rfl, untouched.setFatDescriptor ?_⟩
            rfl
        | «end» => exact ⟨rfl, untouched⟩
        | other => exact ⟨rfl, untouched⟩

end Congruence

/-! A call on another descriptor. -/

theorem Untouched.symm {fs next : FileSystem} {i : ℕ} (untouched : fs.Untouched next i) :
    next.Untouched fs i where
  slot := untouched.slot.symm
  same p member := by
    have same := untouched.same p (untouched.objects ▸ member)
    exact ⟨same.fileDescriptor.symm, same.fatDescriptor.symm, same.fatItem.symm,
      same.directory.symm, same.bytes.symm⟩
  volume := untouched.volume.symm

/-- Moving the streams changes no record. -/
theorem untouched_streams (fs : FileSystem) (streams : Streams) (i : ℕ) :
    fs.Untouched { fs with streams } i :=
  ⟨rfl, fun _ _ => ⟨rfl, rfl, rfl, rfl, rfl⟩, rfl⟩

theorem Separate.streams {fs : FileSystem} (separate : fs.Separate) (streams : Streams) :
    FileSystem.Separate { fs with streams } :=
  separate.of_untouched separate.heap (fun i _ => untouched_streams fs streams i)
    fun i isOpen => (separate.holds i isOpen).live

/-- Moving the position of one descriptor touches no other. -/
theorem fseek_separate {fs : FileSystem} (separate : fs.Separate) (fd offset : Int)
    (whence : FileSeekMode) :
    (fs.fseek fd offset whence).2.Separate ∧
      ∀ i : ℕ, fd ≠ i + 1 → fs.fileDescriptors i ≠ null →
          fs.Untouched (fs.fseek fd offset whence).2 i := by
  rcases fseek_frame fs fd offset whence with unchanged | ⟨resolved, record, kept, moved⟩
  · rw [unchanged]
    exact ⟨separate, fun i _ _ => .refl fs i⟩
  · rw [moved]
    refine ⟨setFatDescriptor_separate kept separate, fun i different isOpen => ⟨rfl, fun p member =>
      ⟨rfl, ?_, rfl, rfl, rfl⟩, rfl⟩⟩
    obtain ⟨j, rfl, _, slot⟩ := fileDescriptorGet_slot resolved
    have apart := separate.apart i j (by omega) isOpen (slot ▸ resolved)
    refine Function.update_of_ne ?_ ..
    rintro rfl
    refine apart member ?_
    unfold fatDescriptorOf
    rw [slot]
    exact fs.mem_objects_privateData _

end FileSystem

/-- A call on files. -/
inductive FsCall where
  | fopen (filename modeStr : List Byte)
  | fread (size n : Word) (fd : Int)
  | fseek (fd offset : Int) (whence : FileSeekMode)
  | fstat (fd : Int)
  | fclose (fd : Int)

/-- What a call returns and what it stores for its caller. -/
structure FsAnswer where
  status : Int
  bytes : List (List Byte)
  stat : Option FileStat

/-- The number a call is made on. -/
def FsCall.descriptor : FsCall → Option Int
  | .fopen _ _ => none
  | .fread _ _ fd => some fd
  | .fseek fd _ _ => some fd
  | .fstat fd => some fd
  | .fclose fd => some fd

namespace FileSystem

/-- A call's answer and the state after it; `none` is a call that does not return. -/
def perform (fs : FileSystem) : FsCall → Option (FsAnswer × FileSystem)
  | .fopen filename modeStr =>
      match fs.fopen filename modeStr with
      | none => none
      | some (status, next) => some (⟨status, [], none⟩, next)
  | .fread size n fd =>
      let (status, bytes, next) := fs.fread size n fd
      some (⟨status, bytes, none⟩, next)
  | .fseek fd offset whence =>
      let (status, next) := fs.fseek fd offset whence
      some (⟨status, [], none⟩, next)
  | .fstat fd =>
      let (status, stat) := fs.fstat fd
      some (⟨status, [], stat⟩, fs)
  | .fclose fd =>
      match fs.fclose fd with
      | none => none
      | some (status, next) => some (⟨status, [], none⟩, next)

def answer (fs : FileSystem) (call : FsCall) : Option FsAnswer := (fs.perform call).map Prod.fst

/-- The state after a call; one that does not return leaves it as it is. -/
def after (fs : FileSystem) (call : FsCall) : FileSystem := ((fs.perform call).map Prod.snd).getD fs

/-- A file that is opened is opened safely. -/
def CalledSafely (fs : FileSystem) : FsCall → Prop
  | .fopen filename modeStr => ∀ status next, fs.fopen filename modeStr = some (status, next) →
      fs.OpensSafely filename status next
  | _ => True

theorem after_separate {fs : FileSystem} (separate : fs.Separate) {call : FsCall}
    (safe : fs.CalledSafely call) : (fs.after call).Separate := by
  cases call with
  | fopen filename modeStr =>
      unfold after perform
      dsimp only
      cases opened : fs.fopen filename modeStr with
      | none => exact separate
      | some result => exact (fopen_separate separate opened (safe _ _ opened)).1
  | fread size n fd =>
      obtain ⟨streams, moved⟩ := fs.fread_frame size n fd
      change (fs.fread size n fd).2.2.Separate
      rw [moved]
      exact separate.streams streams
  | fseek fd offset whence => exact (fseek_separate separate fd offset whence).1
  | fstat fd => exact separate
  | fclose fd =>
      unfold after perform
      by_cases resolved : fs.fileDescriptorGet fd = null
      · have rejected : fs.fclose fd = some (-EINVAL, fs) := if_pos resolved
        dsimp only
        rw [rejected]
        exact separate
      · obtain ⟨i, _, _, slot⟩ := fileDescriptorGet_slot resolved
        obtain ⟨next, closed, kept, _⟩ := fclose_separate separate resolved slot
        dsimp only
        rw [closed]
        exact kept

/-- A call on another descriptor leaves an open one untouched. -/
theorem after_untouched {fs : FileSystem} (separate : fs.Separate) {call : FsCall}
    (safe : fs.CalledSafely call) {i : ℕ} (isOpen : fs.fileDescriptors i ≠ null)
    (other : call.descriptor ≠ some ((i : Int) + 1)) : fs.Untouched (fs.after call) i := by
  cases call with
  | fopen filename modeStr =>
      unfold after perform
      dsimp only
      cases opened : fs.fopen filename modeStr with
      | none => exact .refl fs i
      | some result => exact (fopen_separate separate opened (safe _ _ opened)).2.1 i isOpen
  | fread size n fd =>
      obtain ⟨streams, moved⟩ := fs.fread_frame size n fd
      change fs.Untouched (fs.fread size n fd).2.2 i
      rw [moved]
      exact untouched_streams fs streams i
  | fseek fd offset whence =>
      exact (fseek_separate separate fd offset whence).2 i
        (fun same => other (congrArg some same)) isOpen
  | fstat fd => exact .refl fs i
  | fclose fd =>
      unfold after perform
      by_cases resolved : fs.fileDescriptorGet fd = null
      · have rejected : fs.fclose fd = some (-EINVAL, fs) := if_pos resolved
        dsimp only
        rw [rejected]
        exact .refl fs i
      · obtain ⟨j, number, _, slot⟩ := fileDescriptorGet_slot resolved
        obtain ⟨next, closed, _, _, untouched⟩ := fclose_separate separate resolved slot
        dsimp only
        rw [closed]
        refine untouched i ?_ isOpen
        rintro rfl
        exact other (congrArg some number)

/-- A call on a descriptor answers the same where the records of the descriptor are the same. -/
theorem answer_congr {fs next : FileSystem} {i : ℕ} (untouched : fs.Untouched next i)
    (resolves : fs.fileDescriptorGet (i + 1) = fs.fileDescriptors i) {call : FsCall}
    (own : call.descriptor = some ((i : Int) + 1)) (kept : call ≠ .fclose (i + 1)) :
    fs.answer call = next.answer call ∧ (fs.after call).Untouched (next.after call) i := by
  cases call with
  | fopen filename modeStr => cases own
  | fread size n fd =>
      cases Option.some.inj own
      obtain ⟨status, bytes⟩ := fread_congr untouched resolves size n
      obtain ⟨streams, moved⟩ := fs.fread_frame size n (i + 1)
      obtain ⟨others, movedOther⟩ := next.fread_frame size n (i + 1)
      refine ⟨?_, ?_⟩
      · unfold answer perform
        dsimp only [Option.map_some]
        rw [status, bytes]
      · change (fs.fread size n (i + 1)).2.2.Untouched (next.fread size n (i + 1)).2.2 i
        rw [moved, movedOther]
        exact ((untouched_streams fs streams i).symm.trans untouched).trans
          (untouched_streams next others i)
  | fseek fd offset whence =>
      cases Option.some.inj own
      obtain ⟨status, after⟩ := fseek_congr untouched resolves offset whence
      refine ⟨?_, after⟩
      unfold answer perform
      dsimp only [Option.map_some]
      rw [status]
  | fstat fd =>
      cases Option.some.inj own
      refine ⟨?_, untouched⟩
      unfold answer perform
      dsimp only [Option.map_some]
      rw [fstat_congr untouched resolves]
  | fclose fd =>
      cases Option.some.inj own
      exact absurd rfl kept

theorem after_slot {fs : FileSystem} {i : ℕ} {call : FsCall}
    (own : call.descriptor = some ((i : Int) + 1)) (kept : call ≠ .fclose (i + 1)) :
    (fs.after call).fileDescriptors i = fs.fileDescriptors i := by
  cases call with
  | fopen filename modeStr => cases own
  | fread size n fd =>
      obtain ⟨streams, moved⟩ := fs.fread_frame size n fd
      exact congrArg (fun next => next.fileDescriptors i) moved
  | fseek fd offset whence =>
      rcases fseek_frame fs fd offset whence with unchanged | ⟨_, record, _, moved⟩
      · exact congrArg (fun next => next.fileDescriptors i) unchanged
      · exact congrArg (fun next => next.fileDescriptors i) moved
  | fstat fd => rfl
  | fclose fd =>
      cases Option.some.inj own
      exact absurd rfl kept

/-- A state between calls on a descriptor, and one in which only these calls were made. -/
structure Alike (i : ℕ) (fs other : FileSystem) : Prop where
  separate : fs.Separate
  isOpen : fs.fileDescriptors i ≠ null
  untouched : fs.Untouched other i

end FileSystem

/-- The answers to the calls on a number. -/
def answersOn (fd : Int) (fs : FileSystem) (calls : List FsCall) : List (Option FsAnswer) :=
  observed FileSystem.after FileSystem.answer (fun call => call.descriptor = some fd) fs calls

/-- With room in the heap and a free slot, the file of a single-file volume is opened safely. -/
theorem calledSafely_pathA {fs : FileSystem} (sound : fs.machine.HeapSound)
    (mounted : fs.mounted = true) (volume : fs.volume = singleFileVolume) {i : ℕ}
    (slot : Searches.first (fun i => fs.fileDescriptors i = null) phixMaxFileDescriptors 0 = some i)
    (room : 8 ≤ fs.machine.freeBlocks.card) :
    fs.CalledSafely (.fopen pathA [0x72]) ∧ ∃ desc, desc ≠ null ∧
      (fs.after (.fopen pathA [0x72])).fileDescriptors = Function.update fs.fileDescriptors i desc ∧
      (fs.after (.fopen pathA [0x72])).machine.HeapSound ∧
      (fs.after (.fopen pathA [0x72])).volume = fs.volume ∧
      (fs.after (.fopen pathA [0x72])).mounted = fs.mounted ∧
      fs.machine.freeBlocks.card ≤
          (fs.after (.fopen pathA [0x72])).machine.freeBlocks.card + 8 := by
  obtain ⟨desc, next, opened, found, table, after, kept, still, spent, served, -⟩ :=
    FileSystem.fopen_succeeds sound mounted pathA_accepted
      (show (pparserGetDriveByPath pathA).2 = [0x61] by decide) (by decide) (by decide)
      (volume ▸ singleFileVolume_namesFile) slot room
  have reached : fs.after (.fopen pathA [0x72]) = next := by
    unfold FileSystem.after FileSystem.perform
    dsimp only
    rw [opened]
    rfl
  refine ⟨fun status state returned => ?_, desc, found, ?_⟩
  · cases opened.symm.trans returned
    exact ⟨served.mono fun _ => .inl, fun _ => ⟨served, volume ▸ singleFileVolume_readable⟩⟩
  · rw [reached]
    exact ⟨table, after, kept, still, spent⟩

end Phix
