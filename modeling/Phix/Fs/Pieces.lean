import Phix.Fs.Chain
import Phix.Fs.Position

/-! # The pieces of a read

A read takes its items in pieces of at most a cluster. It fails exactly when the disk does not
answer or the cluster of a piece is not found, and stores all that it is asked for otherwise.
-/

namespace Phix

variable {volume : Volume}

/-- The clusters ahead of the first one start behind it. -/
theorem Volume.tdiv_pos_iff (volume : Volume) (offset : Int) :
    0 < offset.tdiv volume.sizeOfClusterBytes ↔ (volume.sizeOfClusterBytes : Int) ≤ offset := by
  have positive := volume.sizeOfClusterBytes_pos
  cases offset with
  | ofNat n =>
      rw [Int.ofNat_eq_natCast, ← Int.ofNat_tdiv, Int.natCast_pos, Nat.div_pos_iff]
      omega
  | negSucc n =>
      rw [Int.negSucc_eq, Int.neg_tdiv]
      have := Int.tdiv_nonneg (show (0 : Int) ≤ n + 1 by omega)
        (Int.natCast_nonneg volume.sizeOfClusterBytes)
      omega

/-- The cluster of an offset is not found exactly when it lies ahead of the first one and the entry
of that one is refused. -/
theorem fat16GetClusterForOffset_neg (fat : Int) {start : Int} (cluster : 0 ≤ start)
    (offset : Int) :
    (fat16GetClusterForOffset volume fat start offset).1 < 0 ↔
      (volume.sizeOfClusterBytes : Int) ≤ offset ∧
        RefusedEntry (fat16GetFatEntry volume start).1 := by
  have ahead := volume.tdiv_pos_iff offset
  have status : (- EIO : Int) < 0 := by decide
  rw [fat16GetClusterForOffset_eq, clusterForOffset_fst]
  by_cases beyond : (volume.sizeOfClusterBytes : Int) ≤ offset
  · rw [if_pos (ahead.mpr beyond), and_iff_right beyond]
    split
    · rename_i refused
      exact iff_of_true status refused
    · rename_i accepted
      exact iff_of_false (by omega) accepted
  · rw [if_neg (mt ahead.mp beyond)]
    exact iff_of_false (by omega) fun both => beyond both.1

/-- The piece of a read at `offset` starts in the first cluster, or the entry of that one is
accepted. -/
def PieceFound (volume : Volume) (start offset : Int) : Prop :=
  offset < volume.sizeOfClusterBytes ∨ ¬ RefusedEntry (fat16GetFatEntry volume start).1

/-- Every piece of a read is found. -/
def PiecesFound (volume : Volume) (start offset total : Int) : Prop :=
  ∀ j : ℕ, j = 0 ∨ (j * volume.sizeOfClusterBytes : ℕ) < total →
    PieceFound volume start (int32 (offset + (j * volume.sizeOfClusterBytes : ℕ)))

theorem pieceFound_iff (fat : Int) {start : Int} (cluster : 0 ≤ start) (offset : Int) :
    PieceFound volume start offset ↔
      ¬ (fat16GetClusterForOffset volume fat start offset).1 < 0 := by
  rw [fat16GetClusterForOffset_neg fat cluster, not_and_or, not_le]
  rfl

section Pieces

variable {start offset total : Int} (inRange : int32 offset = offset)

include inRange

/-- A read of at most a cluster is one piece. -/
theorem piecesFound_single (small : total ≤ volume.sizeOfClusterBytes) :
    PiecesFound volume start offset total ↔ PieceFound volume start offset := by
  constructor
  · intro all
    have first := all 0 (.inl rfl)
    rwa [Nat.zero_mul, Nat.cast_zero, Int.add_zero, inRange] at first
  · intro first j piece
    obtain rfl : j = 0 := by
      rcases piece with zero | more
      · exact zero
      · by_contra later
        have := Nat.le_mul_of_pos_left volume.sizeOfClusterBytes (Nat.pos_of_ne_zero later)
        omega
    rwa [Nat.zero_mul, Nat.cast_zero, Int.add_zero, inRange]

/-- A longer read is a first piece and the pieces of the rest. -/
theorem piecesFound_succ (larger : (volume.sizeOfClusterBytes : Int) < total) :
    PiecesFound volume start offset total ↔ PieceFound volume start offset ∧
      PiecesFound volume start (int32 (offset + volume.sizeOfClusterBytes))
        (total - volume.sizeOfClusterBytes) := by
  have position : ∀ j : ℕ, int32 (int32 (offset + volume.sizeOfClusterBytes) +
      (j * volume.sizeOfClusterBytes : ℕ)) =
        int32 (offset + ((j + 1) * volume.sizeOfClusterBytes : ℕ)) := by
    intro j
    rw [int32_add, Nat.succ_mul]
    congr 1
    omega
  constructor
  · intro all
    have first := all 0 (.inl rfl)
    rw [Nat.zero_mul, Nat.cast_zero, Int.add_zero, inRange] at first
    refine ⟨first, fun j piece => ?_⟩
    rw [position]
    refine all (j + 1) (.inr ?_)
    rw [Nat.succ_mul]
    rcases piece with rfl | more <;> omega
  · rintro ⟨first, rest⟩ j piece
    cases j with
    | zero => rwa [Nat.zero_mul, Nat.cast_zero, Int.add_zero, inRange]
    | succ j =>
        rw [← position]
        refine rest j (.inr ?_)
        have more := piece.resolve_left (Nat.succ_ne_zero j)
        rw [Nat.succ_mul] at more
        omega

end Pieces

/-- A read fails exactly when the disk does not answer or a piece is not found. -/
theorem fat16ReadInternalFromStream_neg {start : Int} (cluster : 0 ≤ start) (streams : Streams)
    {offset total : Int} (inRange : int32 offset = offset) :
    (fat16ReadInternalFromStream volume (fat16GetClusterForOffset volume) streams start offset
        total).1 < 0 ↔ ¬ (volume.disk.isDisk0 = true ∧ PiecesFound volume start offset total) := by
  fun_induction fat16ReadInternalFromStream volume (fat16GetClusterForOffset volume) streams start
    offset total with
  | case1 streams offset total used fat found missed =>
      refine iff_of_true missed fun both => ?_
      have first := both.2 0 (.inl rfl)
      rw [Nat.zero_mul, Nat.cast_zero, Int.add_zero, inRange, pieceFound_iff streams.fat cluster,
        found] at first
      exact first missed
  | case2 streams offset total size used fat found hit place sector pos amount ret out moved read
      next failed =>
      refine iff_of_true failed fun both => ?_
      have status := diskstreamerRead_status both.1 pos amount
      rw [read] at status
      exact absurd failed (by rw [show ret = 0 from status]; decide)
  | case3 streams offset total size used fat found hit place sector pos amount ret out moved read
      next works more ret' rest last result ih =>
      have first : PieceFound volume start offset := by
        rw [pieceFound_iff streams.fat cluster, found]
        exact hit
      have larger : (volume.sizeOfClusterBytes : Int) < total := by
        by_contra small
        have whole : amount = total := if_neg small
        omega
      have whole : amount = volume.sizeOfClusterBytes := if_pos larger
      rw [result, whole] at ih
      have again : int32 (int32 (offset + volume.sizeOfClusterBytes)) =
          int32 (offset + volume.sizeOfClusterBytes) := int32_int32 _
      rw [ih again, piecesFound_succ inRange larger, and_iff_right first]
  | case4 streams offset total size used fat found hit place sector pos amount ret out moved read
      next works done =>
      have first : PieceFound volume start offset := by
        rw [pieceFound_iff streams.fat cluster, found]
        exact hit
      have small : total ≤ volume.sizeOfClusterBytes := by
        by_contra larger
        have whole : amount = volume.sizeOfClusterBytes := if_pos (not_le.mp larger)
        omega
      have disk0 : volume.disk.isDisk0 = true := by
        by_contra fails
        have status := diskstreamerRead_failed (Bool.not_eq_true _ |>.mp fails) pos amount
        rw [read] at status
        exact works (by rw [show ret = - EIO from status]; decide)
      exact iff_of_false works (not_not_intro ⟨disk0, (piecesFound_single inRange small).mpr first⟩)

/-! A read stores no more bytes than it is asked for, and as many when it does not fail. -/

theorem diskstreamerRead_stored (disk : Disk) (pos total : Int) :
    (diskstreamerRead disk pos total).2.1.length ≤ total.toNat ∧
      (0 ≤ (diskstreamerRead disk pos total).1 →
        (diskstreamerRead disk pos total).2.1.length = total.toNat) := by
  fun_induction diskstreamerRead disk pos total with
  | case1 pos total sector ret buf block failed =>
      exact ⟨Nat.zero_le _, fun works => absurd failed (Int.not_lt.mpr works)⟩
  | case2 pos total sector offset amount ret buf block answers out moved more ret' rest last result
      ih =>
      have below : offset < phixSectorSize := Int.tmod_lt_of_pos pos (by decide)
      have filled : amount = phixSectorSize - offset ∧ (phixSectorSize : Int) ≤ offset + total := by
        unfold amount at more ⊢
        split at more
        · rename_i full
          rw [dif_pos full]
          exact ⟨by omega, full⟩
        · exact absurd rfl more
      rw [result] at ih
      have length : out.length = amount.toNat := by simp [out]
      have bound : rest.length ≤ (total - amount).toNat := ih.1
      rw [List.length_append, length]
      refine ⟨by omega, fun works => ?_⟩
      have whole : rest.length = (total - amount).toNat := ih.2 works
      omega
  | case3 pos total sector offset amount ret buf block answers out moved whole =>
      have all : amount = total := not_not.mp whole
      have length : out.length = amount.toNat := by simp [out]
      have exactly := length.trans (congrArg Int.toNat all)
      exact ⟨exactly.le, fun _ => exactly⟩

theorem fat16ReadInternalFromStream_stored
    {getClusterForOffset : Int → Int → Int → Int × Int} (streams : Streams)
    (cluster offset total : Int) :
    (fat16ReadInternalFromStream volume getClusterForOffset streams cluster offset
        total).2.1.length ≤ total.toNat ∧
      (0 ≤ (fat16ReadInternalFromStream volume getClusterForOffset streams cluster offset total).1 →
        (fat16ReadInternalFromStream volume getClusterForOffset streams cluster offset
          total).2.1.length = total.toNat) := by
  have stored : ∀ {pos amount ret moved : Int} {out : List Byte},
      diskstreamerRead volume.disk pos amount = (ret, out, moved) →
        out.length ≤ amount.toNat ∧ (0 ≤ ret → out.length = amount.toNat) := by
    intro pos amount ret moved out read
    have bounds := diskstreamerRead_stored volume.disk pos amount
    rwa [read] at bounds
  fun_induction fat16ReadInternalFromStream volume getClusterForOffset streams cluster offset total
    with
  | case1 =>
      rename_i missed
      exact ⟨Nat.zero_le _, fun works => absurd missed (Int.not_lt.mpr works)⟩
  | case2 streams offset total size used fat found hit place sector pos amount ret out moved read
      next failed =>
      have small : amount ≤ total := by
        unfold amount
        split <;> omega
      exact ⟨(stored read).1.trans (by omega), fun works => absurd failed (Int.not_lt.mpr works)⟩
  | case3 streams offset total size used fat found hit place sector pos amount ret out moved read
      next answers more ret' rest last result ih =>
      have whole : amount = volume.sizeOfClusterBytes := by
        by_contra small
        have all : amount = total := if_neg fun larger => small (if_pos larger)
        omega
      have first := (stored read).2 (Int.not_lt.mp answers)
      rw [result] at ih
      have bound : rest.length ≤ (total - amount).toNat := ih.1
      rw [List.length_append]
      refine ⟨by omega, fun works => ?_⟩
      have remaining : rest.length = (total - amount).toNat := ih.2 works
      omega
  | case4 streams offset total size used fat found hit place sector pos amount ret out moved read
      next answers done =>
      have all : amount = total := by
        by_contra short
        have larger : (volume.sizeOfClusterBytes : Int) < total := by
          by_contra small
          exact short (if_neg small)
        have whole : amount = volume.sizeOfClusterBytes := if_pos larger
        omega
      have exactly := ((stored read).2 (Int.not_lt.mp answers)).trans (congrArg Int.toNat all)
      exact ⟨exactly.le, fun _ => exactly⟩

namespace FileSystem

theorem readInternal_volume (fs : FileSystem) (startCluster offset total : Int) :
    (fs.readInternal startCluster offset total).2.2.volume = fs.volume := rfl

/-- Every piece of each of the items from `offset` on is found. -/
def ItemsFound (volume : Volume) (start : Int) (size : Word) (n : ℕ) (offset : Int) : Prop :=
  ∀ i < n, PiecesFound volume start (int32 (offset + (i * size.toNat : ℕ))) size.toInt

theorem itemsFound_succ {volume : Volume} {start offset : Int} {size : Word} {n : ℕ}
    (inRange : int32 offset = offset) : ItemsFound volume start size (n + 1) offset ↔
      PiecesFound volume start offset size.toInt ∧
        ItemsFound volume start size n (int32 (offset + size.toNat)) := by
  have position : ∀ i : ℕ, int32 (int32 (offset + size.toNat) + (i * size.toNat : ℕ)) =
      int32 (offset + ((i + 1) * size.toNat : ℕ)) := by
    intro i
    rw [int32_add, Nat.succ_mul]
    congr 1
    omega
  constructor
  · intro all
    have first := all 0 (Nat.succ_pos n)
    rw [Nat.zero_mul, Nat.cast_zero, Int.add_zero, inRange] at first
    refine ⟨first, fun i inside => ?_⟩
    rw [position]
    exact all (i + 1) (Nat.succ_lt_succ inside)
  · rintro ⟨first, rest⟩ i inside
    cases i with
    | zero => rwa [Nat.zero_mul, Nat.cast_zero, Int.add_zero, inRange]
    | succ i =>
        rw [← position]
        exact rest i (Nat.lt_of_succ_lt_succ inside)

theorem fat16GetFirstCluser_nonneg (item : List Byte) : 0 ≤ (fat16GetFirstCluser item).toInt := by
  have small := (itemHigh16BitsFirstCluster item ||| itemLow16BitsFirstCluster item).isLt
  unfold fat16GetFirstCluser
  rw [BitVec.toInt_eq_toNat_of_lt]
  · omega
  · rw [BitVec.toNat_setWidth]
    omega

theorem readInternal_neg (fs : FileSystem) (item : List Byte) {offset : Int} (total : Int)
    (inRange : int32 offset = offset) :
    (fs.readInternal (fat16GetFirstCluser item).toInt offset total).1 < 0 ↔
      ¬ (fs.volume.disk.isDisk0 = true ∧
        PiecesFound fs.volume (fat16GetFirstCluser item).toInt offset total) :=
  fat16ReadInternalFromStream_neg (fat16GetFirstCluser_nonneg item) fs.streams inRange

/-- The loop over the items fails exactly when there are items and the disk does not answer or a
piece of one of them is not found. -/
theorem fat16Read_loop_neg (fs : FileSystem) (item : List Byte) (size : Word) (n : ℕ)
    {offset : Int} (inRange : int32 offset = offset) :
    (fat16Read.loop fs item size n offset).1 < 0 ↔
      n ≠ 0 ∧ ¬ (fs.volume.disk.isDisk0 = true ∧
        ItemsFound fs.volume (fat16GetFirstCluser item).toInt size n offset) := by
  induction n generalizing fs offset with
  | zero => exact iff_of_false (lt_irrefl 0) fun both => both.1 rfl
  | succ n ih =>
      have read := readInternal_neg fs item size.toInt inRange
      have rest := ih (fs.readInternal (fat16GetFirstCluser item).toInt offset size.toInt).2.2
        (int32_int32 (offset + size.toNat))
      rw [readInternal_volume] at rest
      rw [itemsFound_succ inRange]
      unfold fat16Read.loop
      dsimp only
      by_cases failed : (fs.readInternal (fat16GetFirstCluser item).toInt offset size.toInt).1 < 0
      · rw [if_pos failed]
        refine iff_of_true failed ⟨Nat.succ_ne_zero n, fun both => ?_⟩
        exact read.mp failed ⟨both.1, both.2.1⟩
      · rw [if_neg failed]
        obtain ⟨disk0, found⟩ := not_not.mp (mt read.mpr failed)
        refine rest.trans ?_
        rw [and_iff_right disk0, and_iff_right disk0, and_iff_right found]
        refine ⟨fun both => ⟨Nat.succ_ne_zero n, both.2⟩, fun both => ⟨?_, both.2⟩⟩
        rintro rfl
        exact both.2 fun i absent => absurd absent (Nat.not_lt_zero i)

/-- A read of items stores all of them when it does not fail. -/
theorem fat16Read_loop_stored (fs : FileSystem) (item : List Byte) (size : Word) (n : ℕ)
    (offset : Int) :
    (fat16Read.loop fs item size n offset).2.1.flatten.length ≤ n * size.toInt.toNat ∧
      (0 ≤ (fat16Read.loop fs item size n offset).1 →
        (fat16Read.loop fs item size n offset).2.1.flatten.length = n * size.toInt.toNat) := by
  induction n generalizing fs offset with
  | zero =>
      rw [Nat.zero_mul]
      exact ⟨Nat.zero_le _, fun _ => rfl⟩
  | succ n ih =>
      have bound : (fs.readInternal (fat16GetFirstCluser item).toInt offset size.toInt).2.1.length ≤
          size.toInt.toNat := (fat16ReadInternalFromStream_stored fs.streams _ offset size.toInt).1
      rw [Nat.succ_mul]
      unfold fat16Read.loop
      dsimp only
      split
      · rename_i failed
        rw [List.flatten_singleton]
        exact ⟨bound.trans (Nat.le_add_left _ _),
          fun works => absurd failed (Int.not_lt.mpr works)⟩
      · rename_i answers
        have stored : (fs.readInternal (fat16GetFirstCluser item).toInt offset
            size.toInt).2.1.length = size.toInt.toNat :=
          (fat16ReadInternalFromStream_stored fs.streams _ offset size.toInt).2
            (Int.not_lt.mp answers)
        have rest := ih (fs.readInternal (fat16GetFirstCluser item).toInt offset size.toInt).2.2
          (int32 (offset + size.toNat))
        rw [List.flatten_cons, List.length_append, Nat.add_comm (n * _), stored]
        exact ⟨Nat.add_le_add_left rest.1 _, fun works => congrArg _ (rest.2 works)⟩

/-- A read of items stores no more bytes than it is asked for. -/
theorem fat16Read_loop_length_le (fs : FileSystem) (item : List Byte) (size : Word) (n : ℕ)
    (offset : Int) :
    (fat16Read.loop fs item size n offset).2.1.flatten.length ≤ n * size.toNat := by
  refine (fs.fat16Read_loop_stored item size n offset).1.trans (Nat.mul_le_mul_left n ?_)
  have := size.isLt
  rw [BitVec.toInt_eq_toNat_cond]
  split <;> omega

/-- The number of an open file is accepted. -/
theorem OpensFile.positive {fs : FileSystem} {fd : Int} (opens : fs.OpensFile fd) : ¬ fd < 1 := by
  intro below
  refine opens.resolved ?_
  unfold fileDescriptorGet
  rw [if_pos (.inl (by omega))]

/-- `fat16_read` reports all items unless one fails. -/
theorem fat16Read_eq (fs : FileSystem) (desc size n : Word) :
    let record := fs.fatDescriptorAt desc
    let looped := fat16Read.loop fs (fs.bytesAt (fs.fatItemAt record.item).ref) size n.toNat
      record.pos.toInt
    (fs.fat16Read desc size n).1 = (if looped.1 < 0 then looped.1 else n.toInt) ∧
      (fs.fat16Read desc size n).2 = looped.2 := by
  intro record looped
  unfold fat16Read
  by_cases failed : looped.1 < 0
  · rw [if_pos failed]
    unfold looped record at failed
    simp only [failed, if_true]
    exact ⟨rfl, rfl⟩
  · rw [if_neg failed]
    unfold looped record at failed
    simp only [failed, if_false]
    exact ⟨trivial, rfl⟩

/-- What `fread` returns for an open file. -/
theorem fread_eq {fs : FileSystem} {fd : Int} (opens : fs.OpensFile fd) (size n : Word) :
    let looped := fat16Read.loop fs (fs.bytesAt (fs.itemOf fd).ref) size n.toNat
      (fs.position fd).toInt
    (fs.fread size n fd).1 =
      (if size * n = 0 then -EINVAL else if looped.1 < 0 then looped.1 else n.toInt) ∧
    (fs.fread size n fd).2 = if size * n = 0 then ([], fs) else looped.2 := by
  intro looped
  unfold fread
  by_cases empty : size * n = 0
  · rw [if_pos (.inl empty), if_pos empty, if_pos empty]
    exact ⟨rfl, rfl⟩
  · rw [if_neg (not_or.mpr ⟨empty, opens.positive⟩), if_neg empty, if_neg empty]
    dsimp only
    rw [if_neg opens.resolved]
    exact fs.fat16Read_eq _ size n

end FileSystem

end Phix
