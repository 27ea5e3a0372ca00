import Phix.Fs.Pieces
import Phix.Fs.Mounting

/-! # The arithmetic of a read

A read computes offsets, sectors and positions on the disk as `int`s. `readItemInts` lists them for
any arithmetic: cut to 32 bits, they are those of the code (`Phix.FileSystem.fat16Read_loop_items`),
and with the identity in place of the cut they are the exact ones. A read is exact when the two
lists are the same, which is a matter of the bytes that the request ends at
(`Phix.fread_exact_iff`).
-/

namespace Phix

/-- The cluster of an offset as `fat16_get_cluster_for_offset` finds it. -/
def clusterAt (volume : Volume) (start offset : Int) : Int :=
  if 0 < offset.tdiv volume.sizeOfClusterBytes then ((fat16GetFatEntry volume start).1.toNat : Int)
  else start

/-- What is computed for one piece of a read: its offset in the file and what remains to be read
there, the position of the entry in the allocation table if it is looked up, the cluster and its
sector, and where the piece starts on the disk, how long it is and where it ends. -/
structure PieceInts where
  offset : Int
  total : Int
  tablePosition : Int
  cluster : Int
  startSector : Int
  startPos : Int
  totalToRead : Int
  endPos : Int

/-- The part of the remaining total that one piece reads. -/
def pieceTotal (volume : Volume) (total : Int) : Int :=
  if (volume.sizeOfClusterBytes : Int) < total then volume.sizeOfClusterBytes else total

section Pieces

variable (cut : Int → Int) (volume : Volume) (start : Int)

/-- The piece at an offset, in the arithmetic given by `cut`. -/
def pieceInts (offset total : Int) : PieceInts :=
  let startSector := cut (volume.rootDirectory.endingSectorPos.toNat +
    (clusterAt volume start offset - 2) * (sectorsPerCluster volume.header).toNat)
  let startPos := cut (startSector * phixSectorSize + offset.tmod volume.sizeOfClusterBytes)
  { offset, total, startSector, startPos
    tablePosition := if 0 < offset.tdiv volume.sizeOfClusterBytes then
      cut ((fat16GetFirstFatSector volume * phixSectorSize : ℕ) * (start * 2)) else 0
    cluster := clusterAt volume start offset
    totalToRead := pieceTotal volume total
    endPos := cut (startPos + pieceTotal volume total) }

theorem pieceTotal_pos {volume : Volume} {total : Int}
    (more : 0 < total - pieceTotal volume total) :
    (volume.sizeOfClusterBytes : Int) < total ∧
      pieceTotal volume total = volume.sizeOfClusterBytes := by
  unfold pieceTotal at more ⊢
  split at more <;> rename_i larger
  · rw [if_pos larger]
    exact ⟨larger, rfl⟩
  · omega

/-- The pieces of `fat16_read_internal_from_stream`, as long as none of them fails. -/
def readPieces (offset total : Int) : List PieceInts :=
  pieceInts cut volume start offset total ::
    if 0 < total - pieceTotal volume total then
      readPieces (cut (offset + pieceTotal volume total)) (total - pieceTotal volume total)
    else []
termination_by total.toNat
decreasing_by
  rename_i more
  have positive := volume.sizeOfClusterBytes_pos
  obtain ⟨larger, whole⟩ := pieceTotal_pos more
  omega

/-- What is computed for one item of a read: its pieces, and the offset behind it. -/
structure ItemInts where
  pieces : List PieceInts
  behind : Int

/-- The items of `fat16_read` from an offset on, as long as none of them fails. -/
def readItemInts (size : Word) : ℕ → Int → List ItemInts
  | 0, _ => []
  | n + 1, offset =>
      ⟨readPieces cut volume start offset (cut size.toNat), cut (offset + size.toNat)⟩ ::
        readItemInts size n (cut (offset + size.toNat))

end Pieces

/-- Everything that is computed for the piece is a signed 32-bit value. -/
structure PieceInts.AreInts (piece : PieceInts) : Prop where
  offset : IsInt32 piece.offset
  total : IsInt32 piece.total
  tablePosition : IsInt32 piece.tablePosition
  startSector : IsInt32 piece.startSector
  startPos : IsInt32 piece.startPos
  endPos : IsInt32 piece.endPos

/-- No position of the piece is negative. -/
structure PieceInts.OnDisk (piece : PieceInts) : Prop where
  tablePosition : 0 ≤ piece.tablePosition
  startPos : 0 ≤ piece.startPos
  endPos : 0 ≤ piece.endPos

/-! Both arithmetics agree exactly when the exact values are `int`s. -/

section Agreement

variable {volume : Volume} {start : Int}

theorem pieceInts_areInts {offset total : Int} (inFile : IsInt32 offset) (remains : IsInt32 total) :
    (pieceInts int32 volume start offset total).AreInts where
  offset := inFile
  total := remains
  tablePosition := by
    unfold pieceInts
    dsimp only
    split
    · exact isInt32_int32 _
    · exact ⟨by decide, by decide⟩
  startSector := isInt32_int32 _
  startPos := isInt32_int32 _
  endPos := isInt32_int32 _

theorem readPieces_areInts {offset total : Int} (inFile : IsInt32 offset)
    (remains : IsInt32 total) :
    ∀ piece ∈ readPieces int32 volume start offset total, piece.AreInts := by
  fun_induction readPieces int32 volume start offset total with
  | case1 offset total ih =>
      intro piece member
      rcases List.mem_cons.mp member with rfl | later
      · exact pieceInts_areInts inFile remains
      · split at later
        · rename_i more
          obtain ⟨larger, whole⟩ := pieceTotal_pos more
          have positive := volume.sizeOfClusterBytes_pos
          refine ih more (isInt32_int32 _) ?_ piece later
          unfold IsInt32 at remains ⊢
          omega
        · cases later

theorem pieceInts_eq {offset total : Int}
    (ints : (pieceInts id volume start offset total).AreInts) :
    pieceInts int32 volume start offset total = pieceInts id volume start offset total := by
  have sector := ints.startSector.int32_eq
  have position := ints.startPos.int32_eq
  have behind := ints.endPos.int32_eq
  have table := ints.tablePosition.int32_eq
  unfold pieceInts at sector position behind table ⊢
  dsimp only [id] at sector position behind table ⊢
  rw [sector, position, behind]
  split at table
  · rw [table]
  · rename_i first
    rw [if_neg first, if_neg first]

theorem readPieces_eq {offset total : Int}
    (ints : ∀ piece ∈ readPieces id volume start offset total, piece.AreInts) :
    readPieces int32 volume start offset total = readPieces id volume start offset total := by
  fun_induction readPieces id volume start offset total with
  | case1 offset total ih =>
      obtain ⟨first, later⟩ := List.forall_mem_cons.mp ints
      rw [readPieces, pieceInts_eq first]
      by_cases more : 0 < total - pieceTotal volume total
      · rw [if_pos more] at later
        rw [if_pos more, if_pos more, ← ih more later]
        have next : IsInt32 (offset + pieceTotal volume total) := by
          rw [readPieces] at later
          exact (later _ (List.mem_cons_self ..)).offset
        rw [next.int32_eq]
        rfl
      · rw [if_neg more, if_neg more]

/-- Everything that is computed for the item is a signed 32-bit value. -/
structure ItemInts.AreInts (item : ItemInts) : Prop where
  pieces : ∀ piece ∈ item.pieces, piece.AreInts
  behind : IsInt32 item.behind

theorem readItemInts_areInts {size : Word} {n : ℕ} {offset : Int} (inFile : IsInt32 offset) :
    ∀ item ∈ readItemInts int32 volume start size n offset, item.AreInts := by
  induction n generalizing offset with
  | zero => exact fun item member => absurd member List.not_mem_nil
  | succ n ih =>
      unfold readItemInts
      refine List.forall_mem_cons.mpr ⟨⟨?_, isInt32_int32 _⟩, ih (isInt32_int32 _)⟩
      exact readPieces_areInts inFile (isInt32_int32 _)

theorem readItemInts_eq {size : Word} {n : ℕ} {offset : Int}
    (ints : ∀ item ∈ readItemInts id volume start size n offset, item.AreInts) :
    readItemInts int32 volume start size n offset = readItemInts id volume start size n offset := by
  induction n generalizing offset with
  | zero => rfl
  | succ n ih =>
      unfold readItemInts at ints ⊢
      obtain ⟨first, later⟩ := List.forall_mem_cons.mp ints
      have pieces := first.pieces
      have total : IsInt32 size.toNat := by
        dsimp only at pieces
        rw [readPieces] at pieces
        exact (pieces _ (List.mem_cons_self ..)).total
      have behind : int32 (offset + size.toNat) = offset + size.toNat := first.behind.int32_eq
      have same : readPieces int32 volume start offset size.toNat =
          readPieces id volume start offset size.toNat := readPieces_eq pieces
      have rest : readItemInts int32 volume start size n (offset + size.toNat) =
          readItemInts id volume start size n (offset + size.toNat) := ih later
      rw [total.int32_eq, behind, same, rest]
      rfl

/-- The exact pieces of a read lie a cluster apart. -/
theorem mem_readPieces {offset total : Int} {piece : PieceInts} :
    piece ∈ readPieces id volume start offset total ↔
      ∃ j : ℕ, (j = 0 ∨ (j * volume.sizeOfClusterBytes : ℕ) < total) ∧
        piece = pieceInts id volume start (offset + (j * volume.sizeOfClusterBytes : ℕ))
          (total - (j * volume.sizeOfClusterBytes : ℕ)) := by
  have positive := volume.sizeOfClusterBytes_pos
  fun_induction readPieces id volume start offset total with
  | case1 offset total ih =>
      rw [List.mem_cons]
      constructor
      · rintro (rfl | later)
        · exact ⟨0, .inl rfl, by simp⟩
        · split at later
          · rename_i more
            obtain ⟨larger, whole⟩ := pieceTotal_pos more
            obtain ⟨j, inside, rfl⟩ := (ih more).mp later
            rw [whole] at inside ⊢
            refine ⟨j + 1, .inr ?_, ?_⟩
            · rw [Nat.succ_mul]
              rcases inside with rfl | below <;> omega
            · rw [Nat.succ_mul]
              dsimp only [id]
              congr 1 <;> omega
          · cases later
      · rintro ⟨j, inside, rfl⟩
        cases j with
        | zero => exact .inl (by simp)
        | succ j =>
            right
            have below := inside.resolve_left (Nat.succ_ne_zero j)
            rw [Nat.succ_mul] at below
            have larger : (volume.sizeOfClusterBytes : Int) < total := by omega
            have whole : pieceTotal volume total = volume.sizeOfClusterBytes := if_pos larger
            have more : 0 < total - pieceTotal volume total := by omega
            rw [if_pos more]
            refine (ih more).mpr ⟨j, ?_, ?_⟩
            · rw [whole]
              exact .inr (by omega)
            · rw [whole, Nat.succ_mul]
              dsimp only [id]
              congr 1 <;> omega

/-- The exact items of a read lie their size apart. -/
theorem mem_readItemInts {size : Word} {n : ℕ} {offset : Int} {item : ItemInts} :
    item ∈ readItemInts id volume start size n offset ↔
      ∃ i < n, item = ⟨readPieces id volume start (offset + (i * size.toNat : ℕ)) size.toNat,
        offset + ((i + 1) * size.toNat : ℕ)⟩ := by
  induction n generalizing offset with
  | zero => exact iff_of_false List.not_mem_nil fun ⟨_, absent, _⟩ => Nat.not_lt_zero _ absent
  | succ n ih =>
      have place : ∀ i : ℕ, offset + size.toNat + (i * size.toNat : ℕ) =
          offset + ((i + 1) * size.toNat : ℕ) := by
        intro i
        rw [Nat.succ_mul]
        omega
      unfold readItemInts
      rw [List.mem_cons, ih]
      dsimp only [id]
      constructor
      · rintro (rfl | ⟨i, inside, rfl⟩)
        · exact ⟨0, Nat.succ_pos n, by simp⟩
        · refine ⟨i + 1, Nat.succ_lt_succ inside, ?_⟩
          rw [place, place]
      · rintro ⟨i, inside, rfl⟩
        cases i with
        | zero => exact .inl (by simp)
        | succ i =>
            refine .inr ⟨i, Nat.lt_of_succ_lt_succ inside, ?_⟩
            rw [place, place]

end Agreement

/-! The code computes the list that is cut to 32 bits. -/

/-- The read of the stream for the piece. -/
def PieceInts.read (piece : PieceInts) : StreamRead :=
  ⟨piece.cluster, piece.startPos, piece.totalToRead⟩

/-- A read that succeeds moves the stream by its length. -/
theorem diskstreamerRead_moved (disk : Disk) (pos total : Int)
    (works : 0 ≤ (diskstreamerRead disk pos total).1) :
    (diskstreamerRead disk pos total).2.2 = int32 (pos + total) := by
  fun_induction diskstreamerRead disk pos total with
  | case1 pos total sector ret buf block failed => exact absurd failed (Int.not_lt.mpr works)
  | case2 pos total sector offset amount ret buf block answers out moved more ret' rest last result
      ih =>
      rw [result] at ih
      rw [ih works, int32_add]
      congr 1
      omega
  | case3 pos total sector offset amount ret buf block answers out moved whole =>
      rw [← not_not.mp whole]

theorem clusterAt_eq {volume : Volume} {fat start offset used next : Int}
    (found : fat16GetClusterForOffset volume fat start offset = (used, next)) (hit : ¬ used < 0) :
    used = clusterAt volume start offset := by
  have first := congrArg Prod.fst found
  rw [fat16GetClusterForOffset_eq, clusterForOffset_fst] at first
  unfold clusterAt
  split at first <;> rename_i ahead
  · rw [if_pos ahead]
    split at first
    · exact absurd (show (- EIO : Int) < 0 by decide) (first ▸ hit)
    · exact first.symm
  · rw [if_neg ahead]
    exact first.symm

/-- The piece that the code reads. -/
theorem pieceInts_read {volume : Volume} {start offset total used : Int}
    (cluster : used = clusterAt volume start offset) :
    (pieceInts int32 volume start offset total).read = ⟨used,
      int32 (fat16ClusterToSector volume used * phixSectorSize +
        offset.tmod volume.sizeOfClusterBytes), pieceTotal volume total⟩ ∧
    (pieceInts int32 volume start offset total).endPos =
      int32 (int32 (fat16ClusterToSector volume used * phixSectorSize +
        offset.tmod volume.sizeOfClusterBytes) + pieceTotal volume total) := by
  subst cluster
  exact ⟨rfl, rfl⟩

theorem fat16ReadInternalFromStream_pieces {volume : Volume} (streams : Streams)
    (start offset total : Int)
    (works : 0 ≤ (fat16ReadInternalFromStream volume (fat16GetClusterForOffset volume) streams start
      offset total).1) :
    (fat16ReadInternalFromStream volume (fat16GetClusterForOffset volume) streams start offset
        total).2.2.issued =
      ((readPieces int32 volume start offset total).map PieceInts.read).reverse ++ streams.issued ∧
    (readPieces int32 volume start offset total).getLast?.map PieceInts.endPos =
      some (fat16ReadInternalFromStream volume
        (fat16GetClusterForOffset volume) streams start offset
        total).2.2.cluster := by
  fun_induction fat16ReadInternalFromStream volume (fat16GetClusterForOffset volume) streams start
    offset total with
  | case1 streams offset total used fat found missed => exact absurd missed (Int.not_lt.mpr works)
  | case2 streams offset total size used fat found hit place sector pos amount ret out moved read
      next failed => exact absurd failed (Int.not_lt.mpr works)
  | case3 streams offset total size used fat found hit place sector pos amount ret out moved read
      next answers more ret' rest last result ih =>
      obtain ⟨isRead, -⟩ := @pieceInts_read volume start offset total used (clusterAt_eq found hit)
      rw [result] at ih
      obtain ⟨issued, stream⟩ := ih works
      have later : 0 < total - pieceTotal volume total := more
      rw [readPieces, if_pos later, List.map_cons, List.reverse_cons, List.append_assoc, isRead]
      refine ⟨issued, ?_⟩
      rw [List.getLast?_cons_of_ne_nil (by rw [readPieces]; exact List.cons_ne_nil _ _)]
      exact stream
  | case4 streams offset total size used fat found hit place sector pos amount ret out moved read
      next answers done =>
      obtain ⟨isRead, behind⟩ :=
        @pieceInts_read volume start offset total used (clusterAt_eq found hit)
      have ends := diskstreamerRead_moved volume.disk pos amount
      rw [read] at ends
      have nothing : ¬ 0 < total - pieceTotal volume total := done
      rw [readPieces, if_neg nothing, List.map_cons, isRead]
      refine ⟨rfl, ?_⟩
      rw [List.getLast?_singleton, Option.map_some, behind]
      exact congrArg some (ends works).symm

namespace FileSystem

theorem int32_toNat (x : Word) : int32 x.toNat = x.toInt :=
  (BitVec.toInt_eq_toNat_bmod x).symm

/-- The stream reads of a read that succeeds, and where it leaves the stream. -/
theorem fat16Read_loop_items (fs : FileSystem) (item : List Byte) (size : Word) (n : ℕ)
    (offset : Int) (works : 0 ≤ (fat16Read.loop fs item size n offset).1) :
    let pieces :=
      (readItemInts int32 fs.volume (fat16GetFirstCluser item).toInt size n offset).flatMap
      ItemInts.pieces
    (fat16Read.loop fs item size n offset).2.2.streams.issued =
        (pieces.map PieceInts.read).reverse ++ fs.streams.issued ∧
      ∀ piece, pieces.getLast? = some piece →
        (fat16Read.loop fs item size n offset).2.2.streams.cluster = piece.endPos := by
  induction n generalizing fs offset with
  | zero => exact ⟨rfl, fun piece last => by cases last⟩
  | succ n ih =>
      unfold fat16Read.loop at works ⊢
      dsimp only at works ⊢
      by_cases failed : (fs.readInternal (fat16GetFirstCluser item).toInt offset size.toInt).1 < 0
      · rw [if_pos failed] at works
        exact absurd failed (Int.not_lt.mpr works)
      · rw [if_neg failed] at works ⊢
        obtain ⟨issued, stream⟩ := fat16ReadInternalFromStream_pieces fs.streams _ offset size.toInt
          (Int.not_lt.mp failed)
        obtain ⟨later, last⟩ := ih _ _ works
        rw [readInternal_volume] at later last
        unfold readItemInts
        rw [List.flatMap_cons, List.map_append, List.reverse_append, List.append_assoc, later,
          int32_toNat]
        refine ⟨congrArg _ issued, fun piece ends => ?_⟩
        rw [List.getLast?_append] at ends
        cases rest : ((readItemInts int32 fs.volume (fat16GetFirstCluser item).toInt size n
            (int32 (offset + size.toNat))).flatMap ItemInts.pieces).getLast? with
        | some other =>
            rw [rest] at ends
            cases ends
            exact last piece rest
        | none =>
            rw [rest, Option.none_or] at ends
            rw [ends, Option.map_some, Option.some_inj] at stream
            cases n with
            | zero => exact stream.symm
            | succ n =>
                rw [List.getLast?_eq_none_iff, readItemInts, List.flatMap_cons, readPieces,
                  List.cons_append] at rest
                exact absurd rest (List.cons_ne_nil _ _)

/-! When a read is exact. -/

/-- What is computed for a read of an open file. -/
def readInts (cut : Int → Int) (fs : FileSystem) (fd : Int) (size n : Word) : List ItemInts :=
  readItemInts cut fs.volume (fat16GetFirstCluser (fs.bytesAt (fs.itemOf fd).ref)).toInt size
    n.toNat (cut (fs.position fd).toNat)

/-- The arithmetic of a read is exact: everything that is computed is what it is without a bound on
the `int`s, the stream is read there, no position on the disk is negative, and all bytes are stored
of the items that are reported. -/
structure ExactRead (fs : FileSystem) (fd : Int) (size n : Word) : Prop where
  ints : fs.readInts int32 fd size n = fs.readInts id fd size n
  issued : (fs.fread size n fd).2.2.streams.issued =
    (((fs.readInts id fd size n).flatMap ItemInts.pieces).map PieceInts.read).reverse ++
      fs.streams.issued
  positions : ∀ item ∈ fs.readInts int32 fd size n, ∀ piece ∈ item.pieces, piece.OnDisk
  reported : (fs.fread size n fd).1 = n.toNat
  stored : (fs.fread size n fd).2.1.flatten.length = size.toNat * n.toNat

/-- A read is exact or fails. -/
def ReadsExactly (fs : FileSystem) (fd : Int) (size n : Word) : Prop :=
  (fs.fread size n fd).1 < 0 ∨ fs.ExactRead fd size n

/-- The piece at an offset lies on the disk below the largest position, and so does its entry in the
allocation table if it lies behind the first cluster. -/
structure PieceFits (volume : Volume) (start offset total : Int) : Prop where
  table : (volume.sizeOfClusterBytes : Int) ≤ offset →
    (fat16GetFirstFatSector volume * phixSectorSize : ℕ) * (start * 2) < 2 ^ 31
  starts : 0 ≤ (volume.rootDirectory.endingSectorPos.toNat +
    (clusterAt volume start offset - 2) * (sectorsPerCluster volume.header).toNat) *
      phixSectorSize + offset.tmod volume.sizeOfClusterBytes
  ends : (volume.rootDirectory.endingSectorPos.toNat +
    (clusterAt volume start offset - 2) * (sectorsPerCluster volume.header).toNat) *
      phixSectorSize + offset.tmod volume.sizeOfClusterBytes +
        min (volume.sizeOfClusterBytes : Int) total < 2 ^ 31

/-- The read ends below offset `2 ^ 31`, and all its pieces lie on the disk. -/
structure ReadFits (fs : FileSystem) (fd : Int) (size n : Word) : Prop where
  behind : (fs.position fd).toNat + n.toNat * size.toNat < 2 ^ 31
  pieces : ∀ i < n.toNat, ∀ j : ℕ, j = 0 ∨ j * fs.volume.sizeOfClusterBytes < size.toNat →
    PieceFits fs.volume (fat16GetFirstCluser (fs.bytesAt (fs.itemOf fd).ref)).toInt
      ((fs.position fd).toNat + i * size.toNat + j * fs.volume.sizeOfClusterBytes : ℕ)
      (size.toNat - (j * fs.volume.sizeOfClusterBytes : ℕ))

/-- The request is refused as empty, reported as a negative number, fails at a piece, or fits. -/
def RefusedOrFits (fs : FileSystem) (fd : Int) (size n : Word) : Prop :=
  size * n = 0 ∨ 2 ^ 31 ≤ n.toNat ∨
    ¬ (fs.volume.disk.isDisk0 = true ∧
      ItemsFound fs.volume (fat16GetFirstCluser (fs.bytesAt (fs.itemOf fd).ref)).toInt size n.toNat
        (fs.position fd).toInt) ∨
    fs.ReadFits fd size n

theorem pieceTotal_eq_min (volume : Volume) (total : Int) :
    pieceTotal volume total = min (volume.sizeOfClusterBytes : Int) total := by
  unfold pieceTotal
  split <;> omega

/-- A piece fits exactly when everything that is computed for it is an `int` and none of its
positions is negative. -/
theorem pieceFits_iff {volume : Volume} {start offset total : Int} (cluster : 0 ≤ start)
    (low : 0 ≤ offset) (inFile : IsInt32 offset) (positive : 0 ≤ total) (remains : IsInt32 total) :
    PieceFits volume start offset total ↔ (pieceInts id volume start offset total).AreInts ∧
      (pieceInts id volume start offset total).OnDisk := by
  have ahead := volume.tdiv_pos_iff offset
  have short : offset.tmod volume.sizeOfClusterBytes < volume.sizeOfClusterBytes :=
    Int.tmod_lt_of_pos offset (by have := volume.sizeOfClusterBytes_pos; omega)
  have inside := Int.tmod_nonneg (volume.sizeOfClusterBytes : Int) low
  have small : volume.sizeOfClusterBytes ≤ 255 * phixSectorSize :=
    Nat.mul_le_mul_right _ (Nat.le_of_lt_succ (sectorsPerCluster volume.header).isLt)
  have entry : 0 ≤ ((fat16GetFirstFatSector volume * phixSectorSize : ℕ) : Int) * (start * 2) :=
    mul_nonneg (Int.natCast_nonneg _) (by omega)
  unfold phixSectorSize at small
  constructor
  · rintro ⟨table, starts, ends⟩
    have tablePosition : IsInt32 (pieceInts id volume start offset total).tablePosition ∧
        0 ≤ (pieceInts id volume start offset total).tablePosition := by
      unfold pieceInts IsInt32
      dsimp only [id]
      split
      · have below := table (ahead.mp ‹_›)
        omega
      · omega
    have least : 0 ≤ min (volume.sizeOfClusterBytes : Int) total := by omega
    refine ⟨⟨inFile, remains, tablePosition.1, ?_, ?_, ?_⟩, ⟨tablePosition.2, starts, ?_⟩⟩
    · unfold pieceInts IsInt32
      unfold phixSectorSize at starts ends
      dsimp only [id]
      omega
    · unfold pieceInts IsInt32
      dsimp only [id]
      omega
    · unfold pieceInts IsInt32
      dsimp only [id]
      rw [pieceTotal_eq_min]
      omega
    · unfold pieceInts
      dsimp only [id]
      rw [pieceTotal_eq_min]
      omega
  · rintro ⟨ints, ⟨-, starts, -⟩⟩
    refine ⟨fun behind => ?_, starts, ?_⟩
    · have table := ints.tablePosition.2
      unfold pieceInts at table
      dsimp only [id] at table
      rwa [if_pos (ahead.mpr behind)] at table
    · rw [← pieceTotal_eq_min]
      exact ints.endPos.2

section Fits

variable {fs : FileSystem} {fd : Int} {size n : Word}

/-- What the bound on the end of the read gives for each of its pieces. -/
theorem readFits_piece (behind : (fs.position fd).toNat + n.toNat * size.toNat < 2 ^ 31) {i j : ℕ}
    (inside : i < n.toNat) (inItem : j = 0 ∨ j * fs.volume.sizeOfClusterBytes < size.toNat) :
    PieceFits fs.volume (fat16GetFirstCluser (fs.bytesAt (fs.itemOf fd).ref)).toInt
        ((fs.position fd).toNat + i * size.toNat + j * fs.volume.sizeOfClusterBytes : ℕ)
        (size.toNat - (j * fs.volume.sizeOfClusterBytes : ℕ)) ↔
      (pieceInts id fs.volume (fat16GetFirstCluser (fs.bytesAt (fs.itemOf fd).ref)).toInt
        ((fs.position fd).toNat + i * size.toNat + j * fs.volume.sizeOfClusterBytes : ℕ)
        (size.toNat - (j * fs.volume.sizeOfClusterBytes : ℕ))).AreInts ∧
      (pieceInts id fs.volume (fat16GetFirstCluser (fs.bytesAt (fs.itemOf fd).ref)).toInt
        ((fs.position fd).toNat + i * size.toNat + j * fs.volume.sizeOfClusterBytes : ℕ)
        (size.toNat - (j * fs.volume.sizeOfClusterBytes : ℕ))).OnDisk := by
  have before : (i + 1) * size.toNat ≤ n.toNat * size.toNat := Nat.mul_le_mul_right _ inside
  rw [Nat.succ_mul] at before
  have part : j * fs.volume.sizeOfClusterBytes ≤ size.toNat := by
    rcases inItem with rfl | below <;> omega
  exact pieceFits_iff (fat16GetFirstCluser_nonneg _) (Int.natCast_nonneg _)
    ⟨by omega, by omega⟩ (by omega) ⟨by omega, by omega⟩

/-- A read fits exactly when everything that is computed for it without a bound is an `int`, and
none of its positions is negative. -/
theorem readFits_iff (counted : 1 ≤ n.toNat) :
    fs.ReadFits fd size n ↔ ∀ item ∈ fs.readInts id fd size n, item.AreInts ∧
      ∀ piece ∈ item.pieces, piece.OnDisk := by
  have piece_iff := @readFits_piece fs fd size n
  unfold readInts
  constructor
  · rintro ⟨behind, pieces⟩ item member
    obtain ⟨i, inside, rfl⟩ := mem_readItemInts.mp member
    have before : (i + 1) * size.toNat ≤ n.toNat * size.toNat := Nat.mul_le_mul_right _ inside
    have all : ∀ piece ∈ readPieces id fs.volume
        (fat16GetFirstCluser (fs.bytesAt (fs.itemOf fd).ref)).toInt
        ((fs.position fd).toNat + (i * size.toNat : ℕ)) size.toNat,
          piece.AreInts ∧ piece.OnDisk := by
      intro piece isPiece
      obtain ⟨j, part, rfl⟩ := mem_readPieces.mp isPiece
      have inItem : j = 0 ∨ j * fs.volume.sizeOfClusterBytes < size.toNat := by omega
      have fits := (piece_iff behind inside inItem).mp (pieces i inside j inItem)
      rwa [Nat.cast_add, Nat.cast_add] at fits
    refine ⟨⟨fun piece isPiece => (all piece isPiece).1, ?_⟩,
      fun piece isPiece => (all piece isPiece).2⟩
    unfold IsInt32
    dsimp only [id]
    omega
  · intro ints
    have behind : (fs.position fd).toNat + n.toNat * size.toNat < 2 ^ 31 := by
      have final := (ints _ (mem_readItemInts.mpr ⟨n.toNat - 1, by omega, rfl⟩)).1.behind.2
      rw [Nat.sub_add_cancel counted] at final
      dsimp only [id] at final
      omega
    refine ⟨behind, fun i inside j inItem => (piece_iff behind inside inItem).mpr ?_⟩
    obtain ⟨item, positions⟩ := ints _ (mem_readItemInts.mpr ⟨i, inside, rfl⟩)
    have part : j = 0 ∨ ((j * fs.volume.sizeOfClusterBytes : ℕ) : Int) < (size.toNat : Int) := by
      omega
    rw [Nat.cast_add, Nat.cast_add]
    exact ⟨item.pieces _ (mem_readPieces.mpr ⟨j, part, rfl⟩),
      positions _ (mem_readPieces.mpr ⟨j, part, rfl⟩)⟩

end Fits

theorem int32_position (fs : FileSystem) (fd : Int) :
    int32 (fs.position fd).toInt = (fs.position fd).toInt := by
  rw [← int32_toNat, int32_int32]

theorem one_le_of_nonempty {size n : Word} (nonempty : size * n ≠ 0) : 1 ≤ n.toNat := by
  by_contra none
  have zero : n = 0 := BitVec.eq_of_toNat_eq (show n.toNat = 0 by omega)
  rw [zero] at nonempty
  exact nonempty BitVec.mul_zero

/-- A read whose pieces are all found is exact when it fits. -/
theorem readsExactly_iff_fits {fs : FileSystem} {fd : Int} (opens : fs.OpensFile fd) {size n : Word}
    (nonempty : size * n ≠ 0) (small : n.toNat < 2 ^ 31) (found : fs.volume.disk.isDisk0 = true ∧
      ItemsFound fs.volume (fat16GetFirstCluser (fs.bytesAt (fs.itemOf fd).ref)).toInt size n.toNat
        (fs.position fd).toInt) :
    fs.ReadsExactly fd size n ↔ fs.ReadFits fd size n := by
  have counted := one_le_of_nonempty nonempty
  have failing := fs.fat16Read_loop_neg (fs.bytesAt (fs.itemOf fd).ref) size n.toNat
    (fs.int32_position fd)
  have works : ¬ (fat16Read.loop fs (fs.bytesAt (fs.itemOf fd).ref) size n.toNat
      (fs.position fd).toInt).1 < 0 := fun failed => (failing.mp failed).2 found
  have items := fs.fat16Read_loop_items (fs.bytesAt (fs.itemOf fd).ref) size n.toNat
    (fs.position fd).toInt (not_lt.mp works)
  have stored := (fs.fat16Read_loop_stored (fs.bytesAt (fs.itemOf fd).ref) size n.toNat
    (fs.position fd).toInt).2 (not_lt.mp works)
  obtain ⟨status, rest⟩ := fread_eq opens size n
  rw [if_neg nonempty] at rest
  rw [if_neg nonempty, if_neg works] at status
  have reported : (fs.fread size n fd).1 = n.toNat := by
    rw [status, BitVec.toInt_eq_toNat_cond, if_pos (by omega)]
  rw [readFits_iff counted]
  constructor
  · rintro (negative | exact')
    · omega
    · intro item member
      have positions := exact'.positions
      have ints := @readItemInts_areInts fs.volume
        (fat16GetFirstCluser (fs.bytesAt (fs.itemOf fd).ref)).toInt size n.toNat
        (int32 (fs.position fd).toNat) (isInt32_int32 _)
      change ∀ item ∈ fs.readInts int32 fd size n, _ at ints
      rw [exact'.ints] at positions ints
      exact ⟨ints item member, positions item member⟩
  · intro fits
    have bounds := ((readFits_iff counted).mpr fits).behind
    have least := Nat.le_mul_of_pos_left size.toNat counted
    have place : IsInt32 (fs.position fd).toNat := ⟨by omega, by omega⟩
    have ints : fs.readInts int32 fd size n = fs.readInts id fd size n := by
      unfold readInts
      rw [place.int32_eq]
      exact readItemInts_eq fun item member => (fits item member).1
    refine .inr ⟨ints, ?_, ?_, reported, ?_⟩
    · rw [rest, ← ints]
      unfold readInts
      rw [int32_toNat]
      exact items.1
    · rw [ints]
      exact fun item member => (fits item member).2
    · rw [rest, stored, BitVec.toInt_eq_toNat_cond, if_pos (by omega), Int.toNat_natCast,
        Nat.mul_comm]

end FileSystem

/-- **Reads are exact below `2 ^ 31`.** A read of an open file fails, or computes every offset,
sector and position as it is and stores all bytes it reports, exactly when it is refused as empty,
is reported as a negative number, fails at one of its pieces, or ends below offset `2 ^ 31` with all
pieces on the disk below that position. -/
theorem fread_exact_iff {fs : FileSystem} {fd : Int} (opens : fs.OpensFile fd) (size n : Word) :
    fs.ReadsExactly fd size n ↔ fs.RefusedOrFits fd size n := by
  obtain ⟨status, -⟩ := FileSystem.fread_eq opens size n
  by_cases empty : size * n = 0
  · rw [if_pos empty] at status
    exact iff_of_true (.inl (by rw [status]; decide)) (.inl empty)
  rw [if_neg empty] at status
  by_cases found : fs.volume.disk.isDisk0 = true ∧
      FileSystem.ItemsFound fs.volume
        (fat16GetFirstCluser (fs.bytesAt (fs.itemOf fd).ref)).toInt size n.toNat
        (fs.position fd).toInt
  · by_cases large : 2 ^ 31 ≤ n.toNat
    · -- The number of items is negative as an `int`.
      refine iff_of_true (.inl ?_) (.inr (.inl large))
      rw [status]
      split
      · assumption
      · rw [BitVec.toInt_eq_toNat_cond]
        have := n.isLt
        split <;> omega
    · rw [FileSystem.readsExactly_iff_fits opens empty (not_le.mp large) found,
        FileSystem.RefusedOrFits, or_iff_right empty, or_iff_right large,
        or_iff_right (not_not_intro found)]
  · have failed := (fs.fat16Read_loop_neg (fs.bytesAt (fs.itemOf fd).ref) size n.toNat
      (fs.int32_position fd)).mpr
        ⟨Nat.one_le_iff_ne_zero.mp (FileSystem.one_le_of_nonempty empty), found⟩
    rw [if_pos failed] at status
    exact iff_of_true (.inl (by rw [status]; exact failed)) (.inr (.inr (.inl found)))

/-- The geometry of the volume is that of one that is mounted from its disk. -/
def Volume.Mountable (volume : Volume) : Prop :=
  ∃ machine next content after, fat16Resolve volume.disk unmounted machine =
      some (0, next, content, after) ∧
    content.header = volume.header ∧
    content.rootDirectory.endingSectorPos = volume.rootDirectory.endingSectorPos

/-- A disk with a boot sector, an allocation table, and a root directory that holds a file `A`. -/
def fileDisk : Disk :=
  Disk.ofSectors [List.replicate 11 0 ++ [0, 2, 1, 1, 0, 1, 16, 0, 0, 0, 0, 1] ++
    List.replicate 15 0 ++ [0x29], List.replicate 4 0 ++ [0xFF, 0xFF], clusterItem]

def fileVolume : Volume where
  disk := fileDisk
  header := Slices.slice fileDisk.image 0 sizeofFatHeader
  rootDirectory := ⟨null, 1, 2, 3⟩
  rootItems := clusterItem
  clustered := by decide

theorem fileVolume_mountable : fileVolume.Mountable := by
  have room := Machine.booted_card fun _ => 0
  have stop : scanByte fileDisk
      (rootDirSector (Slices.slice fileDisk.image 0 sizeofFatHeader)) 1 = 0 := by decide
  obtain ⟨next, content, after, mounted, header, ending⟩ := fat16Resolve_mounts
    (show fileDisk.isDisk0 = true from rfl) (Machine.booted_sound fun _ => 0) (by omega) (by decide)
    ⟨1, stop⟩ unmounted
  exact ⟨_, next, content, after, mounted, header, ending.trans (by decide)⟩

/-- The file is open with number 1. -/
def mountedFile : FileSystem := { clusterFile with volume := fileVolume }

theorem mountedFile_opensFile : mountedFile.OpensFile 1 where
  resolved := by decide
  regular := by decide

/-- An item of `2 ^ 31` bytes is reported, and nothing is read. -/
theorem fread_exact_fails : mountedFile.OpensFile 1 ∧ mountedFile.volume.Mountable ∧
    ¬ mountedFile.ReadsExactly 1 0x80000000 1 := by
  refine ⟨mountedFile_opensFile, fileVolume_mountable, ?_⟩
  rw [FileSystem.readsExactly_iff_fits mountedFile_opensFile (by decide) (by decide)]
  · exact fun fits => absurd fits.behind (by decide)
  · refine ⟨rfl, fun i inside j piece => .inl ?_⟩
    obtain rfl : i = 0 := Nat.lt_one_iff.mp inside
    obtain rfl : j = 0 := by
      rcases piece with zero | more
      · exact zero
      · have total : (0x80000000 : Word).toInt = -2 ^ 31 := by decide
        rw [total] at more
        omega
    decide

/-- The file is read as a whole. -/
theorem fread_exact_iff_whole : mountedFile.ReadsExactly 1 512 1 := by
  refine (fread_exact_iff mountedFile_opensFile 512 1).mpr
    (.inr (.inr (.inr ⟨by decide, fun i inside j inItem => ?_⟩)))
  obtain rfl : i = 0 := Nat.lt_one_iff.mp inside
  obtain rfl : j = 0 := by
    have cluster : mountedFile.volume.sizeOfClusterBytes = 512 := by decide
    have size : (512 : Word).toNat = 512 := rfl
    rw [cluster, size] at inItem
    omega
  exact ⟨by decide, by decide, by decide⟩

end Phix
