import Pintos.Filesys.Contents

/-!
# An inode as an array of bytes

The loops of `inode_read_at` and `inode_write_at` with their bounce buffer. An iteration copies a
whole sector or goes through the buffer, and does to the bytes what the loops of `Inode` do
(`readLoop_eq`, `writeLoop_eq`). So an inode is an array of bytes that does not grow
(`inode_byteArray`), and what is read is what `Inode` says (`inodeReadAt_list`).
-/

namespace Pintos.Filesys.Bounce

open Pintos.Filesys

variable {ino : Inode} {size offset chunk : Int} {device : SectorNo → Sector} {r : InodeRef} {s : Files}

/-- `byte_to_sector`. -/
def byteToSector (ino : Inode) (pos : Int) : SectorNo :=
  if pos < ino.length then ino.start + (pos / 512).toNat else 2 ^ 32 - 1

/-- `memcpy (dst + ofs, src, n)`. -/
def memcpy (dst : Nat → UInt8) (ofs : Nat) (src : Nat → UInt8) (n : Nat) : Nat → UInt8 := fun i =>
  if ofs ≤ i ∧ i < ofs + n then src (i - ofs) else dst i

/-- What an iteration of `inode_read_at` makes of the buffer, if there is a bounce buffer where it
needs one. -/
def readChunk (alloc : Bool) (ino : Inode) (device : SectorNo → Sector) (offset chunk : Int)
    (read : Nat) (buffer : Nat → UInt8) : Option (Nat → UInt8) :=
  let sector := device (byteToSector ino offset)
  let sectorOfs := (offset % 512).toNat
  if sectorOfs = 0 ∧ chunk = 512 then some (memcpy buffer read sector.byte 512)
  else if alloc then
    some (memcpy buffer read (fun j => sector.byte (sectorOfs + j)) chunk.toNat)
  else none

/-- The loop of `inode_read_at`: the bytes read, and the buffer. `malloc` is called once, and `alloc`
says whether it succeeds. -/
def readLoop (alloc : Bool) (ino : Inode) (device : SectorNo → Sector) (size offset : Int)
    (read : Nat) (buffer : Nat → UInt8) : Nat × (Nat → UInt8) :=
  if size ≤ 0 then (read, buffer)
  else if chunkSize ino size offset ≤ 0 then (read, buffer)
  else match readChunk alloc ino device offset (chunkSize ino size offset) read buffer with
    | none => (read, buffer)
    | some buffer => readLoop alloc ino device (size - chunkSize ino size offset)
        (offset + chunkSize ino size offset) (read + (chunkSize ino size offset).toNat) buffer
termination_by size.toNat
decreasing_by omega

/-- `inode_read_at`. -/
def inodeReadAt (r : InodeRef) (buffer : Nat → UInt8) (size offset : Int) (alloc : Bool)
    (s : Files) : Nat × (Nat → UInt8) :=
  readLoop alloc (s.inode r) s.device size offset 0 buffer

/-- What an iteration of `inode_write_at` writes to its sector. -/
def writeChunk (alloc : Bool) (ino : Inode) (device : SectorNo → Sector) (offset chunk : Int)
    (written : Nat) (buffer : Nat → UInt8) : Option Sector :=
  let sectorOfs := (offset % 512).toNat
  let sectorLeft := 512 - offset % 512
  if sectorOfs = 0 ∧ chunk = 512 then some fun j => buffer (written + j)
  else if alloc then
    let bounce : Sector :=
      if sectorOfs > 0 ∨ chunk < sectorLeft then device (byteToSector ino offset) else fun _ => 0
    some (bounce.patch sectorOfs chunk.toNat fun j => buffer (written + j))
  else none

/-- The loop of `inode_write_at`: the bytes written, and the device. -/
def writeLoop (alloc : Bool) (ino : Inode) (buffer : Nat → UInt8) (size offset : Int)
    (written : Nat) (device : SectorNo → Sector) : Nat × (SectorNo → Sector) :=
  if size ≤ 0 then (written, device)
  else if chunkSize ino size offset ≤ 0 then (written, device)
  else match writeChunk alloc ino device offset (chunkSize ino size offset) written buffer with
    | none => (written, device)
    | some sector => writeLoop alloc ino buffer (size - chunkSize ino size offset)
        (offset + chunkSize ino size offset) (written + (chunkSize ino size offset).toNat)
        (Function.update device (byteToSector ino offset) sector)
termination_by size.toNat
decreasing_by omega

/-- `inode_write_at`. -/
def inodeWriteAt (r : InodeRef) (buffer : Nat → UInt8) (size offset : Int) (alloc : Bool)
    (s : Files) : Int × Files :=
  if (s.inode r).denyWriteCnt ≠ 0 then (0, s)
  else
    let (written, device) := writeLoop alloc (s.inode r) buffer size offset 0 s.device
    (written, { s with device := device })

/-! ## One iteration -/

theorem byteToSector_eq (h : offset < ino.length) :
    byteToSector ino offset = Filesys.byteToSector ino offset := if_pos h

/-- Where an iteration copies something it is inside the inode and inside its sector. -/
theorem chunk_inside (h : ¬ chunkSize ino size offset ≤ 0) :
    offset < ino.length ∧ chunkSize ino size offset ≤ 512 - offset % 512 := by
  rw [chunkSize_eq] at h ⊢
  omega

/-- A whole sector is a chunk like the others. -/
theorem readChunk_eq (ino : Inode) (device : SectorNo → Sector) (offset chunk : Int) (read : Nat)
    (buffer : Nat → UInt8) : readChunk true ino device offset chunk read buffer =
      some (memcpy buffer read
        (fun j => (device (byteToSector ino offset)).byte ((offset % 512).toNat + j))
        chunk.toNat) := by
  unfold readChunk
  dsimp only
  split
  next h =>
    obtain ⟨hofs, rfl⟩ := h
    simp only [hofs, Nat.zero_add]
    rfl
  next => rfl

/-- An iteration puts its bytes in and leaves the others, in each of the three cases. Where the
bounce buffer is filled with zeros the chunk is the whole sector, which the first case has taken. -/
theorem writeChunk_eq (hpos : 0 < chunk) (hle : chunk ≤ 512 - offset % 512) (written : Nat)
    (buffer : Nat → UInt8) : writeChunk true ino device offset chunk written buffer =
      some ((device (byteToSector ino offset)).patch (offset % 512).toNat chunk.toNat
        fun j => buffer (written + j)) := by
  unfold writeChunk
  dsimp only
  split
  next h =>
    obtain ⟨hofs, rfl⟩ := h
    congr 1
    funext j
    have hj := j.isLt
    unfold Sector.patch
    rw [hofs, if_pos ⟨Nat.zero_le _, by omega⟩]
    rfl
  next h =>
    rw [if_pos rfl, if_pos]
    by_contra hno
    exact h ⟨by omega, by omega⟩

/-! ## The loops -/

theorem memcpy_zero (dst : Nat → UInt8) (ofs : Nat) (src : Nat → UInt8) :
    memcpy dst ofs src 0 = dst := by
  funext i
  exact if_neg (by omega)

/-- Two copies, one behind the other. -/
theorem memcpy_memcpy {dst src src₁ src₂ : Nat → UInt8} {ofs n₁ n₂ : Nat}
    (h₁ : ∀ j < n₁, src j = src₁ j) (h₂ : ∀ j < n₂, src (n₁ + j) = src₂ j) :
    memcpy (memcpy dst ofs src₁ n₁) (ofs + n₁) src₂ n₂ = memcpy dst ofs src (n₁ + n₂) := by
  funext i
  unfold memcpy
  by_cases hsecond : ofs + n₁ ≤ i ∧ i < ofs + n₁ + n₂
  · have hat := h₂ (i - (ofs + n₁)) (by omega)
    have hi : n₁ + (i - (ofs + n₁)) = i - ofs := by omega
    rw [if_pos hsecond, if_pos (by omega), ← hat, hi]
  · rw [if_neg hsecond]
    by_cases hfirst : ofs ≤ i ∧ i < ofs + n₁
    · rw [if_pos hfirst, if_pos (by omega), h₁ _ (by omega)]
    · rw [if_neg hfirst, if_neg (by omega)]

/-- The loop reads what it reaches. -/
theorem readLoop_eq (n : Nat) : ∀ (size offset : Int) (read : Nat) (buffer : Nat → UInt8),
    0 ≤ offset → size.toNat ≤ n → readLoop true ino device size offset read buffer =
      (read + (reach ino size offset).toNat,
        memcpy buffer read (fun j => byteAt ino device (offset + j))
          (reach ino size offset).toNat) := by
  have hnone : ∀ {size offset : Int} (read : Nat) (buffer : Nat → UInt8),
      reach ino size offset = 0 → (read, buffer) = (read + (reach ino size offset).toNat,
        memcpy buffer read (fun j => byteAt ino device (offset + j))
          (reach ino size offset).toNat) := by
    intro size offset read buffer h
    rw [h, Int.toNat_zero, memcpy_zero]
    rfl
  induction n with
  | zero =>
    intro size offset read buffer _ hn
    unfold readLoop
    rw [if_pos (by omega)]
    exact hnone read buffer (reach_of_size (by omega))
  | succ n ih =>
    intro size offset read buffer hoff hn
    unfold readLoop
    split
    next hsize => exact hnone read buffer (reach_of_size hsize)
    next hsize =>
      split
      next hchunk => exact hnone read buffer (reach_of_chunk hchunk)
      next hchunk =>
        have hnn := reach_nonneg ino (size - chunkSize ino size offset)
          (offset + chunkSize ino size offset)
        have hsum : (reach ino size offset).toNat = (chunkSize ino size offset).toNat +
            (reach ino (size - chunkSize ino size offset)
              (offset + chunkSize ino size offset)).toNat := by
          rw [reach_eq_add (by omega)]
          omega
        rw [readChunk_eq, byteToSector_eq (chunk_inside hchunk).1]
        dsimp only
        rw [ih _ _ _ _ (by omega) (by omega), hsum, Nat.add_assoc]
        congr 1
        apply memcpy_memcpy
        · intro j hj
          exact (byteAt_chunk size device (by omega)).symm
        · intro j _
          congr 1
          omega

/-- The loop writes what the loop of `Inode` does. -/
theorem writeLoop_eq (buffer : Nat → UInt8) (n : Nat) : ∀ (size offset : Int) (written : Nat)
    (device : SectorNo → Sector), 0 ≤ offset → size.toNat ≤ n →
      writeLoop true ino buffer size offset written device =
        Filesys.writeLoop ino buffer n size offset written device := by
  induction n with
  | zero =>
    intro size offset written device _ hn
    unfold writeLoop
    rw [if_pos (by omega)]
    rfl
  | succ n ih =>
    intro size offset written device hoff hn
    unfold writeLoop Filesys.writeLoop
    dsimp only
    split
    next => rfl
    next hsize =>
      split
      next => rfl
      next hchunk =>
        obtain ⟨hin, hle⟩ := chunk_inside hchunk
        rw [writeChunk_eq (by omega) hle, byteToSector_eq hin]
        exact ih _ _ _ _ (by omega) (by omega)

/-! ## Reading and writing -/

theorem inodeReadAt_eq (hoff : 0 ≤ offset) (buffer : Nat → UInt8) :
    inodeReadAt r buffer size offset true s = ((reach (s.inode r) size offset).toNat,
      memcpy buffer 0 (fun j => byteAt (s.inode r) s.device (offset + j))
        (reach (s.inode r) size offset).toNat) := by
  unfold inodeReadAt
  rw [readLoop_eq _ size offset 0 buffer hoff (Nat.le_refl _), Nat.zero_add]

/-- The bytes read are those that `inode_read_at` of `Inode` gives. -/
theorem inodeReadAt_list (hoff : 0 ≤ offset) (buffer : Nat → UInt8) :
    (inodeReadAt r buffer size offset true s).1 = (Filesys.inodeReadAt r size offset s).length ∧
      ∀ j (h : j < (Filesys.inodeReadAt r size offset s).length),
        (inodeReadAt r buffer size offset true s).2 j = (Filesys.inodeReadAt r size offset s)[j] := by
  rw [inodeReadAt_eq hoff]
  simp only [Filesys.inodeReadAt_eq hoff, List.length_map, List.length_range, List.getElem_map,
    List.getElem_range, true_and]
  intro j hj
  exact if_pos (by omega)

theorem inodeWriteAt_eq (hoff : 0 ≤ offset) (buffer : Nat → UInt8) :
    inodeWriteAt r buffer size offset true s = Filesys.inodeWriteAt r buffer size offset s := by
  unfold inodeWriteAt Filesys.inodeWriteAt
  rw [writeLoop_eq buffer _ size offset 0 s.device hoff (Nat.le_refl _)]

/-- An inode is an array of bytes. A read gives the bytes from `offset` on, as many as were asked for
and are there. A write that is not denied puts as many in place, and leaves the other bytes of the
inode, the sectors that are not its own and everything in memory. -/
theorem inode_byteArray (r : InodeRef) (s : Files) (buffer : Nat → UInt8) (size offset : Int)
    (hoff : 0 ≤ offset) (hlen : (s.inode r).length < 2 ^ 31) :
    ((inodeReadAt r buffer size offset true s).1 =
        max 0 (min size ((s.inode r).length - offset)) ∧
      ∀ j, (inodeReadAt r buffer size offset true s).2 j =
        if j < max 0 (min size ((s.inode r).length - offset)) then
          byteAt (s.inode r) s.device (offset + j)
        else buffer j) ∧
    ((s.inode r).denyWriteCnt = 0 →
      (inodeWriteAt r buffer size offset true s).1 =
          max 0 (min size ((s.inode r).length - offset)) ∧
      (∀ i, 0 ≤ i → byteAt (s.inode r) (inodeWriteAt r buffer size offset true s).2.device i =
        if offset ≤ i ∧ i < offset + max 0 (min size ((s.inode r).length - offset)) then
          buffer (i - offset).toNat
        else byteAt (s.inode r) s.device i) ∧
      (∀ x, ¬ (s.inode r).HasSector x →
        (inodeWriteAt r buffer size offset true s).2.device x = s.device x) ∧
      (inodeWriteAt r buffer size offset true s).2 =
        { s with device := (inodeWriteAt r buffer size offset true s).2.device }) := by
  constructor
  · rw [inodeReadAt_eq hoff]
    have hnn := reach_nonneg (s.inode r) size offset
    refine ⟨Int.toNat_of_nonneg hnn, fun j => ?_⟩
    show (if 0 ≤ j ∧ j < 0 + (reach (s.inode r) size offset).toNat then _ else _) =
      if (j : Int) < reach (s.inode r) size offset then _ else _
    by_cases hj : (j : Int) < reach (s.inode r) size offset
    · rw [if_pos hj, if_pos (by omega)]
      rfl
    · rw [if_neg hj, if_neg (by omega)]
  · intro hdeny
    rw [inodeWriteAt_eq hoff]
    exact ⟨inodeWriteAt_count hdeny hoff, fun i hi => inodeWriteAt_byteAt hdeny hoff hi,
      fun x hx => inodeWriteAt_other hlen hoff hx, Filesys.inodeWriteAt_eq r buffer size offset s⟩

/-! ## Without a bounce buffer -/

/-- Without a bounce buffer a read does what it does with one, or comes short. -/
theorem readLoop_short (alloc : Bool) (n : Nat) : ∀ (size offset : Int) (read : Nat)
    (buffer : Nat → UInt8), 0 ≤ offset → size.toNat ≤ n →
      readLoop alloc ino device size offset read buffer =
          readLoop true ino device size offset read buffer ∨
        (readLoop alloc ino device size offset read buffer).1 <
          read + (reach ino size offset).toNat := by
  induction n with
  | zero =>
    intro size offset read buffer _ hn
    left
    unfold readLoop
    rw [if_pos (by omega), if_pos (by omega)]
  | succ n ih =>
    intro size offset read buffer hoff hn
    rw [readLoop, readLoop]
    by_cases hsize : size ≤ 0
    · left
      rw [if_pos hsize, if_pos hsize]
    rw [if_neg hsize, if_neg hsize]
    by_cases hchunk : chunkSize ino size offset ≤ 0
    · left
      rw [if_pos hchunk, if_pos hchunk]
    rw [if_neg hchunk, if_neg hchunk]
    have hsum : reach ino size offset = _ := reach_eq_add (by omega)
    have hnn := reach_nonneg ino (size - chunkSize ino size offset)
      (offset + chunkSize ino size offset)
    by_cases hread : readChunk alloc ino device offset (chunkSize ino size offset) read buffer =
        readChunk true ino device offset (chunkSize ino size offset) read buffer
    · rw [hread, readChunk_eq]
      dsimp only
      rcases ih (size - chunkSize ino size offset) (offset + chunkSize ino size offset) _ _
        (by omega) (by omega) with heq | hlt
      · exact .inl heq
      · exact .inr (by omega)
    · right
      have hnone : readChunk alloc ino device offset (chunkSize ino size offset) read buffer = none := by
        unfold readChunk at hread ⊢
        dsimp only at hread ⊢
        cases alloc with
        | true => exact absurd rfl hread
        | false =>
          rw [if_neg]
          · rfl
          · intro hwhole
            rw [if_pos hwhole, if_pos hwhole] at hread
            exact hread rfl
      rw [hnone]
      show read < _
      omega

/-- And so does a write. -/
theorem writeLoop_short (alloc : Bool) (buffer : Nat → UInt8) (n : Nat) : ∀ (size offset : Int)
    (written : Nat) (device : SectorNo → Sector), 0 ≤ offset → size.toNat ≤ n →
      writeLoop alloc ino buffer size offset written device =
          writeLoop true ino buffer size offset written device ∨
        (writeLoop alloc ino buffer size offset written device).1 <
          written + (reach ino size offset).toNat := by
  induction n with
  | zero =>
    intro size offset written device _ hn
    left
    unfold writeLoop
    rw [if_pos (by omega), if_pos (by omega)]
  | succ n ih =>
    intro size offset written device hoff hn
    rw [writeLoop, writeLoop]
    by_cases hsize : size ≤ 0
    · left
      rw [if_pos hsize, if_pos hsize]
    rw [if_neg hsize, if_neg hsize]
    by_cases hchunk : chunkSize ino size offset ≤ 0
    · left
      rw [if_pos hchunk, if_pos hchunk]
    rw [if_neg hchunk, if_neg hchunk]
    have hsum : reach ino size offset = _ := reach_eq_add (by omega)
    have hnn := reach_nonneg ino (size - chunkSize ino size offset)
      (offset + chunkSize ino size offset)
    by_cases hwrite : writeChunk alloc ino device offset (chunkSize ino size offset) written buffer =
        writeChunk true ino device offset (chunkSize ino size offset) written buffer
    · rw [hwrite, writeChunk_eq (by omega) (chunk_inside hchunk).2]
      dsimp only
      rcases ih (size - chunkSize ino size offset) (offset + chunkSize ino size offset) _ _
        (by omega) (by omega) with heq | hlt
      · exact .inl heq
      · exact .inr (by omega)
    · right
      have hnone :
          writeChunk alloc ino device offset (chunkSize ino size offset) written buffer = none := by
        unfold writeChunk at hwrite ⊢
        dsimp only at hwrite ⊢
        cases alloc with
        | true => exact absurd rfl hwrite
        | false =>
          rw [if_neg]
          · rfl
          · intro hwhole
            rw [if_pos hwhole, if_pos hwhole] at hwrite
            exact hwrite rfl
      rw [hnone]
      show written < _
      omega

/-- A read that gets all it was asked for has all of it. -/
theorem inodeReadAt_whole {alloc : Bool} {buffer : Nat → UInt8} (hoff : 0 ≤ offset)
    (hall : (inodeReadAt r buffer size offset alloc s).1 = size) :
    ∀ j : Nat, (j : Int) < size → (inodeReadAt r buffer size offset alloc s).2 j =
      byteAt (s.inode r) s.device (offset + j) := by
  intro j hj
  have hreach : reach (s.inode r) size offset ≤ size := by
    unfold reach
    omega
  have heq : inodeReadAt r buffer size offset alloc s = inodeReadAt r buffer size offset true s := by
    have hshort : readLoop alloc (s.inode r) s.device size offset 0 buffer = _ ∨ _ :=
      readLoop_short alloc size.toNat size offset 0 buffer hoff (Nat.le_refl _)
    rcases hshort with heq | hlt
    · exact heq
    · have hnn := reach_nonneg (s.inode r) size offset
      have hcount : ((readLoop alloc (s.inode r) s.device size offset 0 buffer).1 : Int) = size := hall
      omega
  rw [heq, inodeReadAt_eq hoff] at hall ⊢
  dsimp only at hall ⊢
  have hnn := reach_nonneg (s.inode r) size offset
  exact if_pos (by omega)

/-- A write that puts all it was asked to has put it in place, and leaves what is in memory. -/
theorem inodeWriteAt_whole {alloc : Bool} {buffer : Nat → UInt8} (hoff : 0 ≤ offset)
    (hall : (inodeWriteAt r buffer size offset alloc s).1 = size) :
    (∀ j : Nat, (j : Int) < size → byteAt (s.inode r)
      (inodeWriteAt r buffer size offset alloc s).2.device (offset + j) = buffer j) ∧
      (inodeWriteAt r buffer size offset alloc s).2.inode = s.inode := by
  by_cases hdeny : (s.inode r).denyWriteCnt = 0
  · have hreach : reach (s.inode r) size offset ≤ max 0 size := by
      unfold reach
      omega
    have heq : inodeWriteAt r buffer size offset alloc s =
        inodeWriteAt r buffer size offset true s := by
      unfold inodeWriteAt at hall ⊢
      rw [if_neg (not_not.mpr hdeny)] at hall ⊢
      rw [if_neg (not_not.mpr hdeny)]
      have hshort : writeLoop alloc (s.inode r) buffer size offset 0 s.device = _ ∨ _ :=
        writeLoop_short alloc buffer size.toNat size offset 0 s.device hoff (Nat.le_refl _)
      rcases hshort with heq | hlt
      · rw [heq]
      · have hnn := reach_nonneg (s.inode r) size offset
        have hcount :
          ((writeLoop alloc (s.inode r) buffer size offset 0 s.device).1 : Int) = size := hall
        omega
    rw [heq, inodeWriteAt_eq hoff] at hall ⊢
    have hcount : (Filesys.inodeWriteAt r buffer size offset s).1 = _ := inodeWriteAt_count hdeny hoff
    rw [hall] at hcount
    refine ⟨fun j hj => ?_, by rw [Filesys.inodeWriteAt_eq]⟩
    rw [inodeWriteAt_byteAt hdeny hoff (by omega), if_pos (by omega)]
    congr 1
    omega
  · unfold inodeWriteAt at hall ⊢
    rw [if_pos hdeny] at hall ⊢
    dsimp only at hall ⊢
    exact ⟨fun j hj => absurd hj (by omega), rfl⟩

/-- An inode of 600 bytes in two sectors. -/
def twoSectors : Files where
  device := fun _ _ => 0
  freeMap := []
  freeMapFile := none
  openInodes := [0]
  inode := fun _ =>
    { sector := 2, openCnt := 1, removed := false, denyWriteCnt := 0, start := 3, length := 600 }
  nextInode := 1
  file := fun _ => none
  nextFile := 0

/-- 200 bytes at 500 reach over both sectors to the end of the inode. -/
theorem inode_byteArray_twoSectors :
    (inodeReadAt 0 (fun _ => 7) 200 500 true twoSectors).1 = 100 ∧
      (inodeWriteAt 0 (fun _ => 1) 200 500 true twoSectors).1 = 100 ∧
      byteAt (twoSectors.inode 0) (inodeWriteAt 0 (fun _ => 1) 200 500 true twoSectors).2.device 599 =
        1 := by
  have hread := (inode_byteArray 0 twoSectors (fun _ => 7) 200 500 (by decide) (by decide)).1
  obtain ⟨hcount, hbytes, _⟩ :=
    (inode_byteArray 0 twoSectors (fun _ => 1) 200 500 (by decide) (by decide)).2 rfl
  exact ⟨Int.ofNat.inj hread.1, hcount, (hbytes 599 (by decide)).trans (if_pos (by decide))⟩

end Pintos.Filesys.Bounce
