import Pintos.Filesys.Inode

/-!
# The bytes of an inode

What `inode_read_at` and `inode_write_at` do to the bytes: they reach as far as the size asked for
and the end of the inode allow, and a write that is not denied puts its bytes in place and leaves
the others.
-/

namespace Pintos.Filesys

variable {ino : Inode} {size offset : Int} {s : Files} {r : InodeRef}

/-- A word is read back. -/
theorem word_wordBytes (n : Nat) (rest : List UInt8) :
    word (fun i => (wordBytes n ++ rest).getD i 0) 0 = n % 2 ^ 32 := by
  show (UInt8.ofNat n).toNat + 256 * (UInt8.ofNat (n / 256)).toNat +
    65536 * (UInt8.ofNat (n / 65536)).toNat + 16777216 * (UInt8.ofNat (n / 16777216)).toNat = _
  rw [UInt8.toNat_ofNat', UInt8.toNat_ofNat', UInt8.toNat_ofNat', UInt8.toNat_ofNat']
  omega

theorem length_wordBytes (n : Nat) : (wordBytes n).length = 4 := rfl

/-- The bytes from `offset` on that a read or a write of `size` reaches. -/
def reach (ino : Inode) (size offset : Int) : Int := max 0 (min size (ino.length - offset))

/-- The byte of an inode at an offset. -/
def byteAt (ino : Inode) (device : SectorNo → Sector) (i : Int) : UInt8 :=
  (device (byteToSector ino i)).byte (i % 512).toNat

/-- A chunk goes to the end of the request, the file or the sector. -/
theorem chunkSize_eq (ino : Inode) (size offset : Int) : chunkSize ino size offset =
    min size (min (ino.length - offset) (512 - offset % 512)) := by
  unfold chunkSize
  dsimp only
  split <;> split <;> omega

/-- One iteration reaches the chunk, the rest what is left. -/
theorem reach_eq_add (h : 0 < chunkSize ino size offset) :
    reach ino size offset = chunkSize ino size offset +
      reach ino (size - chunkSize ino size offset) (offset + chunkSize ino size offset) := by
  rw [chunkSize_eq] at h ⊢
  unfold reach
  omega

/-- Where the loops end there is nothing to reach. -/
theorem reach_of_size (h : size ≤ 0) : reach ino size offset = 0 := by
  unfold reach
  omega

/-- Where there is no chunk nothing is reached. -/
theorem reach_of_chunk (h : chunkSize ino size offset ≤ 0) : reach ino size offset = 0 := by
  rw [chunkSize_eq] at h
  unfold reach
  omega

theorem reach_nonneg (ino : Inode) (size offset : Int) : 0 ≤ reach ino size offset := Int.le_max_left _ _

/-- The bytes of a chunk are the file's. -/
theorem byteAt_chunk (size : Int) (device : SectorNo → Sector) {j : Nat}
    (hj : (j : Int) < chunkSize ino size offset) :
    (device (byteToSector ino offset)).byte ((offset % 512).toNat + j) =
      byteAt ino device (offset + j) := by
  rw [chunkSize_eq] at hj
  have hsector : (offset + j) / 512 = offset / 512 := by omega
  have hbyte : ((offset + j) % 512).toNat = (offset % 512).toNat + j := by omega
  unfold byteAt byteToSector
  rw [hsector, hbyte]

/-- The loop reads the bytes in turn. -/
theorem readLoop_eq (ino : Inode) (device : SectorNo → Sector) (n : Nat) :
    ∀ size offset, 0 ≤ offset → size.toNat ≤ n → readLoop ino device n size offset =
      (List.range (reach ino size offset).toNat).map fun j : Nat =>
        byteAt ino device (offset + j) := by
  induction n with
  | zero =>
    intro size offset _ hn
    rw [reach_of_size (by omega)]
    rfl
  | succ n ih =>
    intro size offset hoff hn
    unfold readLoop
    split
    next hsize =>
      rw [reach_of_size hsize]
      rfl
    next hsize =>
      dsimp only
      split
      next hchunk =>
        rw [reach_of_chunk hchunk]
        rfl
      next hchunk =>
        have hpos : 0 < chunkSize ino size offset := by omega
        have hsum : (reach ino size offset).toNat = (chunkSize ino size offset).toNat +
            (reach ino (size - chunkSize ino size offset)
              (offset + chunkSize ino size offset)).toNat := by
          have hnn := reach_nonneg ino (size - chunkSize ino size offset)
            (offset + chunkSize ino size offset)
          rw [reach_eq_add hpos]
          omega
        rw [ih _ _ (by omega) (by omega), hsum, List.range_add, List.map_append, List.map_map]
        congr 1
        · apply List.map_congr_left
          intro j hj
          have hj' := List.mem_range.mp hj
          exact byteAt_chunk size device (by omega)
        · apply List.map_congr_left
          intro j _
          show _ = byteAt ino device (offset + ((chunkSize ino size offset).toNat + j : Nat))
          congr 1
          omega

/-- What one iteration of `inode_write_at` does to the bytes. -/
theorem byteAt_update {device : SectorNo → Sector} {bytes : Nat → UInt8} {i : Int}
    (hoff : 0 ≤ offset) (hi : 0 ≤ i) (hpos : 0 < chunkSize ino size offset) :
    byteAt ino (Function.update device (byteToSector ino offset)
      ((device (byteToSector ino offset)).patch (offset % 512).toNat
        (chunkSize ino size offset).toNat bytes)) i =
      if offset ≤ i ∧ i < offset + chunkSize ino size offset then bytes (i - offset).toNat
      else byteAt ino device i := by
  have hle : chunkSize ino size offset ≤ 512 - offset % 512 := by
    rw [chunkSize_eq]
    omega
  unfold byteAt
  by_cases hs : i / 512 = offset / 512
  · have hsector : byteToSector ino i = byteToSector ino offset := by
      unfold byteToSector
      rw [hs]
    have hlt : (i % 512).toNat < 512 := by omega
    rw [hsector, Function.update_self]
    unfold Sector.byte
    rw [dif_pos hlt, dif_pos hlt]
    unfold Sector.patch
    dsimp only
    by_cases hin : offset ≤ i ∧ i < offset + chunkSize ino size offset
    · rw [if_pos hin, if_pos (by omega)]
      congr 1
      omega
    · rw [if_neg hin, if_neg (by omega)]
  · have hsector : byteToSector ino i ≠ byteToSector ino offset := by
      intro heq
      have hsame : (i / 512).toNat = (offset / 512).toNat := Nat.add_left_cancel heq
      omega
    rw [Function.update_of_ne hsector, if_neg]
    omega

/-- The loop writes the bytes in turn, and no others. -/
theorem writeLoop_eq (ino : Inode) (buffer : Nat → UInt8) (n : Nat) :
    ∀ size offset written device, 0 ≤ offset → size.toNat ≤ n →
      (writeLoop ino buffer n size offset written device).1 =
        written + (reach ino size offset).toNat ∧
      ∀ i, 0 ≤ i → byteAt ino (writeLoop ino buffer n size offset written device).2 i =
        if offset ≤ i ∧ i < offset + reach ino size offset then
          buffer (written + (i - offset).toNat)
        else byteAt ino device i := by
  have hnone : ∀ (size offset : Int) (written : Nat) (device : SectorNo → Sector),
      reach ino size offset = 0 → (written, device).1 = written + (reach ino size offset).toNat ∧
      ∀ i, 0 ≤ i → byteAt ino (written, device).2 i =
        if offset ≤ i ∧ i < offset + reach ino size offset then
          buffer (written + (i - offset).toNat)
        else byteAt ino device i := by
    intro size offset written device h
    rw [h]
    refine ⟨rfl, fun i _ => ?_⟩
    rw [if_neg (by omega)]
  induction n with
  | zero =>
    intro size offset written device _ hn
    exact hnone _ _ _ _ (reach_of_size (by omega))
  | succ n ih =>
    intro size offset written device hoff hn
    unfold writeLoop
    split
    next hsize => exact hnone _ _ _ _ (reach_of_size hsize)
    next hsize =>
      dsimp only
      split
      next hchunk => exact hnone _ _ _ _ (reach_of_chunk hchunk)
      next hchunk =>
        have hpos : 0 < chunkSize ino size offset := by omega
        have hnn := reach_nonneg ino (size - chunkSize ino size offset)
          (offset + chunkSize ino size offset)
        obtain ⟨hcount, hbytes⟩ := ih (size - chunkSize ino size offset)
          (offset + chunkSize ino size offset) (written + (chunkSize ino size offset).toNat)
          (Function.update device (byteToSector ino offset)
            ((device (byteToSector ino offset)).patch (offset % 512).toNat
              (chunkSize ino size offset).toNat fun j => buffer (written + j)))
          (by omega) (by omega)
        rw [reach_eq_add hpos]
        refine ⟨?_, fun i hi => ?_⟩
        · rw [hcount]
          omega
        · rw [hbytes i hi, byteAt_update hoff hi hpos]
          by_cases hlater : offset + chunkSize ino size offset ≤ i ∧
              i < offset + chunkSize ino size offset +
                reach ino (size - chunkSize ino size offset) (offset + chunkSize ino size offset)
          · rw [if_pos hlater, if_pos (by omega)]
            congr 1
            omega
          · rw [if_neg hlater]
            by_cases hnow : offset ≤ i ∧ i < offset + chunkSize ino size offset
            · rw [if_pos hnow, if_pos (by omega)]
            · rw [if_neg hnow, if_neg (by omega)]

/-! ## The sectors of an inode -/

/-- The inode has the sector for its data. -/
def Inode.HasSector (ino : Inode) (x : SectorNo) : Prop :=
  ino.start ≤ x ∧ x < ino.start + bytesToSectors ino.length

/-- The sectors have room for the bytes, also where the sum in `DIV_ROUND_UP` overflows. -/
theorem le_bytesToSectors {n : Int} (h : 0 ≤ n) (h' : n < 2 ^ 31) : n ≤ 512 * bytesToSectors n := by
  unfold bytesToSectors
  by_cases hlt : n + 511 < 2 ^ 31
  · have hb : Int.bmod (n + 511) (2 ^ 32) = n + 511 := by apply Int.bmod_eq_of_le <;> omega
    rw [hb, Int.tdiv_eq_ediv_of_nonneg (by omega)]
    omega
  · have hb : Int.bmod (n + 511) (2 ^ 32) = -(2 ^ 32 - n - 511) := by
      rw [Int.bmod_def]
      omega
    rw [hb, Int.neg_tdiv, Int.tdiv_eq_ediv_of_nonneg (by omega)]
    omega

/-- An offset in the file is on one of its sectors. -/
theorem byteToSector_hasSector (hlen : ino.length < 2 ^ 31) (hoff : 0 ≤ offset)
    (h : offset < ino.length) : ino.HasSector (byteToSector ino offset) := by
  have hle := le_bytesToSectors (n := ino.length) (by omega) hlen
  exact ⟨Nat.le_add_right _ _, Nat.add_lt_add_left (by omega) _⟩

/-- A write reaches no sector but those of the inode. -/
theorem writeLoop_other (hlen : ino.length < 2 ^ 31) (buffer : Nat → UInt8) {x : SectorNo}
    (hx : ¬ ino.HasSector x) (n : Nat) : ∀ size offset written device, 0 ≤ offset →
      (writeLoop ino buffer n size offset written device).2 x = device x := by
  induction n with
  | zero => exact fun _ _ _ _ _ => rfl
  | succ n ih =>
    intro size offset written device hoff
    unfold writeLoop
    split
    · rfl
    · dsimp only
      split
      · rfl
      next hchunk =>
        have hin : offset < ino.length := by
          rw [chunkSize_eq] at hchunk
          omega
        rw [ih _ _ _ _ (by omega), Function.update_of_ne]
        intro heq
        exact hx (heq ▸ byteToSector_hasSector hlen hoff hin)

/-! ## Reading and writing -/

/-- `inode_read_at` reads the bytes it reaches. -/
theorem inodeReadAt_eq (h : 0 ≤ offset) : inodeReadAt r size offset s =
    (List.range (reach (s.inode r) size offset).toNat).map fun j : Nat =>
      byteAt (s.inode r) s.device (offset + j) :=
  readLoop_eq _ _ _ size offset h (Nat.le_refl _)

/-- A write to an inode that denies it does nothing. -/
theorem inodeWriteAt_denied {buffer : Nat → UInt8} (h : (s.inode r).denyWriteCnt ≠ 0) :
    inodeWriteAt r buffer size offset s = (0, s) := if_pos h

/-- One that is not denied writes all it reaches. -/
theorem inodeWriteAt_count {buffer : Nat → UInt8} (h : (s.inode r).denyWriteCnt = 0)
    (hoff : 0 ≤ offset) :
    (inodeWriteAt r buffer size offset s).1 = reach (s.inode r) size offset := by
  have hloop := (writeLoop_eq (s.inode r) buffer size.toNat size offset 0 s.device hoff
    (Nat.le_refl _)).1
  unfold inodeWriteAt
  rw [if_neg (not_not_intro h)]
  show ((writeLoop _ _ _ _ _ _ _).1 : Int) = _
  rw [hloop, Nat.zero_add, Int.toNat_of_nonneg (reach_nonneg _ _ _)]

/-- The bytes after a write. -/
theorem inodeWriteAt_byteAt {buffer : Nat → UInt8} (h : (s.inode r).denyWriteCnt = 0)
    (hoff : 0 ≤ offset) {i : Int} (hi : 0 ≤ i) :
    byteAt (s.inode r) (inodeWriteAt r buffer size offset s).2.device i =
      if offset ≤ i ∧ i < offset + reach (s.inode r) size offset then buffer (i - offset).toNat
      else byteAt (s.inode r) s.device i := by
  unfold inodeWriteAt
  rw [if_neg (not_not_intro h)]
  refine ((writeLoop_eq (s.inode r) buffer size.toNat size offset 0 s.device hoff
    (Nat.le_refl _)).2 i hi).trans ?_
  rw [Nat.zero_add]

/-- The sectors a write leaves alone. -/
theorem inodeWriteAt_other {buffer : Nat → UInt8} (hlen : (s.inode r).length < 2 ^ 31)
    (hoff : 0 ≤ offset) {x : SectorNo} (hx : ¬ (s.inode r).HasSector x) :
    (inodeWriteAt r buffer size offset s).2.device x = s.device x := by
  unfold inodeWriteAt
  split
  · rfl
  · exact writeLoop_other hlen buffer hx _ _ _ _ _ hoff

/-- A write changes the device and nothing else. -/
theorem inodeWriteAt_eq (r : InodeRef) (buffer : Nat → UInt8) (size offset : Int) (s : Files) :
    (inodeWriteAt r buffer size offset s).2 =
      { s with device := (inodeWriteAt r buffer size offset s).2.device } := by
  unfold inodeWriteAt
  split <;> rfl

/-- Bytes in sectors that are as they were. -/
theorem byteAt_congr {device device' : SectorNo → Sector} (hlen : ino.length < 2 ^ 31)
    (h : ∀ x, ino.HasSector x → device' x = device x) {i : Int} (hi : 0 ≤ i)
    (hin : i < ino.length) : byteAt ino device' i = byteAt ino device i := by
  unfold byteAt
  rw [h _ (byteToSector_hasSector hlen hi hin)]

/-- And what it has written is read back. -/
theorem inodeReadAt_inodeWriteAt {buffer : Nat → UInt8} (h : (s.inode r).denyWriteCnt = 0)
    (hoff : 0 ≤ offset) :
    inodeReadAt r size offset (inodeWriteAt r buffer size offset s).2 =
      (List.range (reach (s.inode r) size offset).toNat).map buffer := by
  have hloop := (writeLoop_eq (s.inode r) buffer size.toNat size offset 0 s.device hoff
    (Nat.le_refl _)).2
  rw [inodeReadAt_eq hoff]
  unfold inodeWriteAt
  rw [if_neg (not_not_intro h)]
  apply List.map_congr_left
  intro j hj
  have hj' : j < (reach (s.inode r) size offset).toNat := List.mem_range.mp hj
  refine (hloop (offset + j) (by omega)).trans ?_
  rw [if_pos (by omega)]
  congr 1
  omega

end Pintos.Filesys
