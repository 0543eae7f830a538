import Pintos.Devices.Partition

/-!
# Access through a partition

`partition_read` and `partition_write`. `found_partition` registers only what ends on the device, with
its sum in 32 bits, so a sector that `check_sector` lets pass is one of the partition's on the device,
and the sum that `partition_read` makes does not wrap around.
-/

namespace Pintos.Devices

open Pintos.Lib

/-- `check_sector`. -/
def checkSector (size sector : Nat) : Except ScanFault Unit :=
  if sector ≥ size then .error (.pastEnd sector) else .ok ()

/-- `block_write`, to a disk, which is no foreign partition. -/
def blockWrite (block : Block) (sector : Nat) (buffer : List UInt8) : Except ScanFault Block := do
  checkSector block.size sector
  .ok { block with
    bytes := block.bytes.take (512 * sector) ++ buffer ++ block.bytes.drop (512 * (sector + 1)) }

/-- The sector of the device that `partition_read` and `partition_write` ask for. -/
def Partition.sector (p : Partition) (sector : Nat) : Nat := (p.start + sector) % 2 ^ 32

/-- `partition_read`. -/
def partitionRead (block : Block) (p : Partition) (sector : Nat) : Except ScanFault (List UInt8) :=
  blockRead block (p.sector sector)

/-- `partition_write`. -/
def partitionWrite (block : Block) (p : Partition) (sector : Nat) (buffer : List UInt8) :
    Except ScanFault Block :=
  blockWrite block (p.sector sector) buffer

variable {block block' : Block} {p q : Partition} {s s' : Scan} {sector : Nat} {buffer : List UInt8}

/-! ## What is registered -/

/-- `found_partition` accepts a start and a size, and registers the partition. -/
def Registers (block : Block) (p : Partition) : Prop :=
  ∃ (partType : Nat) (start size : UInt32) (partNr : Nat) (s : Scan),
    (foundPartition block partType start.toNat size.toNat partNr s).blocks = s.blocks ++ [p]

/-- A partition ends on the device. -/
structure Fits (block : Block) (p : Partition) : Prop where
  start_lt : p.start < block.size
  start_add_size_le : p.start + p.size ≤ block.size
  start_add_size_lt : p.start + p.size < 2 ^ 32

/-- `found_partition` prints a message, or registers a partition that fits. -/
theorem foundPartition_cases (block : Block) (partType : Nat) (start size : UInt32) (partNr : Nat)
    (s : Scan) : (foundPartition block partType start.toNat size.toNat partNr s).blocks = s.blocks ∨
      ∃ p, (foundPartition block partType start.toNat size.toNat partNr s).blocks =
        s.blocks ++ [p] ∧ Fits block p := by
  have hstart := start.toNat_lt
  have hsize := size.toNat_lt
  unfold foundPartition
  dsimp only
  split
  next => exact .inl rfl
  next hlow =>
    split
    next => exact .inl rfl
    next hend =>
      refine .inr ⟨_, rfl, ?_, ?_, ?_⟩
      all_goals
        dsimp only
        omega

/-- A partition that is registered fits. -/
theorem Registers.fits (h : Registers block p) : Fits block p := by
  obtain ⟨partType, start, size, partNr, s, hp⟩ := h
  obtain hsame | ⟨q, hq, hfits⟩ := foundPartition_cases block partType start size partNr s
  · have := congrArg List.length (hp.symm.trans hsame)
    simp at this
  · have := List.append_cancel_left (hp.symm.trans hq)
    rw [List.singleton_inj.mp this]
    exact hfits

/-! ## Every scan -/

/-- A scan has registered its partitions one by one. -/
def Scan.Fit (block : Block) (s : Scan) : Prop := ∀ p ∈ s.blocks, Fits block p

theorem Scan.Fit.say (h : s.Fit block) (m : Message) : (s.say m).Fit block := h

/-- A partition that is found fits, or is not registered. -/
theorem Scan.Fit.found (h : s.Fit block) (partType : Nat) (start size : UInt32) (partNr : Nat) :
    (foundPartition block partType start.toNat size.toNat partNr s).Fit block := by
  intro p hp
  obtain hsame | ⟨q, hq, hfits⟩ := foundPartition_cases block partType start size partNr s
  · rw [hsame] at hp
    exact h p hp
  · rw [hq] at hp
    rcases List.mem_append.mp hp with hp | hp
    · exact h p hp
    · rw [List.mem_singleton.mp hp]
      exact hfits

/-- Bytes in little-endian order have a bound. -/
theorem ofLe_lt (bs : List UInt8) : ofLe bs < 256 ^ bs.length := by
  induction bs with
  | nil => exact Nat.one_pos
  | cons b bs ih =>
    have hb := b.toNat_lt
    rw [ofLe, List.length_cons, pow_succ]
    omega

/-- Offset and size of an entry have 32 bits. -/
theorem tableEntry_lt (pt : List UInt8) (i : Nat) :
    (tableEntry pt i).offset < 2 ^ 32 ∧ (tableEntry pt i).size < 2 ^ 32 := by
  have hword : ∀ bs : List UInt8, bs.length ≤ 4 → ofLe bs < 2 ^ 32 := fun bs hbs =>
    lt_of_lt_of_le (ofLe_lt bs) (Nat.pow_le_pow_right (by decide) hbs)
  exact ⟨hword _ (List.length_take_le _ _), hword _ (List.length_take_le _ _)⟩

/-- An entry registers only what fits. -/
theorem scanEntry_fit {nested : Nat → Nat → Scan → Except ScanFault Scan} {prim i : Nat}
    {pt : List UInt8} (hnested : ∀ {x y s s'}, Scan.Fit block s → nested x y s = .ok s' →
      Scan.Fit block s') (hs : s.Fit block)
    (h : scanEntry block nested sector prim (tableEntry pt i) s = .ok s') : s'.Fit block := by
  obtain ⟨_, hsize⟩ := tableEntry_lt pt i
  unfold scanEntry at h
  split at h
  next =>
    cases h
    exact hs
  next =>
    split at h
    next =>
      dsimp only at h
      split at h
      next => exact hnested (hs.say _) h
      next => exact hnested (hs.say _) h
    next =>
      cases h
      have hstart : (UInt32.ofNat ((tableEntry pt i).offset + sector)).toNat =
          ((tableEntry pt i).offset + sector) % 2 ^ 32 := UInt32.toNat_ofNat'
      have hlen : (UInt32.ofNat (tableEntry pt i).size).toNat = (tableEntry pt i).size :=
        UInt32.toNat_ofNat_of_lt' hsize
      rw [← hstart, ← hlen]
      exact Scan.Fit.found (show Scan.Fit block { s with partNr := s.partNr + 1 } from hs) _ _ _ _

theorem foldlM_fit {f : Scan → Nat → Except ScanFault Scan}
    (hf : ∀ {s i s'}, Scan.Fit block s → f s i = .ok s' → Scan.Fit block s') {l : List Nat}
    (hs : s.Fit block) (h : l.foldlM f s = .ok s') : s'.Fit block := by
  induction l generalizing s with
  | nil =>
    cases h
    exact hs
  | cons i l ih =>
    rw [List.foldlM_cons] at h
    obtain ⟨s₁, h₁, h⟩ := bind_eq_ok.mp h
    exact ih (hf hs h₁) h

/-- A table, with those it leads to, registers only what fits. -/
theorem readPartitionTable_fit {n prim : Nat} (hs : s.Fit block)
    (h : readPartitionTable block n sector prim s = .ok s') : s'.Fit block := by
  induction n generalizing sector prim s s' with
  | zero => cases h
  | succ n ih =>
    unfold readPartitionTable at h
    split at h
    next =>
      cases h
      exact hs.say _
    next =>
      obtain ⟨pt, _, h⟩ := bind_eq_ok.mp h
      split at h
      next =>
        cases h
        exact hs.say _
      next => exact foldlM_fit (fun hs h => scanEntry_fit ih hs h) hs h

/-- Every partition that a scan registers ends on the device. -/
theorem partitionScan_fit {stack : Nat} (h : partitionScan block stack = .ok s) :
    s.Fit block := by
  obtain ⟨s₁, h₁, h⟩ := bind_eq_ok.mp h
  have hfit := readPartitionTable_fit (fun p hp => by cases hp) h₁
  cases h
  split
  · exact hfit.say _
  · exact hfit

/-! ## Access -/

/-- A sector passes the check below the size. -/
theorem checkSector_eq_ok {size : Nat} : checkSector size sector = .ok () ↔ sector < size := by
  unfold checkSector
  split <;> simp_all

/-- The sum does not wrap. -/
theorem Fits.sector_eq (h : Fits block p) (hsector : sector < p.size) :
    p.sector sector = p.start + sector := by
  obtain ⟨_, _, hlt⟩ := h
  exact Nat.mod_eq_of_lt (by omega)

/-- An access that `check_sector` lets pass is one to the partition's part of the device. -/
structure Inside (block : Block) (p : Partition) (sector : Nat) : Prop where
  exact : p.sector sector = p.start + sector
  within : p.start ≤ p.sector sector ∧ p.sector sector < p.start + p.size
  onDevice : p.sector sector < block.size
  read : partitionRead block p sector = .ok (slice block.bytes (512 * (p.start + sector)) 512)
  write : ∀ buffer, ∃ block', partitionWrite block p sector buffer = .ok block'

/-- A sector below the size is inside the partition. -/
theorem Fits.inside (h : Fits block p) (hsector : sector < p.size) : Inside block p sector := by
  have heq := h.sector_eq hsector
  obtain ⟨_, hle, _⟩ := h
  constructor
  case exact => exact heq
  case within =>
    rw [heq]
    omega
  case onDevice =>
    rw [heq]
    omega
  case read =>
    unfold partitionRead blockRead
    rw [heq]
    exact if_neg (by omega)
  case write =>
    intro buffer
    have hok : checkSector block.size (p.sector sector) = .ok () := checkSector_eq_ok.mpr (by omega)
    unfold partitionWrite blockWrite
    rw [hok]
    exact ⟨_, rfl⟩

/-- What has been written through one partition is not seen through another. -/
theorem partitionRead_partitionWrite {x : Nat} (hbytes : block.bytes.length = 512 * block.size)
    (hbuffer : buffer.length = 512) (hp : Inside block p sector) (hq : Inside block q x)
    (hne : p.sector sector ≠ q.sector x) (h : partitionWrite block p sector buffer = .ok block') :
    partitionRead block' q x = partitionRead block q x := by
  obtain ⟨_, _, h⟩ := bind_eq_ok.mp h
  cases h
  have hin := hp.onDevice
  have hin' := hq.onDevice
  have htake : (block.bytes.take (512 * p.sector sector)).length = 512 * p.sector sector := by
    rw [List.length_take]
    omega
  have hnot : ¬ q.sector x ≥ block.size := Nat.not_le.mpr hin'
  unfold partitionRead blockRead
  dsimp only
  rw [if_neg hnot, if_neg hnot, List.append_assoc]
  congr 1
  rcases Nat.lt_or_gt_of_ne hne with hlt | hgt
  · have hofs : 512 * (p.sector sector + 1) + (512 * q.sector x - 512 * p.sector sector - 512) =
        512 * q.sector x := by omega
    rw [slice_append_right (by omega), htake, slice_append_right (by omega), hbuffer, slice, slice,
      List.drop_drop, hofs]
  · rw [slice_append_left (by omega), slice, slice, List.drop_take, List.take_take,
      Nat.min_eq_left (by omega)]

/-- Access through a partition stays in it, and partitions apart share no sector. -/
theorem partition_access (block : Block) :
    (∀ p, Registers block p → ∀ sector : UInt32, checkSector p.size sector.toNat = .ok () →
      Inside block p sector.toNat) ∧
    ∀ p q, Registers block p → Registers block q →
      p.start + p.size ≤ q.start ∨ q.start + q.size ≤ p.start →
        ∀ x y : UInt32, checkSector p.size x.toNat = .ok () → checkSector q.size y.toNat = .ok () →
          p.sector x.toNat ≠ q.sector y.toNat := by
  constructor
  · intro p hp sector hok
    exact hp.fits.inside (checkSector_eq_ok.mp hok)
  · intro p q hp hq hapart x y hx hy heq
    obtain ⟨hlow, hhigh⟩ := (hp.fits.inside (checkSector_eq_ok.mp hx)).within
    obtain ⟨hlow', hhigh'⟩ := (hq.fits.inside (checkSector_eq_ok.mp hy)).within
    rw [← heq] at hlow' hhigh'
    omega

/-- On a device of 100 sectors, sector 9 of the partition of sectors 10 to 19 and sector 0 of that of
sectors 20 to 29 are two sectors. -/
theorem partition_access_two : ∃ block : Block, block.size = 100 ∧ block.bytes.length = 512 * 100 ∧
    Inside block ⟨.filesys, 10, 10, 1⟩ 9 ∧ Inside block ⟨.swap, 20, 10, 2⟩ 0 ∧
    Partition.sector ⟨.filesys, 10, 10, 1⟩ 9 ≠ Partition.sector ⟨.swap, 20, 10, 2⟩ 0 := by
  have hfilesys : Registers ⟨100, List.replicate 51200 7⟩ ⟨.filesys, 10, 10, 1⟩ :=
    ⟨0x21, 10, 10, 1, ⟨1, [], []⟩, by decide⟩
  have hswap : Registers ⟨100, List.replicate 51200 7⟩ ⟨.swap, 20, 10, 2⟩ :=
    ⟨0x23, 20, 10, 2, ⟨2, [], []⟩, by decide⟩
  obtain ⟨hinside, hapart⟩ := partition_access ⟨100, List.replicate 51200 7⟩
  exact ⟨⟨100, List.replicate 51200 7⟩, rfl, List.length_replicate,
    hinside _ hfilesys 9 (by decide), hinside _ hswap 0 (by decide),
    hapart _ _ hfilesys hswap (by decide) 9 0 (by decide) (by decide)⟩

end Pintos.Devices
