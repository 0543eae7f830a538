import Pintos.Devices.PartitionAccess

/-!
# What a scan finds

The calls of `found_partition` that a scan makes, and the partitions that the tables of a device list.
A scan reads sector 0 for every table, so an extended partition is read as sector 0 over again: it is
one only by chance if the logical partitions are found (`scan_exact`), and a scan need not end.
-/

namespace Pintos.Devices

open Pintos.Lib

/-! ## The calls -/

/-- A call of `found_partition`. -/
structure Found where
  type : Nat
  start : Nat
  size : Nat
  partNr : Nat
  deriving DecidableEq, Repr

/-- `scanEntry`, with the calls so far, as many as `*part_nr`. -/
def scanEntryCalls (nested : Nat → Nat → List Found → Except ScanFault (List Found))
    (sector primaryExtendedSector : Nat) (calls : List Found) (e : Entry) :
    Except ScanFault (List Found) :=
  if e.size = 0 ∨ e.type = 0 then .ok calls
  else if isExtended e.type then
    if sector = 0 then nested e.offset e.offset calls
    else nested ((e.offset + primaryExtendedSector) % 2 ^ 32) primaryExtendedSector calls
  else .ok (calls ++ [⟨e.type, (e.offset + sector) % 2 ^ 32, e.size, calls.length + 1⟩])

/-- `pt->partitions`. -/
def tableEntries (pt : List UInt8) : List Entry := (List.range 4).map (tableEntry pt)

/-- `readPartitionTable`, with the calls so far. -/
def readTableCalls (block : Block) : Nat → Nat → Nat → List Found → Except ScanFault (List Found)
  | 0, _, _, _ => .error .stack
  | n + 1, sector, primaryExtendedSector, calls =>
    if sector ≥ block.size then .ok calls
    else do
      let pt ← blockRead block 0
      if tableSignature pt ≠ 0xaa55 then pure calls
      else
        (tableEntries pt).foldlM
          (scanEntryCalls (readTableCalls block n) sector primaryExtendedSector) calls

/-- `partitionScan`. -/
def scanCalls (block : Block) (stack : Nat) : Except ScanFault (List Found) :=
  readTableCalls block stack 0 0 []

/-- What a call registers. -/
def Found.registered (block : Block) (c : Found) : Option Partition :=
  if c.start ≥ block.size then none
  else if (c.start + c.size) % 2 ^ 32 < c.start ∨ (c.start + c.size) % 2 ^ 32 > block.size then none
  else some { type := blockTypeOf c.type, start := c.start, size := c.size, partNr := c.partNr }

/-- A scan and its calls. -/
structure CallsOf (block : Block) (calls : List Found) (s : Scan) : Prop where
  partNr : s.partNr = calls.length
  blocks : s.blocks = calls.filterMap (·.registered block)

/-- A scan and its calls end alike. -/
inductive Alike (block : Block) : Except ScanFault (List Found) → Except ScanFault Scan → Prop where
  | ok {calls : List Found} {s : Scan} (h : CallsOf block calls s) : Alike block (.ok calls) (.ok s)
  | error (f : ScanFault) : Alike block (.error f) (.error f)

variable {block : Block} {calls : List Found} {s : Scan} {sector prim : Nat}

/-- A message calls for no partition. -/
theorem CallsOf.say (h : CallsOf block calls s) (m : Message) : CallsOf block calls (s.say m) :=
  ⟨h.partNr, h.blocks⟩

/-- `found_partition` registers a partition that fits. -/
theorem foundPartition_registered (block : Block) (c : Found) (s : Scan) :
    (foundPartition block c.type c.start c.size c.partNr s).blocks =
        s.blocks ++ (c.registered block).toList ∧
      (foundPartition block c.type c.start c.size c.partNr s).partNr = s.partNr := by
  unfold foundPartition Found.registered
  dsimp only
  split
  next => exact ⟨(List.append_nil _).symm, rfl⟩
  next =>
    split
    next => exact ⟨(List.append_nil _).symm, rfl⟩
    next => exact ⟨rfl, rfl⟩

/-- A partition that is found is one call more. -/
theorem CallsOf.found (h : CallsOf block calls s) (type start size : Nat) :
    CallsOf block (calls ++ [⟨type, start, size, calls.length + 1⟩])
      (foundPartition block type start size (s.partNr + 1) { s with partNr := s.partNr + 1 }) := by
  obtain ⟨hblocks, hnr⟩ := foundPartition_registered block ⟨type, start, size, s.partNr + 1⟩
    { s with partNr := s.partNr + 1 }
  constructor
  case partNr =>
    rw [hnr, List.length_append, h.partNr]
    rfl
  case blocks =>
    rw [hblocks, List.filterMap_append, h.blocks, h.partNr]
    congr 1

/-- The two go on alike. -/
theorem Alike.bind {x : Except ScanFault (List Found)} {y : Except ScanFault Scan}
    {f : List Found → Except ScanFault (List Found)} {g : Scan → Except ScanFault Scan}
    (h : Alike block x y) (hfg : ∀ calls s, CallsOf block calls s → Alike block (f calls) (g s)) :
    Alike block (x >>= f) (y >>= g) := by
  cases h with
  | ok h => exact hfg _ _ h
  | error e => exact .error e

/-- The scan with the calls recorded reads one entry as the scan does, -/
theorem alike_scanEntry {nested : Nat → Nat → List Found → Except ScanFault (List Found)}
    {nested' : Nat → Nat → Scan → Except ScanFault Scan}
    (hnested : ∀ x y calls s, CallsOf block calls s → Alike block (nested x y calls) (nested' x y s))
    (h : CallsOf block calls s) (e : Entry) :
    Alike block (scanEntryCalls nested sector prim calls e)
      (scanEntry block nested' sector prim e s) := by
  unfold scanEntryCalls scanEntry
  split
  · exact .ok h
  · split
    · dsimp only
      split
      · exact hnested _ _ _ _ (h.say _)
      · exact hnested _ _ _ _ (h.say _)
    · exact .ok (h.found _ _ _)

theorem alike_foldlM {α : Type} {f : List Found → α → Except ScanFault (List Found)}
    {g : Scan → α → Except ScanFault Scan}
    (hfg : ∀ x calls s, CallsOf block calls s → Alike block (f calls x) (g s x)) (l : List α)
    (h : CallsOf block calls s) : Alike block (l.foldlM f calls) (l.foldlM g s) := by
  induction l generalizing calls s with
  | nil => exact .ok h
  | cons x l ih =>
    rw [List.foldlM_cons, List.foldlM_cons]
    exact (hfg x calls s h).bind fun _ _ h => ih h

/-- The scan with the calls recorded reads a table, and those it leads to, as the scan does. -/
theorem alike_readTable (block : Block) (n sector prim : Nat) (h : CallsOf block calls s) :
    Alike block (readTableCalls block n sector prim calls)
      (readPartitionTable block n sector prim s) := by
  induction n generalizing sector prim calls s with
  | zero => exact .error _
  | succ n ih =>
    unfold readTableCalls readPartitionTable
    split
    · exact .ok (h.say _)
    · cases blockRead block 0 with
      | error e => exact .error e
      | ok pt =>
        rw [bind_ok, bind_ok]
        split
        · exact .ok (h.say _)
        · unfold tableEntries
          rw [List.foldlM_map]
          exact alike_foldlM
            (fun i _ _ h => alike_scanEntry (fun x y _ _ h => ih x y h) h (tableEntry pt i)) _ h

/-- `partition_scan` makes the calls of `scanCalls`, and registers what they register. -/
theorem alike_partitionScan (block : Block) (stack : Nat) :
    Alike block (scanCalls block stack) (partitionScan block stack) := by
  have hnothing : CallsOf block [] { partNr := 0, blocks := [], messages := [] } := ⟨rfl, rfl⟩
  have h := alike_readTable block stack 0 0 hnothing
  have hend := h.bind (f := .ok) (g := fun s => .ok (if s.partNr = 0 then s.say .noPartitions else s))
    fun calls s h => by
      refine .ok ?_
      split
      · exact h.say _
      · exact h
  have hcalls : (readTableCalls block stack 0 0 [] >>= .ok) = scanCalls block stack := by
    unfold scanCalls
    cases readTableCalls block stack 0 0 [] <;> rfl
  rwa [hcalls] at hend

/-! ## What the tables list -/

/-- A partition, by its absolute sector. -/
structure Listed where
  type : Nat
  start : Nat
  size : Nat
  deriving DecidableEq, Repr

/-- One entry of the table in `sector`. The logical partitions of an extended partition are given
from their own table, and the tables of an extended partition from `prim`, where it starts. A sector
that has no number in 32 bits is in no well-formed table. -/
def listedEntry (nested : Nat → Nat → Option (List Listed)) (sector prim : Nat) (e : Entry) :
    Option (List Listed) :=
  if e.size = 0 ∨ e.type = 0 then some []
  else if isExtended e.type then
    if sector = 0 then nested e.offset e.offset else nested (e.offset + prim) prim
  else if e.offset + sector < 2 ^ 32 then some [⟨e.type, e.offset + sector, e.size⟩]
  else none

/-- The partitions that the table in `sector` and the tables behind it list, in their order. There
are none if a table is not on the device or has no signature, or the tables are nested more than `n`
deep, as on a cycle they are for every `n`. -/
def listed (block : Block) : Nat → Nat → Nat → Option (List Listed)
  | 0, _, _ => none
  | n + 1, sector, prim =>
    let pt := slice block.bytes (512 * sector) 512
    if sector ≥ block.size ∨ tableSignature pt ≠ 0xaa55 then none
    else ((tableEntries pt).mapM (listedEntry (listed block n) sector prim)).map List.flatten

/-- The calls for partitions in their order. -/
def numbered (xs : List Listed) : List Found :=
  xs.mapIdx fun i x => ⟨x.type, x.start, x.size, i + 1⟩

/-- A scan ends, and if the tables are well formed and without a cycle it finds their partitions. -/
def ScansRight (block : Block) : Prop :=
  ∃ stack calls, (∀ n, stack ≤ n → scanCalls block n = .ok calls) ∧
    ∀ n xs, listed block n 0 0 = some xs → calls = numbered xs

/-! ## Sector 0 -/

/-- A partition, not an extended one. -/
def Entry.isPartition (e : Entry) : Bool :=
  !(e.size == 0) && !(e.type == 0) && !isExtended e.type

/-- An extended partition. -/
def Entry.isExtended (e : Entry) : Bool :=
  !(e.size == 0) && !(e.type == 0) && Devices.isExtended e.type

/-- The entries of sector 0, if it has a partition table. -/
def Block.entries (block : Block) : List Entry :=
  if 0 < block.size ∧ tableSignature (slice block.bytes 0 512) = 0xaa55 then
    tableEntries (slice block.bytes 0 512)
  else []

/-- The partitions of sector 0, if it were the table in `sector`. -/
def Block.moved (block : Block) (sector : Nat) : List Listed :=
  block.entries.flatMap fun e =>
    if e.isPartition then [⟨e.type, (e.offset + sector) % 2 ^ 32, e.size⟩] else []

/-- The partitions of sector 0, with those of sector 0 over again for an extended partition on the
device. -/
def Block.overAgain (block : Block) : List Listed :=
  block.entries.flatMap fun e =>
    if e.isPartition then [⟨e.type, e.offset % 2 ^ 32, e.size⟩]
    else if e.isExtended ∧ e.offset < block.size then block.moved e.offset
    else []

/-- Sector 0 over again leads off the device: from no extended partition on the device does any
extended partition of sector 0 lead to another sector of it. -/
def Block.LeadsOff (block : Block) : Prop :=
  ∀ e ∈ block.entries, e.isExtended → e.offset < block.size →
    ∀ e' ∈ block.entries, e'.isExtended → block.size ≤ (e'.offset + e.offset) % 2 ^ 32

/-! ## The calls of a scan -/

/-- Partitions are numbered as they are found. -/
theorem numbered_append (xs : List Listed) (x : Listed) : numbered (xs ++ [x]) =
    numbered xs ++ [⟨x.type, x.start, x.size, (numbered xs).length + 1⟩] := by
  unfold numbered
  rw [List.mapIdx_concat, List.length_mapIdx]

/-- Entries that add partitions one by one. -/
theorem foldlM_numbered {f : List Found → Entry → Except ScanFault (List Found)}
    {g : Entry → List Listed} {es : List Entry}
    (h : ∀ e ∈ es, ∀ xs, f (numbered xs) e = .ok (numbered (xs ++ g e))) (xs : List Listed) :
    es.foldlM f (numbered xs) = .ok (numbered (xs ++ es.flatMap g)) := by
  induction es generalizing xs with
  | nil =>
    rw [List.flatMap_nil, List.append_nil]
    rfl
  | cons e es ih =>
    rw [List.foldlM_cons, h e List.mem_cons_self, bind_ok,
      ih (fun e' he' => h e' (List.mem_cons_of_mem _ he')), List.flatMap_cons, List.append_assoc]

/-- An entry that fails makes the loop fail. -/
theorem foldlM_fails {f : List Found → Entry → Except ScanFault (List Found)} {es : List Entry}
    {e : Entry} (he : e ∈ es) (h : ∀ calls calls', f calls e ≠ .ok calls') (calls calls' : List Found) :
    es.foldlM f calls ≠ .ok calls' := by
  induction es generalizing calls with
  | nil => cases he
  | cons e' es ih =>
    rw [List.foldlM_cons]
    intro hok
    obtain ⟨calls₁, h₁, hok⟩ := bind_eq_ok.mp hok
    rcases List.mem_cons.mp he with rfl | he
    · exact h _ _ h₁
    · exact ih he _ hok

/-- A table on the device is read entry by entry. -/
theorem readTableCalls_succ (n : Nat) (h : sector < block.size) :
    readTableCalls block (n + 1) sector prim calls =
      block.entries.foldlM (scanEntryCalls (readTableCalls block n) sector prim) calls := by
  have hread : blockRead block 0 = .ok (slice block.bytes 0 512) := if_neg (by omega)
  have hpos : 0 < block.size := by omega
  unfold readTableCalls Block.entries
  rw [if_neg (by omega), hread, bind_ok]
  by_cases hsig : tableSignature (slice block.bytes 0 512) = 0xaa55
  · rw [if_neg (not_not.mpr hsig), if_pos ⟨hpos, hsig⟩]
  · rw [if_pos hsig, if_neg fun h => hsig h.2]
    rfl

/-- A table off the device is not read. -/
theorem readTableCalls_off (n : Nat) (h : block.size ≤ sector) :
    readTableCalls block (n + 1) sector prim calls = .ok calls := if_pos h

/-- An entry is empty, a partition or an extended one. -/
theorem scanEntryCalls_eq (nested : Nat → Nat → List Found → Except ScanFault (List Found))
    (calls : List Found) (e : Entry) : scanEntryCalls nested sector prim calls e =
      if e.isPartition then
        .ok (calls ++ [⟨e.type, (e.offset + sector) % 2 ^ 32, e.size, calls.length + 1⟩])
      else if e.isExtended then
        if sector = 0 then nested e.offset e.offset calls
        else nested ((e.offset + prim) % 2 ^ 32) prim calls
      else .ok calls := by
  unfold scanEntryCalls Entry.isPartition Entry.isExtended
  by_cases hsize : e.size = 0
  · simp [hsize]
  · by_cases htype : e.type = 0
    · simp [htype]
    · cases hext : isExtended e.type <;> simp [hsize, htype]

/-- The table of an extended partition on the device, read as sector 0 over again. -/
theorem readTableCalls_moved (hoff : block.LeadsOff) {e : Entry} (he : e ∈ block.entries)
    (hext : e.isExtended) (hdev : e.offset < block.size) (n : Nat) (xs : List Listed) :
    readTableCalls block (n + 2) e.offset e.offset (numbered xs) =
      .ok (numbered (xs ++ block.moved e.offset)) := by
  have hoff' := hoff e he hext hdev
  have hne : e.offset ≠ 0 := by
    intro hzero
    have := hoff' e he hext
    rw [hzero] at this hdev
    omega
  rw [readTableCalls_succ _ hdev]
  refine foldlM_numbered (fun e' he' ys => ?_) xs
  rw [scanEntryCalls_eq]
  split
  · rw [numbered_append]
  · rw [List.append_nil]
    split
    next hext' => exact readTableCalls_off _ (hoff' e' he' hext')
    next => rfl

/-- If sector 0 leads off the device a scan ends, with the calls for sector 0 over again. -/
theorem scanCalls_ends (hoff : block.LeadsOff) (n : Nat) :
    scanCalls block (n + 3) = .ok (numbered block.overAgain) := by
  unfold scanCalls
  by_cases hpos : 0 < block.size
  · rw [readTableCalls_succ _ hpos]
    refine foldlM_numbered (fun e he ys => ?_) []
    rw [scanEntryCalls_eq]
    split
    · rw [numbered_append, Nat.add_zero]
    · by_cases hext : e.isExtended
      · rw [if_pos hext, if_pos rfl]
        by_cases hdev : e.offset < block.size
        · rw [if_pos ⟨hext, hdev⟩]
          exact readTableCalls_moved hoff he hext hdev n ys
        · rw [if_neg fun h => hdev h.2, List.append_nil]
          exact readTableCalls_off _ (by omega)
      · rw [if_neg hext, if_neg fun h => hext h.1, List.append_nil]
  · have hnone : block.entries = [] := if_neg fun h => hpos h.1
    unfold Block.overAgain
    rw [readTableCalls_off _ (by omega), hnone]
    rfl

/-- If it does not lead off the device a scan comes to the same table again and again. -/
theorem readTableCalls_forever {e e' : Entry} (he : e ∈ block.entries) (hext : e.isExtended)
    (hdev : e.offset < block.size) (he' : e' ∈ block.entries) (hext' : e'.isExtended)
    (hback : (e'.offset + e.offset) % 2 ^ 32 < block.size) (n : Nat) (hsector : sector < block.size)
    (hprim : sector = 0 ∨ prim = e.offset) (calls calls' : List Found) :
    readTableCalls block n sector prim calls ≠ .ok calls' := by
  induction n generalizing sector prim calls calls' with
  | zero => exact fun h => by cases h
  | succ n ih =>
    have hnot : ∀ {e : Entry}, e.isExtended → ¬ e.isPartition = true := by
      intro e hext hpart
      unfold Entry.isExtended Entry.isPartition at *
      simp_all
    rw [readTableCalls_succ _ hsector]
    by_cases hzero : sector = 0
    · refine foldlM_fails he (fun c c' => ?_) calls calls'
      rw [scanEntryCalls_eq, if_neg (hnot hext), if_pos hext, if_pos hzero]
      exact ih hdev (.inr rfl) c c'
    · refine foldlM_fails he' (fun c c' => ?_) calls calls'
      rw [scanEntryCalls_eq, if_neg (hnot hext'), if_pos hext', if_neg hzero,
        hprim.resolve_left hzero]
      exact ih hback (.inr rfl) c c'

/-- A scan ends where its chain leads off the device. -/
theorem leadsOff_of_ends {n : Nat} (h : scanCalls block n = .ok calls) : block.LeadsOff := by
  intro e he hext hdev e' he' hext'
  by_contra hback
  exact readTableCalls_forever he hext hdev he' hext' (by omega) n (by omega) (.inl rfl) [] calls h

/-- The number is given by the place. -/
theorem numbered_injective {xs ys : List Listed} (h : numbered xs = numbered ys) : xs = ys := by
  have hback : ∀ zs, (numbered zs).map (fun c => (⟨c.type, c.start, c.size⟩ : Listed)) = zs := by
    intro zs
    apply List.ext_getElem
    · simp [numbered]
    · intro i _ _
      simp [numbered]
  rw [← hback xs, h, hback]

/-- A scan ends and finds the partitions of well-formed tables: exactly when sector 0 over again
leads off the device, and well-formed tables list the partitions of sector 0 over again. -/
theorem scan_exact (block : Block) : ScansRight block ↔
    block.LeadsOff ∧ ∀ n xs, listed block n 0 0 = some xs → xs = block.overAgain := by
  constructor
  · rintro ⟨stack, calls, hends, hlisted⟩
    have hoff := leadsOff_of_ends (hends stack (le_refl _))
    have hcalls : calls = numbered block.overAgain := by
      have := hends (stack + 3) (by omega)
      rw [scanCalls_ends hoff] at this
      exact (Except.ok.inj this).symm
    refine ⟨hoff, fun n xs hxs => numbered_injective ?_⟩
    rw [← hcalls, hlisted n xs hxs]
  · rintro ⟨hoff, hlisted⟩
    refine ⟨3, numbered block.overAgain, fun n hn => ?_, fun n xs hxs => by rw [hlisted n xs hxs]⟩
    obtain ⟨k, rfl⟩ : ∃ k, n = k + 3 := ⟨n - 3, by omega⟩
    exact scanCalls_ends hoff k

/-- A sector with a partition table of one entry. -/
def oneEntry (type offset size : UInt8) : List UInt8 :=
  List.replicate 446 0 ++ [0, 0, 0, 0, type, 0, 0, 0, offset, 0, 0, 0, size, 0, 0, 0] ++
    List.replicate 48 0 ++ [0x55, 0xaa]

/-- A device of four sectors, with an extended partition in sectors 1 to 3 and in it a logical
partition of sector 2. -/
def extendedDisk : Block := ⟨4, oneEntry 0x05 1 3 ++ oneEntry 0x21 1 1 ++ List.replicate 1024 0⟩

/-- The tables of the device are well formed, and the scan does not end: the second table is read as
sector 0, with an extended partition in sector 2, and so is the third. -/
theorem extendedDisk_not_right :
    listed extendedDisk 2 0 0 = some [⟨0x21, 2, 1⟩] ∧ ¬ ScansRight extendedDisk := by
  refine ⟨by decide +kernel, fun ⟨stack, calls, hends, _⟩ => ?_⟩
  have he : (⟨0, 0x05, 1, 3⟩ : Entry) ∈ extendedDisk.entries := by decide +kernel
  have := leadsOff_of_ends (hends stack (le_refl _)) _ he (by decide) (by decide) _ he (by decide)
  exact absurd this (by decide)

/-! ## Devices without an extended partition -/

theorem mapM_eq_some {α β : Type} {f : α → Option β} {g : α → β} {l : List α}
    (h : ∀ x ∈ l, f x = some (g x)) : l.mapM f = some (l.map g) := by
  induction l with
  | nil => rfl
  | cons x l ih =>
    rw [List.mapM_cons, h x List.mem_cons_self, ih fun y hy => h y (List.mem_cons_of_mem _ hy)]
    rfl

/-- Without an extended partition in sector 0 a scan finds the partitions. -/
theorem scansRight_of_no_extended (h : ∀ e ∈ block.entries, e.isExtended = false) :
    ScansRight block := by
  rw [scan_exact]
  refine ⟨fun e he hext => absurd hext (by rw [h e he]; decide), fun n xs hxs => ?_⟩
  cases n with
  | zero => cases hxs
  | succ n =>
    unfold listed at hxs
    dsimp only at hxs
    split at hxs
    next => cases hxs
    next hgood =>
      rw [not_or, not_not, Nat.mul_zero] at hgood
      have hentries : block.entries = tableEntries (slice block.bytes 0 512) :=
        if_pos ⟨by omega, hgood.2⟩
      rw [Nat.mul_zero, ← hentries] at hxs
      have hlisted : ∀ e ∈ block.entries, listedEntry (listed block n) 0 0 e =
          some (if e.isPartition then [⟨e.type, e.offset % 2 ^ 32, e.size⟩] else []) := by
        intro e he
        have hlt : e.offset < 2 ^ 32 := by
          rw [hentries] at he
          obtain ⟨i, _, rfl⟩ := List.mem_map.mp he
          exact (tableEntry_lt _ i).1
        have hno := h e he
        unfold Entry.isExtended at hno
        unfold listedEntry Entry.isPartition
        by_cases hsize : e.size = 0
        · simp [hsize]
        · by_cases htype : e.type = 0
          · simp [htype]
          · have hext : isExtended e.type = false := by simpa [hsize, htype] using hno
            rw [if_neg (by omega), hext, if_neg Bool.false_ne_true, if_pos (by omega),
              Nat.mod_eq_of_lt hlt]
            simp [hsize, htype]
      rw [mapM_eq_some hlisted] at hxs
      cases hxs
      unfold Block.overAgain
      rw [List.flatMap_def]
      congr 1
      apply List.map_congr_left
      intro e he
      rw [h e he]
      simp

end Pintos.Devices
