import Pintos.Utils.PartitionTable

/-!
# The disk builder and its readers agree

`place` lays the partitions out one after another (`Contiguous`), `writeParts` puts the bytes of each
at its start, and `PartitionTable` reads the places back from the first sector. All of this holds for
every geometry; `assembled_agrees` is the whole. What `assemble_disk` makes of `GEOMETRY` is another
matter: `disk_agrees` says when it comes to that at all.
-/

namespace Pintos.Utils

open Pintos.Lib

/-! ## Copying -/

/-- The bytes of a part. -/
def Part.source (p : Part) : Bytes := (List.range p.bytes).map fun j => p.file.byte (p.offset + j)

/-- A file that has the bytes from `pos` on. -/
def SourceFile.Has (f : SourceFile) (pos bytes : Nat) : Prop := ∀ n, f.size = some n → pos + bytes ≤ n

/-- A file that has the bytes can be read. -/
theorem readFully_ok {f : SourceFile} {pos bytes : Nat} (h : f.Has pos bytes) :
    readFully f pos bytes = .ok ((List.range bytes).map fun j => f.byte (pos + j)) := by
  rw [readFully]
  cases hsize : f.size with
  | none => exact if_neg (not_not.mpr rfl)
  | some n =>
    have := h n hsize
    exact if_neg (not_not.mpr (Nat.min_eq_left (by omega)))

/-- `copy_file` writes the bytes asked for. -/
theorem copyFile_ok {f : SourceFile} {pos size : Nat} (h : f.Has pos size) :
    copyFile f pos size = .ok ((List.range size).map fun j => f.byte (pos + j)) := by
  induction size using Nat.strong_induction_on generalizing pos with
  | _ size ih =>
    by_cases h0 : size = 0
    · rw [copyFile, if_pos h0, h0]
      rfl
    · obtain ⟨chunk, hchunk⟩ : ∃ chunk, (if 4096 > size then size else 4096) = chunk := ⟨_, rfl⟩
      have hpos : 0 < chunk := by split at hchunk <;> omega
      obtain ⟨rest, rfl⟩ : ∃ rest, size = chunk + rest :=
        Nat.exists_eq_add_of_le (by split at hchunk <;> omega)
      have hfront : f.Has pos chunk := fun n hn => by have := h n hn; omega
      have hrest : f.Has (pos + chunk) rest := fun n hn => by have := h n hn; omega
      rw [copyFile, if_neg h0]
      simp only [hchunk, Nat.add_sub_cancel_left, readFully_ok hfront, bind_ok,
        ih rest (by omega) hrest]
      rw [List.range_add, List.map_append, List.map_map]
      simp only [Function.comp_def, Nat.add_assoc]
      rfl

theorem writeZeros_eq (size : Nat) : writeZeros size = List.replicate size 0 := by
  induction size using Nat.strong_induction_on with
  | _ size ih =>
    by_cases h0 : size = 0
    · rw [writeZeros, if_pos h0, h0]
      rfl
    · obtain ⟨chunk, hchunk⟩ : ∃ chunk, (if 4096 > size then size else 4096) = chunk := ⟨_, rfl⟩
      have hpos : 0 < chunk := by split at hchunk <;> omega
      have hle : chunk ≤ size := by split at hchunk <;> omega
      rw [writeZeros, if_neg h0]
      simp only [hchunk, ih (size - chunk) (by omega), List.replicate_append_replicate,
        Nat.add_sub_cancel' hle]

/-! ## Places -/

/-- A quotient is rounded up. -/
theorem divRoundUp_ok {x y : Nat} (hy : 0 < y) : divRoundUp x y = .ok ((x + y - 1) / y) :=
  if_neg (by omega)

/-- What is rounded up is no less. -/
theorem roundUp_ok {x y : Nat} (hy : 0 < y) : ∃ n, roundUp x y = .ok n ∧ x ≤ n := by
  refine ⟨(x + y - 1) / y * y, by rw [roundUp, divRoundUp_ok hy]; rfl, ?_⟩
  have hdiv := Nat.div_add_mod (x + y - 1) y
  have hmod := Nat.mod_lt (x + y - 1) hy
  rw [Nat.mul_comm] at hdiv
  omega

/-- The aligned end of a partition is no less than its end. -/
theorem alignEnd_ok {g : Geometry} (hcyl : 0 < cylSectors g) (align : Bool) (x : Nat) :
    ∃ n, alignEnd g align x = .ok n ∧ x ≤ n := by
  cases align with
  | true => exact roundUp_ok hcyl
  | false => exact ⟨x, rfl, le_refl x⟩

/-- Partitions that lie one after another from a sector to another, with room for their bytes. -/
def Contiguous : Nat → List Placed → Nat → Prop
  | total, [], last => last = total
  | total, p :: ps, last =>
    p.start = total ∧ p.part.bytes ≤ 512 * p.sectors ∧ 0 < p.sectors ∧
      Contiguous (total + p.sectors) ps last

/-- The partitions end where the last ends. -/
theorem Contiguous.le {ps : List Placed} : ∀ {total last : Nat}, Contiguous total ps last →
    total ≤ last := by
  induction ps with
  | nil =>
    intro total last h
    exact h.ge
  | cons p ps ih =>
    intro total last h
    have := ih h.2.2.2
    omega

/-- Each partition lies between the two ends. -/
theorem Contiguous.mem {ps : List Placed} : ∀ {total last : Nat}, Contiguous total ps last →
    ∀ p ∈ ps, total ≤ p.start ∧ p.start + p.sectors ≤ last ∧ 0 < p.sectors := by
  induction ps with
  | nil => simp
  | cons p ps ih =>
    intro total last h q hq
    have hle := h.2.2.2.le
    rcases List.mem_cons.mp hq with rfl | hq
    · exact ⟨h.1.ge, by rw [h.1]; exact hle, h.2.2.1⟩
    · obtain ⟨hstart, hend⟩ := ih h.2.2.2 q hq
      exact ⟨by omega, hend⟩

/-- And before the ones after it. -/
theorem Contiguous.pairwise {ps : List Placed} : ∀ {total last : Nat}, Contiguous total ps last →
    ps.Pairwise fun p q => p.start + p.sectors ≤ q.start := by
  induction ps with
  | nil => simp
  | cons p ps ih =>
    intro total last h
    refine .cons (fun q hq => ?_) (ih h.2.2.2)
    rw [h.1]
    exact (h.2.2.2.mem q hq).1

/-- Each has room for its bytes. -/
theorem Contiguous.room {ps : List Placed} : ∀ {total last : Nat}, Contiguous total ps last →
    ∀ p ∈ ps, p.part.bytes ≤ 512 * p.sectors := by
  induction ps with
  | nil => simp
  | cons p ps ih =>
    intro total last h q hq
    rcases List.mem_cons.mp hq with rfl | hq
    · exact h.2.1
    · exact ih h.2.2.2 q hq

/-- The parts can be laid out: they have bytes and have not been placed before. -/
def Placeable (parts : Role → Option Part) : Prop :=
  ∀ role p, parts role = some p → 0 < p.bytes ∧ truthy p.disk = false

/-- `place` lays out the parts there are, in order. -/
theorem place_ok {g : Geometry} (align : Bool) (hcyl : 0 < cylSectors g)
    {parts : Role → Option Part} (hparts : Placeable parts) (roles : List Role) (total : Nat) :
    ∃ last ps, place g align parts roles total = .ok (last, ps) ∧ Contiguous total ps last ∧
      ps.map Placed.role = roles.filter (fun role => (parts role).isSome) ∧
      ∀ p ∈ ps, parts p.role = some p.part := by
  induction roles generalizing total with
  | nil => exact ⟨total, [], rfl, rfl, rfl, by simp⟩
  | cons role roles ih =>
    cases hp : parts role with
    | none =>
      obtain ⟨last, ps, heq, hps⟩ := ih total
      refine ⟨last, ps, by rw [place, hp]; exact heq, hps.1, ?_, hps.2.2⟩
      rw [hps.2.1, List.filter_cons_of_neg (by simp [hp])]
    | some p =>
      obtain ⟨hbytes, hdisk⟩ := hparts role p hp
      obtain ⟨fin, hfin, hle⟩ := alignEnd_ok hcyl align (total + (p.bytes + 512 - 1) / 512)
      obtain ⟨last, ps, heq, hcont, hroles, hmem⟩ := ih fin
      refine ⟨last, { role := role, part := p, start := total, sectors := fin - total } :: ps,
        ?_, ⟨rfl, ?_, ?_, ?_⟩, ?_, ?_⟩
      · rw [place, hp]
        simp only [hdisk, divRoundUp_ok (show 0 < 512 by decide), bind_ok, hfin, heq]
        rfl
      · show p.bytes ≤ 512 * (fin - total)
        omega
      · show 0 < fin - total
        omega
      · rwa [Nat.add_sub_cancel' (by omega)]
      · rw [List.map_cons, hroles, List.filter_cons_of_pos (by simp [hp])]
      · intro q hq
        rcases List.mem_cons.mp hq with rfl | hq
        · exact hp
        · exact hmem q hq

/-- The bytes of the partitions: as long as the sectors are, with each source at its start. -/
theorem writeParts_ok {ps : List Placed} (hfile : ∀ p ∈ ps, p.part.file.Has p.part.offset p.part.bytes) :
    ∀ {total last : Nat}, Contiguous total ps last →
    ∃ body, writeParts ps = .ok body ∧ body.length = 512 * (last - total) ∧
      ∀ p ∈ ps, slice body (512 * (p.start - total)) p.part.bytes = p.part.source := by
  induction ps with
  | nil =>
    intro total last h
    refine ⟨[], rfl, ?_, by simp⟩
    rw [show last = total from h]
    simp
  | cons p ps ih =>
    intro total last h
    obtain ⟨hstart, hroom, -, hcont⟩ := h
    obtain ⟨rest, hrest, hlen, hmem⟩ := ih (fun q hq => hfile q (by simp [hq])) hcont
    have hsource : p.part.source.length = p.part.bytes := by simp [Part.source]
    have hfront : (p.part.source ++ writeZeros (p.sectors * 512 - p.part.bytes)).length =
        512 * p.sectors := by
      rw [List.length_append, hsource, writeZeros_eq, List.length_replicate]
      omega
    refine ⟨p.part.source ++ writeZeros (p.sectors * 512 - p.part.bytes) ++ rest, ?_, ?_, ?_⟩
    · rw [writeParts, copyFile_ok (hfile p (by simp)), bind_ok, hrest, bind_ok]
      rfl
    · have := hcont.le
      rw [List.length_append, hfront, hlen]
      omega
    · intro q hq
      rcases List.mem_cons.mp hq with rfl | hq
      · rw [hstart, Nat.sub_self, List.append_assoc, ← hsource]
        exact slice_append_self _ _
      · have := (hcont.mem q hq).1
        rw [slice_append_right (by omega), hfront, ← hmem q hq]
        congr 1
        omega

/-! ## The whole disk -/

/-- What is asked of the arguments: roles with bytes that can be read, a way to align, a disk with a
partition table, a command line that has its place, and for every geometry that is named bounds. -/
structure WellFormed (args : Args) : Prop where
  nonempty : ∃ role, (args.parts role).isSome
  placeable : Placeable args.parts
  readable : ∀ role p, args.parts role = some p → p.file.Has p.offset p.bytes
  align : args.align ∈ [none, some "bochs", some "full", some "none"]
  format : partitioned args = .ok true
  commandLine : (args.args.flatMap fun arg => arg ++ [0]).length ≤ 128

/-- The roles there are. -/
def Args.roles (args : Args) : List Role := roleOrder.filter fun role => (args.parts role).isSome

/-- The disk as a device. -/
def Assembled.device (d : Assembled) : Devices.Block :=
  { size := d.bytes.length / 512, bytes := d.bytes }

/-- The disk and its readers agree. -/
structure Agrees (g : Geometry) (args : Args) (d : Assembled) : Prop where
  /-- Each part that was given has its place. -/
  roles : d.parts.map Placed.role = args.roles
  parts : ∀ p ∈ d.parts, args.parts p.role = some p.part
  /-- The disk starts with a master boot record of 512 bytes. -/
  mbr : ∃ mbr, makeMbr g args d.parts = .ok mbr ∧ mbr.length = 512 ∧ mbr <+: d.bytes
  /-- `interpret_partition_table` finds the places. -/
  interpreted : ∀ name, readPartitionTable name d.bytes =
    .ok { parts := d.parts.map Placed.found, warnings := [] }
  /-- So does the kernel. -/
  scanned : ∀ stack, Devices.partitionScan d.device (stack + 1) =
    .ok { partNr := d.parts.length, blocks := d.parts.mapIdx Placed.registered, messages := [] }
  /-- No two partitions share a sector. -/
  disjoint : d.parts.Pairwise fun p q => p.start + p.sectors ≤ q.start
  afterMbr : ∀ p ∈ d.parts, 1 ≤ p.start
  inside : ∀ p ∈ d.parts, 512 * (p.start + p.sectors) ≤ d.bytes.length
  room : ∀ p ∈ d.parts, p.part.bytes ≤ 512 * p.sectors
  /-- The bytes of the source are at the start of its partition. -/
  source : ∀ p ∈ d.parts, slice d.bytes (512 * p.start) p.part.bytes = p.part.source

/-- The sectors of the disk with a given geometry. -/
def sectorsOf (g : Geometry) (args : Args) : Except Die Nat := do
  let (align, pad) ← alignment args.align
  let isPartitioned ← partitioned args
  let (total, _) ← place g align args.parts roleOrder (firstSector g isPartitioned align)
  diskSectors g pad total

/-- The three names and none are alignments. -/
theorem alignment_ok {align : Option String}
    (h : align ∈ [none, some "bochs", some "full", some "none"]) :
    ∃ a p, alignment align = .ok (a, p) := by
  simp only [List.mem_cons, List.not_mem_nil, or_false] at h
  rcases h with rfl | rfl | rfl | rfl <;> exact ⟨_, _, rfl⟩

/-- The disk holds what was placed. -/
theorem diskSectors_ok {g : Geometry} (hcyl : 0 < cylSectors g) (pad : Bool) (total : Nat) :
    ∃ n, diskSectors g pad total = .ok n ∧ total ≤ n := by
  cases pad with
  | true => exact roundUp_ok hcyl
  | false => exact ⟨total, rfl, le_refl total⟩

/-- The first sector is written, and what stands between it and the first partition. -/
theorem writeHead_ok {g : Geometry} (hH : 0 < num g.H) (hS : 0 < num g.S) (hS' : num g.S ≤ 63)
    {args : Args} (hargs : (args.args.flatMap fun arg => arg ++ [0]).length ≤ 128) (align : Bool)
    {ps : List Placed} (hps : ps.length ≤ 4) :
    ∃ mbr rest, makeMbr g args ps = .ok mbr ∧ MbrOf ps mbr ∧
      writeHead g args true align ps = .ok (mbr ++ rest) ∧
      (mbr ++ rest).length = 512 * firstSector g true align := by
  obtain ⟨mbr, hmbr, hof⟩ := makeMbr_ok hH hS hS' hargs hps
  refine ⟨mbr, _, hmbr, hof, by rw [writeHead, if_pos rfl, hmbr]; rfl, ?_⟩
  rw [List.length_append, hof.length]
  cases align with
  | true =>
    show 512 + (writeZeros (512 * (num g.S - 1))).length = 512 * num g.S
    rw [writeZeros_eq, List.length_replicate]
    omega
  | false => rfl

/-- Whatever the geometry, the disk built for it and its readers agree. -/
theorem assembled_agrees {g : Geometry} (hH : 0 < num g.H) (hS : 0 < num g.S) (hS' : num g.S ≤ 63)
    {args : Args} (h : WellFormed args) (hfits : ∀ n, sectorsOf g args = .ok n → n < 2 ^ 32) :
    ∃ d, assembleWith g args = .ok d ∧ Agrees g args d := by
  have hcyl : 0 < cylSectors g := Nat.mul_pos hH hS
  obtain ⟨align, pad, halign⟩ := alignment_ok h.align
  obtain ⟨last, ps, hplace, hcont, hroles, hparts⟩ :=
    place_ok align hcyl h.placeable roleOrder (firstSector g true align)
  have hlen : ps.length ≤ 4 := by
    have := congrArg List.length hroles
    rw [List.length_map] at this
    rw [this]
    exact List.length_filter_le _ roleOrder
  obtain ⟨mbr, rest, hmbr, hof, hhead, hheadLen⟩ := writeHead_ok hH hS hS' h.commandLine align hlen
  obtain ⟨body, hbody, hbodyLen, hsource⟩ :=
    writeParts_ok (fun p hp => h.readable p.role p.part (hparts p hp)) hcont
  obtain ⟨sectors, hsectors, hle⟩ := diskSectors_ok hcyl pad last
  have hlt : sectors < 2 ^ 32 := by
    refine hfits sectors ?_
    simp only [sectorsOf, halign, h.format, bind_ok, hplace, hsectors]
  have hfirst : 1 ≤ firstSector g true align := by
    cases align with
    | true => exact hS
    | false => exact le_refl 1
  have hread : Readable ps := by
    refine ⟨?_, hlen, ?_, fun p hp => (hcont.mem p hp).2.2, ?_⟩
    · rw [hroles]
      exact List.Nodup.filter _ (by decide)
    · intro p hp
      have := (hcont.mem p hp).1
      omega
    · intro p hp
      have := (hcont.mem p hp).2.1
      omega
  obtain ⟨bytes, hbytes⟩ : ∃ bytes, (mbr ++ rest) ++ body ++ writeZeros ((sectors - last) * 512) =
    bytes := ⟨_, rfl⟩
  have hlast := hcont.le
  have hbytesLen : bytes.length = 512 * sectors := by
    rw [← hbytes, List.length_append, List.length_append, hheadLen, hbodyLen, writeZeros_eq,
      List.length_replicate]
    omega
  have hmbrSlice : slice bytes 0 512 = mbr := by
    rw [← hbytes, ← hof.length, List.append_assoc, List.append_assoc]
    exact slice_append_self _ _
  have hne : ps ≠ [] := by
    obtain ⟨role, hrole⟩ := h.nonempty
    have hmem : role ∈ ps.map Placed.role := by
      rw [hroles]
      exact List.mem_filter.mpr ⟨by cases role <;> decide, hrole⟩
    rintro rfl
    exact List.not_mem_nil hmem
  have hsectorsPos : 1 ≤ sectors := by omega
  refine ⟨{ bytes := bytes, parts := ps }, ?_, ?_⟩
  · simp only [assembleWith, halign, h.format, bind_ok, hplace, hhead, hbody, hsectors, hbytes]
    rfl
  have hdevice : (Assembled.device { bytes := bytes, parts := ps }).size = sectors := by
    show bytes.length / 512 = sectors
    omega
  refine ⟨hroles, hparts, ⟨mbr, hmbr, hof.length, ?_⟩, fun name => ?_, fun stack => ?_,
    hcont.pairwise, hread.start, fun p hp => ?_, hcont.room, fun p hp => ?_⟩
  · rw [← hmbrSlice]
    exact List.take_prefix 512 bytes
  · have hmbrRead : readMbr name bytes = .ok (some mbr) := by
      rw [readMbr, if_neg (by omega), if_pos (by omega), hmbrSlice, if_pos hof.signature]
    simp only [readPartitionTable, hmbrRead, bind_ok, interpretPartitionTable_mbr hof hread]
  · refine partitionScan_mbr hne (hmbrSlice.symm ▸ hof) hread (fun p hp => ?_) stack
    rw [hdevice]
    exact (hcont.mem p hp).2.1.trans hle
  · have := (hcont.mem p hp).2.1
    show _ ≤ bytes.length
    omega
  · have hstart := (hcont.mem p hp).1
    have hend := (hcont.mem p hp).2.1
    have hroom := hcont.room p hp
    rw [← hsource p hp, ← hbytes, slice_append_left, slice_append_right (by omega), hheadLen,
      Nat.mul_sub]
    rw [List.length_append, hheadLen, hbodyLen]
    omega

/-! ## `GEOMETRY` -/

/-- The geometry the comment on `assemble_disk` promises: what is named, or else the default. -/
def GeometryArg.documented : GeometryArg → Geometry
  | .ref H S => { H := some H, S := some S }
  | _ => { H := some 16, S := some 63 }

/-- A geometry with at most 255 heads and 63 sectors per track, if one is named. -/
def GeometryArg.Bounded : GeometryArg → Prop
  | .ref H S => (0 < H ∧ H ≤ 255) ∧ 0 < S ∧ S ≤ 63
  | _ => True

/-- The partitions are those that were given, in the order of the roles. -/
theorem place_roles {g : Geometry} {align : Bool} {parts : Role → Option Part} {roles : List Role} :
    ∀ {total last : Nat} {ps : List Placed}, place g align parts roles total = .ok (last, ps) →
      ps.map Placed.role = roles.filter fun role => (parts role).isSome := by
  induction roles with
  | nil =>
    intro total last ps h
    cases h
    rfl
  | cons role roles ih =>
    intro total last ps h
    cases hp : parts role with
    | none =>
      rw [place, hp] at h
      rw [ih h, List.filter_cons_of_neg (by simp [hp])]
    | some p =>
      rw [place, hp] at h
      simp only at h
      split at h
      · cases h
      · obtain ⟨_, -, h⟩ := bind_eq_ok.mp h
        obtain ⟨_, -, h⟩ := bind_eq_ok.mp h
        obtain ⟨⟨_, rest⟩, hrest, h⟩ := bind_eq_ok.mp h
        cases h
        rw [List.map_cons, ih hrest, List.filter_cons_of_pos (by simp [hp])]

/-- Without heads and sectors there is no disk: no address of a sector can be packed. -/
theorem assembleWith_none {args : Args} (h : WellFormed args) (d : Assembled) :
    assembleWith { H := none, S := none } args ≠ .ok d := by
  intro hd
  obtain ⟨align, pad, halign⟩ := alignment_ok h.align
  simp only [assembleWith, halign, h.format, bind_ok] at hd
  obtain ⟨⟨last, ps⟩, hplace, hd⟩ := bind_eq_ok.mp hd
  obtain ⟨head, hhead, -⟩ := bind_eq_ok.mp hd
  rw [writeHead, if_pos rfl] at hhead
  obtain ⟨mbr, hmbr, -⟩ := bind_eq_ok.mp hhead
  obtain ⟨_, -, hmbr⟩ := bind_eq_ok.mp hmbr
  obtain ⟨_, htable, -⟩ := bind_eq_ok.mp hmbr
  obtain ⟨role, hrole⟩ := h.nonempty
  have hmem : role ∈ ps.map Placed.role := by
    rw [place_roles hplace]
    exact List.mem_filter.mpr ⟨by cases role <;> decide, hrole⟩
  cases ps with
  | nil => exact List.not_mem_nil hmem
  | cons p ps => cases htable

/-- Without an argument the geometry is the documented one. -/
theorem GeometryArg.documented_eq {arg : GeometryArg} (h : arg.given = false) :
    geometryOf arg = arg.documented := by
  cases arg with
  | undef => rfl
  | ref H S => cases h
  | count n => exact if_neg (by rw [h]; decide)

/-- Its numbers have room in their bytes. -/
theorem GeometryArg.Bounded.documented {arg : GeometryArg} (h : arg.Bounded) :
    0 < num arg.documented.H ∧ 0 < num arg.documented.S ∧ num arg.documented.S ≤ 63 := by
  have hdefault : 0 < num (some 16) ∧ 0 < num (some 63) ∧ num (some 63) ≤ 63 := by decide
  cases arg with
  | undef => exact hdefault
  | ref H S => exact ⟨h.1.1, h.2.1, h.2.2⟩
  | count n => exact hdefault

/-- With the geometry asked for the disk and its readers agree, and `assemble_disk` builds such a
disk exactly when `GEOMETRY` is not given. -/
theorem disk_agrees {args : Args} (h : WellFormed args) (hbounded : args.geometry.Bounded)
    (hfits : ∀ n, sectorsOf args.geometry.documented args = .ok n → n < 2 ^ 32) :
    (∃ d, assembleWith args.geometry.documented args = .ok d ∧
      Agrees args.geometry.documented args d) ∧
    ((∃ d, assembleDisk args = .ok d ∧ Agrees args.geometry.documented args d) ↔
      args.geometry.given = false) := by
  have hwith : ∃ d, assembleWith args.geometry.documented args = .ok d ∧
      Agrees args.geometry.documented args d := by
    obtain ⟨hH, hS, hS'⟩ := hbounded.documented
    exact assembled_agrees hH hS hS' h hfits
  refine ⟨hwith, ?_, ?_⟩
  · rintro ⟨d, hd, -⟩
    by_contra hgiven
    rw [assembleDisk, geometryOf, if_pos (by simpa using hgiven)] at hd
    exact assembleWith_none h d hd
  · intro hgiven
    rw [assembleDisk, GeometryArg.documented_eq hgiven]
    exact hwith

/-- A file system of a sector of zeros. -/
def zeroArgs (geometry : GeometryArg) : Args :=
  { parts := fun role => if role = .filesys then
      some { file := { name := "/dev/zero", size := none, byte := fun _ => 0 }, offset := 0
             bytes := 512, disk := none } else none
    disk := "fs.dsk", align := none, geometry := geometry, format := some "partitioned"
    loader := none, args := [] }

/-- The sample is a disk that can be made. -/
theorem zeroArgs_wellFormed (geometry : GeometryArg) : WellFormed (zeroArgs geometry) := by
  refine ⟨⟨.filesys, rfl⟩, ?_, ?_, by simp [zeroArgs], rfl, Nat.zero_le 128⟩
  · rintro role p hp
    cases role <;> cases hp
    exact ⟨by decide, rfl⟩
  · rintro role p hp n hn
    cases role <;> cases hp
    cases hn

/-- With the default geometry it is as documented. -/
theorem disk_agrees_default :
    ∃ d, assembleDisk (zeroArgs .undef) = .ok d ∧
      Agrees { H := some 16, S := some 63 } (zeroArgs .undef) d := by
  refine (disk_agrees (zeroArgs_wellFormed .undef) trivial fun n hn => ?_).2.mpr rfl
  have : sectorsOf (zeroArgs .undef).geometry.documented (zeroArgs .undef) = .ok 1008 := rfl
  cases this.symm.trans hn
  decide

/-- With the 64 heads and 32 sectors of a Zip disk `assemble_disk` dies. -/
theorem zip_geometry_dies :
    WellFormed (zeroArgs (.ref 64 32)) ∧ (GeometryArg.ref 64 32).Bounded ∧
      sectorsOf (GeometryArg.ref 64 32).documented (zeroArgs (.ref 64 32)) = .ok 2048 ∧
      assembleDisk (zeroArgs (.ref 64 32)) = .error "Illegal division by zero" :=
  ⟨zeroArgs_wellFormed _, by simp [GeometryArg.Bounded], rfl, rfl⟩

end Pintos.Utils
