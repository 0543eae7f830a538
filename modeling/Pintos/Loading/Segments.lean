import Pintos.Loading.Elf

/-!
# An accepted segment is loaded exactly

`Accepted` is what the checks of `validate_segment` come to in numbers. Under it nothing in `load`
wraps around, so that `load_segment` is called for the pages that the segment covers, and
`loadPages_loaded` says what its loop does to them.
-/

namespace Pintos.Loading

open Pintos.Lib Pintos.Vm

variable {file : ExecFile} {phdr : Phdr} {m m' : UserSpace} {env : SegmentEnv}

/-! ## Words -/

/-- The offset on a page. -/
theorem toNat_pgMask (x : UInt32) : (x &&& pgMask).toNat = x.toNat % 4096 := by
  rw [UInt32.toNat_and]
  exact Nat.and_two_pow_sub_one_eq_mod x.toNat 12

/-- The start of the page. -/
theorem toNat_not_pgMask (x : UInt32) : (x &&& ~~~pgMask).toNat = x.toNat / 4096 * 4096 := by
  rw [UInt32.toNat_and]
  have hmask : (~~~pgMask).toNat = (2 ^ 20 - 1) * 2 ^ 12 := by decide
  rw [hmask]
  apply Nat.eq_of_testBit_eq
  intro i
  have hx := x.toNat_lt
  rw [show (4096 : Nat) = 2 ^ 12 from rfl, Nat.testBit_and, Nat.testBit_mul_two_pow,
    Nat.testBit_mul_two_pow, Nat.testBit_div_two_pow, Nat.testBit_two_pow_sub_one]
  by_cases hlow : 12 ≤ i
  · rw [Nat.sub_add_cancel hlow]
    by_cases hhigh : i - 12 < 20
    · simp [hlow, hhigh]
    · have : x.toNat.testBit i = false := Nat.testBit_lt_two_pow
        (lt_of_lt_of_le hx (Nat.pow_le_pow_right (by decide) (by omega)))
      simp [this]
  · simp [hlow]

/-- The next page, where the sum does not wrap. -/
theorem toNat_roundUp {x : UInt32} (h : x.toNat + 4096 < 2 ^ 32) :
    (roundUp x pgSize).toNat = (x.toNat + 4095) / 4096 * 4096 := by
  have hstep : pgSize.toNat = 4096 := rfl
  have hsum : (x + pgSize).toNat = x.toNat + 4096 := by
    rw [UInt32.toNat_add, hstep]
    omega
  have hpred : (x + pgSize - 1).toNat = x.toNat + 4095 := by
    rw [UInt32.toNat_sub_of_le _ _ (by rw [UInt32.le_iff_toNat_le, hsum]; simp), hsum]
    rfl
  unfold roundUp
  rw [UInt32.toNat_mul, UInt32.toNat_div, hpred, hstep]
  omega

/-! ## What `validate_segment` accepts -/

/-- The checks of `validate_segment`, in numbers. -/
structure Accepted (phdr : Phdr) (file : ExecFile) : Prop where
  sameOfs : phdr.pOffset.toNat % 4096 = phdr.pVaddr.toNat % 4096
  inFile : phdr.pOffset.toNat ≤ file.bytes.length
  filesz_le : phdr.pFilesz.toNat ≤ phdr.pMemsz.toNat
  memsz_pos : 0 < phdr.pMemsz.toNat
  low : 4096 ≤ phdr.pVaddr.toNat
  high : phdr.pVaddr.toNat + phdr.pMemsz.toNat < physBaseAddr

/-- User addresses are below `PHYS_BASE`. -/
theorem isUserVaddr_iff (a : UInt32) : isUserVaddr a = true ↔ a.toNat < physBaseAddr := by
  unfold isUserVaddr
  rw [decide_eq_true_eq, UInt32.lt_iff_toNat_lt]
  rfl

/-- `validate_segment` accepts what the claim does. -/
theorem validateSegment_iff : validateSegment phdr file = true ↔ Accepted phdr file := by
  have hlen : (UInt32.ofNat file.bytes.length).toNat = file.bytes.length :=
    UInt32.toNat_ofNat_of_lt' (lt_trans file.short (by decide))
  have hbase : physBaseAddr = 0xC0000000 := rfl
  have hsize : pgSize.toNat = 4096 := rfl
  have hvaddr := phdr.pVaddr.toNat_lt
  have hmemsz := phdr.pMemsz.toNat_lt
  have hsum := UInt32.toNat_add phdr.pVaddr phdr.pMemsz
  unfold validateSegment
  simp only [ne_eq, ← UInt32.toNat_inj, toNat_pgMask, UInt32.lt_iff_toNat_lt, hlen, hsize, hsum,
    UInt32.toNat_zero, Bool.not_eq_true', ← Bool.not_eq_true, isUserVaddr_iff]
  constructor
  · intro h
    split_ifs at h
    constructor <;> omega
  · rintro ⟨hofs, hfile, hfilesz, hpos, hlow, hhigh⟩
    repeat rw [if_neg (by omega)]

/-! ## What `load` asks for -/

/-- The pages that cover `[p_vaddr, p_vaddr + p_memsz)`. -/
def Phdr.Covers (phdr : Phdr) (u : Nat) : Prop :=
  phdr.pVaddr.toNat < 4096 * (u + 1) ∧ 4096 * u < phdr.pVaddr.toNat + phdr.pMemsz.toNat

/-- How many pages the segment covers. -/
def Phdr.pages (phdr : Phdr) : Nat :=
  (phdr.pVaddr.toNat % 4096 + phdr.pMemsz.toNat + 4095) / 4096

/-- The pages of a segment follow each other. -/
theorem covers_iff (h : Accepted phdr file) (u : Nat) : phdr.Covers u ↔
    phdr.pVaddr.toNat / 4096 ≤ u ∧ u < phdr.pVaddr.toNat / 4096 + phdr.pages := by
  obtain ⟨_, _, _, hpos, _, _⟩ := h
  unfold Phdr.Covers Phdr.pages
  omega

/-- A segment covers neither the first page nor the kernel's. -/
theorem covers_user (h : Accepted phdr file) {u : Nat} (hu : phdr.Covers u) :
    1 ≤ u ∧ u < 0xC0000 := by
  obtain ⟨_, _, _, _, hlow, hhigh⟩ := h
  unfold Phdr.Covers at hu
  unfold physBaseAddr at hhigh
  omega

/-- The computations of `read_bytes` and `zero_bytes` are exact. -/
structure Exact (phdr : Phdr) : Prop where
  readSum : phdr.pVaddr.toNat % 4096 + phdr.pFilesz.toNat < 2 ^ 32
  memSum : phdr.pVaddr.toNat % 4096 + phdr.pMemsz.toNat + 4096 < 2 ^ 32
  readBytes : phdr.segment.readBytes.toNat =
    if 0 < phdr.pFilesz.toNat then phdr.pVaddr.toNat % 4096 + phdr.pFilesz.toNat else 0
  rounded : (roundUp ((phdr.pVaddr &&& pgMask) + phdr.pMemsz) pgSize).toNat = 4096 * phdr.pages
  read_le : phdr.segment.readBytes.toNat ≤ 4096 * phdr.pages
  zeroBytes : phdr.segment.zeroBytes.toNat = 4096 * phdr.pages - phdr.segment.readBytes.toNat

/-- Its numbers do not wrap. -/
theorem exact_of_accepted (h : Accepted phdr file) : Exact phdr := by
  obtain ⟨_, _, hle, hpos, _, hhigh⟩ := h
  unfold physBaseAddr at hhigh
  have hmem : ((phdr.pVaddr &&& pgMask) + phdr.pMemsz).toNat =
      phdr.pVaddr.toNat % 4096 + phdr.pMemsz.toNat := by
    rw [UInt32.toNat_add, toNat_pgMask]
    omega
  have hread : ((phdr.pVaddr &&& pgMask) + phdr.pFilesz).toNat =
      phdr.pVaddr.toNat % 4096 + phdr.pFilesz.toNat := by
    rw [UInt32.toNat_add, toNat_pgMask]
    omega
  have hround : (roundUp ((phdr.pVaddr &&& pgMask) + phdr.pMemsz) pgSize).toNat =
      4096 * phdr.pages := by
    rw [toNat_roundUp (by omega), hmem, Nat.mul_comm]
    rfl
  have hpages : phdr.pVaddr.toNat % 4096 + phdr.pMemsz.toNat ≤ 4096 * phdr.pages := by
    unfold Phdr.pages
    omega
  have hiff : 0 < phdr.pFilesz ↔ 0 < phdr.pFilesz.toNat := UInt32.lt_iff_toNat_lt
  have hbytes : phdr.segment.readBytes.toNat =
      if 0 < phdr.pFilesz.toNat then phdr.pVaddr.toNat % 4096 + phdr.pFilesz.toNat else 0 := by
    simp only [Phdr.segment, hiff]
    split
    · exact hread
    · rfl
  have hbytes_le : phdr.segment.readBytes.toNat ≤ 4096 * phdr.pages := by
    rw [hbytes]
    split <;> omega
  constructor
  case readSum => omega
  case memSum => omega
  case readBytes => exact hbytes
  case rounded => exact hround
  case read_le => exact hbytes_le
  case zeroBytes =>
    rw [hbytes] at hbytes_le ⊢
    simp only [Phdr.segment, hiff]
    split
    next hfile =>
      rw [if_pos hfile] at hbytes_le
      rw [UInt32.toNat_sub_of_le _ _ (by rw [UInt32.le_iff_toNat_le, hround, hread]; exact hbytes_le),
        hround, hread]
    next => rw [hround, Nat.sub_zero]

/-- The position that `load_segment` seeks. -/
theorem offT_filePage (h : Accepted phdr file) :
    offT phdr.segment.filePage = (phdr.pOffset.toNat / 4096 * 4096 : Nat) := by
  have hofs : phdr.segment.filePage.toNat = phdr.pOffset.toNat / 4096 * 4096 := toNat_not_pgMask _
  have hfile := h.inFile
  have hshort := file.short
  unfold offT
  rw [hofs, Int.bmod_eq_of_le (by omega) (by omega)]

/-- The assertions of `load_segment` hold of a segment that is accepted. -/
theorem asserts_of_accepted (h : Accepted phdr file) :
    segmentAsserts (offT phdr.segment.filePage) phdr.segment.memPage phdr.segment.readBytes
      phdr.segment.zeroBytes = true := by
  have hle := (exact_of_accepted h).read_le
  have hzero := (exact_of_accepted h).zeroBytes
  have hsum : (phdr.segment.readBytes + phdr.segment.zeroBytes).toNat =
      4096 * phdr.pages % 2 ^ 32 := by
    rw [UInt32.toNat_add, hzero, Nat.add_sub_cancel' hle]
  have hpage : phdr.segment.memPage.toNat = phdr.pVaddr.toNat / 4096 * 4096 := toNat_not_pgMask _
  have hsize : pgSize.toNat = 4096 := rfl
  unfold segmentAsserts
  rw [Bool.and_eq_true, Bool.and_eq_true]
  refine ⟨⟨beq_iff_eq.mpr ?_, beq_iff_eq.mpr ?_⟩, beq_iff_eq.mpr ?_⟩
  · rw [← UInt32.toNat_inj, UInt32.toNat_mod, hsum, hsize, UInt32.toNat_zero]
    omega
  · rw [← UInt32.toNat_inj, toNat_pgMask, hpage, UInt32.toNat_zero]
    omega
  · rw [offT_filePage h, Int.tmod_eq_emod_of_nonneg (by omega)]
    omega

/-! ## The loop -/

/-- What the `j`th page holds when `read` bytes are taken from `pos` on. -/
def pageContent (bytes : List UInt8) (pos read j : Nat) : Content := fun i =>
  if 4096 * j + i < read then bytes.getD (pos + (4096 * j + i)) 0 else 0

/-- The first page has its bytes from the file, and zeros behind them. -/
theorem pageContent_zero (c : Content) {bytes : List UInt8} {pos read n : Nat}
    (hn : n = min read 4096) (hlen : (slice bytes pos n).length = n) :
    putBytes (putBytes c 0 (slice bytes pos n)) n (List.replicate (4096 - n) 0) =
      pageContent bytes pos read 0 := by
  funext i
  unfold putBytes pageContent
  by_cases hi : n ≤ i
  · have hbehind : ¬ 4096 * 0 + (i : Nat) < read := by omega
    rw [if_pos hi, if_neg hbehind, List.getD_eq_getElem _ _ (by simp; omega)]
    simp
  · have hfront : 4096 * 0 + (i : Nat) < read := by omega
    rw [if_neg hi, if_pos (Nat.zero_le _), if_pos hfront, List.getD_eq_getElem _ _ (by omega)]
    simp only [slice, List.getElem_take, List.getElem_drop]
    rw [slice, List.length_take, List.length_drop] at hlen
    rw [List.getD_eq_getElem _ _ (by omega)]
    congr 1
    omega

/-- The others are those that the loop goes on with. -/
theorem pageContent_succ (bytes : List UInt8) (pos read j : Nat) :
    pageContent bytes (pos + min read 4096) (read - min read 4096) j =
      pageContent bytes pos read (j + 1) := by
  funext i
  unfold pageContent
  by_cases hi : 4096 * (j + 1) + i < read
  · rw [if_pos hi, if_pos (by omega)]
    congr 1
    omega
  · rw [if_neg hi, if_neg (by omega)]

/-- What the loop does to `n` pages from `first` on, and whether it answers true. -/
structure PagesLoaded (env : SegmentEnv) (bytes : List UInt8) (pos read first n : Nat)
    (writable : Bool) (m : UserSpace) (ok : Bool) (m' : UserSpace) : Prop where
  ok_iff : ok = true ↔ (∀ u : Nat, first ≤ u → u < first + n →
    env.page u = .granted ∧ m u = none ∧ env.table u = true) ∧
      (0 < read → pos + read ≤ bytes.length)
  page : ∀ u : Nat, m' u = m u ∨ ∃ j < n, u = first + j ∧ m u = none ∧
    m' u = some ⟨pageContent bytes pos read j, writable⟩
  all : ok = true → ∀ j < n, m' (first + j) = some ⟨pageContent bytes pos read j, writable⟩

/-- The loop stops at the first page with nothing done to it. -/
theorem PagesLoaded.stop {bytes : List UInt8} {pos read first n : Nat} {writable : Bool}
    (hn : 0 < n) (h : env.page first = .granted → m first = none → env.table first = true →
      0 < read ∧ bytes.length < pos + read) :
    PagesLoaded env bytes pos read first n writable m false m where
  ok_iff := by
    refine iff_of_false (by decide) fun ⟨hpages, hread⟩ => ?_
    obtain ⟨hgranted, hnone, htable⟩ := hpages first (le_refl _) (by omega)
    obtain ⟨hpos, hshort⟩ := h hgranted hnone htable
    have := hread hpos
    omega
  page u := .inl rfl
  all hok := by cases hok

/-- The loop installs the first page and goes on. -/
theorem PagesLoaded.next {bytes : List UInt8} {pos read first n : Nat} {writable ok : Bool}
    (hgranted : env.page first = .granted) (hnone : m first = none)
    (htable : env.table first = true)
    (hshort : 0 < read → pos + min read 4096 ≤ bytes.length)
    (h : PagesLoaded env bytes (pos + min read 4096) (read - min read 4096) (first + 1) n writable
      (Function.update m first (some ⟨pageContent bytes pos read 0, writable⟩)) ok m') :
    PagesLoaded env bytes pos read first (n + 1) writable m ok m' := by
  have hother : ∀ {u : Nat}, u ≠ first → ∀ pg, Function.update m first (some pg) u = m u :=
    fun hu pg => Function.update_of_ne hu _ _
  have hfirst : m' first = some ⟨pageContent bytes pos read 0, writable⟩ := by
    rcases h.page first with heq | ⟨j, _, heq, _⟩
    · rw [heq, Function.update_self]
    · omega
  constructor
  case ok_iff =>
    rw [h.ok_iff]
    constructor
    · rintro ⟨hpages, hread⟩
      refine ⟨fun u hlow hhigh => ?_, fun hpos => ?_⟩
      · by_cases hu : u = first
        · rw [hu]
          exact ⟨hgranted, hnone, htable⟩
        · have := hpages u (by omega) (by omega)
          rwa [hother hu] at this
      · by_cases hrest : 0 < read - min read 4096
        · have := hread hrest
          omega
        · have := hshort hpos
          omega
    · rintro ⟨hpages, hread⟩
      refine ⟨fun u hlow hhigh => ?_, fun hpos => ?_⟩
      · rw [hother (show u ≠ first by omega)]
        exact hpages u (by omega) (by omega)
      · have := hread (by omega)
        omega
  case page =>
    intro u
    by_cases hu : u = first
    · subst hu
      exact .inr ⟨0, by omega, rfl, hnone, hfirst⟩
    · rcases h.page u with heq | ⟨j, hj, heq, hfree, hin⟩
      · rw [hother hu] at heq
        exact .inl heq
      · rw [hother hu] at hfree
        rw [pageContent_succ] at hin
        exact .inr ⟨j + 1, by omega, by omega, hfree, hin⟩
  case all =>
    intro hok j hj
    cases j with
    | zero => exact hfirst
    | succ j =>
      have := h.all hok j (by omega)
      rwa [pageContent_succ, Nat.add_right_comm, Nat.add_assoc] at this

theorem fileRead_fst (size : Nat) (file : ExecFile) :
    (fileRead size file).1 = slice file.bytes file.pos size := rfl

/-- `install_page`, at the address of a user page. -/
theorem installPage_eq {upage : UInt32} {first : Nat} {table : Bool} {pg : UserPage}
    (hu : upage.toNat = 4096 * first) (hphys : 4096 * first < physBaseAddr) :
    installPage table upage pg m =
      if m first = none ∧ table = true then .ok (true, Function.update m first (some pg))
      else .ok (false, m) := by
  have huser : isUserVaddr upage = true := by
    rw [isUserVaddr_iff, hu]
    exact hphys
  have hmask : upage &&& pgMask = 0 := by
    rw [← UInt32.toNat_inj, toNat_pgMask, hu, UInt32.toNat_zero]
    omega
  have hpage : upage.toNat / 4096 = first := by omega
  unfold installPage
  rw [huser, hmask, hpage]
  cases hfree : m first with
  | none => cases table <;> simp
  | some pg' => simp

/-- The loop comes to its end, whatever becomes of the pages. -/
theorem loadPages_loaded (file : ExecFile) (m : UserSpace) (writable : Bool) {n first : Nat}
    {upage readBytes zeroBytes : UInt32}
    (hsum : readBytes.toNat + zeroBytes.toNat = 4096 * n) (hu : upage.toNat = 4096 * first)
    (hphys : 4096 * (first + n) ≤ physBaseAddr) :
    ∃ ok file' m', loadPages env writable n file upage readBytes zeroBytes m =
        .ok (ok, file', m') ∧ file'.bytes = file.bytes ∧
      PagesLoaded env file.bytes file.pos readBytes.toNat first n writable m ok m' := by
  induction n generalizing file upage readBytes zeroBytes m first with
  | zero =>
    refine ⟨true, file, m, ?_, rfl, ⟨?_, fun _ => .inl rfl, fun _ j hj => by omega⟩⟩
    · have hdone : ¬ (0 < readBytes ∨ 0 < zeroBytes) := by
        rw [UInt32.lt_iff_toNat_lt, UInt32.lt_iff_toNat_lt, UInt32.toNat_zero]
        omega
      unfold loadPages
      rw [if_neg hdone]
    · exact iff_of_true rfl ⟨fun u _ _ => by omega, fun h => by omega⟩
  | succ n ih =>
    have hsize : pgSize.toNat = 4096 := rfl
    have hgo : 0 < readBytes ∨ 0 < zeroBytes := by
      rw [UInt32.lt_iff_toNat_lt, UInt32.lt_iff_toNat_lt, UInt32.toNat_zero]
      omega
    have hpage : upage.toNat / 4096 = first := by omega
    obtain ⟨prb, hprb⟩ : ∃ prb, prb = if readBytes < pgSize then readBytes else pgSize := ⟨_, rfl⟩
    have hmin : prb.toNat = min readBytes.toNat 4096 := by
      have hlt : readBytes < pgSize ↔ readBytes.toNat < 4096 := UInt32.lt_iff_toNat_lt
      rw [hprb]
      split
      next h => have := hlt.mp h; omega
      next h => have := mt hlt.mpr h; omega
    have hzero : (pgSize - prb).toNat = 4096 - prb.toNat := by
      rw [UInt32.toNat_sub_of_le _ _ (by rw [UInt32.le_iff_toNat_le, hsize]; omega), hsize]
    unfold loadPages
    rw [if_pos hgo]
    dsimp only
    rw [← hprb, hpage]
    cases hgrant : env.page first with
    | notEvicted => exact ⟨false, file, m, rfl, rfl, .stop (by omega) (by simp [hgrant])⟩
    | stillNone => exact ⟨false, file, m, rfl, rfl, .stop (by omega) (by simp [hgrant])⟩
    | granted =>
      simp only [fileRead_fst, ne_eq]
      by_cases hread : (slice file.bytes file.pos prb.toNat).length = prb.toNat
      · simp only [hread, not_true_eq_false, if_false]
        by_cases hfree : m first = none ∧ env.table first = true
        · rw [installPage_eq hu (by omega), if_pos hfree, hzero]
          have hcontent := pageContent_zero (env.kpage first) hmin hread
          have hrest : (readBytes - prb).toNat = readBytes.toNat - min readBytes.toNat 4096 := by
            rw [UInt32.toNat_sub_of_le _ _ (by rw [UInt32.le_iff_toNat_le]; omega), hmin]
          have hzeros : (zeroBytes - (pgSize - prb)).toNat = zeroBytes.toNat - (4096 - prb.toNat) := by
            rw [UInt32.toNat_sub_of_le _ _ (by rw [UInt32.le_iff_toNat_le]; omega), hzero]
          have hnext : (upage + pgSize).toNat = 4096 * (first + 1) := by
            unfold physBaseAddr at hphys
            rw [UInt32.toNat_add, hsize]
            omega
          have hshort : 0 < readBytes.toNat →
              file.pos + min readBytes.toNat 4096 ≤ file.bytes.length := by
            intro hpos
            rw [slice, List.length_take, List.length_drop] at hread
            omega
          have hsum' : (readBytes - prb).toNat + (zeroBytes - (pgSize - prb)).toNat = 4096 * n := by
            omega
          have hpos : (fileRead prb.toNat file).2.pos = file.pos + min readBytes.toNat 4096 := by
            show file.pos + (slice file.bytes file.pos prb.toNat).length = _
            rw [hread, hmin]
          obtain ⟨ok, file', m', hrun, hbytes, hloaded⟩ := ih (fileRead prb.toNat file).2
            (Function.update m first
              (some ⟨pageContent file.bytes file.pos readBytes.toNat 0, writable⟩))
            hsum' hnext (by omega)
          rw [hcontent, bind_ok]
          rw [hrest, hpos] at hloaded
          exact ⟨ok, file', m', hrun, hbytes, .next hgrant hfree.1 hfree.2 hshort hloaded⟩
        · rw [installPage_eq hu (by omega), if_neg hfree]
          refine ⟨false, _, m, rfl, rfl, .stop (by omega) fun _ hnone htable => ?_⟩
          exact absurd ⟨hnone, htable⟩ hfree
      · simp only [hread, not_false_eq_true, if_true]
        refine ⟨false, _, m, rfl, rfl, .stop (by omega) fun _ _ _ => ?_⟩
        rw [slice, List.length_take, List.length_drop] at hread
        omega

/-! ## Every header -/

/-- Loading a header loads its pages. -/
theorem loadPhdr_loaded (h : Accepted phdr file) (env : SegmentEnv) (m : UserSpace) :
    ∃ ok file' m', loadPhdr env file phdr m = .ok (ok, file', m') ∧ file'.bytes = file.bytes ∧
      PagesLoaded env file.bytes (phdr.pOffset.toNat / 4096 * 4096) phdr.segment.readBytes.toNat
        (phdr.pVaddr.toNat / 4096) phdr.pages phdr.segment.writable m ok m' := by
  have hle := (exact_of_accepted h).read_le
  have hzero := (exact_of_accepted h).zeroBytes
  have hsum : phdr.segment.readBytes.toNat + phdr.segment.zeroBytes.toNat = 4096 * phdr.pages := by
    omega
  have hpage : phdr.segment.memPage.toNat = 4096 * (phdr.pVaddr.toNat / 4096) := by
    rw [Nat.mul_comm]
    exact toNat_not_pgMask _
  have hphys : 4096 * (phdr.pVaddr.toNat / 4096 + phdr.pages) ≤ physBaseAddr := by
    have := h.high
    have := h.memsz_pos
    unfold Phdr.pages
    unfold physBaseAddr at *
    omega
  obtain ⟨ok, file', m', hrun, hbytes, hloaded⟩ := loadPages_loaded
    { file with pos := phdr.pOffset.toNat / 4096 * 4096 } m phdr.segment.writable hsum hpage hphys
  refine ⟨ok, file', m', ?_, hbytes, hloaded⟩
  have hseek : fileSeek (phdr.pOffset.toNat / 4096 * 4096 : Nat) file =
      .ok { file with pos := phdr.pOffset.toNat / 4096 * 4096 } := if_pos (Int.natCast_nonneg _)
  have hpages : (phdr.segment.readBytes.toNat + phdr.segment.zeroBytes.toNat) / 4096 =
      phdr.pages := by omega
  unfold loadPhdr loadSegment
  rw [if_pos (asserts_of_accepted h), offT_filePage h, hseek, bind_ok, hpages]
  exact hrun

/-- When `load_segment` returns true. -/
theorem loadPhdr_true_iff (h : Accepted phdr file) (env : SegmentEnv) (m : UserSpace) :
    (∃ file' m', loadPhdr env file phdr m = .ok (true, file', m')) ↔
      (∀ u : Nat, phdr.Covers u → env.page u = .granted ∧ m u = none ∧ env.table u = true) ∧
        (0 < phdr.pFilesz.toNat → phdr.pOffset.toNat + phdr.pFilesz.toNat ≤ file.bytes.length) := by
  obtain ⟨ok, file', m', hrun, _, hloaded⟩ := loadPhdr_loaded h env m
  have hret : (∃ file' m', loadPhdr env file phdr m = .ok (true, file', m')) ↔ ok = true := by
    rw [hrun]
    simp
  have hread := (exact_of_accepted h).readBytes
  have hofs := h.sameOfs
  rw [hret, hloaded.ok_iff]
  simp only [covers_iff h, and_imp]
  refine and_congr_right fun _ => ?_
  split at hread <;> omega

/-- A byte of a page. -/
theorem pageContent_pgOfs {bytes : List UInt8} {pos read p a : Nat} (h : a % 4096 = p % 4096) :
    pageContent bytes pos read (p / 4096) (pgOfs a) =
      if p < read then bytes.getD (pos + p) 0 else 0 := by
  have hp : 4096 * (p / 4096) + (pgOfs a : Nat) = p := by
    show 4096 * (p / 4096) + a % 4096 = p
    omega
  unfold pageContent
  rw [hp]

/-- The segment is in memory. -/
structure InPlace (phdr : Phdr) (file : ExecFile) (m m' : UserSpace) : Prop where
  mapped : ∀ u : Nat, phdr.Covers u → m u = none ∧
    ∃ pg : UserPage, m' u = some pg ∧ (pg.writable = true ↔ phdr.pFlags &&& pfW ≠ 0)
  fromFile : ∀ i < phdr.pFilesz.toNat, ∃ b, file.bytes[phdr.pOffset.toNat + i]? = some b ∧
    m'.byte (phdr.pVaddr.toNat + i) = some b
  zeros : ∀ i, phdr.pFilesz.toNat ≤ i → i < phdr.pMemsz.toNat →
    m'.byte (phdr.pVaddr.toNat + i) = some 0

/-- A byte of a segment that has been loaded. -/
theorem byte_of_loaded (h : Accepted phdr file)
    (hloaded : PagesLoaded env file.bytes (phdr.pOffset.toNat / 4096 * 4096)
      phdr.segment.readBytes.toNat (phdr.pVaddr.toNat / 4096) phdr.pages phdr.segment.writable m
      true m') {i : Nat} (hi : i < phdr.pMemsz.toNat) : m'.byte (phdr.pVaddr.toNat + i) =
      some (if i < phdr.pFilesz.toNat then file.bytes.getD (phdr.pOffset.toNat + i) 0 else 0) := by
  have hread := (exact_of_accepted h).readBytes
  have hofs := h.sameOfs
  obtain ⟨p, hp⟩ : ∃ p, p = phdr.pVaddr.toNat % 4096 + i := ⟨_, rfl⟩
  have hpage : (phdr.pVaddr.toNat + i) / 4096 = phdr.pVaddr.toNat / 4096 + p / 4096 := by omega
  have hplace : (phdr.pVaddr.toNat + i) % 4096 = p % 4096 := by omega
  have hlast : p / 4096 < phdr.pages := by
    unfold Phdr.pages
    omega
  unfold UserSpace.byte
  rw [hpage, hloaded.all rfl _ hlast]
  simp only [Option.map_some, pageContent_pgOfs hplace]
  congr 1
  by_cases hfile : i < phdr.pFilesz.toNat
  · rw [if_pos (by omega : 0 < phdr.pFilesz.toNat)] at hread
    rw [if_pos hfile, if_pos (by omega)]
    congr 1
    omega
  · rw [if_neg hfile, if_neg]
    split at hread <;> omega

/-- A segment that `validate_segment` accepts is loaded exactly, as soon as its pages can be had and
the file has its bytes. -/
theorem segment_loaded (env : SegmentEnv) (file : ExecFile) (phdr : Phdr) (m : UserSpace)
    (haccept : validateSegment phdr file = true) :
    Exact phdr ∧
      segmentAsserts (offT phdr.segment.filePage) phdr.segment.memPage phdr.segment.readBytes
        phdr.segment.zeroBytes = true ∧
      (∀ u : Nat, phdr.Covers u → 1 ≤ u ∧ u < 0xC0000) ∧
      ∃ ok file' m', loadPhdr env file phdr m = .ok (ok, file', m') ∧
        (ok = true ↔
          (∀ u : Nat, phdr.Covers u → env.page u = .granted ∧ m u = none ∧ env.table u = true) ∧
          (0 < phdr.pFilesz.toNat →
            phdr.pOffset.toNat + phdr.pFilesz.toNat ≤ file.bytes.length)) ∧
        (∀ u : Nat, m' u ≠ m u → phdr.Covers u ∧ m u = none) ∧
        (ok = true → InPlace phdr file m m') := by
  have h := validateSegment_iff.mp haccept
  obtain ⟨ok, file', m', hrun, _, hloaded⟩ := loadPhdr_loaded h env m
  have hret : (∃ file' m', loadPhdr env file phdr m = .ok (true, file', m')) ↔ ok = true := by
    rw [hrun]
    simp
  refine ⟨exact_of_accepted h, asserts_of_accepted h, fun u => covers_user h, ok, file', m', hrun,
    hret.symm.trans (loadPhdr_true_iff h env m), fun u hne => ?_, ?_⟩
  · obtain heq | ⟨j, hj, rfl, hfree, _⟩ := hloaded.page u
    · exact absurd heq hne
    · exact ⟨(covers_iff h _).mpr ⟨by omega, by omega⟩, hfree⟩
  · rintro rfl
    obtain ⟨hpages, hbytes⟩ := (loadPhdr_true_iff h env m).mp ⟨file', m', hrun⟩
    constructor
    case mapped =>
      intro u hu
      obtain ⟨hlow, hhigh⟩ := (covers_iff h u).mp hu
      have hin := hloaded.all rfl (u - phdr.pVaddr.toNat / 4096) (by omega)
      rw [Nat.add_sub_cancel' hlow] at hin
      exact ⟨(hpages u hu).2.1, _, hin, by simp [Phdr.segment]⟩
    case fromFile =>
      intro i hi
      have hle := h.filesz_le
      have hlen := hbytes (by omega)
      refine ⟨file.bytes[phdr.pOffset.toNat + i], List.getElem?_eq_getElem (by omega), ?_⟩
      rw [byte_of_loaded h hloaded (by omega), if_pos hi, List.getD_eq_getElem _ _ (by omega)]
    case zeros =>
      intro i hlow hi
      rw [byte_of_loaded h hloaded hi, if_neg (by omega)]

/-- A file of 8192 zeros. -/
def zeroFile : ExecFile := ⟨List.replicate 8192 0, by rw [List.length_replicate]; decide, 0⟩

/-- A header for one byte of the file and one more. -/
def smallPhdr : Phdr :=
  { pType := 1, pOffset := 0x34, pVaddr := 0x08048034, pFilesz := 1, pMemsz := 2, pFlags := 5 }

/-- Pages that can be had. -/
def freshPages : SegmentEnv := ⟨fun _ => .granted, fun _ => zeros, fun _ => true⟩

/-- A small segment is loaded. -/
theorem segment_loaded_small : ∃ file' m',
    loadPhdr freshPages zeroFile smallPhdr (fun _ => none) = .ok (true, file', m') ∧
      InPlace smallPhdr zeroFile (fun _ => none) m' := by
  have hlen : zeroFile.bytes.length = 8192 := List.length_replicate
  have haccept : validateSegment smallPhdr zeroFile = true := by
    unfold validateSegment
    rw [hlen]
    decide
  obtain ⟨_, _, _, ok, file', m', hrun, hok, _, hin⟩ :=
    segment_loaded freshPages zeroFile smallPhdr (fun _ => none) haccept
  obtain rfl : ok = true := by
    refine hok.mpr ⟨fun _ _ => ⟨rfl, rfl, rfl⟩, fun _ => ?_⟩
    rw [hlen]
    decide
  exact ⟨file', m', hrun, hin rfl⟩

end Pintos.Loading
