import Pintos.Lib.Run
import Pintos.Paging.Pagedir

/-!
# A page directory is a finite map

`Mappings` is what a page directory is for: user pages to kernel pages, with whether the page can be
written. `Paged` relates it to the entries in memory, every operation keeps the relation, and so
along every run from `pagedir_create` on `pagedir_get_page` answers from the map (`pagedir_map`).
-/

namespace Pintos.Paging

open Pintos.Lib

/-- What a user page is mapped to. -/
structure Mapping where
  kpage : UInt32
  writable : Bool
  deriving DecidableEq, Repr

/-- By page number. -/
abbrev Mappings := UInt32 → Option Mapping

variable {m m' m₀ : Memory} {pd pt va vb page : UInt32} {f : Mappings} {dir : Nat → Option UInt32}

/-! ## Directories -/

/-- The entries of a directory point to the tables of `dir`. -/
structure Directory (m : Memory) (pd : UInt32) (dir : Nat → Option UInt32) : Prop where
  page : KernelPage pd
  zero : ∀ i < 1024, dir i = none → m.word pd i = 0
  table : ∀ i < 1024, ∀ pt, dir i = some pt → KernelPage pt ∧ m.word pd i = pdeOf pt
  apart : ∀ i < 1024, ∀ pt, dir i = some pt → pt ≠ pd

/-- A kernel page is not at 0. -/
theorem KernelPage.ne_zero (h : KernelPage page) : page ≠ 0 := by
  rintro rfl
  exact absurd h.kernel (by decide)

/-- An entry of the directory is 0 where there is no table. -/
theorem pdNo_ne_zero_iff (h : Directory m pd dir) (va : UInt32) :
    m.word pd (pdNo va).toNat = 0 ↔ dir (pdNo va).toNat = none := by
  refine ⟨fun hzero => ?_, h.zero _ (pdNo_lt va)⟩
  cases hdir : dir (pdNo va).toNat with
  | none => rfl
  | some pt => exact absurd ((h.table _ (pdNo_lt va) pt hdir).2.symm.trans hzero) (pdeOf_ne_zero pt)

/-- Other pages than the directory are written. -/
theorem Directory.congr (h : Directory m pd dir) (hword : m'.word pd = m.word pd) :
    Directory m' pd dir := by
  obtain ⟨page, zero, table, apart⟩ := h
  exact ⟨page, fun i hi hdir => hword ▸ zero i hi hdir, fun i hi pt hdir => hword ▸ table i hi pt hdir,
    apart⟩

/-- Writing in a table leaves the directory as it is. -/
theorem word_set_other {e : EntryPtr} {x : UInt32} (h : pd ≠ e.page) :
    (m.set e x).word pd = m.word pd := by
  funext i
  exact Memory.word_set_of_ne m x (.inl h)

/-- A table for an entry that was zero. -/
theorem Directory.add {pt : UInt32} {i : Nat} (h : Directory m pd dir) (hpt : KernelPage pt)
    (hne : pt ≠ pd) : Directory ((m.zeroPage pt).set ⟨pd, i⟩ (pdeOf pt)) pd
      (Function.update dir i (some pt)) := by
  have hzero : (m.zeroPage pt).word pd = m.word pd := Memory.word_setPage_of_ne _ _ hne.symm
  constructor
  case page => exact h.page
  case zero =>
    intro j hj hnone
    by_cases hji : j = i
    · rw [hji, Function.update_self] at hnone
      cases hnone
    · rw [Function.update_of_ne hji] at hnone
      rw [Memory.word_set_of_ne _ _ (.inr hji), hzero]
      exact h.zero j hj hnone
  case table =>
    intro j hj pt' hsome
    by_cases hji : j = i
    · rw [hji, Function.update_self] at hsome
      cases hsome
      exact ⟨hpt, hji ▸ Memory.word_set _ _ _ _⟩
    · rw [Function.update_of_ne hji] at hsome
      rw [Memory.word_set_of_ne _ _ (.inr hji), hzero]
      exact h.table j hj pt' hsome
  case apart =>
    intro j hj pt' hsome
    by_cases hji : j = i
    · rw [hji, Function.update_self] at hsome
      cases hsome
      exact hne
    · rw [Function.update_of_ne hji] at hsome
      exact h.apart j hj pt' hsome

/-- `lookup_page` without creating. -/
theorem Directory.lookup (h : Directory m pd dir) (va : UInt32) (page : Option UInt32) :
    lookupPage pd va false page m =
      .ok ((dir (pdNo va).toNat).map fun pt => ⟨pt, (ptNo va).toNat⟩, m) := by
  unfold lookupPage
  rw [assert_ok h.page.ne_zero, bind_ok,
    assert_ok (show (!false || isUserVaddr va) = true from rfl), bind_ok]
  dsimp only
  cases hdir : dir (pdNo va).toNat with
  | none =>
    have hget : m.get ⟨pd, (pdNo va).toNat⟩ = 0 := (pdNo_ne_zero_iff h va).mpr hdir
    rw [if_pos hget]
    rfl
  | some pt =>
    obtain ⟨hpt, hword⟩ := h.table _ (pdNo_lt va) pt hdir
    have hget : m.get ⟨pd, (pdNo va).toNat⟩ = pdeOf pt := hword
    rw [hget, if_neg (pdeOf_ne_zero pt), pdeGetPt_pdeOf hpt]
    rfl

/-- With a table there is nothing to create. -/
theorem Directory.lookup_create (h : Directory m pd dir) (hva : isUserVaddr va = true)
    (hdir : dir (pdNo va).toNat = some pt) (page : Option UInt32) :
    lookupPage pd va true page m = .ok (some ⟨pt, (ptNo va).toNat⟩, m) := by
  obtain ⟨hpt, hword⟩ := h.table _ (pdNo_lt va) pt hdir
  have hget : m.get ⟨pd, (pdNo va).toNat⟩ = pdeOf pt := hword
  unfold lookupPage
  rw [assert_ok h.page.ne_zero, bind_ok, assert_ok (by rw [hva]; rfl), bind_ok]
  dsimp only
  rw [hget, if_neg (pdeOf_ne_zero pt), pdeGetPt_pdeOf hpt]
  rfl

/-- A new table. -/
def Memory.newTable (m : Memory) (pd pt va : UInt32) : Memory :=
  (m.zeroPage pt).set ⟨pd, (pdNo va).toNat⟩ (pdeOf pt)

/-- Where there is no table `lookup_page` makes one, if it gets a page. -/
theorem Directory.lookup_new (h : Directory m pd dir) (hva : isUserVaddr va = true)
    (hdir : dir (pdNo va).toNat = none) (page : Option UInt32) (hpage : ∀ pt ∈ page, KernelPage pt) :
    lookupPage pd va true page m = .ok (page.elim (none, m) fun pt =>
      (some ⟨pt, (ptNo va).toNat⟩, m.newTable pd pt va)) := by
  have hget : m.get ⟨pd, (pdNo va).toNat⟩ = 0 := (pdNo_ne_zero_iff h va).mpr hdir
  unfold lookupPage
  rw [assert_ok h.page.ne_zero, bind_ok, assert_ok (by rw [hva]; rfl), bind_ok]
  dsimp only
  rw [if_pos hget, if_pos rfl]
  cases page with
  | none => rfl
  | some pt =>
    have hpt := hpage pt rfl
    have hnew : (m.newTable pd pt va).get ⟨pd, (pdNo va).toNat⟩ = pdeOf pt :=
      Memory.word_set _ _ _ _
    dsimp only
    rw [pdeCreate_ok hpt, bind_ok]
    show (pdeGetPt ((m.newTable pd pt va).get _) >>= _) = _
    rw [hnew, pdeGetPt_pdeOf hpt]
    rfl

/-! ## The map -/

/-- What an entry of a page table says of its page. -/
inductive EntryOf : UInt32 → Option Mapping → Prop
  | absent {pte : UInt32} (h : pte &&& pteP = 0) : EntryOf pte none
  | mapped {pte kpage : UInt32} {writable : Bool} (h : Maps pte kpage writable)
      (hkpage : KernelPage kpage) : EntryOf pte (some ⟨kpage, writable⟩)

/-- The pages that a directory and its tables are in, and `init_page_dir`. -/
def InUse (m : Memory) (pd page : UInt32) : Prop :=
  page = m.initPageDir ∨ page = pd ∨ ∃ i < 1024, m.word pd i = pdeOf page

/-- The directory has the mappings of `f` for user pages, and those of `init_page_dir` in `m₀` for the
kernel. -/
structure Paged (m₀ : Memory) (pd : UInt32) (dir : Nat → Option UInt32) (m : Memory) (f : Mappings) :
    Prop extends Directory m pd dir where
  initPageDir : m.initPageDir = m₀.initPageDir
  initRamPages : m.initRamPages = m₀.initRamPages
  initWord : m.word m₀.initPageDir = m₀.word m₀.initPageDir
  kernel : ∀ i, 768 ≤ i → i < 1024 → m.word pd i = m₀.word m₀.initPageDir i
  ne_init : pd ≠ m₀.initPageDir
  table_ne_init : ∀ i < 1024, ∀ pt, dir i = some pt → pt ≠ m₀.initPageDir
  inj : ∀ i < 768, ∀ j < 1024, ∀ pt, dir i = some pt → dir j = some pt → j = i
  unmapped : ∀ va, isUserVaddr va = true → dir (pdNo va).toNat = none → f (pgNo va) = none
  entry : ∀ va, isUserVaddr va = true → ∀ pt, dir (pdNo va).toNat = some pt →
    EntryOf (m.word pt (ptNo va).toNat) (f (pgNo va))

/-- A table is in use. -/
theorem Directory.inUse (h : Directory m pd dir) {i : Nat} (hi : i < 1024) (hdir : dir i = some pt) :
    InUse m pd pt := .inr (.inr ⟨i, hi, (h.table i hi pt hdir).2⟩)

/-- `init_page_dir` has tables for kernel addresses only. -/
def InitDir (m : Memory) : Prop :=
  ∃ dir, Directory m m.initPageDir dir ∧ ∀ i < 768, dir i = none

/-- `pagedir_create` makes a directory that maps nothing. -/
theorem paged_create (h : InitDir m) (hpd : KernelPage pd) (hfresh : ¬ InUse m m.initPageDir pd) :
    ∃ dir, (∀ i < 768, dir i = none) ∧ Paged m pd dir (pagedirCreate (some pd) m).2 fun _ => none := by
  obtain ⟨dir, hinit, huser⟩ := h
  have hne : pd ≠ m.initPageDir := fun heq => hfresh (.inl heq)
  have hword : (m.setPage pd (m.word m.initPageDir)).word pd = m.word m.initPageDir :=
    Memory.word_setPage _ _ _
  refine ⟨dir, huser, ⟨hpd, fun i hi hdir => ?_, fun i hi pt hdir => ?_, fun i hi pt hdir heq => ?_⟩, rfl, rfl,
    Memory.word_setPage_of_ne _ _ hne.symm, fun i _ _ => congrFun hword i, hne,
    fun i hi pt hdir => hinit.apart i hi pt hdir, fun i hi j _ pt hdir => ?_, fun _ _ _ => rfl,
    fun va hva pt hdir => ?_⟩
  · exact (congrFun hword i).trans (hinit.zero i hi hdir)
  · obtain ⟨hpt, heq⟩ := hinit.table i hi pt hdir
    exact ⟨hpt, (congrFun hword i).trans heq⟩
  · exact hfresh (heq ▸ hinit.inUse hi hdir)
  · rw [huser i hi] at hdir
    cases hdir
  · rw [huser _ (pdNo_user.mpr hva)] at hdir
    cases hdir

namespace Paged

/-- A page that is not in use has none of the tables. -/
theorem ne_of_not_inUse (h : Paged m₀ pd dir m f) (hfree : ¬ InUse m pd page) :
    page ≠ pd ∧ page ≠ m₀.initPageDir ∧ ∀ i < 1024, ∀ pt, dir i = some pt → pt ≠ page := by
  refine ⟨fun heq => hfree (.inr (.inl heq)), fun heq => hfree (.inl ?_), fun i hi pt hdir heq => ?_⟩
  · rw [heq, h.initPageDir]
  · exact hfree (heq ▸ h.inUse hi hdir)

/-- Other pages can be written. -/
theorem elsewhere (h : Paged m₀ pd dir m f) (hfree : ¬ InUse m pd page) (content : Nat → UInt32) :
    Paged m₀ pd dir (m.setPage page content) f := by
  obtain ⟨hpd, hinit, htable⟩ := h.ne_of_not_inUse hfree
  have hword := Memory.word_setPage_of_ne m content hpd.symm
  refine ⟨h.toDirectory.congr hword, h.initPageDir, h.initRamPages, ?_, fun i hlow hi => ?_, h.ne_init,
    h.table_ne_init, h.inj, h.unmapped, fun va hva pt hdir => ?_⟩
  · rw [Memory.word_setPage_of_ne m content hinit.symm]
    exact h.initWord
  · rw [hword]
    exact h.kernel i hlow hi
  · rw [Memory.word_setPage_of_ne m content (htable _ (pdNo_lt va) pt hdir)]
    exact h.entry va hva pt hdir

/-- A fresh table maps nothing. -/
theorem newTable (h : Paged m₀ pd dir m f) (hva : isUserVaddr va = true)
    (hdir : dir (pdNo va).toNat = none) (hpt : KernelPage pt) (hfree : ¬ InUse m pd pt) :
    Paged m₀ pd (Function.update dir (pdNo va).toNat (some pt)) (m.newTable pd pt va) f := by
  obtain ⟨hpd, hinit, htable⟩ := h.ne_of_not_inUse hfree
  have huser := pdNo_user.mpr hva
  have hzero := h.elsewhere hfree fun _ => 0
  have hother : ∀ p i, p ≠ pd ∨ i ≠ (pdNo va).toNat →
      (m.newTable pd pt va).word p i = (m.zeroPage pt).word p i :=
    fun _ _ hne => Memory.word_set_of_ne _ _ hne
  -- an entry is the new one or an old one
  have hsome : ∀ i pt', Function.update dir (pdNo va).toNat (some pt) i = some pt' →
      i = (pdNo va).toNat ∧ pt' = pt ∨ i ≠ (pdNo va).toNat ∧ dir i = some pt' := by
    intro i pt' heq
    by_cases hi : i = (pdNo va).toNat
    · subst hi
      rw [Function.update_self] at heq
      exact .inl ⟨rfl, (Option.some.inj heq).symm⟩
    · rw [Function.update_of_ne hi] at heq
      exact .inr ⟨hi, heq⟩
  have hnone : ∀ i, Function.update dir (pdNo va).toNat (some pt) i = none →
      i ≠ (pdNo va).toNat ∧ dir i = none := by
    intro i heq
    by_cases hi : i = (pdNo va).toNat
    · rw [hi, Function.update_self] at heq
      cases heq
    · rw [Function.update_of_ne hi] at heq
      exact ⟨hi, heq⟩
  constructor
  case toDirectory => exact h.toDirectory.add hpt hpd
  case initPageDir => exact h.initPageDir
  case initRamPages => exact h.initRamPages
  case initWord =>
    funext i
    rw [hother _ _ (.inl h.ne_init.symm)]
    exact congrFun hzero.initWord i
  case kernel =>
    intro i hlow hi
    rw [hother _ _ (.inr (by omega))]
    exact hzero.kernel i hlow hi
  case ne_init => exact h.ne_init
  case table_ne_init =>
    intro i hi pt' hdir'
    rcases hsome i pt' hdir' with ⟨rfl, rfl⟩ | ⟨_, hold⟩
    · exact hinit
    · exact h.table_ne_init i hi pt' hold
  case inj =>
    intro i hi j hj pt' hdir₁ hdir₂
    rcases hsome i pt' hdir₁ with ⟨rfl, rfl⟩ | ⟨_, hold₁⟩
    · rcases hsome j pt' hdir₂ with ⟨rfl, _⟩ | ⟨_, hold₂⟩
      · rfl
      · exact absurd rfl (htable j hj pt' hold₂)
    · rcases hsome j pt' hdir₂ with ⟨_, rfl⟩ | ⟨_, hold₂⟩
      · exact absurd rfl (htable i (by omega) pt' hold₁)
      · exact h.inj i hi j hj pt' hold₁ hold₂
  case unmapped =>
    intro vb hvb hdir'
    exact h.unmapped vb hvb (hnone _ hdir').2
  case entry =>
    intro vb hvb pt' hdir'
    rcases hsome _ pt' hdir' with ⟨hsame, rfl⟩ | ⟨_, hold⟩
    · have hword : (m.newTable pd pt' va).word pt' (ptNo vb).toNat = 0 := by
        rw [hother _ _ (.inl hpd)]
        exact congrFun (Memory.word_setPage _ _ _) _
      rw [hword, h.unmapped vb hvb (hsame ▸ hdir)]
      exact .absent (by decide)
    · rw [hother _ _ (.inl (h.apart _ (pdNo_lt vb) pt' hold))]
      exact hzero.entry vb hvb pt' hold

/-- An entry of a table is written: the mapping of its page changes and no other. -/
theorem setEntry (h : Paged m₀ pd dir m f) (hdir : dir (pdNo va).toNat = some pt) {x : UInt32}
    {y : Option Mapping} (hx : isUserVaddr va = true → EntryOf x y) :
    Paged m₀ pd dir (m.set ⟨pt, (ptNo va).toNat⟩ x)
      (if isUserVaddr va then Function.update f (pgNo va) y else f) := by
  have hpd := h.apart _ (pdNo_lt va) pt hdir
  have hinit := h.table_ne_init _ (pdNo_lt va) pt hdir
  have hother : ∀ p i, p ≠ pt ∨ i ≠ (ptNo va).toNat →
      (m.set ⟨pt, (ptNo va).toNat⟩ x).word p i = m.word p i :=
    fun _ _ hne => Memory.word_set_of_ne _ _ hne
  have hdirectory : (m.set ⟨pt, (ptNo va).toNat⟩ x).word pd = m.word pd := word_set_other hpd.symm
  -- the mapping of another page is as it was
  have hmap : ∀ vb, pgNo vb ≠ pgNo va →
      (if isUserVaddr va then Function.update f (pgNo va) y else f) (pgNo vb) = f (pgNo vb) := by
    intro vb hne
    split
    · exact Function.update_of_ne hne _ _
    · rfl
  refine ⟨h.toDirectory.congr hdirectory, h.initPageDir, h.initRamPages,
    (word_set_other hinit.symm).trans h.initWord, fun i hlow hi => ?_, h.ne_init, h.table_ne_init, h.inj,
    fun vb hvb hnone => ?_, fun vb hvb pt' hsome => ?_⟩
  · rw [hdirectory]
    exact h.kernel i hlow hi
  · rw [hmap vb]
    · exact h.unmapped vb hvb hnone
    · intro heq
      rw [(pgNo_eq_iff.mp heq).1, hdir] at hnone
      cases hnone
  · by_cases heq : pgNo vb = pgNo va
    · obtain ⟨hpdNo, hptNo⟩ := pgNo_eq_iff.mp heq
      have hva : isUserVaddr va = true := pdNo_user.mp (hpdNo ▸ pdNo_user.mpr hvb)
      rw [hpdNo, hdir] at hsome
      cases hsome
      rw [hptNo, Memory.word_set, if_pos hva, heq, Function.update_self]
      exact hx hva
    · rw [hmap vb heq, hother]
      · exact h.entry vb hvb pt' hsome
      · by_contra hboth
        rw [not_or, not_not, not_not] at hboth
        obtain ⟨rfl, hptNo⟩ := hboth
        have hpdNo := h.inj _ (pdNo_user.mpr hvb) _ (pdNo_lt va) pt' hsome hdir
        exact heq (pgNo_eq_iff.mpr ⟨hpdNo.symm, hptNo⟩)

end Paged

/-! ## Operations -/

/-- A page for a table is not in use. -/
def Fresh (m : Memory) (pd : UInt32) (page : Option UInt32) : Prop :=
  ∀ pt ∈ page, KernelPage pt ∧ ¬ InUse m pd pt

/-- The tables after `lookup_page` has been asked for one, where it gets `page` for a new one. -/
def tableFor (dir : Nat → Option UInt32) (va : UInt32) (page : Option UInt32) : Nat → Option UInt32 :=
  Function.update dir (pdNo va).toNat ((dir (pdNo va).toNat).or page)

theorem tableFor_some (h : dir (pdNo va).toNat = some pt) (page : Option UInt32) :
    tableFor dir va page = dir := by
  unfold tableFor
  rw [h, Option.some_or, ← h, Function.update_eq_self]

theorem tableFor_none (h : dir (pdNo va).toNat = none) (page : Option UInt32) :
    tableFor dir va page = Function.update dir (pdNo va).toNat page := by
  unfold tableFor
  rw [h, Option.none_or]

namespace Paged

variable {upage kpage flag : UInt32} {page' : Option UInt32}

/-- The entry of an address is its mapping. -/
theorem entry_get (h : Paged m₀ pd dir m f) (hva : isUserVaddr va = true)
    (hdir : dir (pdNo va).toNat = some pt) :
    EntryOf (m.get ⟨pt, (ptNo va).toNat⟩) (f (pgNo va)) := h.entry va hva pt hdir

/-- `pagedir_set_page` maps the page, or returns false and leaves the map. -/
theorem setPage (h : Paged m₀ pd dir m f) (writable : Bool) (hupage : pgOfs upage = 0)
    (huser : isUserVaddr upage = true) (hfree : f (pgNo upage) = none) (hkpage : KernelPage kpage)
    (hram : (kpage - physBase) >>> 12 < m.initRamPages) (hpage : Fresh m pd page') :
    ∃ ok m', pagedirSetPage pd upage kpage writable page' m = .ok (ok, m') ∧
      Paged m₀ pd (tableFor dir upage page') m'
        (if ok then Function.update f (pgNo upage) (some ⟨kpage, writable⟩) else f) := by
  have hne : pd ≠ m.initPageDir := h.initPageDir ▸ h.ne_init
  -- with a table the entry is set
  have hset : ∀ {m' dir' pt}, Paged m₀ pd dir' m' f → dir' (pdNo upage).toNat = some pt →
      ∃ ok m'', (do
        assert .notPresent (m'.get ⟨pt, (ptNo upage).toNat⟩ &&& pteP = 0)
        let e ← pteCreateUser kpage writable
        return (true, m'.set ⟨pt, (ptNo upage).toNat⟩ e) : Except Assertion (Bool × Memory)) =
          .ok (ok, m'') ∧ Paged m₀ pd dir' m''
        (if ok then Function.update f (pgNo upage) (some ⟨kpage, writable⟩) else f) := by
    intro m' dir' pt h' hdir
    have hentry := h'.entry_get huser hdir
    rw [hfree] at hentry
    cases hentry with
    | absent habsent =>
      refine ⟨true, m'.set ⟨pt, (ptNo upage).toNat⟩ (pteOf kpage writable), ?_, ?_⟩
      · rw [assert_ok habsent, bind_ok, pteCreateUser_ok hkpage]
        rfl
      · have := h'.setEntry hdir fun _ => .mapped (maps_pteOf hkpage writable) hkpage
        rwa [if_pos huser] at this
  unfold pagedirSetPage
  rw [assert_ok hupage, bind_ok, assert_ok hkpage.aligned, bind_ok, assert_ok huser, bind_ok,
    hkpage.vtop, bind_ok, assert_ok hram, bind_ok, assert_ok hne, bind_ok]
  cases hdir : dir (pdNo upage).toNat with
  | some pt =>
    rw [h.lookup_create huser hdir, bind_ok, tableFor_some hdir]
    exact hset h hdir
  | none =>
    rw [h.lookup_new huser hdir page' fun pt hpt => (hpage pt hpt).1, bind_ok, tableFor_none hdir]
    cases page' with
    | none =>
      have hsame : Function.update dir (pdNo upage).toNat none = dir := by
        rw [← hdir, Function.update_eq_self]
      rw [hsame]
      exact ⟨false, m, rfl, h⟩
    | some pt =>
      obtain ⟨hkernel, hunused⟩ := hpage pt rfl
      exact hset (h.newTable huser hdir hkernel hunused) (Function.update_self _ _ _)

/-- `pagedir_clear_page` removes the mapping. -/
theorem clearPage (h : Paged m₀ pd dir m f) (hupage : pgOfs upage = 0)
    (huser : isUserVaddr upage = true) :
    ∃ m', pagedirClearPage pd upage m = .ok m' ∧
      Paged m₀ pd dir m' (Function.update f (pgNo upage) none) := by
  have hsame : f (pgNo upage) = none → Paged m₀ pd dir m (Function.update f (pgNo upage) none) := by
    intro hnone
    rw [← hnone, Function.update_eq_self]
    exact h
  unfold pagedirClearPage
  rw [assert_ok hupage, bind_ok, assert_ok huser, bind_ok, h.lookup, bind_ok]
  cases hdir : dir (pdNo upage).toNat with
  | none => exact ⟨m, rfl, hsame (h.unmapped upage huser hdir)⟩
  | some pt =>
    have hentry := h.entry_get huser hdir
    dsimp only [Option.map_some]
    cases hmap : f (pgNo upage) with
    | none =>
      rw [hmap] at hentry
      cases hentry with
      | absent habsent =>
        rw [if_neg (not_not_intro habsent)]
        exact ⟨m, rfl, hsame hmap⟩
    | some x =>
      rw [hmap] at hentry
      cases hentry with
      | mapped hmaps hk =>
        rw [if_pos hmaps.present]
        have := h.setEntry hdir fun _ => EntryOf.absent (clear_present (m.get ⟨pt, (ptNo upage).toNat⟩))
        rw [if_pos huser] at this
        exact ⟨_, rfl, this⟩

/-- `pagedir_get_page` answers from the map. -/
theorem getPage (h : Paged m₀ pd dir m f) (huser : isUserVaddr va = true) :
    pagedirGetPage pd va m = .ok ((f (pgNo va)).map fun x => x.kpage + pgOfs va) := by
  unfold pagedirGetPage
  rw [assert_ok huser, bind_ok, h.lookup, bind_ok]
  cases hdir : dir (pdNo va).toNat with
  | none =>
    rw [h.unmapped va huser hdir]
    rfl
  | some pt =>
    have hentry := h.entry_get huser hdir
    dsimp only [Option.map_some]
    cases hmap : f (pgNo va) with
    | none =>
      rw [hmap] at hentry
      cases hentry with
      | absent habsent => exact if_neg (not_not_intro habsent)
    | some x =>
      rw [hmap] at hentry
      cases hentry with
      | mapped hmaps hk =>
        rw [if_pos hmaps.present, hmaps.pteGetPage hk]
        rfl

/-- The dirty and accessed bits are in no mapping. -/
theorem setFlag (h : Paged m₀ pd dir m f) (va : UInt32) (value : Bool) (hp : flag &&& pteP = 0)
    (ha : flag &&& pteAddr = 0) (hw : flag &&& pteW = 0) :
    ∃ m', setFlag flag pd va value m = .ok m' ∧ Paged m₀ pd dir m' f := by
  -- an entry that says the same
  have hkeep : ∀ {pt x}, dir (pdNo va).toNat = some pt →
      (∀ y, EntryOf (m.get ⟨pt, (ptNo va).toNat⟩) y → EntryOf x y) →
      Paged m₀ pd dir (m.set ⟨pt, (ptNo va).toNat⟩ x) f := by
    intro pt x hdir hx
    have hset := h.setEntry hdir fun huser => hx _ (h.entry_get huser hdir)
    rwa [Function.update_eq_self, ite_self] at hset
  unfold Paging.setFlag
  rw [h.lookup, bind_ok]
  cases hdir : dir (pdNo va).toNat with
  | none => exact ⟨m, rfl, h⟩
  | some pt =>
    dsimp only [Option.map_some]
    cases value with
    | true =>
      refine ⟨_, rfl, hkeep hdir fun y hy => ?_⟩
      cases hy with
      | absent habsent => exact .absent (by rwa [or_and_of_disjoint hp])
      | mapped hmaps hk => exact .mapped (hmaps.or hp ha hw) hk
    | false =>
      refine ⟨_, rfl, hkeep hdir fun y hy => ?_⟩
      cases hy with
      | absent habsent => exact .absent (by rwa [and_not_and_of_disjoint hp])
      | mapped hmaps hk => exact .mapped (hmaps.and_not hp ha hw) hk

/-- Reading a flag goes through. -/
theorem isFlag (h : Paged m₀ pd dir m f) (flag va : UInt32) : ∃ b, isFlag flag pd va m = .ok b := by
  unfold Paging.isFlag
  rw [h.lookup, bind_ok]
  cases dir (pdNo va).toNat with
  | none => exact ⟨_, rfl⟩
  | some pt => exact ⟨_, rfl⟩

end Paged

/-- The page and the writable bit in the entry of an address, if it is present. -/
def mappingOf (pd va : UInt32) (m : Memory) : Except Assertion (Option Mapping) := do
  match ← lookupPage pd va false none m with
  | (some pte, m) =>
    if m.get pte &&& pteP ≠ 0 then do
      let page ← pteGetPage (m.get pte)
      return some ⟨page, m.get pte &&& pteW ≠ 0⟩
    else return none
  | (none, _) => return none

/-- What the functions read of an address is its mapping. -/
theorem Paged.mappingOf (h : Paged m₀ pd dir m f) (huser : isUserVaddr va = true) :
    mappingOf pd va m = .ok (f (pgNo va)) := by
  unfold Paging.mappingOf
  rw [h.lookup, bind_ok]
  cases hdir : dir (pdNo va).toNat with
  | none =>
    rw [h.unmapped va huser hdir]
    rfl
  | some pt =>
    have hentry := h.entry_get huser hdir
    dsimp only [Option.map_some]
    cases hmap : f (pgNo va) with
    | none =>
      rw [hmap] at hentry
      cases hentry with
      | absent habsent => exact if_neg (not_not_intro habsent)
    | some x =>
      rw [hmap] at hentry
      cases hentry with
      | mapped hmaps hk =>
        have hwrite := Bool.eq_iff_iff.mpr (decide_eq_true_iff.trans hmaps.write)
        rw [if_pos hmaps.present, hmaps.pteGetPage hk, bind_ok, hwrite]
        rfl

/-! ## Runs -/

/-- An operation on a directory. What `palloc_get_page` returns comes with it. -/
inductive Op where
  | setPage (upage kpage : UInt32) (writable : Bool) (page : Option UInt32)
  | clearPage (upage : UInt32)
  | getPage (uaddr : UInt32)
  | isDirty (vpage : UInt32)
  | setDirty (vpage : UInt32) (dirty : Bool)
  | isAccessed (vpage : UInt32)
  | setAccessed (vpage : UInt32) (accessed : Bool)
  /-- None of the operations: a page that is not the directory's is written. -/
  | elsewhere (page : UInt32) (content : Nat → UInt32)

/-- The address that an operation is about. -/
def Op.vaddr : Op → Option UInt32
  | .setPage upage _ _ _ => some upage
  | .clearPage upage => some upage
  | .getPage uaddr => some uaddr
  | .isDirty vpage => some vpage
  | .setDirty vpage _ => some vpage
  | .isAccessed vpage => some vpage
  | .setAccessed vpage _ => some vpage
  | .elsewhere _ _ => none

/-- Runs an operation. The result is false if `pagedir_set_page` fails. -/
def Op.exec (pd : UInt32) : Op → Memory → Except Assertion (Bool × Memory)
  | .setPage upage kpage writable page, m => pagedirSetPage pd upage kpage writable page m
  | .clearPage upage, m => do return (true, ← pagedirClearPage pd upage m)
  | .getPage uaddr, m => do
    let _ ← pagedirGetPage pd uaddr m
    return (true, m)
  | .isDirty vpage, m => do
    let _ ← pagedirIsDirty pd vpage m
    return (true, m)
  | .setDirty vpage dirty, m => do return (true, ← pagedirSetDirty pd vpage dirty m)
  | .isAccessed vpage, m => do
    let _ ← pagedirIsAccessed pd vpage m
    return (true, m)
  | .setAccessed vpage accessed, m => do return (true, ← pagedirSetAccessed pd vpage accessed m)
  | .elsewhere page content, m => .ok (true, m.setPage page content)

/-- What it does to the map. -/
def Op.after (f : Mappings) : Op → Bool → Mappings
  | .setPage upage kpage writable _, true => Function.update f (pgNo upage) (some ⟨kpage, writable⟩)
  | .clearPage upage, _ => Function.update f (pgNo upage) none
  | _, _ => f

/-- What it does to the tables. -/
def Op.tables (dir : Nat → Option UInt32) : Op → Nat → Option UInt32
  | .setPage upage _ _ page => tableFor dir upage page
  | _ => dir

/-- What the callers see to. -/
def Op.Admissible (pd : UInt32) (s : Memory × Mappings) : Op → Prop
  | .setPage upage kpage _ page => pgOfs upage = 0 ∧ isUserVaddr upage = true ∧
      s.2 (pgNo upage) = none ∧ KernelPage kpage ∧
      (kpage - physBase) >>> 12 < s.1.initRamPages ∧ Fresh s.1 pd page
  | .clearPage upage => pgOfs upage = 0 ∧ isUserVaddr upage = true
  | .getPage uaddr => isUserVaddr uaddr = true
  | .elsewhere page _ => ¬ InUse s.1 pd page
  | _ => True

/-- An operation on the memory, and on the map. -/
def step (pd : UInt32) (s : Memory × Mappings) (op : Op) (s' : Memory × Mappings) : Prop :=
  ∃ ok, op.exec pd s.1 = .ok (ok, s'.1) ∧ s'.2 = op.after s.2 ok

/-- Each operation returns, and keeps the relation. -/
theorem Paged.exec (h : Paged m₀ pd dir m f) {op : Op} (hop : op.Admissible pd (m, f)) :
    ∃ ok m', op.exec pd m = .ok (ok, m') ∧ Paged m₀ pd (op.tables dir) m' (op.after f ok) := by
  cases op with
  | setPage upage kpage writable page =>
    obtain ⟨hupage, huser, hfree, hkpage, hram, hpage⟩ := hop
    obtain ⟨ok, m', hrun, h'⟩ := h.setPage writable hupage huser hfree hkpage hram hpage
    refine ⟨ok, m', hrun, ?_⟩
    cases ok with
    | true => exact h'
    | false => exact h'
  | clearPage upage =>
    obtain ⟨m', hrun, h'⟩ := h.clearPage hop.1 hop.2
    refine ⟨true, m', ?_, h'⟩
    show (pagedirClearPage pd upage m >>= _) = _
    rw [hrun]
    rfl
  | getPage uaddr =>
    refine ⟨true, m, ?_, h⟩
    show (pagedirGetPage pd uaddr m >>= _) = _
    rw [h.getPage hop]
    rfl
  | isDirty vpage =>
    obtain ⟨b, hrun⟩ := h.isFlag pteD vpage
    refine ⟨true, m, ?_, h⟩
    show (Paging.isFlag pteD pd vpage m >>= _) = _
    rw [hrun]
    rfl
  | setDirty vpage dirty =>
    obtain ⟨m', hrun, h'⟩ := h.setFlag vpage dirty
      (show pteD &&& pteP = 0 by decide) (by decide) (by decide)
    refine ⟨true, m', ?_, h'⟩
    show (Paging.setFlag pteD pd vpage dirty m >>= _) = _
    rw [hrun]
    rfl
  | isAccessed vpage =>
    obtain ⟨b, hrun⟩ := h.isFlag pteA vpage
    refine ⟨true, m, ?_, h⟩
    show (Paging.isFlag pteA pd vpage m >>= _) = _
    rw [hrun]
    rfl
  | setAccessed vpage accessed =>
    obtain ⟨m', hrun, h'⟩ := h.setFlag vpage accessed
      (show pteA &&& pteP = 0 by decide) (by decide) (by decide)
    refine ⟨true, m', ?_, h'⟩
    show (Paging.setFlag pteA pd vpage accessed m >>= _) = _
    rw [hrun]
    rfl
  | elsewhere page content => exact ⟨true, _, rfl, h.elsewhere hop content⟩

/-- Every call keeps directory, tables and mappings together. -/
theorem step_paged {s s' : Memory × Mappings} {op : Op} (h : ∃ dir, Paged m₀ pd dir s.1 s.2)
    (hop : op.Admissible pd s) (hstep : step pd s op s') : ∃ dir, Paged m₀ pd dir s'.1 s'.2 := by
  obtain ⟨dir, h⟩ := h
  obtain ⟨ok, hrun, hafter⟩ := hstep
  obtain ⟨ok', m', hrun', h'⟩ := h.exec hop
  rw [hrun'] at hrun
  cases hrun
  exact ⟨op.tables dir, hafter ▸ h'⟩

/-- An operation does nothing to the mappings of other pages, and nothing at all where it fails. -/
theorem after_of_ne {op : Op} {ok : Bool} (hne : op.vaddr.map pgNo ≠ some (pgNo va)) :
    op.after f ok (pgNo va) = f (pgNo va) := by
  have hupdate : ∀ {u y}, some (pgNo u) ≠ some (pgNo va) →
      Function.update f (pgNo u) y (pgNo va) = f (pgNo va) := by
    intro u y h
    exact Function.update_of_ne (fun heq => h (congrArg some heq.symm)) _ _
  cases op with
  | setPage upage kpage writable page =>
    cases ok with
    | true => exact hupdate hne
    | false => rfl
  | clearPage upage => exact hupdate hne
  | _ => rfl

/-- A call that fails maps nothing. -/
theorem exec_false {op : Op} {m' : Memory} (h : op.exec pd m = .ok (false, m')) :
    op.after f false = f := by
  cases op with
  | clearPage upage =>
    obtain ⟨_, _, heq⟩ := bind_eq_ok.mp h
    cases heq
  | _ => rfl

/-- After any operations from `pagedir_create` on, with the page tables that they get or do not get,
`pagedir_get_page` answers from the map of what was mapped last and not cleared since, the entries
have the writable bits of the map, and the part of the directory for the kernel is that of
`init_page_dir`. The next operation returns, leaves the mappings of other pages, and where it fails all
of them. -/
theorem pagedir_map (m₀ : Memory) (pd : UInt32) (m : Memory) (f : Mappings) (hinit : InitDir m₀)
    (hpd : KernelPage pd) (hfresh : ¬ InUse m₀ m₀.initPageDir pd)
    (h : ReachWhere (step pd) (fun s op => op.Admissible pd s)
      ((pagedirCreate (some pd) m₀).2, fun _ => none) (m, f)) :
    (∀ va, isUserVaddr va = true →
      pagedirGetPage pd va m = .ok ((f (pgNo va)).map fun x => x.kpage + pgOfs va) ∧
        mappingOf pd va m = .ok (f (pgNo va))) ∧
    (∀ i, 768 ≤ i → i < 1024 →
      m.word pd i = m₀.word m₀.initPageDir i ∧ m.word pd i = m.word m.initPageDir i) ∧
    ∀ op : Op, op.Admissible pd (m, f) → ∃ ok m', op.exec pd m = .ok (ok, m') ∧
      ∀ va, isUserVaddr va = true → op.vaddr.map pgNo ≠ some (pgNo va) ∨ ok = false →
        mappingOf pd va m' = mappingOf pd va m := by
  have hpaged : ∃ dir, Paged m₀ pd dir (m, f).1 (m, f).2 :=
    ReachWhere.invariant (P := fun s => ∃ dir, Paged m₀ pd dir s.1 s.2)
      ((paged_create hinit hpd hfresh).imp fun _ => And.right)
      (fun _ _ _ hs hop hstep => step_paged hs hop hstep) h
  obtain ⟨dir, hm⟩ := hpaged
  refine ⟨fun va hva => ⟨hm.getPage hva, hm.mappingOf hva⟩, fun i hlow hi => ⟨hm.kernel i hlow hi, ?_⟩,
    fun op hop => ?_⟩
  · rw [hm.kernel i hlow hi, hm.initPageDir, hm.initWord]
  · obtain ⟨ok, m', hrun, h'⟩ := hm.exec hop
    refine ⟨ok, m', hrun, fun va hva hsame => ?_⟩
    rw [h'.mappingOf hva, hm.mappingOf hva]
    rcases hsame with hne | rfl
    · rw [after_of_ne hne]
    · rw [exec_false hrun]

/-- A memory with empty pages. -/
def emptyMemory : Memory where
  word := fun _ _ => 0
  initPageDir := 0xc0001000
  initRamPages := 16

/-- A page at `0x08048000`. -/
def mapCode : Op := .setPage 0x08048000 0xc0003000 true (some 0xc0004000)

theorem initDir_empty : InitDir emptyMemory :=
  ⟨fun _ => none, ⟨⟨by decide, by decide⟩, fun _ _ _ => rfl,
    fun _ _ _ h => absurd h.symm (Option.some_ne_none _),
    fun _ _ _ h => absurd h.symm (Option.some_ne_none _)⟩, fun _ _ => rfl⟩

/-- Only the directory and `init_page_dir` are in use at first. -/
theorem not_inUse_empty {page : UInt32} (h : page ≠ emptyMemory.initPageDir) (hpd : page ≠ pd) :
    ¬ InUse (pagedirCreate (some pd) emptyMemory).2 pd page := by
  rintro (heq | heq | ⟨i, _, hword⟩)
  · exact h heq
  · exact hpd heq
  · have hzero := congrFun (Memory.word_setPage emptyMemory pd fun _ => 0) i
    exact pdeOf_ne_zero _ (hword.symm.trans hzero)

theorem fresh_empty : ¬ InUse emptyMemory emptyMemory.initPageDir 0xc0002000 := by
  rintro (h | h | ⟨i, _, h⟩)
  · exact absurd h (by decide)
  · exact absurd h (by decide)
  · exact pdeOf_ne_zero _ h.symm

/-- The call of the sample gets what it needs. -/
theorem admissible_mapCode : mapCode.Admissible 0xc0002000
    ((pagedirCreate (some 0xc0002000) emptyMemory).2, fun _ => none) := by
  refine ⟨by decide, by decide, rfl, ⟨by decide, by decide⟩, by decide, fun pt hpt => ?_⟩
  cases hpt
  exact ⟨⟨by decide, by decide⟩, not_inUse_empty (by decide) (by decide)⟩

/-- The call of the sample succeeds. -/
theorem mapCode_true {ok : Bool} (h : mapCode.exec 0xc0002000
    (pagedirCreate (some 0xc0002000) emptyMemory).2 = .ok (ok, m)) : ok = true := by
  have hok : (mapCode.exec 0xc0002000 (pagedirCreate (some 0xc0002000) emptyMemory).2).toOption.map
      Prod.fst = some true := by decide
  rw [h] at hok
  exact Option.some.inj hok

/-- A page of code is mapped, and an address on it is found. -/
theorem pagedir_map_code : ∃ m, mapCode.exec 0xc0002000
      (pagedirCreate (some 0xc0002000) emptyMemory).2 = .ok (true, m) ∧
    pagedirGetPage 0xc0002000 0x08048123 m = .ok (some 0xc0003123) := by
  have hpd : KernelPage 0xc0002000 := ⟨by decide, by decide⟩
  obtain ⟨ok, m, hrun, _⟩ :=
    (pagedir_map emptyMemory 0xc0002000 _ _ initDir_empty hpd fresh_empty .start).2.2 mapCode
      admissible_mapCode
  obtain rfl := mapCode_true hrun
  refine ⟨m, hrun, ?_⟩
  have hreach : ReachWhere (step 0xc0002000) (fun s op => op.Admissible 0xc0002000 s)
      ((pagedirCreate (some 0xc0002000) emptyMemory).2, fun _ => none)
      (m, mapCode.after (fun _ => none) true) :=
    ReachWhere.start.next admissible_mapCode ⟨true, hrun, rfl⟩
  exact ((pagedir_map emptyMemory 0xc0002000 _ _ initDir_empty hpd fresh_empty hreach).1 0x08048123
    (by decide)).1

end Pintos.Paging
