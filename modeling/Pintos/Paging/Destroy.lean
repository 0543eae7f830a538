import Mathlib.Data.List.Nodup
import Pintos.Lib.Simulation
import Pintos.Paging.Mappings

/-!
# Destroying a page directory

`pagedir_destroy` of `userprog/pagedir.c`. It frees the kernel pages that are mapped, the page tables
that `lookup_page` has created and the directory, each once, and no other page
(`pagedirDestroy_frees`).
-/

namespace Pintos.Paging

open Pintos.Lib

variable {m m' m₀ : Memory} {pd pt va page : UInt32} {f : Mappings} {dir : Nat → Option UInt32}

/-! ## The code -/

/-- The memory, and the pages that `palloc_free_page` has been called on. -/
abbrev Freeing := Memory × List UInt32

/-- `palloc_free_page`, which overwrites the page. What its pool keeps of it is not modelled. -/
def pallocFreePage (page : UInt32) (s : Freeing) : Except Assertion Freeing := do
  assert .pgOfs (pgOfs page = 0)
  return (if page = 0 then s.1 else s.1.setPage page fun _ => 0xcccccccc, s.2 ++ [page])

/-- The loop over a page table. -/
def freeEntries (pt : UInt32) : List Nat → Freeing → Except Assertion Freeing
  | [], s => .ok s
  | j :: js, s => do
    let pte := s.1.get ⟨pt, j⟩
    let s ← if pte &&& pteP ≠ 0 then do
        let page ← pteGetPage pte
        pallocFreePage page s
      else pure s
    freeEntries pt js s

/-- The loop over the directory. -/
def freeTables (pd : UInt32) : List Nat → Freeing → Except Assertion Freeing
  | [], s => .ok s
  | i :: is, s => do
    let pde := s.1.get ⟨pd, i⟩
    let s ← if pde &&& pteP ≠ 0 then do
        let pt ← pdeGetPt pde
        let s ← freeEntries pt (List.range (4096 / 4)) s
        pallocFreePage pt s
      else pure s
    freeTables pd is s

/-- `pagedir_destroy`. -/
def pagedirDestroy (pd : UInt32) (m : Memory) : Except Assertion Freeing :=
  if pd = 0 then .ok (m, [])
  else do
    assert .initPageDir (pd ≠ m.initPageDir)
    let s ← freeTables pd (List.range (pdNo physBase).toNat) (m, [])
    pallocFreePage pd s

/-! ## Freeing a page -/

/-- `palloc_free_page` overwrites the page, and leaves the others. -/
theorem pallocFreePage_ok (h : KernelPage page) (s : Freeing) : ∃ m', pallocFreePage page s =
    .ok (m', s.2 ++ [page]) ∧ ∀ q, q ≠ page → m'.word q = s.1.word q := by
  refine ⟨s.1.setPage page fun _ => 0xcccccccc, ?_, fun q hq => Memory.word_setPage_of_ne _ _ hq⟩
  unfold pallocFreePage
  rw [assert_ok h.aligned, bind_ok, if_neg h.ne_zero]
  rfl

/-- The pages that entries map. -/
def kpages (e : Nat → Option Mapping) (js : List Nat) : List UInt32 :=
  js.filterMap fun j => (e j).map Mapping.kpage

/-- The pages of some entries are the pages these entries map. -/
theorem mem_kpages {e : Nat → Option Mapping} {js : List Nat} :
    page ∈ kpages e js ↔ ∃ j ∈ js, ∃ x, e j = some x ∧ x.kpage = page := by
  unfold kpages
  simp only [List.mem_filterMap, Option.map_eq_some_iff]

theorem kpages_cons (e : Nat → Option Mapping) (j : Nat) (js : List Nat) :
    kpages e (j :: js) = ((e j).map Mapping.kpage).toList ++ kpages e js := by
  unfold kpages
  rw [List.filterMap_cons]
  cases e j with
  | none => rfl
  | some x => rfl

/-- The loop over a page table frees what the entries map. The table is none of these pages, so that it
is as it was. -/
theorem freeEntries_ok {e : Nat → Option Mapping} : ∀ (js : List Nat) (s : Freeing),
    (∀ j ∈ js, EntryOf (s.1.word pt j) (e j)) → pt ∉ kpages e js →
      ∃ m', freeEntries pt js s = .ok (m', s.2 ++ kpages e js) ∧
        ∀ q, q ∉ kpages e js → m'.word q = s.1.word q
  | [], s, _, _ => ⟨s.1, by rw [kpages, List.filterMap_nil, List.append_nil]; rfl, fun _ _ => rfl⟩
  | j :: js, s, hentry, hpt => by
    have hj := hentry j List.mem_cons_self
    have hget : s.1.get ⟨pt, j⟩ = s.1.word pt j := rfl
    rw [kpages_cons] at hpt ⊢
    unfold freeEntries
    dsimp only
    rw [hget]
    cases he : e j with
    | none =>
      rw [he] at hj
      cases hj with
      | absent habsent =>
        rw [if_neg (not_not_intro habsent)]
        exact freeEntries_ok js s (fun k hk => hentry k (List.mem_cons_of_mem _ hk))
          fun hmem => hpt (List.mem_append_right _ hmem)
    | some x =>
      rw [he] at hj hpt
      cases hj with
      | @mapped kpage writable hmaps hkpage =>
        have hne : pt ≠ kpage := fun heq => hpt (List.mem_append_left _ (List.mem_singleton.mpr heq))
        obtain ⟨m₁, hfree, hword⟩ := pallocFreePage_ok hkpage s
        obtain ⟨m', hloop, hwords⟩ := freeEntries_ok js (m₁, s.2 ++ [kpage])
          (fun k hk => by
            show EntryOf (m₁.word pt k) _
            rw [hword pt hne]
            exact hentry k (List.mem_cons_of_mem _ hk))
          fun hmem => hpt (List.mem_append_right _ hmem)
        refine ⟨m', ?_, fun q hq => ?_⟩
        · rw [if_pos hmaps.present, hmaps.pteGetPage hkpage, bind_ok, hfree, bind_ok, hloop,
            List.append_assoc]
          rfl
        · rw [hwords q fun hmem => hq (List.mem_append_right _ hmem)]
          exact hword q fun heq => hq (List.mem_append_left _ (List.mem_singleton.mpr heq))

/-! ## The traversal -/

/-- The number of the page that the entry `j` of the table `i` is for. -/
def userPage (i j : Nat) : UInt32 := UInt32.ofNat (i * 1024 + j)

/-- The page number of two indices. -/
theorem toNat_userPage {i j : Nat} (hi : i < 1024) (hj : j < 1024) :
    (userPage i j).toNat = i * 1024 + j := by
  unfold userPage
  rw [UInt32.toNat_ofNat', Nat.mod_eq_of_lt (by omega)]

/-- An address has the page number of its two indices. -/
theorem pgNo_eq_userPage (va : UInt32) : pgNo va = userPage (pdNo va).toNat (ptNo va).toNat := by
  have hva := va.toNat_lt
  rw [← UInt32.toNat_inj, toNat_userPage (pdNo_lt va) (ptNo_lt va), toNat_pgNo, toNat_pdNo, toNat_ptNo]
  omega

/-- The entries below `PHYS_BASE` are those of user addresses. -/
theorem userPage_vaddr {i j : Nat} (hi : i < 768) (hj : j < 1024) : ∃ va, isUserVaddr va = true ∧
    (pdNo va).toNat = i ∧ (ptNo va).toNat = j ∧ pgNo va = userPage i j := by
  obtain ⟨va, hva⟩ : ∃ va : UInt32, va.toNat = (i * 1024 + j) * 4096 :=
    ⟨UInt32.ofNat ((i * 1024 + j) * 4096), by
      rw [UInt32.toNat_ofNat', Nat.mod_eq_of_lt (by omega)]⟩
  have hpd : (pdNo va).toNat = i := by
    rw [toNat_pdNo, hva]
    omega
  have hpt : (ptNo va).toNat = j := by
    rw [toNat_ptNo, hva]
    omega
  refine ⟨va, pdNo_user.mp (hpd ▸ hi), hpd, hpt, ?_⟩
  rw [pgNo_eq_userPage, hpd, hpt]

/-- The pages that are mapped through the table `i`. -/
def mapped (f : Mappings) (i : Nat) : List UInt32 := kpages (fun j => f (userPage i j)) (List.range 1024)

/-- What the entry `i` of the directory has to be freed for. -/
def owned (dir : Nat → Option UInt32) (f : Mappings) (i : Nat) : List UInt32 :=
  (dir i).elim [] fun pt => mapped f i ++ [pt]

/-- No page that is mapped is one of those that the directory and its tables are in. -/
def Apart (m : Memory) (pd : UInt32) (f : Mappings) : Prop :=
  ∀ va, isUserVaddr va = true → ∀ x, f (pgNo va) = some x → ¬ InUse m pd x.kpage

/-- The pages of one table are the pages that user addresses map through it. -/
theorem mem_mapped {i : Nat} (hi : i < 768) : page ∈ mapped f i ↔
    ∃ va, isUserVaddr va = true ∧ (pdNo va).toNat = i ∧ ∃ x, f (pgNo va) = some x ∧ x.kpage = page := by
  unfold mapped
  rw [mem_kpages]
  constructor
  · rintro ⟨j, hj, x, hx, hpage⟩
    obtain ⟨va, huser, hpd, _, hno⟩ := userPage_vaddr hi (List.mem_range.mp hj)
    exact ⟨va, huser, hpd, x, hno ▸ hx, hpage⟩
  · rintro ⟨va, _, rfl, x, hx, hpage⟩
    exact ⟨(ptNo va).toNat, List.mem_range.mpr (ptNo_lt va), x, pgNo_eq_userPage va ▸ hx, hpage⟩

/-- A mapped page is neither directory nor table. -/
theorem Apart.of_mapped (h : Apart m pd f) {i : Nat} (hi : i < 768) (hpage : page ∈ mapped f i) :
    ¬ InUse m pd page := by
  obtain ⟨va, huser, _, x, hx, rfl⟩ := (mem_mapped hi).mp hpage
  exact h va huser x hx

/-- The loop over the directory frees what its entries have to be freed for. The tables it has still to
come to are as they were. -/
theorem freeTables_ok (h : Paged m₀ pd dir m f) (hapart : Apart m pd f) : ∀ (is : List Nat) (s : Freeing),
    (∀ i ∈ is, i < 768) → is.Nodup → s.1.word pd = m.word pd →
    (∀ i ∈ is, ∀ pt, dir i = some pt → s.1.word pt = m.word pt) →
      ∃ m', freeTables pd is s = .ok (m', s.2 ++ is.flatMap (owned dir f))
  | [], s, _, _, _, _ => ⟨s.1, by rw [List.flatMap_nil, List.append_nil]; rfl⟩
  | i :: is, s, hlt, hnodup, hpd, htables => by
    have hi := hlt i List.mem_cons_self
    obtain ⟨hnot, hnodup'⟩ := List.nodup_cons.mp hnodup
    have hlt' : ∀ k ∈ is, k < 768 := fun k hk => hlt k (List.mem_cons_of_mem _ hk)
    have hget : s.1.get ⟨pd, i⟩ = m.word pd i := congrFun hpd i
    unfold freeTables
    dsimp only
    rw [hget, List.flatMap_cons]
    cases hdir : dir i with
    | none =>
      have howned : owned dir f i = [] := by rw [owned, hdir]; rfl
      rw [h.zero i (by omega) hdir, howned, if_neg (not_not_intro (by decide))]
      exact freeTables_ok h hapart is s hlt' hnodup' hpd
        fun k hk => htables k (List.mem_cons_of_mem _ hk)
    | some pt =>
      have howned : owned dir f i = mapped f i ++ [pt] := by rw [owned, hdir]; rfl
      obtain ⟨hpt, hword⟩ := h.table i (by omega) pt hdir
      have htable := htables i List.mem_cons_self pt hdir
      have hentry : ∀ j ∈ List.range 1024, EntryOf (s.1.word pt j) (f (userPage i j)) := by
        intro j hj
        obtain ⟨va, huser, hva, hptNo, hno⟩ := userPage_vaddr hi (List.mem_range.mp hj)
        have hat := h.entry va huser pt (by rw [hva]; exact hdir)
        rwa [hptNo, hno, ← htable] at hat
      have hunused : ∀ page ∈ mapped f i, ¬ InUse m pd page := fun _ hp => hapart.of_mapped hi hp
      have hself : pt ∉ mapped f i := fun hmem =>
        hunused pt hmem (h.toDirectory.inUse (by omega) hdir)
      obtain ⟨m₁, hentries, hkeep⟩ := freeEntries_ok (List.range 1024) s hentry hself
      obtain ⟨m₂, hfree, hkeep'⟩ := pallocFreePage_ok hpt (m₁, s.2 ++ mapped f i)
      obtain ⟨m', hloop⟩ := freeTables_ok h hapart is (m₂, s.2 ++ mapped f i ++ [pt]) hlt' hnodup'
        (by
          show m₂.word pd = _
          rw [hkeep' pd (h.apart i (by omega) pt hdir).symm,
            hkeep pd fun hmem => hunused pd hmem (.inr (.inl rfl)), hpd])
        (by
          intro k hk pt' hdir'
          have hne : pt' ≠ pt := by
            rintro rfl
            exact hnot (h.inj i hi k (by have := hlt' k hk; omega) pt' hdir hdir' ▸ hk)
          show m₂.word pt' = _
          rw [hkeep' pt' hne, hkeep pt' fun hmem =>
            hunused pt' hmem (h.toDirectory.inUse (by have := hlt' k hk; omega) hdir')]
          exact htables k (List.mem_cons_of_mem _ hk) pt' hdir')
      refine ⟨m', ?_⟩
      rw [hword, if_pos (pdeOf_present pt), pdeGetPt_pdeOf hpt, bind_ok, hentries, bind_ok]
      show (pallocFreePage pt (m₁, s.2 ++ mapped f i) >>= _) = _
      rw [hfree, bind_ok, hloop, howned, List.append_assoc, List.append_assoc, List.append_assoc]

/-! ## Each page once -/

/-- The kernel pages of different mappings are different. -/
def Distinct (f : Mappings) : Prop :=
  ∀ va vb, isUserVaddr va = true → isUserVaddr vb = true → ∀ x y, f (pgNo va) = some x →
    f (pgNo vb) = some y → x.kpage = y.kpage → pgNo va = pgNo vb

/-- No page is mapped twice in one table. -/
theorem mapped_nodup (h : Distinct f) {i : Nat} (hi : i < 768) : (mapped f i).Nodup := by
  unfold mapped kpages List.Nodup
  rw [List.pairwise_filterMap]
  refine List.nodup_range.imp_of_mem fun {j k} hj hk hne page hp page' hp' heq => hne ?_
  obtain ⟨x, hx, rfl⟩ := Option.map_eq_some_iff.mp hp
  obtain ⟨y, hy, rfl⟩ := Option.map_eq_some_iff.mp hp'
  obtain ⟨va, hva, _, hpt, hno⟩ := userPage_vaddr hi (List.mem_range.mp hj)
  obtain ⟨vb, hvb, _, hpt', hno'⟩ := userPage_vaddr hi (List.mem_range.mp hk)
  have hsame := h va vb hva hvb x y (hno ▸ hx) (hno' ▸ hy) heq
  rw [← hpt, ← hpt', (pgNo_eq_iff.mp hsame).2]

/-- An entry of the directory owns the pages of its table, and the table. -/
theorem mem_owned {i : Nat} : page ∈ owned dir f i ↔ ∃ pt, dir i = some pt ∧ (page ∈ mapped f i ∨ page = pt) := by
  unfold owned
  cases dir i with
  | none => simp
  | some pt => simp [List.mem_append]

/-- Two entries have nothing in common. -/
theorem owned_disjoint (h : Paged m₀ pd dir m f) (hapart : Apart m pd f) (hdistinct : Distinct f)
    {i k : Nat} (hi : i < 768) (hk : k < 768) (hne : i ≠ k) : (owned dir f i).Disjoint (owned dir f k) := by
  intro page hp hp'
  obtain ⟨pt, hdir, hp⟩ := mem_owned.mp hp
  obtain ⟨pt', hdir', hp'⟩ := mem_owned.mp hp'
  have htable := h.toDirectory.inUse (by omega) hdir
  have htable' := h.toDirectory.inUse (by omega) hdir'
  rcases hp with hp | rfl
  · rcases hp' with hp' | rfl
    · obtain ⟨va, hva, hpd, x, hx, rfl⟩ := (mem_mapped hi).mp hp
      obtain ⟨vb, hvb, hpd', y, hy, heq⟩ := (mem_mapped hk).mp hp'
      have hsame := hdistinct va vb hva hvb x y hx hy heq.symm
      exact hne (by rw [← hpd, ← hpd', (pgNo_eq_iff.mp hsame).1])
    · exact hapart.of_mapped hi hp htable'
  · rcases hp' with hp' | rfl
    · exact hapart.of_mapped hk hp' htable
    · exact hne (h.inj i hi k (by omega) _ hdir hdir').symm

/-- What a directory is freed for. -/
def allOwned (pd : UInt32) (dir : Nat → Option UInt32) (f : Mappings) : List UInt32 :=
  (List.range 768).flatMap (owned dir f) ++ [pd]

/-- The directory owns what is mapped, the tables and itself. -/
theorem mem_allOwned (h : Paged m₀ pd dir m f) : page ∈ allOwned pd dir f ↔
    (∃ va, isUserVaddr va = true ∧ ∃ x, f (pgNo va) = some x ∧ x.kpage = page) ∨
      (∃ i < 768, dir i = some page) ∨ page = pd := by
  unfold allOwned
  rw [List.mem_append, List.mem_flatMap, List.mem_singleton, ← or_assoc]
  refine or_congr_left ⟨?_, ?_⟩
  · rintro ⟨i, hi, hp⟩
    have hi' := List.mem_range.mp hi
    obtain ⟨pt, hdir, hp | rfl⟩ := mem_owned.mp hp
    · obtain ⟨va, hva, _, x, hx, hpage⟩ := (mem_mapped hi').mp hp
      exact .inl ⟨va, hva, x, hx, hpage⟩
    · exact .inr ⟨i, hi', hdir⟩
  · rintro (⟨va, hva, x, hx, hpage⟩ | ⟨i, hi, hdir⟩)
    · have hi := pdNo_user.mpr hva
      refine ⟨(pdNo va).toNat, List.mem_range.mpr hi, mem_owned.mpr ?_⟩
      cases hdir : dir (pdNo va).toNat with
      | none =>
        rw [h.unmapped va hva hdir] at hx
        cases hx
      | some pt => exact ⟨pt, rfl, .inl ((mem_mapped hi).mpr ⟨va, hva, rfl, x, hx, hpage⟩)⟩
    · exact ⟨i, List.mem_range.mpr hi, mem_owned.mpr ⟨page, hdir, .inr rfl⟩⟩

/-- The directory owns no page twice. -/
theorem allOwned_nodup (h : Paged m₀ pd dir m f) (hapart : Apart m pd f) (hdistinct : Distinct f) :
    (allOwned pd dir f).Nodup := by
  unfold allOwned
  rw [List.nodup_append]
  refine ⟨List.nodup_flatMap.mpr ⟨fun i hi => ?_, ?_⟩, List.nodup_singleton pd, ?_⟩
  · have hi' := List.mem_range.mp hi
    unfold owned
    cases hdir : dir i with
    | none => exact List.nodup_nil
    | some pt =>
      show (mapped f i ++ [pt]).Nodup
      rw [List.nodup_append]
      refine ⟨mapped_nodup hdistinct hi', List.nodup_singleton pt, fun page hp pt' hpt' heq => ?_⟩
      rw [heq, List.mem_singleton.mp hpt'] at hp
      exact hapart.of_mapped hi' hp (h.toDirectory.inUse (by omega) hdir)
  · refine List.nodup_range.imp_of_mem fun {i k} hi hk hne => ?_
    exact owned_disjoint h hapart hdistinct (List.mem_range.mp hi) (List.mem_range.mp hk) hne
  · intro page hp pd' hpd' heq
    rw [heq, List.mem_singleton.mp hpd', List.mem_flatMap] at hp
    obtain ⟨i, hi, hp⟩ := hp
    have hi' := List.mem_range.mp hi
    obtain ⟨pt, hdir, hp | hp⟩ := mem_owned.mp hp
    · exact hapart.of_mapped hi' hp (.inr (.inl rfl))
    · exact h.apart i (by omega) pt hdir hp.symm

/-- `pagedir_destroy` frees all of it, in order. -/
theorem pagedirDestroy_ok (h : Paged m₀ pd dir m f) (hapart : Apart m pd f) :
    ∃ m', pagedirDestroy pd m = .ok (m', allOwned pd dir f) := by
  have hlt : ∀ i ∈ List.range 768, i < 768 := fun _ hi => List.mem_range.mp hi
  obtain ⟨m₁, hloop⟩ := freeTables_ok h hapart (List.range 768) (m, []) hlt List.nodup_range rfl
    fun _ _ _ _ => rfl
  obtain ⟨m', hfree, _⟩ := pallocFreePage_ok h.page (m₁, [] ++ (List.range 768).flatMap (owned dir f))
  have hne : pd ≠ m.initPageDir := h.initPageDir ▸ h.ne_init
  have hbase : (pdNo physBase).toNat = 768 := rfl
  refine ⟨m', ?_⟩
  unfold pagedirDestroy allOwned
  rw [if_neg h.page.ne_zero, assert_ok hne, bind_ok, hbase, hloop, bind_ok, hfree, List.nil_append]

/-! ## Runs -/

/-- The tables that `lookup_page` creates in an operation. -/
def Op.creates (pd : UInt32) (m : Memory) : Op → List UInt32
  | .setPage upage _ _ (some pt) => if m.get ⟨pd, (pdNo upage).toNat⟩ = 0 then [pt] else []
  | _ => []

/-- A directory, what it maps, and the tables created for it. -/
structure Owner where
  mem : Memory
  map : Mappings
  created : List UInt32

/-- After `pagedir_create`. -/
def Owner.start (m₀ : Memory) (pd : UInt32) : Owner :=
  { mem := (pagedirCreate (some pd) m₀).2, map := fun _ => none, created := [] }

def Owner.step (pd : UInt32) (s : Owner) (op : Op) (s' : Owner) : Prop :=
  Paging.step pd (s.mem, s.map) op (s'.mem, s'.map) ∧ s'.created = s.created ++ op.creates pd s.mem

/-- What the callers and `palloc_get_page` see to: the directory and its tables are not mapped as pages,
and a page for a new table is not mapped. -/
def Op.Keeps (pd : UInt32) (s : Owner) (op : Op) : Prop :=
  op.Admissible pd (s.mem, s.map) ∧ match op with
    | .setPage _ kpage _ page => ¬ InUse s.mem pd kpage ∧ ∀ pt ∈ page, pt ≠ kpage ∧
        ∀ va, isUserVaddr va = true → ∀ x, s.map (pgNo va) = some x → x.kpage ≠ pt
    | _ => True

/-- The tables in the user part of the directory are those created, and no page that is mapped is in
use for the directory. -/
structure Owns (m₀ : Memory) (pd : UInt32) (s : Owner) (dir : Nat → Option UInt32) : Prop where
  paged : Paged m₀ pd dir s.mem s.map
  apart : Apart s.mem pd s.map
  created : ∀ pt, pt ∈ s.created ↔ ∃ i < 768, dir i = some pt

/-- An entry tells its table. -/
theorem Paged.dir_eq_some (h : Paged m₀ pd dir m f) (hpage : KernelPage page) {i : Nat} (hi : i < 1024) :
    m.word pd i = pdeOf page ↔ dir i = some page := by
  cases hdir : dir i with
  | none =>
    rw [h.zero i hi hdir]
    exact iff_of_false (pdeOf_ne_zero page).symm (by simp)
  | some pt =>
    obtain ⟨hpt, hword⟩ := h.table i hi pt hdir
    rw [hword, Option.some.injEq]
    exact ⟨pdeOf_inj hpt hpage, congrArg pdeOf⟩

/-- In use are the kernel's directory, this one and its tables. -/
theorem Paged.inUse_iff (h : Paged m₀ pd dir m f) (hpage : KernelPage page) : InUse m pd page ↔
    page = m.initPageDir ∨ page = pd ∨ ∃ i < 1024, dir i = some page := by
  unfold InUse
  refine or_congr_right (or_congr_right (exists_congr fun i => and_congr_right fun hi => ?_))
  exact h.dir_eq_some hpage hi

/-- What is mapped is a kernel page. -/
theorem Paged.kernelPage (h : Paged m₀ pd dir m f) (hva : isUserVaddr va = true) {x : Mapping}
    (hx : f (pgNo va) = some x) : KernelPage x.kpage := by
  cases hdir : dir (pdNo va).toNat with
  | none =>
    rw [h.unmapped va hva hdir] at hx
    cases hx
  | some pt =>
    have hentry := h.entry va hva pt hdir
    rw [hx] at hentry
    cases hentry with
    | mapped _ hkpage => exact hkpage

/-- `pagedir_set_page` makes a table where there is none. -/
theorem mem_creates (h : Directory m pd dir) {upage kpage : UInt32} {writable : Bool}
    {page' : Option UInt32} : pt ∈ (Op.setPage upage kpage writable page').creates pd m ↔
      page' = some pt ∧ dir (pdNo upage).toNat = none := by
  rw [← pdNo_ne_zero_iff h]
  cases page' with
  | none => exact iff_of_false (List.not_mem_nil) (by simp)
  | some pt' =>
    show pt ∈ (if m.word pd (pdNo upage).toNat = 0 then [pt'] else []) ↔ _
    split
    next hzero => rw [List.mem_singleton, Option.some.injEq, and_iff_left hzero, eq_comm]
    next hzero => exact iff_of_false List.not_mem_nil fun hboth => hzero hboth.2

/-- A table was there before or is created. -/
theorem tableFor_eq_some {upage : UInt32} {page' : Option UInt32} {i : Nat} :
    tableFor dir upage page' i = some pt ↔
      dir i = some pt ∨ i = (pdNo upage).toNat ∧ page' = some pt ∧ dir (pdNo upage).toNat = none := by
  by_cases hi : i = (pdNo upage).toNat
  · subst hi
    cases hdir : dir (pdNo upage).toNat with
    | none =>
      rw [tableFor_none hdir, Function.update_self]
      simp
    | some pt' =>
      rw [tableFor_some hdir, hdir]
      simp
  · unfold tableFor
    rw [Function.update_of_ne hi]
    exact (or_iff_left fun hboth => hi hboth.1).symm

/-- `pagedir_set_page` maps the one page, and no other. -/
theorem after_setPage {upage kpage va : UInt32} {writable ok : Bool} {page' : Option UInt32} {x : Mapping}
    (h : (Op.setPage upage kpage writable page').after f ok (pgNo va) = some x) :
    f (pgNo va) = some x ∨ x.kpage = kpage := by
  cases ok with
  | false => exact .inl h
  | true =>
    by_cases hva : pgNo va = pgNo upage
    · rw [hva] at h
      cases (Function.update_self (pgNo upage) _ f).symm.trans h
      exact .inr rfl
    · exact .inl ((Function.update_of_ne hva _ f).symm.trans h)

/-- `pagedir_clear_page` maps no page. -/
theorem after_clearPage {upage va : UInt32} {ok : Bool} {x : Mapping}
    (h : (Op.clearPage upage).after f ok (pgNo va) = some x) : f (pgNo va) = some x := by
  have hafter : (Op.clearPage upage).after f ok = Function.update f (pgNo upage) none := by
    cases ok <;> rfl
  rw [hafter] at h
  by_cases hva : pgNo va = pgNo upage
  · rw [hva, Function.update_self] at h
    cases h
  · rwa [Function.update_of_ne hva] at h

/-- An operation keeps what the directory owns. -/
theorem Owns.step {s s' : Owner} {op : Op} (h : Owns m₀ pd s dir) (hop : op.Keeps pd s)
    (hstep : Owner.step pd s op s') : Owns m₀ pd s' (op.tables dir) := by
  obtain ⟨⟨ok, hrun, hafter⟩, hcreated⟩ := hstep
  obtain ⟨ok', m', hrun', hpaged⟩ := h.paged.exec hop.1
  rw [hrun'] at hrun
  obtain ⟨rfl, rfl⟩ := Prod.mk.inj (Except.ok.inj hrun)
  dsimp only at hafter
  rw [← hafter] at hpaged
  have huse : ∀ page, KernelPage page → ¬ InUse s.mem pd page →
      (∀ i, op.tables dir i = some page → dir i = some page) → ¬ InUse s'.mem pd page := by
    intro page hpage hfree hold
    rw [h.paged.inUse_iff hpage] at hfree
    rw [hpaged.inUse_iff hpage, hpaged.initPageDir, ← h.paged.initPageDir]
    rintro (heq | heq | ⟨i, hi, hdir⟩)
    · exact hfree (.inl heq)
    · exact hfree (.inr (.inl heq))
    · exact hfree (.inr (.inr ⟨i, hi, hold i hdir⟩))
  -- an operation that makes no table and no new mapping
  have hquiet : op.tables dir = dir → op.creates pd s.mem = [] →
      (∀ va x, s'.map (pgNo va) = some x → s.map (pgNo va) = some x) →
        Owns m₀ pd s' (op.tables dir) := by
    intro htables hnone hmap
    refine ⟨hpaged, fun va hva x hx => ?_, fun pt => ?_⟩
    · exact huse x.kpage (hpaged.kernelPage hva hx) (h.apart va hva x (hmap va x hx))
        fun i hi => by rwa [htables] at hi
    · rw [hcreated, hnone, List.append_nil, htables]
      exact h.created pt
  cases op with
  | setPage upage kpage writable page' =>
    obtain ⟨hfree, hapart⟩ := hop.2
    have huser := pdNo_user.mpr hop.1.2.1
    have hcase : ∀ va x, s'.map (pgNo va) = some x →
        s.map (pgNo va) = some x ∨ x.kpage = kpage := by
      intro va x hx
      rw [hafter] at hx
      exact after_setPage hx
    refine ⟨hpaged, fun va hva x hx => ?_, fun pt => ?_⟩
    · refine huse x.kpage (hpaged.kernelPage hva hx) ?_ fun i hi => ?_
      · rcases hcase va x hx with hold | rfl
        · exact h.apart va hva x hold
        · exact hfree
      · refine (tableFor_eq_some.mp hi).resolve_right fun ⟨_, hpage, _⟩ => ?_
        obtain ⟨hne, hunmapped⟩ := hapart _ hpage
        rcases hcase va x hx with hold | heq
        · exact hunmapped va hva x hold rfl
        · exact hne heq
    · rw [hcreated, List.mem_append, h.created, mem_creates h.paged.toDirectory]
      show _ ↔ ∃ i < 768, tableFor dir upage page' i = some pt
      simp only [tableFor_eq_some]
      constructor
      · rintro (⟨i, hi, hdir⟩ | hnew)
        · exact ⟨i, hi, .inl hdir⟩
        · exact ⟨_, huser, .inr ⟨rfl, hnew⟩⟩
      · rintro ⟨i, hi, hdir | ⟨_, hnew⟩⟩
        · exact .inl ⟨i, hi, hdir⟩
        · exact .inr hnew
  | clearPage upage =>
    refine hquiet rfl rfl fun va x hx => ?_
    rw [hafter] at hx
    exact after_clearPage hx
  | _ => exact hquiet rfl rfl fun va x hx => by rwa [hafter] at hx

/-- A new directory owns itself. -/
theorem owns_start (hinit : InitDir m₀) (hpd : KernelPage pd)
    (hfresh : ¬ InUse m₀ m₀.initPageDir pd) : ∃ dir, Owns m₀ pd (Owner.start m₀ pd) dir := by
  obtain ⟨dir, huser, hpaged⟩ := paged_create hinit hpd hfresh
  refine ⟨dir, hpaged, fun va _ x hx => ?_, fun pt => iff_of_false List.not_mem_nil ?_⟩
  · cases (show (none : Option Mapping) = some x from hx)
  · rintro ⟨i, hi, hdir⟩
    rw [huser i hi] at hdir
    cases hdir

/-- `init_page_dir` and its tables are not freed. -/
theorem kernel_not_owned (h : Paged m₀ pd dir m f) (hapart : Apart m pd f)
    (hp : page ∈ allOwned pd dir f) : page ≠ m₀.initPageDir ∧
      ∀ i, 768 ≤ i → i < 1024 → m₀.word m₀.initPageDir i ≠ pdeOf page := by
  rcases (mem_allOwned h).mp hp with ⟨va, hva, x, hx, rfl⟩ | ⟨i, hi, hdir⟩ | rfl
  · have hfree := hapart va hva x hx
    refine ⟨fun heq => hfree (.inl (heq.trans h.initPageDir.symm)), fun k hlow hk hword => ?_⟩
    exact hfree (.inr (.inr ⟨k, hk, (h.kernel k hlow hk).trans hword⟩))
  · have hpage := (h.table i (by omega) page hdir).1
    refine ⟨h.table_ne_init i (by omega) page hdir, fun k hlow hk hword => ?_⟩
    have hk' := (h.dir_eq_some hpage hk).mp ((h.kernel k hlow hk).trans hword)
    have heq := h.inj i hi k hk page hdir hk'
    omega
  · refine ⟨h.ne_init, fun k hlow hk hword => ?_⟩
    have hk' := (h.dir_eq_some h.page hk).mp ((h.kernel k hlow hk).trans hword)
    exact h.apart k hk page hk' rfl

/-- After any operations from `pagedir_create` on, `pagedir_destroy` calls `palloc_free_page` once on each
kernel page that is still mapped, once on each page table that has been created and once on the
directory. It calls it on no other page, so not on one of `init_page_dir` or of its tables. -/
theorem pagedirDestroy_frees (m₀ : Memory) (pd : UInt32) (s : Owner) (hinit : InitDir m₀)
    (hpd : KernelPage pd) (hfresh : ¬ InUse m₀ m₀.initPageDir pd)
    (h : ReachWhere (Owner.step pd) (fun s op => op.Keeps pd s) (Owner.start m₀ pd) s)
    (hdistinct : Distinct s.map) :
    ∃ m' freed, pagedirDestroy pd s.mem = .ok (m', freed) ∧ freed.Nodup ∧
      (∀ page, page ∈ freed ↔
        (∃ va, isUserVaddr va = true ∧ ∃ x, s.map (pgNo va) = some x ∧ x.kpage = page) ∨
          page ∈ s.created ∨ page = pd) ∧
      ∀ page ∈ freed, page ≠ m₀.initPageDir ∧
        ∀ i, 768 ≤ i → i < 1024 → m₀.word m₀.initPageDir i ≠ pdeOf page := by
  obtain ⟨dir, hown⟩ : ∃ dir, Owns m₀ pd s dir :=
    ReachWhere.invariant (P := fun s => ∃ dir, Owns m₀ pd s dir) (owns_start hinit hpd hfresh)
      (fun _ _ _ ⟨_, hs⟩ hop hstep => ⟨_, hs.step hop hstep⟩) h
  obtain ⟨m', hdestroy⟩ := pagedirDestroy_ok hown.paged hown.apart
  have hmem : ∀ page, page ∈ allOwned pd dir s.map ↔
      (∃ va, isUserVaddr va = true ∧ ∃ x, s.map (pgNo va) = some x ∧ x.kpage = page) ∨
        page ∈ s.created ∨ page = pd := by
    intro page
    rw [mem_allOwned hown.paged, hown.created]
  exact ⟨m', _, hdestroy, allOwned_nodup hown.paged hown.apart hdistinct, hmem, fun page hp =>
    kernel_not_owned hown.paged hown.apart hp⟩

/-- A page is not in use for the directory if no table has been created in it. -/
theorem Owns.not_inUse {s : Owner} (h : Owns m₀ pd s dir) (hpage : KernelPage page)
    (hkernel : ∀ i, 768 ≤ i → i < 1024 → m₀.word m₀.initPageDir i ≠ pdeOf page)
    (hinit : page ≠ m₀.initPageDir) (hpd : page ≠ pd) (hcreated : page ∉ s.created) :
    ¬ InUse s.mem pd page := by
  rintro (heq | heq | ⟨i, hi, hword⟩)
  · exact hinit (heq.trans h.paged.initPageDir)
  · exact hpd heq
  · by_cases hlow : i < 768
    · exact hcreated ((h.created page).mpr ⟨i, hlow, (h.paged.dir_eq_some hpage hi).mp hword⟩)
    · have hword' := h.paged.kernel i (Nat.not_lt.mp hlow) hi
      exact hkernel i (Nat.not_lt.mp hlow) hi (hword'.symm.trans hword)

/-- The only page a call may use is the one it was given. -/
theorem creates_subset {upage kpage : UInt32} {writable : Bool} {page' : Option UInt32} :
    (Op.setPage upage kpage writable page').creates pd m ⊆ page'.toList := by
  cases page' with
  | none => exact List.Subset.refl _
  | some pt =>
    show (if m.get ⟨pd, (pdNo upage).toNat⟩ = 0 then [pt] else []) ⊆ [pt]
    split
    · exact List.Subset.refl _
    · exact List.nil_subset _

/-- The directory in `0xc0002000`, after a run in which the pages `pages` were mapped and the pages
`tables` given to it for tables. -/
structure Used (s : Owner) (pages tables : List UInt32) : Prop where
  reach : ReachWhere (Owner.step 0xc0002000) (fun s op => op.Keeps 0xc0002000 s)
    (Owner.start emptyMemory 0xc0002000) s
  pages : ∀ va x, s.map (pgNo va) = some x → x.kpage ∈ pages
  tables : s.created ⊆ tables

/-- The calls of the sample keep the books. -/
theorem Used.owns {s : Owner} {pages tables : List UInt32} (h : Used s pages tables) :
    ∃ dir, Owns emptyMemory 0xc0002000 s dir :=
  ReachWhere.invariant (P := fun s => ∃ dir, Owns emptyMemory 0xc0002000 s dir)
    (owns_start initDir_empty ⟨by decide, by decide⟩ fresh_empty)
    (fun _ _ _ ⟨_, hs⟩ hop hstep => ⟨_, hs.step hop hstep⟩) h.reach

/-- A page that has not come up yet is mapped. -/
theorem Used.setPage {s : Owner} {pages tables : List UInt32} {upage kpage : UInt32}
    {writable : Bool} {page' : Option UInt32} (h : Used s pages tables)
    (hupage : pgOfs upage = 0 ∧ isUserVaddr upage = true) (hnone : s.map (pgNo upage) = none)
    (hram : (kpage - physBase) >>> 12 < 16)
    (hnew : ((kpage :: page'.toList).all fun page => decide (KernelPage page ∧
      page ∉ 0xc0001000 :: 0xc0002000 :: (pages ++ tables))) = true)
    (hne : kpage ∉ page')
    (hrun : (Op.setPage upage kpage writable page').exec 0xc0002000 s.mem = .ok (true, m)) :
    Used { mem := m, map := (Op.setPage upage kpage writable page').after s.map true
           created := s.created ++ (Op.setPage upage kpage writable page').creates 0xc0002000 s.mem }
      (kpage :: pages) (tables ++ page'.toList) := by
  obtain ⟨dir, hown⟩ := h.owns
  have hnew : ∀ page ∈ kpage :: page'.toList, KernelPage page ∧
      page ∉ 0xc0001000 :: 0xc0002000 :: (pages ++ tables) :=
    fun page hpage => of_decide_eq_true (List.all_eq_true.mp hnew page hpage)
  have hfree : ∀ page ∈ kpage :: page'.toList, ¬ InUse s.mem 0xc0002000 page := by
    intro page hpage
    obtain ⟨hkernel, hout⟩ := hnew page hpage
    simp only [List.mem_cons, List.mem_append, not_or] at hout
    exact hown.not_inUse hkernel (fun _ _ _ => (pdeOf_ne_zero page).symm) hout.1 hout.2.1
      fun hin => hout.2.2.2 (h.tables hin)
  have hram' : (kpage - physBase) >>> 12 < s.mem.initRamPages := by
    rw [hown.paged.initRamPages]
    exact hram
  have htable : ∀ pt ∈ page', pt ∈ kpage :: page'.toList := fun pt hpt =>
    List.mem_cons_of_mem _ (Option.mem_toList.mpr hpt)
  have hkeeps : (Op.setPage upage kpage writable page').Keeps 0xc0002000 s := by
    constructor
    · exact ⟨hupage.1, hupage.2, hnone, (hnew kpage (List.mem_cons_self ..)).1, hram',
        fun pt hpt => ⟨(hnew pt (htable pt hpt)).1, hfree pt (htable pt hpt)⟩⟩
    · refine ⟨hfree kpage (List.mem_cons_self ..), fun pt hpt => ⟨?_, fun va _ x hx heq => ?_⟩⟩
      · rintro rfl
        exact hne hpt
      · have hout := (hnew pt (htable pt hpt)).2
        simp only [List.mem_cons, List.mem_append, not_or] at hout
        exact hout.2.2.1 (heq ▸ h.pages va x hx)
  constructor
  case reach => exact h.reach.next hkeeps ⟨⟨true, hrun, rfl⟩, rfl⟩
  case pages =>
    intro va x hx
    have hx' : (Op.setPage upage kpage writable page').after s.map true (pgNo va) = some x := hx
    rcases after_setPage hx' with hx' | heq
    · exact List.mem_cons_of_mem _ (h.pages va x hx')
    · exact heq ▸ List.mem_cons_self ..
  case tables =>
    exact List.append_subset.mpr ⟨fun _ hpt => List.mem_append_left _ (h.tables hpt),
      fun _ hpt => List.mem_append_right _ (creates_subset hpt)⟩

/-- Pages are mapped for code, stack and data, and that of the code is cleared. -/
def sampleOps : List Op :=
  [mapCode, .setPage 0xbffff000 0xc0005000 true (some 0xc0006000),
    .setPage 0x08049000 0xc0007000 false none, .clearPage 0x08048000]

/-- What is mapped in the end. -/
def sampleMap : Mappings := fun n =>
  if n = pgNo 0xbffff000 then some ⟨0xc0005000, true⟩
  else if n = pgNo 0x08049000 then some ⟨0xc0007000, false⟩ else none

/-- The sample leaves two pages mapped. -/
theorem sampleMap_eq_some {n : UInt32} {x : Mapping} : sampleMap n = some x ↔
    n = pgNo 0xbffff000 ∧ x = ⟨0xc0005000, true⟩ ∨ n = pgNo 0x08049000 ∧ x = ⟨0xc0007000, false⟩ := by
  have hne : pgNo 0x08049000 ≠ pgNo 0xbffff000 := by decide
  unfold sampleMap
  by_cases hstack : n = pgNo 0xbffff000
  · subst hstack
    rw [if_pos rfl, Option.some.injEq, eq_comm]
    exact ⟨fun h => .inl ⟨rfl, h⟩, fun h => (h.resolve_right fun h => hne h.1.symm).2⟩
  · rw [if_neg hstack]
    by_cases hdata : n = pgNo 0x08049000
    · rw [if_pos hdata, Option.some.injEq, eq_comm]
      exact ⟨fun h => .inr ⟨hdata, h⟩, fun h => (h.resolve_left fun h => hstack h.1).2⟩
    · rw [if_neg hdata]
      exact iff_of_false (Option.some_ne_none x).symm fun h =>
        h.elim (fun h => hstack h.1) fun h => hdata h.1

/-- The two pages that are left are freed, with the two tables and the directory. -/
theorem pagedirDestroy_frees_sample : ∃ m m' freed,
    answers (Op.exec 0xc0002000) sampleOps (pagedirCreate (some 0xc0002000) emptyMemory).2 =
        .ok ([true, true, true, true], m) ∧
      pagedirDestroy 0xc0002000 m = .ok (m', freed) ∧ freed.Nodup ∧
      ∀ page, page ∈ freed ↔
        page ∈ [0xc0005000, 0xc0007000, 0xc0004000, 0xc0006000, (0xc0002000 : UInt32)] := by
  have hpd : KernelPage 0xc0002000 := ⟨by decide, by decide⟩
  have heval : (answers (Op.exec 0xc0002000) sampleOps
      (pagedirCreate (some 0xc0002000) emptyMemory).2).toOption.map Prod.fst =
        some [true, true, true, true] := by
    decide +kernel
  obtain ⟨⟨oks, m⟩, hrun, hoks⟩ := Option.map_eq_some_iff.mp heval
  obtain rfl : oks = [true, true, true, true] := hoks
  have hrun := eq_ok_of_toOption hrun
  have hall := hrun
  obtain ⟨⟨ok₁, m₁⟩, h₁, hrun⟩ := bind_eq_ok.mp hrun
  obtain ⟨⟨oks, m'⟩, hrest, hrun⟩ := bind_eq_ok.mp hrun
  cases hrun
  obtain ⟨⟨ok₂, m₂⟩, h₂, hrest⟩ := bind_eq_ok.mp hrest
  obtain ⟨⟨oks, m'⟩, hrun, hrest⟩ := bind_eq_ok.mp hrest
  cases hrest
  obtain ⟨⟨ok₃, m₃⟩, h₃, hrun⟩ := bind_eq_ok.mp hrun
  obtain ⟨⟨oks, m'⟩, hrest, hrun⟩ := bind_eq_ok.mp hrun
  cases hrun
  obtain ⟨⟨ok₄, m₄⟩, h₄, hrest⟩ := bind_eq_ok.mp hrest
  cases hrest
  have hused₀ : Used (Owner.start emptyMemory 0xc0002000) [] [] :=
    ⟨.start, nofun, List.Subset.refl _⟩
  have hused₁ := hused₀.setPage ⟨by decide, by decide⟩ rfl (by decide) (by decide) (by decide) h₁
  have hused₂ := hused₁.setPage ⟨by decide, by decide⟩ rfl (by decide) (by decide) (by decide) h₂
  have hused₃ := hused₂.setPage ⟨by decide, by decide⟩ rfl (by decide) (by decide) (by decide) h₃
  have hmap : (Op.clearPage 0x08048000).after ((Op.setPage 0x08049000 0xc0007000 false none).after
      ((Op.setPage 0xbffff000 0xc0005000 true (some 0xc0006000)).after
        (mapCode.after (fun _ => none) true) true) true) true = sampleMap := by
    funext n
    simp only [Op.after, mapCode, Function.update_apply, sampleMap]
    by_cases hcode : n = pgNo 0x08048000
    · subst hcode
      decide
    · rw [if_neg hcode, if_neg hcode]
      by_cases hdata : n = pgNo 0x08049000
      · subst hdata
        decide
      · rw [if_neg hdata, if_neg hdata]
  have hslot : m₁.get ⟨0xc0002000, (pdNo 0xbffff000).toNat⟩ = 0 := by
    have heval : (mapCode.exec 0xc0002000
        (pagedirCreate (some 0xc0002000) emptyMemory).2).toOption.map
          (fun r => r.2.get ⟨0xc0002000, (pdNo 0xbffff000).toNat⟩) = some 0 := by
      decide +kernel
    rw [h₁] at heval
    exact Option.some.inj heval
  have hreach : ReachWhere (Owner.step 0xc0002000) (fun s op => op.Keeps 0xc0002000 s)
      (Owner.start emptyMemory 0xc0002000)
      { mem := m, map := sampleMap, created := [0xc0004000, 0xc0006000] } := by
    refine hused₃.reach.next (i := .clearPage 0x08048000) (And.intro ⟨by decide, by decide⟩ trivial)
      ⟨⟨true, h₄, hmap.symm⟩, ?_⟩
    show [(0xc0004000 : UInt32), 0xc0006000] = _
    simp only [Op.creates, hslot]
    rfl
  have hdistinct : Distinct sampleMap := by
    intro va vb _ _ x y hx hy heq
    rcases sampleMap_eq_some.mp hx with ⟨hva, rfl⟩ | ⟨hva, rfl⟩ <;>
      rcases sampleMap_eq_some.mp hy with ⟨hvb, rfl⟩ | ⟨hvb, rfl⟩
    · exact hva.trans hvb.symm
    · exact absurd heq (by decide)
    · exact absurd heq (by decide)
    · exact hva.trans hvb.symm
  obtain ⟨m', freed, hdestroy, hnodup, hmem, -⟩ :=
    pagedirDestroy_frees emptyMemory 0xc0002000 _ initDir_empty hpd fresh_empty hreach hdistinct
  refine ⟨m, m', freed, hall, hdestroy, hnodup, fun page => ?_⟩
  rw [hmem]
  simp only [List.mem_cons, List.not_mem_nil, or_false]
  constructor
  · rintro (⟨va, -, x, hx, rfl⟩ | (rfl | rfl) | rfl)
    · rcases sampleMap_eq_some.mp hx with ⟨-, rfl⟩ | ⟨-, rfl⟩
      · exact .inl rfl
      · exact .inr (.inl rfl)
    · exact .inr (.inr (.inl rfl))
    · exact .inr (.inr (.inr (.inl rfl)))
    · exact .inr (.inr (.inr (.inr rfl)))
  · rintro (rfl | rfl | rfl | rfl | rfl)
    · exact .inl ⟨0xbffff000, by decide, _, sampleMap_eq_some.mpr (.inl ⟨rfl, rfl⟩), rfl⟩
    · exact .inl ⟨0x08049000, by decide, _, sampleMap_eq_some.mpr (.inr ⟨rfl, rfl⟩), rfl⟩
    · exact .inr (.inl (.inl rfl))
    · exact .inr (.inl (.inr rfl))
    · exact .inr (.inr rfl)

end Pintos.Paging
