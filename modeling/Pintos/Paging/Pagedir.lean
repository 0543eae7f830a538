import Mathlib.Logic.Function.Basic
import Pintos.Paging.Pte

/-!
# Page directories

`userprog/pagedir.c`, and `paging_init` of `threads/init.c`. The memory is that of the pages that hold
directories and tables, by page and index. What `palloc_get_page` returns is an argument of what
calls it.
-/

namespace Pintos.Paging

open Pintos.Lib

/-- A pointer to an entry: its page and its index. -/
structure EntryPtr where
  page : UInt32
  index : Nat
  deriving DecidableEq, Repr

structure Memory where
  /-- The words of a page. -/
  word : UInt32 → Nat → UInt32
  /-- `init_page_dir`. -/
  initPageDir : UInt32
  /-- `init_ram_pages`. -/
  initRamPages : UInt32

namespace Memory

def get (m : Memory) (e : EntryPtr) : UInt32 := m.word e.page e.index

def setPage (m : Memory) (page : UInt32) (content : Nat → UInt32) : Memory :=
  { m with word := Function.update m.word page content }

def set (m : Memory) (e : EntryPtr) (x : UInt32) : Memory :=
  m.setPage e.page (Function.update (m.word e.page) e.index x)

/-- `PAL_ZERO`. -/
def zeroPage (m : Memory) (page : UInt32) : Memory := m.setPage page fun _ => 0

theorem word_setPage (m : Memory) (page : UInt32) (content : Nat → UInt32) :
    (m.setPage page content).word page = content := Function.update_self _ _ _

theorem word_setPage_of_ne (m : Memory) (content : Nat → UInt32) {p page : UInt32} (h : p ≠ page) :
    (m.setPage page content).word p = m.word p := Function.update_of_ne h _ _

theorem word_set (m : Memory) (p : UInt32) (i : Nat) (x : UInt32) :
    (m.set ⟨p, i⟩ x).word p i = x := by
  unfold set
  rw [word_setPage, Function.update_self]

theorem word_set_of_ne (m : Memory) (x : UInt32) {p p' : UInt32} {i i' : Nat}
    (h : p' ≠ p ∨ i' ≠ i) : (m.set ⟨p, i⟩ x).word p' i' = m.word p' i' := by
  unfold set
  by_cases hp : p' = p
  · subst hp
    rw [word_setPage, Function.update_of_ne (h.resolve_left fun hne => hne rfl)]
  · rw [word_setPage_of_ne _ _ hp]

end Memory

/-- The kernel's text. -/
structure KernelText where
  /-- `&_start`. -/
  start : UInt32
  /-- `&_end_kernel_text`. -/
  fin : UInt32

/-- The loop of `paging_init`. Each page table takes the next page of `pages`. -/
def pagingInitLoop (text : KernelText) (pd : UInt32) :
    Nat → Nat → List UInt32 → UInt32 → Memory → Except Assertion Memory
  | 0, _, _, _, m => .ok m
  | n + 1, page, pages, pt, m => do
    let vaddr ← ptov (UInt32.ofNat (page * 4096))
    let pde : EntryPtr := ⟨pd, (pdNo vaddr).toNat⟩
    let inKernelText := text.start ≤ vaddr ∧ vaddr < text.fin
    let (pages, pt, m) ←
      if m.get pde = 0 then
        match pages with
        | [] => .error .palAssert
        | pt :: pages => do
          let e ← pdeCreate pt
          pure (pages, pt, (m.zeroPage pt).set pde e)
      else pure (pages, pt, m)
    let e ← pteCreateKernel vaddr (!decide inKernelText)
    pagingInitLoop text pd n (page + 1) pages pt (m.set ⟨pt, (ptNo vaddr).toNat⟩ e)

/-- `paging_init`; the directory has the first page. -/
def pagingInit (text : KernelText) (pages : List UInt32) (m : Memory) : Except Assertion Memory :=
  match pages with
  | [] => .error .palAssert
  | pd :: pages =>
    pagingInitLoop text pd m.initRamPages.toNat 0 pages 0
      { m.zeroPage pd with initPageDir := pd }

/-- `pagedir_create`. -/
def pagedirCreate (page : Option UInt32) (m : Memory) : Option UInt32 × Memory :=
  match page with
  | none => (none, m)
  | some pd => (some pd, m.setPage pd (m.word m.initPageDir))

/-- `lookup_page`. -/
def lookupPage (pd vaddr : UInt32) (create : Bool) (page : Option UInt32) (m : Memory) :
    Except Assertion (Option EntryPtr × Memory) := do
  assert .null (pd ≠ 0)
  assert .userVaddr (!create || isUserVaddr vaddr)
  let pde : EntryPtr := ⟨pd, (pdNo vaddr).toNat⟩
  if m.get pde = 0 then
    if create then
      match page with
      | none => return (none, m)
      | some pt =>
        let e ← pdeCreate pt
        let m := (m.zeroPage pt).set pde e
        let pt ← pdeGetPt (m.get pde)
        return (some ⟨pt, (ptNo vaddr).toNat⟩, m)
    else return (none, m)
  else
    let pt ← pdeGetPt (m.get pde)
    return (some ⟨pt, (ptNo vaddr).toNat⟩, m)

/-- `pagedir_set_page`. -/
def pagedirSetPage (pd upage kpage : UInt32) (writable : Bool) (page : Option UInt32) (m : Memory) :
    Except Assertion (Bool × Memory) := do
  assert .pgOfs (pgOfs upage = 0)
  assert .pgOfs (pgOfs kpage = 0)
  assert .userVaddr (isUserVaddr upage)
  let paddr ← vtop kpage
  assert .initRamPages (paddr >>> 12 < m.initRamPages)
  assert .initPageDir (pd ≠ m.initPageDir)
  match ← lookupPage pd upage true page m with
  | (some pte, m) => do
    assert .notPresent (m.get pte &&& pteP = 0)
    let e ← pteCreateUser kpage writable
    return (true, m.set pte e)
  | (none, m) => return (false, m)

/-- `pagedir_get_page`. -/
def pagedirGetPage (pd uaddr : UInt32) (m : Memory) : Except Assertion (Option UInt32) := do
  assert .userVaddr (isUserVaddr uaddr)
  match ← lookupPage pd uaddr false none m with
  | (some pte, m) =>
    if m.get pte &&& pteP ≠ 0 then do
      let page ← pteGetPage (m.get pte)
      return some (page + pgOfs uaddr)
    else return none
  | (none, _) => return none

/-- `pagedir_clear_page`. -/
def pagedirClearPage (pd upage : UInt32) (m : Memory) : Except Assertion Memory := do
  assert .pgOfs (pgOfs upage = 0)
  assert .userVaddr (isUserVaddr upage)
  match ← lookupPage pd upage false none m with
  | (some pte, m) =>
    if m.get pte &&& pteP ≠ 0 then return m.set pte (m.get pte &&& ~~~pteP)
    else return m
  | (none, m) => return m

/-- Whether a flag is set in the entry of `vpage`. -/
def isFlag (flag pd vpage : UInt32) (m : Memory) : Except Assertion Bool := do
  match ← lookupPage pd vpage false none m with
  | (some pte, m) => return m.get pte &&& flag ≠ 0
  | (none, _) => return false

/-- Sets or clears a flag in the entry of `vpage`. -/
def setFlag (flag pd vpage : UInt32) (value : Bool) (m : Memory) : Except Assertion Memory := do
  match ← lookupPage pd vpage false none m with
  | (some pte, m) =>
    if value then return m.set pte (m.get pte ||| flag)
    else return m.set pte (m.get pte &&& ~~~flag)
  | (none, m) => return m

/-- `pagedir_is_dirty`. -/
def pagedirIsDirty : UInt32 → UInt32 → Memory → Except Assertion Bool := isFlag pteD

/-- `pagedir_set_dirty`. -/
def pagedirSetDirty : UInt32 → UInt32 → Bool → Memory → Except Assertion Memory := setFlag pteD

/-- `pagedir_is_accessed`. -/
def pagedirIsAccessed : UInt32 → UInt32 → Memory → Except Assertion Bool := isFlag pteA

/-- `pagedir_set_accessed`. -/
def pagedirSetAccessed : UInt32 → UInt32 → Bool → Memory → Except Assertion Memory := setFlag pteA

end Pintos.Paging
