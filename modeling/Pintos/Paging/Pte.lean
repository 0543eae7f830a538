import Mathlib.Algebra.Group.Nat.Defs
import Mathlib.Data.Nat.Bits
import Pintos.Lib.Fallible

/-!
# Addresses and page table entries

`threads/vaddr.h` and `threads/pte.h`. An address is a word of 32 bits; where the code keeps the
address of a page it keeps that of its first byte.
-/

namespace Pintos.Paging

open Pintos.Lib

/-- The `ASSERT`s. -/
inductive Assertion where
  /-- `pg_ofs (..) == 0`. -/
  | pgOfs
  /-- `is_user_vaddr (..)`. -/
  | userVaddr
  /-- `is_kernel_vaddr (vaddr)` in `vtop`. -/
  | vtop
  /-- `paddr < PHYS_BASE` in `ptov`. -/
  | ptov
  /-- `pde & PTE_P` in `pde_get_pt`. -/
  | present
  /-- `(*pte & PTE_P) == 0` in `pagedir_set_page`. -/
  | notPresent
  /-- `vtop (kpage) >> PTSHIFT < init_ram_pages` in `pagedir_set_page`. -/
  | initRamPages
  /-- `pd != init_page_dir`. -/
  | initPageDir
  /-- `pd != NULL` in `lookup_page`. -/
  | null
  /-- No assertion of the code: `palloc_get_page` with `PAL_ASSERT` has no page. -/
  | palAssert
  deriving DecidableEq, Repr

def assert (a : Assertion) (c : Prop) [Decidable c] : Except Assertion Unit :=
  if c then .ok () else .error a

/-! ## `vaddr.h` -/

/-- `PHYS_BASE`. -/
def physBase : UInt32 := 0xc0000000

/-- `pg_ofs`. -/
def pgOfs (va : UInt32) : UInt32 := va &&& 0xfff

/-- `pg_no`. -/
def pgNo (va : UInt32) : UInt32 := va >>> 12

/-- `is_user_vaddr`. -/
def isUserVaddr (vaddr : UInt32) : Bool := vaddr < physBase

/-- `is_kernel_vaddr`. -/
def isKernelVaddr (vaddr : UInt32) : Bool := vaddr ≥ physBase

/-- `ptov`. -/
def ptov (paddr : UInt32) : Except Assertion UInt32 := do
  assert .ptov (paddr < physBase)
  return paddr + physBase

/-- `vtop`. -/
def vtop (vaddr : UInt32) : Except Assertion UInt32 := do
  assert .vtop (isKernelVaddr vaddr)
  return vaddr - physBase

/-! ## `pte.h` -/

/-- `pt_no`. -/
def ptNo (va : UInt32) : UInt32 := (va &&& 0x003ff000) >>> 12

/-- `pd_no`. -/
def pdNo (va : UInt32) : UInt32 := va >>> 22

def pteAddr : UInt32 := 0xfffff000

def pteP : UInt32 := 0x1

def pteW : UInt32 := 0x2

def pteU : UInt32 := 0x4

def pteA : UInt32 := 0x20

def pteD : UInt32 := 0x40

/-- `pde_create`. -/
def pdeCreate (pt : UInt32) : Except Assertion UInt32 := do
  assert .pgOfs (pgOfs pt = 0)
  let paddr ← vtop pt
  return paddr ||| pteU ||| pteP ||| pteW

/-- `pde_get_pt`. -/
def pdeGetPt (pde : UInt32) : Except Assertion UInt32 := do
  assert .present (pde &&& pteP ≠ 0)
  ptov (pde &&& pteAddr)

/-- `pte_create_kernel`. -/
def pteCreateKernel (page : UInt32) (writable : Bool) : Except Assertion UInt32 := do
  assert .pgOfs (pgOfs page = 0)
  let paddr ← vtop page
  return paddr ||| pteP ||| (if writable then pteW else 0)

/-- `pte_create_user`. -/
def pteCreateUser (page : UInt32) (writable : Bool) : Except Assertion UInt32 := do
  let pte ← pteCreateKernel page writable
  return pte ||| pteU

/-- `pte_get_page`. -/
def pteGetPage (pte : UInt32) : Except Assertion UInt32 := ptov (pte &&& pteAddr)

/-! ## Pages -/

variable {va vb page pt pte x flags : UInt32} {writable : Bool}

theorem assert_ok {a : Assertion} {c : Prop} [Decidable c] (hc : c) : assert a c = .ok () := if_pos hc

/-- The address of a page in the kernel's part of memory. -/
structure KernelPage (page : UInt32) : Prop where
  aligned : pgOfs page = 0
  kernel : physBase ≤ page

instance (page : UInt32) : Decidable (KernelPage page) :=
  decidable_of_iff (pgOfs page = 0 ∧ physBase ≤ page)
    ⟨fun h => ⟨h.1, h.2⟩, fun h => ⟨h.aligned, h.kernel⟩⟩

/-- The index in the page directory is the upper ten bits. -/
theorem toNat_pdNo (va : UInt32) : (pdNo va).toNat = va.toNat / 2 ^ 22 := by
  unfold pdNo
  rw [UInt32.toNat_shiftRight, Nat.shiftRight_eq_div_pow]
  rfl

/-- The index in the page table is the ten bits below. -/
theorem toNat_ptNo (va : UInt32) : (ptNo va).toNat = va.toNat / 4096 % 1024 := by
  unfold ptNo
  rw [UInt32.shiftRight_and, UInt32.toNat_and, UInt32.toNat_shiftRight, Nat.shiftRight_eq_div_pow]
  exact Nat.and_two_pow_sub_one_eq_mod _ 10

/-- Both are the page number. -/
theorem toNat_pgNo (va : UInt32) : (pgNo va).toNat = va.toNat / 4096 := by
  unfold pgNo
  rw [UInt32.toNat_shiftRight, Nat.shiftRight_eq_div_pow]
  rfl

/-- The offset is the twelve bits left. -/
theorem toNat_pgOfs (va : UInt32) : (pgOfs va).toNat = va.toNat % 4096 := by
  unfold pgOfs
  rw [UInt32.toNat_and]
  exact Nat.and_two_pow_sub_one_eq_mod _ 12

/-- A directory has 1,024 entries. -/
theorem pdNo_lt (va : UInt32) : (pdNo va).toNat < 1024 := by
  have := va.toNat_lt
  rw [toNat_pdNo]
  omega

/-- A page table has 1,024 entries. -/
theorem ptNo_lt (va : UInt32) : (ptNo va).toNat < 1024 := by
  rw [toNat_ptNo]
  omega

/-- The first entries of a directory are those of user addresses. -/
theorem pdNo_user : (pdNo va).toNat < 768 ↔ isUserVaddr va = true := by
  have hbase : physBase.toNat = 768 * 2 ^ 22 := rfl
  unfold isUserVaddr
  rw [toNat_pdNo, decide_eq_true_iff, UInt32.lt_iff_toNat_lt, hbase]
  omega

/-- The two indices say which page an address is in. -/
theorem pgNo_eq_iff : pgNo va = pgNo vb ↔
    (pdNo va).toNat = (pdNo vb).toNat ∧ (ptNo va).toNat = (ptNo vb).toNat := by
  rw [← UInt32.toNat_inj, toNat_pgNo, toNat_pgNo, toNat_pdNo, toNat_pdNo, toNat_ptNo, toNat_ptNo]
  omega

/-! ## Bits -/

theorem or_and (a b c : UInt32) : (a ||| b) &&& c = (a &&& c) ||| (b &&& c) := by
  apply UInt32.toBitVec_inj.mp
  ext i
  simp [Bool.and_or_distrib_right]

/-- Flags that a mask leaves out do not matter under it. -/
theorem or_and_of_disjoint (h : flags &&& x = 0) : (va ||| flags) &&& x = va &&& x := by
  rw [or_and, h, UInt32.or_zero]

/-- Clearing flags leaves the other bits alone. -/
theorem and_not_and_of_disjoint (h : flags &&& x = 0) : (va &&& ~~~flags) &&& x = va &&& x := by
  have hx : ~~~flags &&& x = x := by
    have := or_and flags (~~~flags) x
    rwa [UInt32.or_not_self, UInt32.neg_one_and, h, UInt32.zero_or, eq_comm] at this
  rw [UInt32.and_assoc, hx]

/-- An address without an offset is all address. -/
theorem and_pteAddr (h : pgOfs x = 0) : x &&& pteAddr = x := by
  have hmask : pteAddr = ~~~0xfff := rfl
  have hsplit := or_and 0xfff (~~~0xfff) x
  rwa [UInt32.or_not_self, UInt32.neg_one_and, UInt32.and_comm 0xfff, UInt32.and_comm (~~~_),
    show x &&& 0xfff = 0 from h, UInt32.zero_or, ← hmask, eq_comm] at hsplit

/-- And has no flags. -/
theorem and_flags (h : pgOfs x = 0) (hflags : pteAddr &&& flags = 0) : x &&& flags = 0 := by
  rw [← and_pteAddr h, UInt32.and_assoc, hflags, UInt32.and_zero]

theorem or_ne_zero {a b : UInt32} (h : b ≠ 0) : a ||| b ≠ 0 := fun hor => h (UInt32.or_eq_zero_iff.mp hor).2

/-! ## Entries -/

/-- A page starts at a multiple of 4,096. -/
theorem pgOfs_eq_zero_iff : pgOfs x = 0 ↔ x.toNat % 4096 = 0 := by
  rw [← UInt32.toNat_inj, toNat_pgOfs]
  rfl

namespace KernelPage

/-- The frame of a kernel page is as far from 0 as the page from `PHYS_BASE`. -/
theorem toNat_sub (h : KernelPage page) : (page - physBase).toNat = page.toNat - 0xc0000000 :=
  UInt32.toNat_sub_of_le _ _ h.kernel

/-- The frame of a kernel page is aligned, too. -/
theorem aligned_sub (h : KernelPage page) : pgOfs (page - physBase) = 0 := by
  have halign := pgOfs_eq_zero_iff.mp h.aligned
  rw [pgOfs_eq_zero_iff, h.toNat_sub]
  omega

theorem vtop (h : KernelPage page) : vtop page = .ok (page - physBase) := by
  unfold Paging.vtop isKernelVaddr
  rw [assert_ok (decide_eq_true h.kernel)]
  rfl

theorem ptov (h : KernelPage page) : ptov (page - physBase) = .ok page := by
  have hlt : page - physBase < physBase := by
    have := page.toNat_lt
    rw [UInt32.lt_iff_toNat_lt, h.toNat_sub]
    show _ < 0xc0000000
    omega
  unfold Paging.ptov
  rw [assert_ok hlt, bind_ok, UInt32.sub_add_cancel]
  rfl

end KernelPage

/-- The entry that `pde_create` makes. -/
def pdeOf (pt : UInt32) : UInt32 := (pt - physBase) ||| pteU ||| pteP ||| pteW

/-- `pde_create` takes a kernel page. -/
theorem pdeCreate_ok (h : KernelPage pt) : pdeCreate pt = .ok (pdeOf pt) := by
  unfold pdeCreate
  rw [assert_ok h.aligned, bind_ok, h.vtop]
  rfl

/-- A directory entry is not 0. -/
theorem pdeOf_ne_zero (pt : UInt32) : pdeOf pt ≠ 0 := or_ne_zero (by decide)

/-- An entry of the directory is present. -/
theorem pdeOf_present (pt : UInt32) : pdeOf pt &&& pteP ≠ 0 := by
  unfold pdeOf
  rw [or_and_of_disjoint (by decide), or_and]
  exact or_ne_zero (by decide)

/-- A page table is found again. -/
theorem pdeGetPt_pdeOf (h : KernelPage pt) : pdeGetPt (pdeOf pt) = .ok pt := by
  have haddr : pdeOf pt &&& pteAddr = pt - physBase := by
    unfold pdeOf
    rw [or_and_of_disjoint (by decide), or_and_of_disjoint (by decide),
      or_and_of_disjoint (by decide), and_pteAddr h.aligned_sub]
  unfold pdeGetPt
  rw [assert_ok (pdeOf_present pt), bind_ok, haddr]
  exact h.ptov

/-- An entry of the directory names one page. -/
theorem pdeOf_inj {pt' : UInt32} (h : KernelPage pt) (h' : KernelPage pt')
    (heq : pdeOf pt = pdeOf pt') : pt = pt' := by
  have := (pdeGetPt_pdeOf h).symm.trans ((congrArg _ heq).trans (pdeGetPt_pdeOf h'))
  injection this

/-- The entry that `pte_create_user` makes. -/
def pteOf (page : UInt32) (writable : Bool) : UInt32 :=
  (page - physBase) ||| pteP ||| (if writable then pteW else 0) ||| pteU

/-- `pte_create_user` takes a kernel page. -/
theorem pteCreateUser_ok (h : KernelPage page) :
    pteCreateUser page writable = .ok (pteOf page writable) := by
  unfold pteCreateUser pteCreateKernel
  rw [assert_ok h.aligned, bind_ok, h.vtop]
  rfl

/-- What an entry says: that it is present, its page, and whether it can be written. -/
structure Maps (pte page : UInt32) (writable : Bool) : Prop where
  present : pte &&& pteP ≠ 0
  addr : pte &&& pteAddr = page - physBase
  write : pte &&& pteW ≠ 0 ↔ writable = true

/-- Its entry maps the page. -/
theorem maps_pteOf (h : KernelPage page) (writable : Bool) :
    Maps (pteOf page writable) page writable := by
  have hsub := h.aligned_sub
  unfold pteOf
  constructor
  · rw [or_and_of_disjoint (by decide), or_and, or_and, UInt32.or_comm, ← UInt32.or_assoc]
    exact or_ne_zero (by decide)
  · rw [or_and_of_disjoint (by decide), or_and_of_disjoint (by cases writable <;> decide),
      or_and_of_disjoint (by decide), and_pteAddr hsub]
  · rw [or_and_of_disjoint (by decide), or_and, or_and_of_disjoint (by decide),
      and_flags hsub (by decide), UInt32.zero_or]
    cases writable <;> decide

/-- Other flags can come and go. -/
theorem Maps.or (h : Maps pte page writable) (hp : flags &&& pteP = 0) (ha : flags &&& pteAddr = 0)
    (hw : flags &&& pteW = 0) : Maps (pte ||| flags) page writable := by
  obtain ⟨present, addr, write⟩ := h
  constructor
  · rwa [or_and_of_disjoint hp]
  · rwa [or_and_of_disjoint ha]
  · rwa [or_and_of_disjoint hw]

/-- Clearing other flags leaves the mapping. -/
theorem Maps.and_not (h : Maps pte page writable) (hp : flags &&& pteP = 0)
    (ha : flags &&& pteAddr = 0) (hw : flags &&& pteW = 0) :
    Maps (pte &&& ~~~flags) page writable := by
  obtain ⟨present, addr, write⟩ := h
  constructor
  · rwa [and_not_and_of_disjoint hp]
  · rwa [and_not_and_of_disjoint ha]
  · rwa [and_not_and_of_disjoint hw]

/-- `pte_get_page` finds the page of the entry. -/
theorem Maps.pteGetPage (h : Maps pte page writable) (hpage : KernelPage page) :
    pteGetPage pte = .ok page := by
  unfold Paging.pteGetPage
  rw [h.addr]
  exact hpage.ptov

/-- An entry that is cleared is not present. -/
theorem clear_present (pte : UInt32) : (pte &&& ~~~pteP) &&& pteP = 0 := by
  rw [UInt32.and_assoc, UInt32.not_and_self, UInt32.and_zero]

end Pintos.Paging
