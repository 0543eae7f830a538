import Mathlib.Data.List.Nodup
import Pintos.Malloc.Lists

/-!
# Where blocks are

An arena is a header of 12 bytes and the blocks behind it. The blocks of an arena are inside its pages
and do not overlap, and the pages of two arenas are different ones.
-/

namespace Pintos.Malloc

open Pintos.Lib

variable {b b' i k k' d₀ : Nat}

/-! ## Descriptors -/

theorem length_descs : descs.length = 7 := by decide

/-- What the blocks of a descriptor come to. -/
theorem desc_fits : ∀ i < 7, 16 ≤ (desc i).blockSize ∧ 1 < (desc i).blocksPerArena ∧
    (desc i).blocksPerArena * (desc i).blockSize ≤ 4084 := by decide

theorem blocksPerArena_lt : ∀ i < 7, (desc i).blocksPerArena < 2 ^ 32 := by decide

/-- A size up to 1024 has a descriptor. -/
theorem findDesc_eq_some {size : Nat} (h : findDesc size = some i) :
    i < 7 ∧ size ≤ (desc i).blockSize := by
  unfold findDesc at h
  refine ⟨?_, of_decide_eq_true (List.find?_some (p := fun i => decide (size ≤ (desc i).blockSize)) h)⟩
  have hmem := List.mem_range.mp (List.mem_of_find?_eq_some h)
  rwa [length_descs] at hmem

theorem findDesc_eq_none {size : Nat} : findDesc size = none ↔ 1024 < size := by
  have hsizes : ∀ i < 7, (desc i).blockSize ≤ 1024 := by decide
  unfold findDesc
  rw [List.find?_eq_none]
  constructor
  · intro h
    have hlast := h 6 (by decide)
    rw [decide_eq_true_iff] at hlast
    have h1024 : (desc 6).blockSize = 1024 := by decide
    omega
  · intro h i hi
    rw [List.mem_range, length_descs] at hi
    rw [decide_eq_true_iff]
    have := hsizes i hi
    omega

/-! ## Arenas -/

/-- An arena: its pages, and its descriptor if it has small blocks. -/
structure Arena where
  page : Nat
  pageCnt : Nat
  desc : Option Nat
  deriving DecidableEq, Repr

namespace Arena

variable {a a' : Arena}

def addr (a : Arena) : Nat := 4096 * a.page

/-- The bytes of a block. -/
def size (a : Arena) : Nat :=
  match a.desc with
  | some i => (Malloc.desc i).blockSize
  | none => 4096 * a.pageCnt - 12

def blockCnt (a : Arena) : Nat :=
  match a.desc with
  | some i => (Malloc.desc i).blocksPerArena
  | none => 1

def block (a : Arena) (k : Nat) : Nat := a.addr + 12 + k * a.size

/-- The blocks, by their addresses. -/
def blocks (a : Arena) : List Nat := (List.range a.blockCnt).map a.block

/-- The pages are there, and `descs` is in none of them. -/
structure Proper (d₀ : Nat) (a : Arena) : Prop where
  pos : 0 < a.page
  pageCnt : 0 < a.pageCnt
  inside : a.page + a.pageCnt ≤ 2 ^ 20
  off : 4096 * (a.page + a.pageCnt) ≤ d₀ ∨ d₀ + 480 ≤ 4096 * a.page
  small : ∀ i, a.desc = some i → i < 7 ∧ a.pageCnt = 1

/-- The pages of two arenas. -/
def Apart (a a' : Arena) : Prop := a.page + a.pageCnt ≤ a'.page ∨ a'.page + a'.pageCnt ≤ a.page

instance : Std.Symm Apart := ⟨fun _ _ h => Or.symm h⟩

/-- Blocks are not empty, and fit in the pages. -/
theorem Proper.fits (h : a.Proper d₀) :
    16 ≤ a.size ∧ 0 < a.blockCnt ∧ 12 + a.blockCnt * a.size ≤ 4096 * a.pageCnt := by
  have hpos := h.pageCnt
  unfold size blockCnt
  cases hd : a.desc with
  | none =>
    dsimp only
    omega
  | some i =>
    obtain ⟨hi, hone⟩ := h.small i hd
    obtain ⟨hsize, hcnt, hfits⟩ := desc_fits i hi
    dsimp only
    omega

theorem mem_blocks : b ∈ a.blocks ↔ ∃ k < a.blockCnt, a.block k = b := by
  unfold blocks
  rw [List.mem_map]
  exact exists_congr fun k => and_congr_left fun _ => List.mem_range

/-- Two blocks of an arena. -/
theorem block_apart (h : k < k') : a.block k + a.size ≤ a.block k' := by
  have hmul : (k + 1) * a.size ≤ k' * a.size := Nat.mul_le_mul_right _ h
  unfold block
  rw [Nat.add_mul, Nat.one_mul] at hmul
  omega

/-- A block is behind the header and inside the pages. -/
theorem Proper.block_inside (h : a.Proper d₀) (hb : b ∈ a.blocks) :
    a.addr + 12 ≤ b ∧ b + a.size ≤ a.addr + 4096 * a.pageCnt := by
  obtain ⟨k, hk, rfl⟩ := mem_blocks.mp hb
  have hmul : (k + 1) * a.size ≤ a.blockCnt * a.size := Nat.mul_le_mul_right _ hk
  have hfits := h.fits.2.2
  unfold block
  rw [Nat.add_mul, Nat.one_mul] at hmul
  omega

theorem Proper.blocks_nodup (h : a.Proper d₀) : a.blocks.Nodup := by
  refine List.Nodup.map_on (fun k _ k' _ heq => ?_) List.nodup_range
  have hsize := h.fits.1
  rcases Nat.lt_trichotomy k k' with hlt | heq' | hlt
  · have := block_apart (a := a) hlt
    omega
  · exact heq'
  · have := block_apart (a := a) hlt
    omega

/-- Different blocks do not overlap. -/
theorem blocks_apart (hb : b ∈ a.blocks) (hb' : b' ∈ a.blocks) (hne : b ≠ b') :
    b + a.size ≤ b' ∨ b' + a.size ≤ b := by
  obtain ⟨k, -, rfl⟩ := mem_blocks.mp hb
  obtain ⟨k', -, rfl⟩ := mem_blocks.mp hb'
  rcases Nat.lt_trichotomy k k' with hlt | heq | hlt
  · exact .inl (block_apart hlt)
  · exact absurd (congrArg a.block heq) hne
  · exact .inr (block_apart hlt)

/-- `pg_round_down` of a block. -/
theorem Proper.page_of_block (h : a.Proper d₀) (hb : b ∈ a.blocks) : b / 4096 = a.page := by
  obtain ⟨hlow, hhigh⟩ := h.block_inside hb
  obtain ⟨k, hk, rfl⟩ := mem_blocks.mp hb
  unfold addr at hlow hhigh
  cases hd : a.desc with
  | none =>
    have hzero : k = 0 := by
      unfold blockCnt at hk
      rw [hd] at hk
      exact Nat.lt_one_iff.mp hk
    rw [hzero]
    unfold block addr
    omega
  | some i =>
    have hone := (h.small i hd).2
    have hsize := h.fits.1
    rw [hone] at hhigh
    omega

end Arena

end Pintos.Malloc
