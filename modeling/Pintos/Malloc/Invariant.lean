import Pintos.Malloc.Blocks

/-!
# The arenas in memory

`Inv` says which arenas there are and what each free list has, of a heap: headers and links in memory
are as these make them. Every block is in the free list of its descriptor or held by a caller. What
the allocator writes is in headers, in `descs` and in free blocks, so the blocks that are held keep
their bytes.
-/

namespace Pintos.Malloc

open Pintos.Lib Pintos.Lib.Memory

variable {h h' : Heap} {as : List Arena} {free : Nat → List Nat} {r r' : Arena} {b b' i : Nat}

/-- `a->desc`. -/
def Arena.descPtr (h : Heap) (a : Arena) : Nat :=
  match a.desc with
  | some i => h.descAddr i
  | none => 0

/-- `a->free_cnt`: the blocks of the arena in the free list, or its pages. -/
def Arena.count (free : Nat → List Nat) (a : Arena) : Nat :=
  match a.desc with
  | some i => (free i).countP fun b => b / 4096 == a.page
  | none => a.pageCnt

/-- The header of an arena. -/
structure Header (h : Heap) (free : Nat → List Nat) (a : Arena) : Prop where
  magic : h.mem.load a.addr = arenaMagic
  desc : h.mem.load (a.addr + 4) = a.descPtr h
  freeCnt : h.freeCnt a.addr = a.count free

structure Inv (h : Heap) (as : List Arena) (free : Nat → List Nat) : Prop where
  room : 0 < h.descsAddr ∧ h.descsAddr + 480 ≤ 2 ^ 32
  proper : ∀ a ∈ as, a.Proper h.descsAddr
  apart : as.Pairwise Arena.Apart
  pages : ∀ p, p ∈ h.pages ↔ ∃ a ∈ as, a.page ≤ p ∧ p < a.page + a.pageCnt
  header : ∀ a ∈ as, Header h free a
  lists : ∀ i < 7, IsList h.mem (h.freeList i) (free i)
  elems : ∀ i < 7, ∀ b ∈ free i, ∃ a ∈ as, a.desc = some i ∧ b ∈ a.blocks
  nodup : ∀ i < 7, (free i).Nodup

/-- A block that is in no free list. -/
def Held (as : List Arena) (free : Nat → List Nat) (b : Nat) : Prop :=
  (∃ a ∈ as, b ∈ a.blocks) ∧ ∀ i < 7, b ∉ free i

/-! ## Regions -/

theorem Inv.arenas_apart (hi : Inv h as free) (hr : r ∈ as) (hr' : r' ∈ as) (hne : r ≠ r') :
    r.Apart r' := hi.apart.forall hr hr' hne

/-- A block and the header of an arena. -/
theorem Inv.block_header (hi : Inv h as free) (hr : r ∈ as) (hb : b ∈ r.blocks) (hr' : r' ∈ as) :
    b + r.size ≤ r'.addr ∨ r'.addr + 12 ≤ b := by
  obtain ⟨hlow, hhigh⟩ := (hi.proper r hr).block_inside hb
  by_cases heq : r = r'
  · exact .inr (heq ▸ hlow)
  · have hapart := hi.arenas_apart hr hr' heq
    have hpos := (hi.proper r' hr').pageCnt
    unfold Arena.Apart at hapart
    unfold Arena.addr at hlow hhigh ⊢
    omega

/-- Two blocks. -/
theorem Inv.block_block (hi : Inv h as free) (hr : r ∈ as) (hb : b ∈ r.blocks) (hr' : r' ∈ as)
    (hb' : b' ∈ r'.blocks) (hne : b ≠ b') : b + r.size ≤ b' ∨ b' + r'.size ≤ b := by
  by_cases heq : r = r'
  · subst heq
    exact Arena.blocks_apart hb hb' hne
  · obtain ⟨hlow, hhigh⟩ := (hi.proper r hr).block_inside hb
    obtain ⟨hlow', hhigh'⟩ := (hi.proper r' hr').block_inside hb'
    have hapart := hi.arenas_apart hr hr' heq
    unfold Arena.Apart at hapart
    unfold Arena.addr at hlow hhigh hlow' hhigh'
    omega

/-- A block and `descs`. -/
theorem Inv.block_descs (hi : Inv h as free) (hr : r ∈ as) (hb : b ∈ r.blocks) :
    b + r.size ≤ h.descsAddr ∨ h.descsAddr + 480 ≤ b := by
  obtain ⟨hlow, hhigh⟩ := (hi.proper r hr).block_inside hb
  have hoff := (hi.proper r hr).off
  unfold Arena.addr at hlow hhigh
  omega

theorem Inv.header_descs (hi : Inv h as free) (hr : r ∈ as) :
    r.addr + 12 ≤ h.descsAddr ∨ h.descsAddr + 480 ≤ r.addr := by
  have hoff := (hi.proper r hr).off
  have hpos := (hi.proper r hr).pageCnt
  unfold Arena.addr
  omega

theorem Inv.header_header (hi : Inv h as free) (hr : r ∈ as) (hr' : r' ∈ as) (hne : r ≠ r') :
    r.addr + 12 ≤ r'.addr ∨ r'.addr + 12 ≤ r.addr := by
  have hapart := hi.arenas_apart hr hr' hne
  have hpos := (hi.proper r hr).pageCnt
  have hpos' := (hi.proper r' hr').pageCnt
  unfold Arena.Apart at hapart
  unfold Arena.addr
  omega

/-- A block is in one arena. -/
theorem Inv.arena_unique (hi : Inv h as free) (hr : r ∈ as) (hb : b ∈ r.blocks) (hr' : r' ∈ as)
    (hb' : b ∈ r'.blocks) : r = r' := by
  by_contra hne
  have hpage := (hi.proper r hr).page_of_block hb
  have hpage' := (hi.proper r' hr').page_of_block hb'
  have hapart := hi.arenas_apart hr hr' hne
  have hpos := (hi.proper r hr).pageCnt
  have hpos' := (hi.proper r' hr').pageCnt
  unfold Arena.Apart at hapart
  omega

/-- The head and the tail of a free list are in `descs`. -/
theorem freeList_inside (h : Heap) (hi : i < 7) :
    h.descsAddr ≤ h.freeList i ∧ h.freeList i + 16 ≤ h.descsAddr + 480 := by
  unfold Heap.freeList Heap.descAddr
  omega

/-- A node of a free list is in `descs` or a block. -/
theorem Inv.node (hi : Inv h as free) (hlt : i < 7) {y : Nat} (hy : y ∈ nodes (h.freeList i) (free i)) :
    (h.descsAddr ≤ y ∧ y + 8 ≤ h.descsAddr + 480) ∨
      ∃ a ∈ as, a.desc = some i ∧ y ∈ a.blocks ∧ y ∈ free i := by
  have hinside := freeList_inside h hlt
  rcases List.mem_cons.mp hy with rfl | hy
  · exact .inl (by omega)
  · rcases List.mem_append.mp hy with hy | hy
    · obtain ⟨a, ha, hdesc, hblock⟩ := hi.elems i hlt y hy
      exact .inr ⟨a, ha, hdesc, hblock, hy⟩
    · rw [List.mem_singleton.mp hy]
      exact .inl (by omega)

/-- A region that has no header, no part of `descs` and no links. -/
structure OffMeta (h : Heap) (as : List Arena) (free : Nat → List Nat) (a n : Nat) : Prop where
  headers : ∀ r ∈ as, a + n ≤ r.addr ∨ r.addr + 12 ≤ a
  descs : a + n ≤ h.descsAddr ∨ h.descsAddr + 480 ≤ a
  links : ∀ i < 7, ∀ b ∈ free i, a + n ≤ b ∨ b + 8 ≤ a

/-- A block that is held has none of these. -/
theorem Inv.held_off (hi : Inv h as free) (hr : r ∈ as) (hb : b ∈ r.blocks)
    (hheld : ∀ i < 7, b ∉ free i) : OffMeta h as free b r.size where
  headers := fun r' hr' => hi.block_header hr hb hr'
  descs := hi.block_descs hr hb
  links := by
    intro i hlt b' hb'
    obtain ⟨r', hr', -, hblock⟩ := hi.elems i hlt b' hb'
    have hsize := (hi.proper r' hr').fits.1
    have hapart := hi.block_block hr hb hr' hblock fun heq => hheld i hlt (heq ▸ hb')
    omega

/-- It stays true if a region without any of these is written. -/
theorem Inv.of_mem (hi : Inv h as free) {m : Memory}
    (hm : ∀ a n, (∃ r ∈ as, r.addr ≤ a ∧ a + n ≤ r.addr + 12) ∨
      (h.descsAddr ≤ a ∧ a + n ≤ h.descsAddr + 480) ∨
      (∃ i < 7, ∃ b ∈ free i, b ≤ a ∧ a + n ≤ b + 8) → Agree h.mem m a n) :
    Inv { h with mem := m } as free where
  room := hi.room
  proper := hi.proper
  apart := hi.apart
  pages := hi.pages
  header := by
    intro r hr
    obtain ⟨hmagic, hdesc, hcnt⟩ := hi.header r hr
    refine ⟨(hm _ 4 (.inl ⟨r, hr, by omega, by omega⟩)).load.trans hmagic,
      (hm _ 4 (.inl ⟨r, hr, by omega, by omega⟩)).load.trans hdesc,
      (hm _ 4 (.inl ⟨r, hr, by omega, by omega⟩)).load.trans hcnt⟩
  lists := by
    intro i hlt
    refine (hi.lists i hlt).of_agree fun y hy => hm y 8 (.inr ?_)
    rcases hi.node hlt hy with hdescs | ⟨-, -, -, -, hfree⟩
    · exact .inl hdescs
    · exact .inr ⟨i, hlt, y, hfree, Nat.le_refl _, Nat.le_refl _⟩
  elems := hi.elems
  nodup := hi.nodup

/-- Bytes of a region without any of these are written. -/
theorem Inv.of_write (hi : Inv h as free) {m : Memory} {a n : Nat} (hoff : OffMeta h as free a n)
    (hm : ∀ b k, b + k ≤ a ∨ a + n ≤ b → Agree h.mem m b k) : Inv { h with mem := m } as free := by
  refine hi.of_mem fun b k hin => ?_
  rcases hin with ⟨r, hr, hlow, hhigh⟩ | ⟨hlow, hhigh⟩ | ⟨i, hlt, b', hb', hlow, hhigh⟩
  · have := hoff.headers r hr
    exact hm b k (by omega)
  · have := hoff.descs
    exact hm b k (by omega)
  · have := hoff.links i hlt b' hb'
    exact hm b k (by omega)

end Pintos.Malloc
