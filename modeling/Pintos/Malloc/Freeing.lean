import Mathlib.Data.List.Perm.Subperm
import Pintos.Malloc.Requests

/-!
# What `free` takes back

A block goes to the front of its free list. An arena of which every block is then in the free list is
unlinked, block by block from wherever they are, and its page goes back to the page allocator.
-/

namespace Pintos.Malloc

open Pintos.Lib Pintos.Lib.Memory

variable {h h' : Heap} {as as' : List Arena} {free free' : Nat → List Nat} {r : Arena} {a b x i : Nat}
  {m : Memory}

/-- The block `b` of the arena `r` has been taken back. -/
structure Returned (h : Heap) (as : List Arena) (free : Nat → List Nat) (h' : Heap)
    (as' : List Arena) (free' : Nat → List Nat) (r : Arena) (b : Nat) : Prop where
  inv : Inv h' as' free'
  descsAddr : h'.descsAddr = h.descsAddr
  live : h'.live = h.live
  held : ∀ x, Held as' free' x ↔ Held as free x ∧ x ≠ b
  arenas : ∀ a, a ∈ as' ↔ a ∈ as ∧ (a = r → ∃ x ∈ r.blocks, x ≠ b ∧ Held as free x)
  kept : ∀ r' ∈ as, ∀ b' ∈ r'.blocks, (∀ i < 7, b' ∉ free i) → b' ≠ b →
    Agree h.mem h'.mem b' r'.size

/-! ## Counting the free blocks of an arena -/

theorem length_blocks (hd : r.desc = some i) : r.blocks.length = (desc i).blocksPerArena := by
  unfold Arena.blocks Arena.blockCnt
  rw [List.length_map, List.length_range, hd]

/-- The blocks of a free list that are on the page of an arena. -/
theorem countP_page (hproper : ∀ a ∈ as, a.Proper h.descsAddr) (hapart : as.Pairwise Arena.Apart)
    {xs : List Nat} (hnodup : xs.Nodup) (helems : ∀ b ∈ xs, ∃ a ∈ as, a.desc = some i ∧ b ∈ a.blocks)
    (hr : r ∈ as) (hd : r.desc = some i) :
    xs.countP (fun b => b / 4096 == r.page) ≤ (desc i).blocksPerArena ∧
      (xs.countP (fun b => b / 4096 == r.page) = (desc i).blocksPerArena ↔
        ∀ x ∈ r.blocks, x ∈ xs) := by
  have hsub : xs.filter (fun b => b / 4096 == r.page) ⊆ r.blocks := by
    intro b hb
    obtain ⟨hb, hpage⟩ := List.mem_filter.mp hb
    obtain ⟨r', hr', -, hb'⟩ := helems b hb
    have hpage' := (hproper r' hr').page_of_block hb'
    rw [beq_iff_eq] at hpage
    have heq : r' = r := by
      by_contra hne
      have hdiff := hapart.forall hr' hr hne
      have hpos := (hproper r hr).pageCnt
      have hpos' := (hproper r' hr').pageCnt
      unfold Arena.Apart at hdiff
      omega
    exact heq ▸ hb'
  have hsubperm := List.subperm_of_subset (hnodup.filter _) hsub
  rw [List.countP_eq_length_filter, ← length_blocks hd]
  refine ⟨hsubperm.length_le, fun heq x hx => ?_, fun hall => ?_⟩
  · have hperm := hsubperm.perm_of_length_le (Nat.le_of_eq heq.symm)
    exact (List.mem_filter.mp (hperm.mem_iff.mpr hx)).1
  · refine Nat.le_antisymm hsubperm.length_le ?_
    refine (List.subperm_of_subset (hproper r hr).blocks_nodup fun x hx => ?_).length_le
    exact List.mem_filter.mpr ⟨hall x hx, beq_iff_eq.mpr ((hproper r hr).page_of_block hx)⟩

/-! ## Dropping an arena -/

/-- The loop of `free`. -/
theorem removeBlocks_ok (hpos : a ≠ 0) (ks : List Nat) : ∀ (h : Heap) (xs : List Nat),
    h.mem.load a = arenaMagic → (∀ k ∈ ks, k < (desc i).blocksPerArena) →
    IsList h.mem (h.freeList i) xs → xs.Nodup →
    (∀ b ∈ ks.map fun k => a + 12 + k * (desc i).blockSize, b ∈ xs) →
    (ks.map fun k => a + 12 + k * (desc i).blockSize).Nodup → Off (nodes (h.freeList i) xs) a 4 →
    ∃ m, removeBlocks i a ks h = .ok { h with mem := m } ∧
      IsList m (h.freeList i)
        (xs.filter (· ∉ ks.map fun k => a + 12 + k * (desc i).blockSize)) ∧
      ∀ b n, Off (nodes (h.freeList i) xs) b n → Agree h.mem m b n := by
  induction ks with
  | nil =>
    intro h xs _ _ hlist _ _ _ _
    refine ⟨h.mem, rfl, ?_, fun b n _ => .refl _ _ _⟩
    rw [List.map_nil, List.filter_eq_self.mpr fun b _ => decide_eq_true List.not_mem_nil]
    exact hlist
  | cons k ks ih =>
    intro h xs hmagic hks hlist hnodup hin hdiff hoff
    rw [List.map_cons] at hin hdiff ⊢
    obtain ⟨hk, hdiff⟩ := List.nodup_cons.mp hdiff
    obtain ⟨ys, zs, rfl⟩ := List.append_of_mem (hin _ List.mem_cons_self)
    obtain ⟨m₁, hremove, hlist₁, hagree₁⟩ := hlist.remove
    have hsub : (ys ++ zs).Sublist (ys ++ (a + 12 + k * (desc i).blockSize) :: zs) :=
      (List.sublist_cons_self _ zs).append_left ys
    have hnot : a + 12 + k * (desc i).blockSize ∉ ys ++ zs :=
      (List.nodup_cons.mp (List.nodup_middle.mp hnodup)).1
    have hfew : ∀ {b n}, Off (nodes (h.freeList i) (ys ++ (a + 12 + k * (desc i).blockSize) :: zs)) b n →
        Off (nodes (h.freeList i) (ys ++ zs)) b n := fun hall y hy =>
      hall y (((hsub.append_right _).cons_cons _).mem hy)
    obtain ⟨m, hrest, hlist', hagree⟩ := ih { h with mem := m₁ } (ys ++ zs)
      ((hagree₁ a 4 hoff).load.trans hmagic) (fun k' hk' => hks k' (List.mem_cons_of_mem k hk'))
      hlist₁ (hnodup.sublist hsub)
      (fun b hb => by
        have hb' := hin b (List.mem_cons_of_mem _ hb)
        rw [List.mem_append, List.mem_cons] at hb'
        rcases hb' with hb' | rfl | hb'
        · exact List.mem_append_left _ hb'
        · exact absurd hb hk
        · exact List.mem_append_right _ hb') hdiff (hfew hoff)
    refine ⟨m, ?_, ?_, fun b n hall => (hagree₁ b n hall).trans (hagree b n (hfew hall))⟩
    · unfold removeBlocks arenaToBlock assert
      rw [if_pos hpos, bind_ok, if_pos hmagic, bind_ok, if_pos (hks k List.mem_cons_self), bind_ok,
        bind_ok, hremove, bind_ok]
      exact hrest
    · have hsame : (ys ++ (a + 12 + k * (desc i).blockSize) :: zs).filter
            (· ∉ (a + 12 + k * (desc i).blockSize) :: ks.map fun k => a + 12 + k * (desc i).blockSize) =
          (ys ++ zs).filter (· ∉ ks.map fun k => a + 12 + k * (desc i).blockSize) := by
        rw [List.filter_append, List.filter_cons_of_neg (by simp), ← List.filter_append]
        refine List.filter_congr fun x hx => ?_
        have hne : x ≠ a + 12 + k * (desc i).blockSize := fun heq => hnot (heq ▸ hx)
        simp [List.mem_cons, hne]
      rw [hsame]
      exact hlist'

/-- The blocks of an arena are in the free list of its descriptor only. -/
theorem Inv.filter_blocks (hi : Inv h as free) (hr : r ∈ as) {j : Nat} (hj : j < 7)
    (hd : r.desc ≠ some j) : (free j).filter (· ∉ r.blocks) = free j := by
  refine List.filter_eq_self.mpr fun b hb => decide_eq_true fun hblock => ?_
  obtain ⟨r', hr', hd', hb'⟩ := hi.elems j hj b hb
  exact hd (hi.arena_unique hr hblock hr' hb' ▸ hd')

/-- An arena whose blocks have been unlinked goes back to the page allocator. -/
theorem Inv.dropArena (hi : Inv h as free) (hr : r ∈ as)
    (hlists : ∀ j < 7, IsList m (h.freeList j) ((free j).filter (· ∉ r.blocks)))
    (hheader : ∀ r' ∈ as, r' ≠ r → Agree h.mem m r'.addr 12) :
    Inv { h with
          mem := m.fill r.addr (4096 * r.pageCnt % 2 ^ 32) 0xcc
          pages := h.pages.filter (· ∉ List.range' r.page r.pageCnt) }
      (as.filter (· ≠ r)) (fun j => (free j).filter (· ∉ r.blocks)) := by
  have hproper := hi.proper r hr
  have hpos := hproper.pos
  have hinside := hproper.inside
  have hsize : 4096 * r.pageCnt % 2 ^ 32 = 4096 * r.pageCnt := Nat.mod_eq_of_lt (by omega)
  rw [hsize]
  have hout : ∀ r' ∈ as.filter (· ≠ r), r' ∈ as ∧ r' ≠ r := fun r' hr' =>
    ⟨(List.mem_filter.mp hr').1, of_decide_eq_true (List.mem_filter.mp hr').2⟩
  constructor
  case room => exact hi.room
  case proper => exact fun r' hr' => hi.proper r' (hout r' hr').1
  case apart => exact hi.apart.filter _
  case pages =>
    intro p
    rw [List.mem_filter, decide_eq_true_iff, List.mem_range'_1, hi.pages]
    constructor
    · rintro ⟨⟨a, ha, hp⟩, hnot⟩
      refine ⟨a, List.mem_filter.mpr ⟨ha, decide_eq_true fun heq => hnot ?_⟩, hp⟩
      exact heq ▸ hp
    · rintro ⟨a, ha, hp⟩
      obtain ⟨ha, hne⟩ := hout a ha
      have hapart := hi.arenas_apart ha hr hne
      unfold Arena.Apart at hapart
      exact ⟨⟨a, ha, hp⟩, by omega⟩
  case header =>
    intro r' hr'
    obtain ⟨hr', hne⟩ := hout r' hr'
    have hapart := hi.arenas_apart hr' hr hne
    have hpos' := (hi.proper r' hr').pageCnt
    have hcount : r'.count (fun j => (free j).filter (· ∉ r.blocks)) = r'.count free := by
      unfold Arena.count
      cases hd : r'.desc with
      | none => rfl
      | some j =>
        dsimp only
        rw [List.countP_filter]
        refine List.countP_congr fun b _ => ?_
        rw [Bool.and_eq_true, decide_eq_true_iff, and_iff_left_iff_imp]
        intro hpage hb
        rw [beq_iff_eq, hproper.page_of_block hb] at hpage
        unfold Arena.Apart at hapart
        have := hproper.pageCnt
        omega
    have hsame : Agree h.mem (m.fill r.addr (4096 * r.pageCnt) 0xcc) r'.addr 12 := by
      refine (hheader r' hr' hne).trans (agree_fill ?_)
      unfold Arena.Apart at hapart
      unfold Arena.addr
      omega
    obtain ⟨hmagic, hdesc, hfree⟩ := (hi.header r' hr').of_agree hsame hcount
    exact ⟨hmagic, hdesc, hfree⟩
  case lists =>
    intro j hj
    refine (hlists j hj).of_agree fun y hy => agree_fill ?_
    have hin : y ∈ nodes (h.freeList j) (free j) := by
      unfold nodes at hy ⊢
      exact (((List.filter_sublist (l := free j)).append_right _).cons_cons _).mem hy
    rcases hi.node hj hin with ⟨hlow, hhigh⟩ | ⟨r', hr', -, hb, -⟩
    · have hoff := hproper.off
      unfold Arena.addr
      omega
    · have hne : r' ≠ r := by
        rintro rfl
        unfold nodes at hy
        rw [List.mem_cons, List.mem_append, List.mem_singleton] at hy
        have hdescs := hi.block_descs hr hb
        have hlists := freeList_inside h hj
        have hsize := hproper.fits.1
        rcases hy with rfl | hy | rfl
        · omega
        · exact of_decide_eq_true (List.mem_filter.mp hy).2 hb
        · omega
      have hapart := hi.arenas_apart hr' hr hne
      have hin := (hi.proper r' hr').block_inside hb
      have hsize := (hi.proper r' hr').fits.1
      unfold Arena.Apart at hapart
      unfold Arena.addr at hin ⊢
      omega
  case elems =>
    intro j hj b hb
    obtain ⟨hb, hnot⟩ := List.mem_filter.mp hb
    obtain ⟨a, ha, hd, hblock⟩ := hi.elems j hj b hb
    refine ⟨a, List.mem_filter.mpr ⟨ha, decide_eq_true fun heq => ?_⟩, hd, hblock⟩
    exact of_decide_eq_true hnot (heq ▸ hblock)
  case nodup => exact fun j hj => (hi.nodup j hj).filter _

/-- `palloc_free_multiple` of the pages of an arena. -/
theorem Inv.pallocFreeMultiple (hi : Inv h as free) (hr : r ∈ as) :
    pallocFreeMultiple r.addr r.pageCnt { h with mem := m } = .ok { h with
      mem := m.fill r.addr (4096 * r.pageCnt % 2 ^ 32) 0xcc
      pages := h.pages.filter (· ∉ List.range' r.page r.pageCnt) } := by
  have hpos := (hi.proper r hr).pos
  have hcnt := (hi.proper r hr).pageCnt
  have hpage : r.addr / 4096 = r.page := Nat.mul_div_cancel_left _ (by omega)
  have hofs : r.addr % 4096 = 0 := Nat.mul_mod_right _ _
  have haddr : ¬(r.addr = 0 ∨ r.pageCnt = 0) := by
    unfold Arena.addr
    omega
  have huses : Heap.Uses { h with mem := m } r.page r.pageCnt := by
    intro p hp
    exact (hi.pages p).mpr ⟨r, hr, List.mem_range'_1.mp hp⟩
  unfold Malloc.pallocFreeMultiple assert
  rw [if_pos hofs, bind_ok, if_neg haddr, hpage, if_pos huses, bind_ok]

/-! ## Taking a block back -/

/-- A block that is held is off the nodes of a free list. -/
theorem Inv.held_spaced (hi : Inv h as free) (hlt : i < 7) (hr : r ∈ as) (hb : b ∈ r.blocks)
    (hheld : ∀ i < 7, b ∉ free i) : Spaced (b :: nodes (h.freeList i) (free i)) := by
  have hspaced := (hi.lists i hlt).spaced
  have hinside := (hi.proper r hr).block_inside hb
  have hlimit := (hi.proper r hr).inside
  have hsize := (hi.proper r hr).fits.1
  unfold Arena.addr at hinside
  constructor
  case apart =>
    refine List.pairwise_cons.mpr ⟨fun y hy => ?_, hspaced.apart⟩
    have hoff := (hi.held_off hr hb hheld).nodes hi hlt y hy
    unfold Apart
    omega
  case range =>
    intro x hx
    rcases List.mem_cons.mp hx with rfl | hx
    · omega
    · exact hspaced.range x hx

/-- `free` puts a block in front of its free list, and counts it. -/
theorem Inv.putBack (hi : Inv h as free) (hr : r ∈ as) (hd : r.desc = some i) (hlt : i < 7)
    (hb : b ∈ r.blocks) (hheld : ∀ i < 7, b ∉ free i) :
    ∃ m, listPushFront (h.freeList i) b (h.mem.fill b (desc i).blockSize 0xcc) = .ok m ∧
      Inv { h with mem := m.store (r.addr + 8) ((m.load (r.addr + 8) + 1) % 2 ^ 32) } as
        (Function.update free i (b :: free i)) ∧
      ∀ r' ∈ as, ∀ b' ∈ r'.blocks, (∀ i < 7, b' ∉ free i) → b' ≠ b →
        Agree h.mem (m.store (r.addr + 8) ((m.load (r.addr + 8) + 1) % 2 ^ 32)) b' r'.size := by
  have hsize : r.size = (desc i).blockSize := by
    unfold Arena.size
    rw [hd]
  have hoff := hi.held_off hr hb hheld
  rw [hsize] at hoff
  have hi₁ : Inv { h with mem := h.mem.fill b (desc i).blockSize 0xcc } as free :=
    hi.of_write hoff fun a n hout => agree_fill hout
  obtain ⟨m, hpush, hlist, hagree⟩ := (hi₁.lists i hlt).pushFront (hi.held_spaced hlt hr hb hheld)
  have hnodup : (b :: free i).Nodup := List.nodup_cons.mpr ⟨hheld i hlt, hi.nodup i hlt⟩
  have helems : ∀ x ∈ b :: free i, ∃ a ∈ as, a.desc = some i ∧ x ∈ a.blocks := by
    intro x hx
    rcases List.mem_cons.mp hx with rfl | hx
    · exact ⟨r, hr, hd, hb⟩
    · exact hi.elems i hlt x hx
  have hpage := (hi.proper r hr).page_of_block hb
  have hheader : Agree (h.mem.fill b (desc i).blockSize 0xcc) m r.addr 12 := by
    refine hagree _ _ fun y hy => ?_
    rcases List.mem_cons.mp hy with rfl | hy
    · have := ((hi.proper r hr).block_inside hb).1
      omega
    · have := hi₁.node_header hlt hr hy
      omega
  have hcount : m.load (r.addr + 8) = (free i).countP fun b => b / 4096 == r.page := by
    have h₀ := ((hi₁.header r hr).of_agree hheader rfl).freeCnt
    unfold Arena.count at h₀
    rw [hd] at h₀
    exact h₀
  have hcons : (b :: free i).countP (fun b => b / 4096 == r.page) =
      ((free i).countP fun b => b / 4096 == r.page) + 1 :=
    List.countP_cons_of_pos (beq_iff_eq.mpr hpage)
  have hle := (countP_page hi.proper hi.apart hnodup helems hr hd).1
  have hfew := blocksPerArena_lt i hlt
  rw [hcons] at hle
  have hmod : (((free i).countP fun b => b / 4096 == r.page) + 1) % 2 ^ 32 =
      ((free i).countP fun b => b / 4096 == r.page) + 1 := Nat.mod_eq_of_lt (by omega)
  refine ⟨m, hpush, ?_⟩
  rw [hcount, hmod]
  refine ⟨hi₁.of_count hlt hr hd hlist hnodup helems (fun a n hn hn' => ?_) hcons (by omega)
    (fun r' hr' hne _ => ?_), fun r' hr' b' hb' hheld' hne => ?_⟩
  · refine hagree a n fun y hy => ?_
    rcases List.mem_cons.mp hy with rfl | hy
    · exact hn' y (elem_mem List.mem_cons_self)
    · exact hn y hy
  · rw [List.countP_cons_of_neg]
    rw [beq_iff_eq, hpage]
    have hapart := hi.arenas_apart hr' hr hne
    have hpos := (hi.proper r hr).pageCnt
    have hpos' := (hi.proper r' hr').pageCnt
    unfold Arena.Apart at hapart
    omega
  · have hoff' := hi.held_off hr' hb' hheld'
    have hblocks := hi.block_block hr' hb' hr hb hne
    rw [hsize] at hblocks
    refine ((agree_fill hblocks).trans (hagree _ _ fun y hy => ?_)).trans (agree_store ?_)
    · rcases List.mem_cons.mp hy with rfl | hy
      · have := (hi.proper r hr).fits.1
        omega
      · exact hoff'.nodes hi hlt y hy
    · have := hoff'.headers r hr
      omega

/-- The blocks that are held when one has been put back. -/
theorem held_putBack (hlt : i < 7) :
    Held as (Function.update free i (b :: free i)) x ↔ Held as free x ∧ x ≠ b := by
  constructor
  · rintro ⟨hin, hout⟩
    have hnot := hout i hlt
    rw [Function.update_self, List.mem_cons, not_or] at hnot
    refine ⟨⟨hin, fun j hj hx => ?_⟩, hnot.1⟩
    by_cases hji : j = i
    · exact hnot.2 (hji ▸ hx)
    · have hx' := hout j hj
      rw [Function.update_of_ne hji] at hx'
      exact hx' hx
  · rintro ⟨⟨hin, hout⟩, hne⟩
    refine ⟨hin, fun j hj hx => ?_⟩
    by_cases hji : j = i
    · rw [hji, Function.update_self] at hx
      exact hout i hlt (List.mem_of_ne_of_mem hne hx)
    · rw [Function.update_of_ne hji] at hx
      exact hout j hj hx

/-- The blocks that are held when an arena that has none has been dropped. -/
theorem Inv.held_dropArena (hi : Inv h as free) (hr : r ∈ as)
    (hnone : ∀ x ∈ r.blocks, ¬Held as free x) :
    Held (as.filter (· ≠ r)) (fun j => (free j).filter (· ∉ r.blocks)) x ↔ Held as free x := by
  constructor
  · rintro ⟨⟨a, ha, hx⟩, hout⟩
    obtain ⟨ha, hne⟩ := List.mem_filter.mp ha
    refine ⟨⟨a, ha, hx⟩, fun j hj hxj => hout j hj (List.mem_filter.mpr ⟨hxj, ?_⟩)⟩
    exact decide_eq_true fun hxr => of_decide_eq_true hne (hi.arena_unique ha hx hr hxr)
  · rintro ⟨⟨a, ha, hx⟩, hout⟩
    refine ⟨⟨a, List.mem_filter.mpr ⟨ha, decide_eq_true fun heq => ?_⟩, hx⟩, fun j hj hxj =>
      hout j hj (List.mem_filter.mp hxj).1⟩
    exact hnone x (heq ▸ hx) ⟨⟨a, ha, hx⟩, hout⟩

/-- What is held is not in an arena that has been dropped. -/
theorem Inv.fill_held (hi : Inv h as free) (hr : r ∈ as) {r' : Arena} (hr' : r' ∈ as) (hne : r' ≠ r)
    (hb : b ∈ r'.blocks) : Agree m (m.fill r.addr (4096 * r.pageCnt % 2 ^ 32) 0xcc) b r'.size := by
  refine agree_fill ?_
  have hapart := hi.arenas_apart hr' hr hne
  have hin := (hi.proper r' hr').block_inside hb
  have hinside := (hi.proper r hr).inside
  have hpos := (hi.proper r hr).pos
  have hsize : 4096 * r.pageCnt % 2 ^ 32 = 4096 * r.pageCnt := Nat.mod_eq_of_lt (by omega)
  rw [hsize]
  unfold Arena.Apart at hapart
  unfold Arena.addr at hin ⊢
  omega

/-- `free` of a block that a descriptor has. -/
theorem Inv.freeSmall (hi : Inv h as free) (hr : r ∈ as) (hd : r.desc = some i) (hb : b ∈ r.blocks)
    (hheld : ∀ i < 7, b ∉ free i) :
    ∃ h' as' free', Malloc.freeSmall i r.addr b h = .ok h' ∧ Returned h as free h' as' free' r b := by
  obtain ⟨hlt, hone⟩ := (hi.proper r hr).small i hd
  obtain ⟨m, hpush, hi₁, hkept⟩ := hi.putBack hr hd hlt hb hheld
  have hheld₁ : ∀ x, Held as (Function.update free i (b :: free i)) x ↔ Held as free x ∧ x ≠ b :=
    fun x => held_putBack hlt
  have hnodup := hi₁.nodup i hlt
  have helems := hi₁.elems i hlt
  have hcount := (hi₁.header r hr).freeCnt
  rw [count_update_self hd] at hcount
  rw [Function.update_self] at hnodup helems
  obtain ⟨hle, hfull⟩ := countP_page hi.proper hi.apart hnodup helems hr hd
  rw [← hcount] at hle hfull
  unfold Malloc.freeSmall
  rw [hpush, bind_ok]
  dsimp only
  by_cases hall : (desc i).blocksPerArena ≤ Heap.freeCnt
      { h with mem := m.store (r.addr + 8) ((m.load (r.addr + 8) + 1) % 2 ^ 32) } r.addr
  · rw [if_pos hall]
    have heq := Nat.le_antisymm hle hall
    have hblocks := hfull.mp heq
    -- Every block of the arena is in the free list.
    have hnone : ∀ x ∈ r.blocks, ¬Held as (Function.update free i (b :: free i)) x := by
      intro x hx hheld'
      have hout := hheld'.2 i hlt
      rw [Function.update_self] at hout
      exact hout (hblocks x hx)
    have hpos : r.addr ≠ 0 := by
      have := (hi.proper r hr).pos
      unfold Arena.addr
      omega
    have hsize : r.size = (desc i).blockSize := by
      unfold Arena.size
      rw [hd]
    have hlist : ((List.range (desc i).blocksPerArena).map fun k =>
        r.addr + 12 + k * (desc i).blockSize) = r.blocks := by
      unfold Arena.blocks Arena.block Arena.blockCnt
      rw [hd, hsize]
    obtain ⟨m', hremove, hlist', hagree⟩ := removeBlocks_ok (i := i) hpos
      (List.range (desc i).blocksPerArena) _ _ (hi₁.header r hr).magic
      (fun k hk => List.mem_range.mp hk) (hi₁.lists i hlt) (hi₁.nodup i hlt)
      (by
        rw [hlist, Function.update_self]
        exact hblocks) (by rw [hlist]; exact (hi.proper r hr).blocks_nodup)
      (fun y hy => by
        have := hi₁.node_header hlt hr hy
        omega)
    rw [hlist] at hlist'
    have hi₂ := hi₁.dropArena (m := m') hr (fun j hj => by
        by_cases hji : j = i
        · subst hji
          exact hlist'
        · rw [hi₁.filter_blocks hr hj fun heq => hji (Option.some.inj (heq.symm.trans hd))]
          refine (hi₁.lists j hj).of_agree fun y hy => hagree y 8 fun y' hy' => ?_
          have := hi₁.nodes_apart hlt hj hji hy' hy
          omega) fun r' hr' _ => hagree _ _ fun y hy => by
        have := hi₁.node_header hlt hr' hy
        omega
    have hfree := hi₁.pallocFreeMultiple (m := m') hr
    rw [hone] at hfree hi₂
    unfold assert
    rw [if_pos heq, bind_ok, hremove, bind_ok, hfree]
    refine ⟨_, _, _, rfl, hi₂, rfl, rfl, fun x => ?_, fun a => ?_,
      fun r' hr' b' hb' hheld' hne => ?_⟩
    · exact (hi₁.held_dropArena hr hnone).trans (hheld₁ x)
    · rw [List.mem_filter, decide_eq_true_iff]
      refine and_congr_right fun _ => ⟨fun hne heq => absurd heq hne, fun hex heq => ?_⟩
      obtain ⟨x, hx, hxb, hheld'⟩ := hex heq
      exact hnone x hx ((hheld₁ x).mpr ⟨hheld', hxb⟩)
    · have hheld₂ := (hheld₁ b').mpr ⟨⟨⟨r', hr', hb'⟩, hheld'⟩, hne⟩
      have hdiff : r' ≠ r := fun heq => hnone b' (heq ▸ hb') hheld₂
      have hoff := hi₁.held_off hr' hb' hheld₂.2
      have hfill := hi₁.fill_held (m := m') hr hr' hdiff hb'
      rw [hone] at hfill
      exact ((hkept r' hr' b' hb' hheld' hne).trans (hagree _ _ (hoff.nodes hi₁ hlt))).trans hfill
  · rw [if_neg hall]
    refine ⟨_, _, _, rfl, hi₁, rfl, rfl, hheld₁, fun a => ?_, hkept⟩
    refine ⟨fun ha => ⟨ha, fun _ => ?_⟩, And.left⟩
    have hsome : ¬∀ x ∈ r.blocks, x ∈ b :: free i := fun hblocks =>
      hall (Nat.le_of_eq (hfull.mpr hblocks).symm)
    rw [not_forall] at hsome
    obtain ⟨x, hx⟩ := hsome
    rw [Classical.not_imp, List.mem_cons, not_or] at hx
    obtain ⟨hx, hxb, hxi⟩ := hx
    refine ⟨x, hx, hxb, ⟨r, hr, hx⟩, fun j hj hxj => ?_⟩
    obtain ⟨r', hr', hd', hx'⟩ := hi.elems j hj x hxj
    rw [hi.arena_unique hr' hx' hr hx, hd] at hd'
    exact hxi (Option.some.inj hd' ▸ hxj)

/-- `free` of a block with pages of its own. -/
theorem Inv.freeBig (hi : Inv h as free) (hr : r ∈ as) (hd : r.desc = none) (hb : b ∈ r.blocks) :
    ∃ h' as' free', Malloc.pallocFreeMultiple r.addr (h.freeCnt r.addr) h = .ok h' ∧
      Returned h as free h' as' free' r b := by
  have hcount := (hi.header r hr).freeCnt
  unfold Arena.count at hcount
  rw [hd] at hcount
  have hone : ∀ x ∈ r.blocks, x = b := by
    have hlen : r.blocks.length = 1 := by
      unfold Arena.blocks Arena.blockCnt
      rw [List.length_map, List.length_range, hd]
    obtain ⟨c, hc⟩ := List.length_eq_one_iff.mp hlen
    rw [hc] at hb ⊢
    intro x hx
    rw [List.mem_singleton.mp hx, List.mem_singleton.mp hb]
  have hi' := hi.dropArena (m := h.mem) hr (fun j hj => by
    rw [hi.filter_blocks hr hj fun heq => by rw [hd] at heq; cases heq]
    exact hi.lists j hj) fun r' _ _ => .refl _ _ _
  rw [hcount]
  refine ⟨_, _, _, hi.pallocFreeMultiple (m := h.mem) hr, hi', rfl, rfl, fun x => ?_, fun a => ?_,
    fun r' hr' b' hb' _ hne => ?_⟩
  · constructor
    · rintro ⟨⟨a, ha, hx⟩, hout⟩
      obtain ⟨ha, hne⟩ := List.mem_filter.mp ha
      have hxr : x ∉ r.blocks := fun hxr => of_decide_eq_true hne (hi.arena_unique ha hx hr hxr)
      refine ⟨⟨⟨a, ha, hx⟩, fun j hj hxj => hout j hj ?_⟩, fun heq => hxr (heq ▸ hb)⟩
      exact List.mem_filter.mpr ⟨hxj, decide_eq_true hxr⟩
    · rintro ⟨⟨⟨a, ha, hx⟩, hout⟩, hne⟩
      refine ⟨⟨a, List.mem_filter.mpr ⟨ha, decide_eq_true fun heq => ?_⟩, hx⟩, fun j hj hxj =>
        hout j hj (List.mem_filter.mp hxj).1⟩
      exact hne (hone x (heq ▸ hx))
  · rw [List.mem_filter, decide_eq_true_iff]
    refine and_congr_right fun _ => ⟨fun hne heq => absurd heq hne, fun hex heq => ?_⟩
    obtain ⟨x, hx, hxb, -⟩ := hex heq
    exact hxb (hone x hx)
  · exact hi.fill_held hr hr' (fun heq => hne (hone b' (heq ▸ hb'))) hb'

/-- `free` of a block. -/
theorem Inv.free_ok (hi : Inv h as free) (hr : r ∈ as) (hb : b ∈ r.blocks) (hheld : ∀ i < 7, b ∉ free i) :
    ∃ h' as' free', Malloc.free (some b) h =
        .ok { h' with live := h'.live.filter (·.1 ≠ b) } ∧ Returned h as free h' as' free' r b := by
  unfold Malloc.free
  dsimp only
  rw [hi.blockToArena hr hb, bind_ok]
  dsimp only
  cases hd : r.desc with
  | some i =>
    obtain ⟨h', as', free', hok, hret⟩ := hi.freeSmall hr hd hb hheld
    dsimp only
    rw [hok, bind_ok]
    exact ⟨h', as', free', rfl, hret⟩
  | none =>
    obtain ⟨h', as', free', hok, hret⟩ := hi.freeBig hr hd hb
    dsimp only
    rw [hok, bind_ok]
    exact ⟨h', as', free', rfl, hret⟩

end Pintos.Malloc
