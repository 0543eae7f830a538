import Mathlib.Logic.Function.Basic
import Pintos.Malloc.Invariant

/-!
# What the calls do to the arenas

One theorem for each part of `malloc` and `free`: it runs through, with none of its assertions failing,
the arenas and free lists are then as it leaves them, and it writes to nothing but headers and links.
-/

namespace Pintos.Malloc

open Pintos.Lib Pintos.Lib.Memory

variable {h : Heap} {as : List Arena} {free : Nat → List Nat} {r r' : Arena} {b i : Nat}
  {rest xs : List Nat} {m : Memory}

/-! ## Finding the arena of a block -/

theorem descAddr_pos (hroom : 0 < h.descsAddr) (i : Nat) : h.descAddr i ≠ 0 := by
  unfold Heap.descAddr
  omega

theorem arenaDesc_ok (hproper : r.Proper h.descsAddr) (hroom : 0 < h.descsAddr)
    (hdesc : h.mem.load (r.addr + 4) = r.descPtr h) : arenaDesc r.addr h = .ok r.desc := by
  unfold arenaDesc
  rw [hdesc]
  unfold Arena.descPtr
  cases hd : r.desc with
  | none => rfl
  | some i =>
    obtain ⟨hlt, -⟩ := hproper.small i hd
    dsimp only
    rw [if_neg (descAddr_pos hroom i), length_descs]
    cases hfind : (List.range 7).find? fun j => h.descAddr j == h.descAddr i with
    | none =>
      have hno := List.find?_eq_none.mp hfind i (List.mem_range.mpr hlt)
      exact absurd (beq_self_eq_true _) hno
    | some j =>
      have heq := beq_iff_eq.mp (List.find?_some (p := fun j => h.descAddr j == h.descAddr i) hfind)
      unfold Heap.descAddr at heq
      have hij : j = i := by omega
      rw [hij]

theorem blockToArena_ok (hproper : r.Proper h.descsAddr) (hroom : 0 < h.descsAddr)
    (hmagic : h.mem.load r.addr = arenaMagic) (hdesc : h.mem.load (r.addr + 4) = r.descPtr h)
    (hb : b ∈ r.blocks) : blockToArena b h = .ok (r.addr, r.desc) := by
  have haddr : b / 4096 * 4096 = r.addr := by
    rw [hproper.page_of_block hb]
    exact Nat.mul_comm _ _
  have hpos : r.addr ≠ 0 := by
    have := hproper.pos
    unfold Arena.addr
    omega
  have hdesc' := arenaDesc_ok hproper hroom hdesc
  obtain ⟨hlow, hhigh⟩ := hproper.block_inside hb
  obtain ⟨k, hk, rfl⟩ := Arena.mem_blocks.mp hb
  unfold blockToArena assert
  dsimp only
  rw [haddr, if_pos hpos, bind_ok, if_pos hmagic, bind_ok, hdesc', bind_ok]
  cases hd : r.desc with
  | none =>
    have hzero : k = 0 := by
      unfold Arena.blockCnt at hk
      rw [hd] at hk
      exact Nat.lt_one_iff.mp hk
    have hofs : r.block k % 4096 = 12 := by
      rw [hzero]
      unfold Arena.block Arena.addr
      omega
    dsimp only
    rw [if_pos hofs, bind_ok]
  | some i =>
    have hsize : r.size = (desc i).blockSize := by
      unfold Arena.size
      rw [hd]
    have hone := (hproper.small i hd).2
    have hofs : (r.block k % 4096 + (2 ^ 32 - 12)) % 2 ^ 32 % (desc i).blockSize = 0 := by
      have hmod : (r.block k % 4096 + (2 ^ 32 - 12)) % 2 ^ 32 = k * r.size := by
        have hpositive := hproper.fits.1
        unfold Arena.block Arena.addr at hhigh ⊢
        rw [hone] at hhigh
        omega
      rw [hmod, hsize]
      exact Nat.mul_mod_left _ _
    dsimp only
    rw [if_pos hofs, bind_ok]

theorem Inv.blockToArena (hi : Inv h as free) (hr : r ∈ as) (hb : b ∈ r.blocks) :
    blockToArena b h = .ok (r.addr, r.desc) :=
  blockToArena_ok (hi.proper r hr) hi.room.1 (hi.header r hr).magic (hi.header r hr).desc hb

/-- `block_size`. -/
theorem Inv.blockSize (hi : Inv h as free) (hr : r ∈ as) (hb : b ∈ r.blocks) :
    blockSize b h = .ok r.size := by
  have hproper := hi.proper r hr
  have hcnt := (hi.header r hr).freeCnt
  unfold Malloc.blockSize Arena.size
  rw [hi.blockToArena hr hb, bind_ok]
  unfold Arena.count at hcnt
  cases hd : r.desc with
  | some i => rfl
  | none =>
    rw [hd] at hcnt
    have hofs : b % 4096 = 12 := by
      obtain ⟨k, hk, rfl⟩ := Arena.mem_blocks.mp hb
      have hzero : k = 0 := by
        unfold Arena.blockCnt at hk
        rw [hd] at hk
        exact Nat.lt_one_iff.mp hk
      rw [hzero]
      unfold Arena.block Arena.addr
      omega
    have hinside := hproper.inside
    have hpos := hproper.pos
    have hpageCnt := hproper.pageCnt
    dsimp only at hcnt ⊢
    rw [hcnt, hofs]
    have hsize : (4096 * r.pageCnt + (2 ^ 32 - 12)) % 2 ^ 32 = 4096 * r.pageCnt - 12 := by omega
    rw [hsize]

/-! ## Nodes -/

/-- A node of a free list and the header of an arena. -/
theorem Inv.node_header (hi : Inv h as free) (hlt : i < 7) (hr : r ∈ as) {y : Nat}
    (hy : y ∈ nodes (h.freeList i) (free i)) : y + 8 ≤ r.addr ∨ r.addr + 12 ≤ y := by
  rcases hi.node hlt hy with ⟨hlow, hhigh⟩ | ⟨r', hr', -, hb, -⟩
  · have := hi.header_descs hr
    omega
  · have := hi.block_header hr' hb hr
    have := (hi.proper r' hr').fits.1
    omega

/-- The nodes of two free lists. -/
theorem Inv.nodes_apart (hi : Inv h as free) {j : Nat} (hlt : i < 7) (hlt' : j < 7) (hne : j ≠ i)
    {y y' : Nat} (hy : y ∈ nodes (h.freeList i) (free i)) (hy' : y' ∈ nodes (h.freeList j) (free j)) :
    y' + 8 ≤ y ∨ y + 8 ≤ y' := by
  have hinside := freeList_inside h hlt
  have hinside' := freeList_inside h hlt'
  have hblocks : ∀ i < 7, ∀ y ∈ free i, y + 8 ≤ h.descsAddr ∨ h.descsAddr + 480 ≤ y := by
    intro i hlt y hy
    obtain ⟨r, hr, -, hb⟩ := hi.elems i hlt y hy
    have := hi.block_descs hr hb
    have := (hi.proper r hr).fits.1
    omega
  have hlists : h.freeList j + 48 ≤ h.freeList i ∨ h.freeList i + 48 ≤ h.freeList j := by
    unfold Heap.freeList Heap.descAddr
    omega
  unfold nodes at hy hy'
  rw [List.mem_cons, List.mem_append, List.mem_singleton] at hy hy'
  rcases hy with rfl | hy | rfl <;> rcases hy' with rfl | hy' | rfl
  case inr.inl.inr.inl =>
    obtain ⟨r, hr, hd, hb⟩ := hi.elems i hlt y hy
    obtain ⟨r', hr', hd', hb'⟩ := hi.elems j hlt' y' hy'
    have hdiff : y' ≠ y := by
      rintro rfl
      have heq := hi.arena_unique hr hb hr' hb'
      rw [heq, hd'] at hd
      exact hne (Option.some.inj hd)
    have := hi.block_block hr' hb' hr hb hdiff
    have := (hi.proper r hr).fits.1
    have := (hi.proper r' hr').fits.1
    omega
  case inr.inl.inl => have := hblocks i hlt y hy; omega
  case inr.inl.inr.inr => have := hblocks i hlt y hy; omega
  case inl.inr.inl => have := hblocks j hlt' y' hy'; omega
  case inr.inr.inr.inl => have := hblocks j hlt' y' hy'; omega
  all_goals omega

/-- A region without metadata is off the nodes. -/
theorem OffMeta.nodes {a n : Nat} (h' : OffMeta h as free a n) (hi : Inv h as free) (hlt : i < 7) :
    Off (nodes (h.freeList i) (free i)) a n := by
  intro y hy
  have hdescs := h'.descs
  rcases hi.node hlt hy with ⟨hlow, hhigh⟩ | ⟨-, -, -, -, hfree⟩
  · omega
  · exact h'.links i hlt y hfree

/-- One free list has changed, and the headers with it. -/
theorem Inv.of_list (hi : Inv h as free) (hlist : IsList m (h.freeList i) xs)
    (hnodup : xs.Nodup) (helems : ∀ b ∈ xs, ∃ a ∈ as, a.desc = some i ∧ b ∈ a.blocks)
    (hheader : ∀ r ∈ as, Header { h with mem := m } (Function.update free i xs) r)
    (hothers : ∀ j < 7, j ≠ i → ∀ y ∈ Malloc.nodes (h.freeList j) (free j), Agree h.mem m y 8) :
    Inv { h with mem := m } as (Function.update free i xs) where
  room := hi.room
  proper := hi.proper
  apart := hi.apart
  pages := hi.pages
  header := hheader
  lists := by
    intro j hj
    by_cases heq : j = i
    · rw [heq, Function.update_self]
      exact hlist
    · rw [Function.update_of_ne heq]
      exact (hi.lists j hj).of_agree (hothers j hj heq)
  elems := by
    intro j hj b hb
    by_cases heq : j = i
    · rw [heq, Function.update_self] at hb
      rw [heq]
      exact helems b hb
    · rw [Function.update_of_ne heq] at hb
      exact hi.elems j hj b hb
  nodup := by
    intro j hj
    by_cases heq : j = i
    · rw [heq, Function.update_self]
      exact hnodup
    · rw [Function.update_of_ne heq]
      exact hi.nodup j hj

/-! ## Counts -/

theorem count_update_self (hd : r.desc = some i) : r.count (Function.update free i xs) =
    xs.countP fun b => b / 4096 == r.page := by
  unfold Arena.count
  rw [hd]
  dsimp only
  rw [Function.update_self]

theorem count_update_of_ne (hd : r.desc ≠ some i) :
    r.count (Function.update free i xs) = r.count free := by
  unfold Arena.count
  cases hdesc : r.desc with
  | none => rfl
  | some j =>
    have hne : j ≠ i := fun heq => hd (by rw [hdesc, heq])
    dsimp only
    rw [Function.update_of_ne hne]

/-! ## Taking a block -/

/-- What is written is metadata. -/
def MetaOnly (h : Heap) (as : List Arena) (free : Nat → List Nat) (m : Memory) : Prop :=
  ∀ a n, OffMeta h as free a n → Agree h.mem m a n

/-- The header of an arena of which `free_cnt` has been written. -/
theorem Header.of_store {free' : Nat → List Nat} {cnt : Nat} (hh : Header h free r)
    (hcnt : r.count free' = cnt) (hsmall : cnt < 2 ^ 32) :
    Header { h with mem := h.mem.store (r.addr + 8) cnt } free' r where
  magic := (load_store_of_apart (by omega)).trans hh.magic
  desc := (load_store_of_apart (by omega)).trans hh.desc
  freeCnt := (load_store_self hsmall).trans hcnt.symm

/-- The header of an arena that has not been written to. -/
theorem Header.of_agree {free' : Nat → List Nat} (hh : Header h free r)
    (hm : Agree h.mem m r.addr 12) (hcnt : r.count free' = r.count free) :
    Header { h with mem := m } free' r where
  magic := (hm.sub (by omega) (by omega)).load.trans hh.magic
  desc := (hm.sub (by omega) (by omega)).load.trans hh.desc
  freeCnt := (hm.sub (by omega) (by omega)).load.trans (hh.freeCnt.trans hcnt.symm)

/-- A free list and the count of one arena have changed. -/
theorem Inv.of_count {cnt : Nat} (hi : Inv h as free) (hlt : i < 7) (hr : r ∈ as)
    (hd : r.desc = some i) (hlist : IsList m (h.freeList i) xs) (hnodup : xs.Nodup)
    (helems : ∀ b ∈ xs, ∃ a ∈ as, a.desc = some i ∧ b ∈ a.blocks)
    (hm : ∀ a n, Off (nodes (h.freeList i) (free i)) a n → Off (nodes (h.freeList i) xs) a n →
      Agree h.mem m a n)
    (hcnt : xs.countP (fun b => b / 4096 == r.page) = cnt) (hsmall : cnt < 2 ^ 32)
    (hothers : ∀ r' ∈ as, r' ≠ r → r'.desc = some i →
      xs.countP (fun b => b / 4096 == r'.page) = (free i).countP fun b => b / 4096 == r'.page) :
    Inv { h with mem := m.store (r.addr + 8) cnt } as (Function.update free i xs) := by
  have hnodeHeader : ∀ r' ∈ as, ∀ y ∈ nodes (h.freeList i) xs,
      y + 8 ≤ r'.addr ∨ r'.addr + 12 ≤ y := by
    intro r' hr' y hy
    rcases List.mem_cons.mp hy with rfl | hy
    · exact hi.node_header hlt hr' head_mem
    · rcases List.mem_append.mp hy with hy | hy
      · obtain ⟨a, ha, -, hb⟩ := helems y hy
        have := hi.block_header ha hb hr'
        have := (hi.proper a ha).fits.1
        omega
      · rw [List.mem_singleton.mp hy]
        exact hi.node_header hlt hr' tail_mem
  have hheader : ∀ r' ∈ as, Agree h.mem m r'.addr 12 := by
    intro r' hr'
    refine hm _ _ (fun y hy => ?_) fun y hy => ?_
    · have := hi.node_header hlt hr' hy
      omega
    · have := hnodeHeader r' hr' y hy
      omega
  refine hi.of_list ?_ hnodup helems (fun r' hr' => ?_) fun j hj hne y hy => ?_
  · refine hlist.of_agree fun y hy => agree_store ?_
    have := hnodeHeader r hr y hy
    omega
  · by_cases heq : r' = r
    · subst heq
      have hsame := (hi.header r' hr').of_agree (hheader r' hr') rfl
      exact hsame.of_store ((count_update_self hd).trans hcnt) hsmall
    · have hapart := hi.header_header hr' hr heq
      refine (hi.header r' hr').of_agree ((hheader r' hr').trans (agree_store (by omega))) ?_
      by_cases hd' : r'.desc = some i
      · rw [count_update_self hd', hothers r' hr' heq hd']
        unfold Arena.count
        rw [hd']
      · exact count_update_of_ne hd'
  · refine (hm y 8 (fun y' hy' => ?_) fun y' hy' => ?_).trans (agree_store ?_)
    · have := hi.nodes_apart hlt hj hne hy' hy
      omega
    · rcases List.mem_cons.mp hy' with rfl | hy'
      · have := hi.nodes_apart hlt hj hne head_mem hy
        omega
      · rcases List.mem_append.mp hy' with hy' | hy'
        · obtain ⟨a, ha, hda, hb⟩ := helems y' hy'
          have hsize := (hi.proper a ha).fits.1
          rcases hi.node hj hy with hdescs | ⟨a', ha', hda', hb', -⟩
          · have := hi.block_descs ha hb
            omega
          · have hdiff : y ≠ y' := by
              rintro rfl
              have heq := hi.arena_unique ha hb ha' hb'
              rw [← heq, hda] at hda'
              exact hne (Option.some.inj hda').symm
            have := hi.block_block ha' hb' ha hb hdiff
            have := (hi.proper a' ha').fits.1
            omega
        · rw [List.mem_singleton.mp hy']
          have := hi.nodes_apart hlt hj hne tail_mem hy
          omega
    · have := hi.node_header hj hr hy
      omega

/-- `malloc` takes the first block of a free list. -/
theorem Inv.takeBlock (hi : Inv h as free) (hlt : i < 7) (hfree : free i = b :: rest) :
    ∃ m, takeBlock i h = .ok (b, { h with mem := m }) ∧
      Inv { h with mem := m } as (Function.update free i rest) ∧ MetaOnly h as free m := by
  have hlist := hi.lists i hlt
  have hnodup := hi.nodup i hlt
  rw [hfree] at hlist hnodup
  obtain ⟨m₁, hpop, hlist₁, hagree⟩ := hlist.popFront
  obtain ⟨r, hr, hd, hb⟩ := hi.elems i hlt b (by rw [hfree]; exact List.mem_cons_self)
  have hoff : ∀ a n, Off (nodes (h.freeList i) (free i)) a n → Agree h.mem m₁ a n := by
    rw [hfree]
    exact hagree
  have hheader : Agree h.mem m₁ r.addr 12 := hoff _ _ fun y hy => by
    have := hi.node_header hlt hr hy
    omega
  have hold : Header { h with mem := m₁ } free r := (hi.header r hr).of_agree hheader rfl
  have harena := blockToArena_ok (h := { h with mem := m₁ }) (hi.proper r hr) hi.room.1
    hold.magic hold.desc hb
  have hpage := (hi.proper r hr).page_of_block hb
  have hcnt : m₁.load (r.addr + 8) = (rest.countP fun b => b / 4096 == r.page) + 1 := by
    have h₀ := hold.freeCnt
    unfold Arena.count at h₀
    rw [hd] at h₀
    dsimp only at h₀
    rw [hfree, List.countP_cons, hpage, beq_self_eq_true, if_pos rfl] at h₀
    exact h₀
  have hsmall := load_lt m₁ (r.addr + 8)
  have hnew : (m₁.load (r.addr + 8) + (2 ^ 32 - 1)) % 2 ^ 32 =
      rest.countP fun b => b / 4096 == r.page := by omega
  have hrest : ∀ b' ∈ rest, b' ∈ free i := fun b' hb' => by
    rw [hfree]
    exact List.mem_cons_of_mem b hb'
  refine ⟨m₁.store (r.addr + 8) (rest.countP fun b => b / 4096 == r.page), ?_, ?_, ?_⟩
  · unfold Malloc.takeBlock
    rw [hpop, bind_ok]
    dsimp only
    rw [harena, bind_ok]
    dsimp only
    unfold Heap.freeCnt
    rw [hnew]
  · refine hi.of_count hlt hr hd hlist₁ (List.nodup_cons.mp hnodup).2
      (fun b' hb' => hi.elems i hlt b' (hrest b' hb')) (fun a n hn _ => hoff a n hn) rfl (by omega)
      fun r' hr' hne hd' => ?_
    have hpage' : b / 4096 ≠ r'.page := by
      intro heq
      have hapart := hi.arenas_apart hr' hr hne
      have hpos := (hi.proper r hr).pageCnt
      have hpos' := (hi.proper r' hr').pageCnt
      unfold Arena.Apart at hapart
      omega
    rw [hfree, List.countP_cons_of_neg (by rw [beq_iff_eq]; exact hpage')]
  · intro a n ha
    refine (hoff a n (ha.nodes hi hlt)).trans (agree_store ?_)
    have := ha.headers r hr
    omega

end Pintos.Malloc
