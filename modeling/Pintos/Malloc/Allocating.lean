import Pintos.Malloc.Calls

/-!
# New arenas

`malloc` gets pages for an arena, writes its header and puts its blocks in the free list of its
descriptor, or gives the one block out.
-/

namespace Pintos.Malloc

open Pintos.Lib Pintos.Lib.Memory

variable {h : Heap} {as : List Arena} {free : Nat → List Nat} {r : Arena} {a i p cnt d : Nat}
  {xs : List Nat} {m : Memory}

/-! ## Pages -/

theorem fresh_proper (hfresh : h.Fresh p cnt) (hcnt : 0 < cnt) {o : Option Nat}
    (hsmall : ∀ i, o = some i → i < 7 ∧ cnt = 1) : (⟨p, cnt, o⟩ : Arena).Proper h.descsAddr := by
  obtain ⟨hpos, hinside, hoff, -⟩ := hfresh
  exact ⟨hpos, hcnt, hinside, hoff, hsmall⟩

/-- Pages that have not been handed out are in no arena. -/
theorem Inv.fresh_apart (hi : Inv h as free) (hfresh : h.Fresh p cnt) (hcnt : 0 < cnt)
    {o : Option Nat} (hr : r ∈ as) : (⟨p, cnt, o⟩ : Arena).Apart r := by
  obtain ⟨-, -, -, hpages⟩ := hfresh
  have hpos := (hi.proper r hr).pageCnt
  have hfirst := hpages r.page ((hi.pages _).mpr ⟨r, hr, Nat.le_refl _, by omega⟩)
  unfold Arena.Apart
  dsimp only
  by_cases hin : r.page ≤ p ∧ p < r.page + r.pageCnt
  · have := hpages p ((hi.pages _).mpr ⟨r, hr, hin⟩)
    omega
  · omega

theorem Inv.pages_cons (hi : Inv h as free) (o : Option Nat) (q : Nat) :
    q ∈ List.range' p cnt ++ h.pages ↔
      ∃ a ∈ (⟨p, cnt, o⟩ : Arena) :: as, a.page ≤ q ∧ q < a.page + a.pageCnt := by
  rw [List.mem_append, hi.pages, List.mem_range'_1]
  constructor
  · rintro (hq | ⟨a, ha, hq⟩)
    · exact ⟨_, List.mem_cons_self, hq⟩
    · exact ⟨a, List.mem_cons_of_mem _ ha, hq⟩
  · rintro ⟨a, ha, hq⟩
    rcases List.mem_cons.mp ha with rfl | ha
    · exact .inl hq
    · exact .inr ⟨a, ha, hq⟩

/-! ## Headers -/

theorem setArena_agree {b n : Nat} (hoff : b + n ≤ a ∨ a + 12 ≤ b) :
    Agree m (setArena a d cnt m) b n := by
  have h₁ : Agree m (m.store a arenaMagic) b n := agree_store (by omega)
  have h₂ : Agree (m.store a arenaMagic) ((m.store a arenaMagic).store (a + 4) d) b n :=
    agree_store (by omega)
  exact (h₁.trans h₂).trans (agree_store (by omega))

theorem setArena_load (m : Memory) (a : Nat) (hd : d < 2 ^ 32) (hcnt : cnt < 2 ^ 32) :
    (setArena a d cnt m).load a = arenaMagic ∧ (setArena a d cnt m).load (a + 4) = d ∧
      (setArena a d cnt m).load (a + 8) = cnt := by
  unfold setArena
  refine ⟨?_, ?_, load_store_self hcnt⟩
  · rw [load_store_of_apart (by omega), load_store_of_apart (by omega),
      load_store_self (by decide)]
  · rw [load_store_of_apart (by omega), load_store_self hd]

/-- A new header is in no region that matters. -/
theorem Inv.setArena_off (hi : Inv h as free) (hfresh : h.Fresh p cnt) (hcnt : 0 < cnt) :
    OffMeta h as free (4096 * p) (4096 * cnt) where
  headers := by
    intro r hr
    have hapart := hi.fresh_apart (o := none) hfresh hcnt hr
    have hpos := (hi.proper r hr).pageCnt
    unfold Arena.Apart at hapart
    unfold Arena.addr
    dsimp only at hapart
    omega
  descs := by
    have hoff := hfresh.2.2.1
    omega
  links := by
    intro i hlt b hb
    obtain ⟨r, hr, -, hblock⟩ := hi.elems i hlt b hb
    have hapart := hi.fresh_apart (o := none) hfresh hcnt hr
    have hinside := (hi.proper r hr).block_inside hblock
    have hsize := (hi.proper r hr).fits.1
    unfold Arena.Apart at hapart
    unfold Arena.addr at hinside
    dsimp only at hapart
    omega

/-- A block with pages of its own. -/
theorem Inv.of_big (hi : Inv h as free) (hfresh : h.Fresh p cnt) (hcnt : 0 < cnt) :
    Inv { h with mem := setArena (4096 * p) 0 cnt h.mem, pages := List.range' p cnt ++ h.pages }
      (⟨p, cnt, none⟩ :: as) free := by
  have hinside := hfresh.2.1
  have hi' : Inv { h with mem := setArena (4096 * p) 0 cnt h.mem } as free :=
    hi.of_write (hi.setArena_off hfresh hcnt) fun b k hoff => setArena_agree (by omega)
  have hcnt32 : cnt < 2 ^ 32 := by omega
  obtain ⟨h₁, h₂, h₃⟩ := setArena_load h.mem (4096 * p) (Nat.two_pow_pos 32) hcnt32
  constructor
  case room => exact hi'.room
  case proper =>
    intro r hr
    rcases List.mem_cons.mp hr with rfl | hr
    · exact fresh_proper hfresh hcnt fun i hi => by cases hi
    · exact hi'.proper r hr
  case apart => exact List.pairwise_cons.mpr ⟨fun r hr => hi.fresh_apart hfresh hcnt hr, hi'.apart⟩
  case pages => exact hi.pages_cons none
  case header =>
    intro r hr
    rcases List.mem_cons.mp hr with rfl | hr
    · exact ⟨h₁, h₂, h₃⟩
    · obtain ⟨hmagic, hdesc, hfree⟩ := hi'.header r hr
      exact ⟨hmagic, hdesc, hfree⟩
  case lists => exact hi'.lists
  case elems =>
    intro i hlt b hb
    obtain ⟨a, ha, hab⟩ := hi'.elems i hlt b hb
    exact ⟨a, List.mem_cons_of_mem _ ha, hab⟩
  case nodup => exact hi'.nodup

/-! ## The blocks of a new arena -/

theorem nodes_concat_perm (list e : Nat) (xs : List Nat) :
    (nodes list (xs ++ [e])).Perm (e :: nodes list xs) := by
  unfold nodes
  rw [List.append_assoc]
  exact (List.perm_middle.cons list).trans (List.Perm.swap e list _)

/-- The loop of `malloc`. -/
theorem addBlocks_ok (hpos : a ≠ 0) (ks : List Nat) : ∀ (h : Heap) (xs : List Nat),
    h.mem.load a = arenaMagic → (∀ k ∈ ks, k < (desc i).blocksPerArena) →
    IsList h.mem (h.freeList i) xs →
    Spaced ((ks.map fun k => a + 12 + k * (desc i).blockSize) ++ nodes (h.freeList i) xs) →
    Off ((ks.map fun k => a + 12 + k * (desc i).blockSize) ++ nodes (h.freeList i) xs) a 4 →
    ∃ m, addBlocks i a ks h = .ok { h with mem := m } ∧
      IsList m (h.freeList i) (xs ++ ks.map fun k => a + 12 + k * (desc i).blockSize) ∧
      ∀ b n, Off ((ks.map fun k => a + 12 + k * (desc i).blockSize) ++ nodes (h.freeList i) xs) b n →
        Agree h.mem m b n := by
  induction ks with
  | nil =>
    intro h xs _ _ hlist _ _
    exact ⟨h.mem, rfl, by rw [List.map_nil, List.append_nil]; exact hlist, fun b n _ => .refl _ _ _⟩
  | cons k ks ih =>
    intro h xs hmagic hks hlist hs hoff
    rw [List.map_cons, List.cons_append] at hs hoff ⊢
    have hk := hks k List.mem_cons_self
    have hnode : Spaced ((a + 12 + k * (desc i).blockSize) :: nodes (h.freeList i) xs) :=
      hs.sublist ((List.sublist_append_right _ _).cons_cons _)
    obtain ⟨m₁, hpush, hlist₁, hagree₁⟩ := hlist.pushBack hnode
    have hperm : ((ks.map fun k => a + 12 + k * (desc i).blockSize) ++
        nodes (h.freeList i) (xs ++ [a + 12 + k * (desc i).blockSize])).Perm
        ((a + 12 + k * (desc i).blockSize) ::
          ((ks.map fun k => a + 12 + k * (desc i).blockSize) ++ nodes (h.freeList i) xs)) :=
      ((nodes_concat_perm _ _ _).append_left _).trans List.perm_middle
    have hfew : ∀ {b n}, Off ((a + 12 + k * (desc i).blockSize) ::
        ((ks.map fun k => a + 12 + k * (desc i).blockSize) ++ nodes (h.freeList i) xs)) b n →
        Off ((a + 12 + k * (desc i).blockSize) :: nodes (h.freeList i) xs) b n := by
      intro b n hall y hy
      refine hall y ?_
      rcases List.mem_cons.mp hy with rfl | hy
      · exact List.mem_cons_self
      · exact List.mem_cons_of_mem _ (List.mem_append_right _ hy)
    obtain ⟨m, hadd, hlist', hagree⟩ := ih { h with mem := m₁ }
      (xs ++ [a + 12 + k * (desc i).blockSize]) ((hagree₁ a 4 (hfew hoff)).load.trans hmagic)
      (fun k' hk' => hks k' (List.mem_cons_of_mem k hk')) hlist₁ (hs.perm hperm.symm)
      fun y hy => hoff y (hperm.mem_iff.mp hy)
    refine ⟨m, ?_, ?_, fun b n hall => ?_⟩
    · unfold addBlocks arenaToBlock assert
      rw [if_pos hpos, bind_ok, if_pos hmagic, bind_ok, if_pos hk, bind_ok, bind_ok, hpush, bind_ok]
      exact hadd
    · rw [List.append_assoc] at hlist'
      exact hlist'
    · exact (hagree₁ b n (hfew hall)).trans (hagree b n fun y hy => hall y (hperm.mem_iff.mp hy))

/-- The nodes of a new arena, with those of an empty free list. -/
theorem Inv.newNodes_spaced (hi : Inv h as free) (hlt : i < 7) (hfresh : h.Fresh p 1) :
    Spaced ((⟨p, 1, some i⟩ : Arena).blocks ++ nodes (h.freeList i) []) := by
  have hproper : (⟨p, 1, some i⟩ : Arena).Proper h.descsAddr :=
    fresh_proper hfresh Nat.one_pos fun j hj => by cases hj; exact ⟨hlt, rfl⟩
  have hroom := hi.room
  have hinside := freeList_inside h hlt
  have hsize := hproper.fits.1
  obtain ⟨hpos, hlimit, hoff, -⟩ := hfresh
  have hnode : ∀ y ∈ nodes (h.freeList i) [], h.descsAddr ≤ y ∧ y + 8 ≤ h.descsAddr + 480 := by
    intro y hy
    rcases List.mem_pair.mp hy with rfl | rfl <;> omega
  have hblock : ∀ b ∈ (⟨p, 1, some i⟩ : Arena).blocks, 4096 * p + 12 ≤ b ∧ b + 16 ≤ 4096 * (p + 1) := by
    intro b hb
    have hb' := hproper.block_inside hb
    unfold Arena.addr at hb'
    dsimp only at hb'
    omega
  constructor
  case apart =>
    refine List.pairwise_append.mpr ⟨?_, List.pairwise_pair.mpr (.inl (Nat.le_refl _)), ?_⟩
    · refine (hproper.blocks_nodup).imp_of_mem fun {b b'} hb hb' hne => ?_
      have := Arena.blocks_apart hb hb' hne
      unfold Apart
      omega
    · intro b hb y hy
      have := hblock b hb
      have := hnode y hy
      unfold Apart
      omega
  case range =>
    intro x hx
    rcases List.mem_append.mp hx with hx | hx
    · have := hblock x hx
      omega
    · have := hnode x hx
      omega

/-- `malloc` makes a new arena. -/
theorem Inv.newArena (hi : Inv h as free) (hlt : i < 7) (hempty : free i = [])
    (hfresh : h.Fresh p 1) :
    ∃ m, addBlocks i (4096 * p) (List.range (desc i).blocksPerArena)
        { h with
          mem := setArena (4096 * p) (h.descAddr i) (desc i).blocksPerArena h.mem
          pages := List.range' p 1 ++ h.pages } =
        .ok { h with mem := m, pages := List.range' p 1 ++ h.pages } ∧
      Inv { h with mem := m, pages := List.range' p 1 ++ h.pages } (⟨p, 1, some i⟩ :: as)
        (Function.update free i (⟨p, 1, some i⟩ : Arena).blocks) ∧
      ∀ a n, OffMeta h as free a n → a + n ≤ 4096 * p ∨ 4096 * (p + 1) ≤ a → Agree h.mem m a n := by
  have hproper : (⟨p, 1, some i⟩ : Arena).Proper h.descsAddr :=
    fresh_proper hfresh Nat.one_pos fun j hj => by cases hj; exact ⟨hlt, rfl⟩
  have hroom := hi.room
  have hsize := hproper.fits.1
  have hblock : ∀ b ∈ (⟨p, 1, some i⟩ : Arena).blocks, 4096 * p + 12 ≤ b ∧ b + 16 ≤ 4096 * (p + 1) := by
    intro b hb
    have hb' := hproper.block_inside hb
    unfold Arena.addr at hb'
    dsimp only at hb'
    omega
  have hpage := hi.setArena_off hfresh Nat.one_pos
  have hnode : ∀ j < 7, Off (nodes (h.freeList j) (free j)) (4096 * p) 4096 := fun j hj =>
    hpage.nodes hi hj
  have hd : h.descAddr i < 2 ^ 32 := by
    have := freeList_inside h hlt
    unfold Heap.freeList at this
    omega
  have hcnt : (desc i).blocksPerArena < 2 ^ 32 := blocksPerArena_lt i hlt
  obtain ⟨h₁, h₂, h₃⟩ := setArena_load h.mem (4096 * p) hd hcnt
  -- What lies outside the page keeps its bytes if it is off the nodes of the free list.
  have hset : ∀ a n, a + n ≤ 4096 * p ∨ 4096 * (p + 1) ≤ a →
      Agree h.mem (setArena (4096 * p) (h.descAddr i) (desc i).blocksPerArena h.mem) a n :=
    fun a n hout => setArena_agree (by omega)
  have hlist := hi.lists i hlt
  rw [hempty] at hlist
  have hlist₁ : IsList (setArena (4096 * p) (h.descAddr i) (desc i).blocksPerArena h.mem)
      (h.freeList i) [] := hlist.of_agree fun y hy => hset y 8 (by
    have := hnode i hlt y (hempty ▸ hy)
    omega)
  have hoff : ∀ n, n ≤ 12 →
      Off ((⟨p, 1, some i⟩ : Arena).blocks ++ nodes (h.freeList i) []) (4096 * p) n := by
    intro n hn y hy
    rcases List.mem_append.mp hy with hy | hy
    · have := hblock y hy
      omega
    · have := hnode i hlt y (hempty ▸ hy)
      omega
  obtain ⟨m, hadd, hlist₂, hagree⟩ := addBlocks_ok (i := i) (a := 4096 * p) (by have := hfresh.1; omega)
    (List.range (desc i).blocksPerArena)
    { h with
      mem := setArena (4096 * p) (h.descAddr i) (desc i).blocksPerArena h.mem
      pages := List.range' p 1 ++ h.pages } [] h₁ (fun k hk => List.mem_range.mp hk) hlist₁
    (hi.newNodes_spaced hlt hfresh) (hoff 4 (by omega))
  have hfar : ∀ a n, a + n ≤ 4096 * p ∨ 4096 * (p + 1) ≤ a → Off (nodes (h.freeList i) []) a n →
      Agree h.mem m a n := by
    intro a n hout hlists
    refine (hset a n hout).trans (hagree a n fun y hy => ?_)
    rcases List.mem_append.mp hy with hy | hy
    · have := hblock y hy
      omega
    · exact hlists y hy
  have hsame := hagree (4096 * p) 12 (hoff 12 (Nat.le_refl _))
  have hload₁ := (hsame.sub (b := 4096 * p) (by omega) (by omega)).load.trans h₁
  have hload₂ := (hsame.sub (b := 4096 * p + 4) (by omega) (by omega)).load.trans h₂
  have hload₃ := (hsame.sub (b := 4096 * p + 8) (by omega) (by omega)).load.trans h₃
  refine ⟨m, hadd, ?_, fun a n ha hout => hfar a n hout ?_⟩
  · constructor
    case room => exact hi.room
    case proper =>
      intro r hr
      rcases List.mem_cons.mp hr with rfl | hr
      · exact hproper
      · exact hi.proper r hr
    case apart =>
      exact List.pairwise_cons.mpr ⟨fun r hr => hi.fresh_apart hfresh Nat.one_pos hr, hi.apart⟩
    case pages => exact hi.pages_cons (some i)
    case header =>
      intro r hr
      rcases List.mem_cons.mp hr with rfl | hr
      · have hall : (⟨p, 1, some i⟩ : Arena).count
            (Function.update free i (⟨p, 1, some i⟩ : Arena).blocks) = (desc i).blocksPerArena := by
          rw [count_update_self rfl, List.countP_eq_length.mpr fun b hb =>
            beq_iff_eq.mpr (hproper.page_of_block hb)]
          unfold Arena.blocks
          rw [List.length_map, List.length_range]
          rfl
        exact ⟨hload₁, hload₂, hload₃.trans hall.symm⟩
      · have hapart := hi.fresh_apart (o := some i) hfresh Nat.one_pos hr
        have hpos := (hi.proper r hr).pageCnt
        have hsame : Agree h.mem m r.addr 12 := hfar _ _ (by
          unfold Arena.Apart at hapart
          unfold Arena.addr
          dsimp only at hapart
          omega) fun y hy => by
            have := hi.node_header hlt hr (hempty ▸ hy)
            omega
        have hcount : r.count (Function.update free i (⟨p, 1, some i⟩ : Arena).blocks) = r.count free := by
          by_cases hdesc : r.desc = some i
          · unfold Arena.Apart at hapart
            dsimp only at hapart
            rw [count_update_self hdesc]
            unfold Arena.count
            rw [hdesc]
            dsimp only
            rw [hempty, List.countP_nil, List.countP_eq_zero]
            intro b hb
            rw [beq_iff_eq, hproper.page_of_block hb]
            dsimp only
            omega
          · exact count_update_of_ne hdesc
        obtain ⟨hmagic, hdesc, hfree⟩ := (hi.header r hr).of_agree hsame hcount
        exact ⟨hmagic, hdesc, hfree⟩
    case lists =>
      intro j hj
      by_cases heq : j = i
      · rw [heq, Function.update_self]
        exact hlist₂
      · rw [Function.update_of_ne heq]
        refine (hi.lists j hj).of_agree fun y hy => hfar y 8 ?_ fun y' hy' => ?_
        · have := hnode j hj y hy
          omega
        · have := hi.nodes_apart hlt hj heq (hempty ▸ hy') hy
          omega
    case elems =>
      intro j hj b hb
      by_cases heq : j = i
      · rw [heq, Function.update_self] at hb
        exact ⟨_, List.mem_cons_self, congrArg some heq.symm, hb⟩
      · rw [Function.update_of_ne heq] at hb
        obtain ⟨r, hr, hrb⟩ := hi.elems j hj b hb
        exact ⟨r, List.mem_cons_of_mem _ hr, hrb⟩
    case nodup =>
      intro j hj
      by_cases heq : j = i
      · rw [heq, Function.update_self]
        exact hproper.blocks_nodup
      · rw [Function.update_of_ne heq]
        exact hi.nodup j hj
  · intro y hy
    exact ha.nodes hi hlt y (hempty ▸ hy)

end Pintos.Malloc
