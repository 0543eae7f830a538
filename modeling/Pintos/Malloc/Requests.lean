import Pintos.Malloc.Allocating

/-!
# What a request gives

`malloc` finds no memory, or gives a block that nobody holds. The blocks that are held keep their
bytes, and the arenas their pages.
-/

namespace Pintos.Malloc

open Pintos.Lib Pintos.Lib.Memory

variable {h h' : Heap} {as as' : List Arena} {free free' : Nat → List Nat} {r : Arena} {b x i p : Nat}
  {rest : List Nat} {m : Memory}

/-- The blocks that are held keep their bytes. -/
def Kept (h h' : Heap) (as : List Arena) (free : Nat → List Nat) : Prop :=
  ∀ r ∈ as, ∀ b ∈ r.blocks, (∀ i < 7, b ∉ free i) → Agree h.mem h'.mem b r.size

/-- The block `b` of the arena `r` has been given out. -/
structure Granted (h : Heap) (as : List Arena) (free : Nat → List Nat) (h' : Heap) (as' : List Arena)
    (free' : Nat → List Nat) (r : Arena) (b : Nat) : Prop where
  inv : Inv h' as' free'
  descsAddr : h'.descsAddr = h.descsAddr
  live : h'.live = h.live
  arena : r ∈ as'
  block : b ∈ r.blocks
  fresh : ¬Held as free b
  held : ∀ x, Held as' free' x ↔ Held as free x ∨ x = b
  arenas : ∀ a, a ∈ as' ↔ a ∈ as ∨ a = r
  kept : Kept h h' as free

/-- A block in a free list is in no other. -/
theorem Inv.free_unique (hi : Inv h as free) (hlt : i < 7) (hb : b ∈ free i) {j : Nat} (hj : j < 7)
    (hb' : b ∈ free j) : i = j := by
  obtain ⟨r, hr, hd, hblock⟩ := hi.elems i hlt b hb
  obtain ⟨r', hr', hd', hblock'⟩ := hi.elems j hj b hb'
  rw [hi.arena_unique hr hblock hr' hblock', hd'] at hd
  exact (Option.some.inj hd).symm

theorem Inv.takeBlock_granted (hi : Inv h as free) (hlt : i < 7) (hfree : free i = b :: rest) :
    ∃ m r, Malloc.takeBlock i h = .ok (b, { h with mem := m }) ∧ r.desc = some i ∧ r ∈ as ∧
      Granted h as free { h with mem := m } as (Function.update free i rest) r b := by
  obtain ⟨m, htake, hi', hmeta⟩ := hi.takeBlock hlt hfree
  have hbi : b ∈ free i := by
    rw [hfree]
    exact List.mem_cons_self
  obtain ⟨r, hr, hd, hb⟩ := hi.elems i hlt b hbi
  have hnodup := hi.nodup i hlt
  rw [hfree] at hnodup
  have hrest := (List.nodup_cons.mp hnodup).1
  refine ⟨m, r, htake, hd, hr, hi', rfl, rfl, hr, hb, fun hheld => hheld.2 i hlt hbi, fun x => ?_,
    fun a => ⟨.inl, fun h => h.elim id fun heq => heq ▸ hr⟩,
    fun r' hr' b' hb' hheld => hmeta b' r'.size (hi.held_off hr' hb' hheld)⟩
  constructor
  · rintro ⟨hin, hout⟩
    by_cases heq : x = b
    · exact .inr heq
    · refine .inl ⟨hin, fun j hj hx => ?_⟩
      have hx' := hout j hj
      by_cases hji : j = i
      · rw [hji, Function.update_self] at hx'
        rw [hji, hfree] at hx
        exact hx' (List.mem_of_ne_of_mem heq hx)
      · rw [Function.update_of_ne hji] at hx'
        exact hx' hx
  · rintro (⟨hin, hout⟩ | rfl)
    · refine ⟨hin, fun j hj hx => ?_⟩
      by_cases hji : j = i
      · rw [hji, Function.update_self] at hx
        refine hout i hlt ?_
        rw [hfree]
        exact List.mem_cons_of_mem b hx
      · rw [Function.update_of_ne hji] at hx
        exact hout j hj hx
    · refine ⟨⟨r, hr, hb⟩, fun j hj hx => ?_⟩
      by_cases hji : j = i
      · rw [hji, Function.update_self] at hx
        exact hrest hx
      · rw [Function.update_of_ne hji] at hx
        exact hji (hi.free_unique hlt hbi hj hx).symm

/-- The blocks of a new arena are not held. -/
theorem Inv.held_newArena (hi : Inv h as free) (hlt : i < 7) (hempty : free i = [])
    (hfresh : h.Fresh p 1) :
    Held (⟨p, 1, some i⟩ :: as) (Function.update free i (⟨p, 1, some i⟩ : Arena).blocks) x ↔
      Held as free x := by
  have hproper : (⟨p, 1, some i⟩ : Arena).Proper h.descsAddr :=
    fresh_proper hfresh Nat.one_pos fun j hj => by cases hj; exact ⟨hlt, rfl⟩
  constructor
  · rintro ⟨⟨a, ha, hx⟩, hout⟩
    have hnot := hout i hlt
    rw [Function.update_self] at hnot
    rcases List.mem_cons.mp ha with rfl | ha
    · exact absurd hx hnot
    · refine ⟨⟨a, ha, hx⟩, fun j hj hxj => ?_⟩
      by_cases hji : j = i
      · rw [hji, hempty] at hxj
        exact List.not_mem_nil hxj
      · have hx' := hout j hj
        rw [Function.update_of_ne hji] at hx'
        exact hx' hxj
  · rintro ⟨⟨a, ha, hx⟩, hout⟩
    refine ⟨⟨a, List.mem_cons_of_mem _ ha, hx⟩, fun j hj hxj => ?_⟩
    by_cases hji : j = i
    · rw [hji, Function.update_self] at hxj
      have hpage := hproper.page_of_block hxj
      have hpage' := (hi.proper a ha).page_of_block hx
      have hapart := hi.fresh_apart (o := some i) hfresh Nat.one_pos ha
      have hpos := (hi.proper a ha).pageCnt
      unfold Arena.Apart at hapart
      dsimp only at hapart hpage
      omega
    · rw [Function.update_of_ne hji] at hxj
      exact hout j hj hxj

/-- The page allocator has pages for a request. -/
def Heap.HasPages (h : Heap) (page : Option Nat) (pageCnt : Nat) : Prop :=
  ∃ p ∈ page, h.Fresh p pageCnt

/-- How a request can end, when `served` says that there is memory for it. -/
inductive Outcome (h : Heap) (as : List Arena) (free : Nat → List Nat) (served : Prop)
    (good : Arena → Prop) : Except Fault (Option Nat × Heap) → Prop where
  | failed (hno : ¬served) : Outcome h as free served good (.ok (none, h))
  | notEnabled (hno : ¬served) : Outcome h as free served good (.error .notEnabled)
  | granted {h' : Heap} {as' : List Arena} {free' : Nat → List Nat} {r : Arena} {b : Nat}
      (hg : Granted h as free h' as' free' r b) (hgood : good r) (hserved : served) :
      Outcome h as free served good (.ok (some b, h'))

theorem Inv.mallocSmall (hi : Inv h as free) (hlt : i < 7) (page : Option Nat) :
    Outcome h as free (listEmpty (h.freeList i) h.mem = false ∨ h.HasPages page 1)
      (fun r => r.desc = some i) (Malloc.mallocSmall i page h) := by
  have hlist := hi.lists i hlt
  unfold Malloc.mallocSmall
  cases hfree : free i with
  | cons b rest =>
    have hempty : listEmpty (h.freeList i) h.mem = false := by
      rw [← Bool.not_eq_true, hlist.listEmpty_iff, hfree]
      exact List.cons_ne_nil b rest
    obtain ⟨m, r, htake, hd, -, hg⟩ := hi.takeBlock_granted hlt hfree
    rw [hempty, if_neg Bool.false_ne_true, htake, bind_ok]
    exact .granted hg hd (.inl rfl)
  | nil =>
    have hempty := hlist.listEmpty_iff.mpr hfree
    have hno : ¬listEmpty (h.freeList i) h.mem = false := fun heq => by
      rw [hempty] at heq
      cases heq
    rw [if_pos hempty]
    unfold pallocGetMultiple
    rw [if_neg Nat.one_ne_zero]
    cases page with
    | none => exact .failed fun hserved => hserved.elim hno fun ⟨_, hp, _⟩ => Option.not_mem_none _ hp
    | some p =>
      dsimp only
      by_cases hfresh : h.Fresh p 1
      · rw [if_pos hfresh, bind_ok]
        dsimp only
        obtain ⟨m, hadd, hi', hfar⟩ := hi.newArena hlt hfree hfresh
        have hproper : (⟨p, 1, some i⟩ : Arena).Proper h.descsAddr :=
          fresh_proper hfresh Nat.one_pos fun j hj => by cases hj; exact ⟨hlt, rfl⟩
        obtain ⟨b, rest, hblocks⟩ : ∃ b rest, (⟨p, 1, some i⟩ : Arena).blocks = b :: rest := by
          refine List.exists_cons_of_ne_nil fun heq => ?_
          have hlen := congrArg List.length heq
          unfold Arena.blocks at hlen
          rw [List.length_map, List.length_range, List.length_nil] at hlen
          exact Nat.ne_of_gt hproper.fits.2.1 hlen
        obtain ⟨m', r, htake, hd, -, hg⟩ := hi'.takeBlock_granted hlt
          ((Function.update_self i _ free).trans hblocks)
        change Outcome h as free _ _ (addBlocks i (4096 * p) (List.range (desc i).blocksPerArena)
          { h with
            mem := setArena (4096 * p) (h.descAddr i) (desc i).blocksPerArena h.mem
            pages := List.range' p 1 ++ h.pages } >>= _)
        rw [hadd, bind_ok, htake, bind_ok]
        have hb : b ∈ (⟨p, 1, some i⟩ : Arena).blocks := by
          rw [hblocks]
          exact List.mem_cons_self
        have hr : r = ⟨p, 1, some i⟩ :=
          hi'.arena_unique hg.arena hg.block List.mem_cons_self hb
        refine .granted (r := r) ⟨hg.inv, rfl, rfl, hg.arena, hg.block,
          fun hheld => hg.fresh ((hi.held_newArena hlt hfree hfresh).mpr hheld), fun x => ?_,
          fun a => ?_, fun r' hr' b' hb' hheld => ?_⟩ hd (.inr ⟨p, rfl, hfresh⟩)
        · rw [hg.held, hi.held_newArena hlt hfree hfresh]
        · rw [hr, List.mem_cons]
          exact Or.comm
        · have hout := hi.setArena_off hfresh Nat.one_pos
          have hold : Held as free b' := ⟨⟨r', hr', hb'⟩, hheld⟩
          have hnew := ((hi.held_newArena hlt hfree hfresh).mpr hold).2
          refine (hfar b' r'.size (hi.held_off hr' hb' hheld) ?_).trans
            (hg.kept r' (List.mem_cons_of_mem _ hr') b' hb' hnew)
          have hapart := hi.fresh_apart (o := some i) hfresh Nat.one_pos hr'
          have hinside := (hi.proper r' hr').block_inside hb'
          unfold Arena.Apart at hapart
          unfold Arena.addr at hinside
          dsimp only at hapart
          omega
      · rw [if_neg hfresh]
        refine .notEnabled fun hserved => hserved.elim hno fun ⟨_, hp, hfresh'⟩ => hfresh ?_
        rw [Option.mem_some_iff.mp hp]
        exact hfresh'

theorem Inv.mallocBig (hi : Inv h as free) (size : Nat) (page : Option Nat) :
    Outcome h as free (0 < pageCount size ∧ h.HasPages page (pageCount size))
      (fun r => r.desc = none ∧ r.pageCnt = pageCount size) (Malloc.mallocBig size page h) := by
  unfold Malloc.mallocBig pallocGetMultiple
  by_cases hzero : pageCount size = 0
  · rw [if_pos hzero]
    exact .failed fun hserved => Nat.ne_of_gt hserved.1 hzero
  · rw [if_neg hzero]
    cases page with
    | none => exact .failed fun ⟨_, _, hp, _⟩ => Option.not_mem_none _ hp
    | some p =>
      dsimp only
      by_cases hfresh : h.Fresh p (pageCount size)
      · have hpos := Nat.pos_of_ne_zero hzero
        have hi' := hi.of_big hfresh hpos
        have hproper : (⟨p, pageCount size, none⟩ : Arena).Proper h.descsAddr :=
          fresh_proper hfresh hpos fun j hj => by cases hj
        rw [if_pos hfresh, bind_ok]
        have hblock : (⟨p, pageCount size, none⟩ : Arena).blocks = [4096 * p + 12] := by
          unfold Arena.blocks Arena.block
          simp [Arena.blockCnt, Arena.addr]
        have hin : 4096 * p + 12 ∈ (⟨p, pageCount size, none⟩ : Arena).blocks := by
          rw [hblock]
          exact List.mem_singleton_self _
        have hnew : ∀ j < 7, 4096 * p + 12 ∉ free j := by
          intro j hj hb
          obtain ⟨r, hr, -, hrb⟩ := hi.elems j hj _ hb
          have heq := hi'.arena_unique (List.mem_cons_of_mem _ hr) hrb List.mem_cons_self hin
          have hapart := hi.fresh_apart (o := none) hfresh hpos hr
          unfold Arena.Apart at hapart
          rw [heq] at hapart
          dsimp only at hapart
          omega
        refine .granted (r := ⟨p, pageCount size, none⟩) ⟨hi', rfl, rfl, List.mem_cons_self, hin,
          fun hheld => ?_, fun x => ?_, fun a => ?_, fun r hr b hb hheld => ?_⟩ ⟨rfl, rfl⟩
          ⟨hpos, p, rfl, hfresh⟩
        · obtain ⟨⟨r, hr, hrb⟩, -⟩ := hheld
          have heq := hi'.arena_unique (List.mem_cons_of_mem _ hr) hrb List.mem_cons_self hin
          have hapart := hi.fresh_apart (o := none) hfresh hpos hr
          unfold Arena.Apart at hapart
          rw [heq] at hapart
          dsimp only at hapart
          omega
        · constructor
          · rintro ⟨⟨a, ha, hx⟩, hout⟩
            rcases List.mem_cons.mp ha with rfl | ha
            · rw [hblock] at hx
              exact .inr (List.mem_singleton.mp hx)
            · exact .inl ⟨⟨a, ha, hx⟩, hout⟩
          · rintro (⟨⟨a, ha, hx⟩, hout⟩ | rfl)
            · exact ⟨⟨a, List.mem_cons_of_mem _ ha, hx⟩, hout⟩
            · exact ⟨⟨_, List.mem_cons_self, hin⟩, hnew⟩
        · rw [List.mem_cons]
          exact Or.comm
        · refine setArena_agree ?_
          have hapart := hi.fresh_apart (o := none) hfresh hpos hr
          have hinside := (hi.proper r hr).block_inside hb
          unfold Arena.Apart at hapart
          unfold Arena.addr at hinside
          dsimp only at hapart
          omega
      · rw [if_neg hfresh]
        refine .notEnabled fun ⟨_, _, hp, hfresh'⟩ => hfresh ?_
        rw [Option.mem_some_iff.mp hp]
        exact hfresh'

end Pintos.Malloc
