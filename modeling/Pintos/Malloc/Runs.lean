import Pintos.Lib.Run
import Pintos.Malloc.Freeing

/-!
# Runs of the heap

What callers hold are the blocks in no free list, and each arena has one: `Sound`. Every call that
ends keeps it so, whatever the sizes.
-/

namespace Pintos.Malloc

open Pintos.Lib Pintos.Lib.Memory

variable {h h' h'' : Heap} {as as' as'' : List Arena} {free free' free'' : Nat → List Nat}
  {r r' : Arena} {b b' size p : Nat} {m : Memory}

structure Sound (h : Heap) (as : List Arena) (free : Nat → List Nat) : Prop where
  inv : Inv h as free
  nodup : (h.live.map Prod.fst).Nodup
  live : ∀ b, b ∈ h.live.map Prod.fst ↔ Held as free b
  used : ∀ a ∈ as, ∃ b ∈ a.blocks, Held as free b

/-- The blocks have the sizes that were asked for. -/
def Fits (h : Heap) (as : List Arena) : Prop :=
  ∀ x ∈ h.live, ∀ a ∈ as, x.1 ∈ a.blocks → x.2 ≤ a.size

/-- An arena stays, or its pages have gone and none of its blocks is held. -/
def Follows (as : List Arena) (h' : Heap) (as' : List Arena) (free' : Nat → List Nat) : Prop :=
  ∀ a ∈ as, a ∈ as' ∨ ((∀ p, a.page ≤ p → p < a.page + a.pageCnt → p ∉ h'.pages) ∧
    ∀ b ∈ a.blocks, ¬Held as' free' b)

/-- The block of a caller. -/
theorem Sound.held (hs : Sound h as free) (hb : b ∈ h.live.map Prod.fst) :
    ∃ r ∈ as, b ∈ r.blocks ∧ ∀ i < 7, b ∉ free i := by
  obtain ⟨⟨r, hr, hblock⟩, hout⟩ := (hs.live b).mp hb
  exact ⟨r, hr, hblock, hout⟩

/-- Bytes of a block that is held are written. -/
theorem Sound.of_write {a n : Nat} (hs : Sound h as free) (hoff : OffMeta h as free a n)
    (hm : ∀ b k, b + k ≤ a ∨ a + n ≤ b → Agree h.mem m b k) : Sound { h with mem := m } as free :=
  ⟨hs.inv.of_write hoff hm, hs.nodup, hs.live, hs.used⟩

/-- A part of a range that is no header and no free block is none either. -/
theorem OffMeta.sub {a n a' n' : Nat} (ho : OffMeta h as free a n) (hlow : a ≤ a')
    (hhigh : a' + n' ≤ a + n) : OffMeta h as free a' n' where
  headers := fun r hr => by
    have := ho.headers r hr
    omega
  descs := by
    have := ho.descs
    omega
  links := fun i hi b hb => by
    have := ho.links i hi b hb
    omega

/-- `checkBlock` of a block. -/
theorem Inv.checkBlock (hi : Inv h as free) (hr : r ∈ as) (hb : b ∈ r.blocks) (n : Nat) :
    checkBlock b n h = if n ≤ r.size then .ok () else .error .overrun := by
  unfold Malloc.checkBlock
  rw [hi.blockSize hr hb, bind_ok]

/-! ## `malloc` -/

/-- There is memory for a request: a free block, or pages. -/
def Heap.Serves (h : Heap) (page : Option Nat) (size : Nat) : Prop :=
  size ≠ 0 ∧
    match findDesc size with
    | some i => listEmpty (h.freeList i) h.mem = false ∨ h.HasPages page 1
    | none => 0 < pageCount size ∧ h.HasPages page (pageCount size)

/-- How `malloc (size)` can end. -/
inductive Given (h : Heap) (as : List Arena) (free : Nat → List Nat) (page : Option Nat)
    (size : Nat) : Except Fault (Option Nat × Heap) → Prop where
  | failed (hno : ¬h.Serves page size) : Given h as free page size (.ok (none, h))
  | notEnabled (hno : ¬h.Serves page size) : Given h as free page size (.error .notEnabled)
  | given {h' : Heap} {as' : List Arena} {free' : Nat → List Nat} {r : Arena} {b : Nat}
      (sound : Sound h' as' free') (live : h'.live = (b, size) :: h.live) (arena : r ∈ as')
      (block : b ∈ r.blocks) (fresh : ¬Held as free b) (arenas : ∀ a ∈ as, a ∈ as')
      (new : ∀ a ∈ as', a ∈ as ∨ a = r) (kept : Kept h h' as free)
      (small : size ≤ 1024 → size ≤ r.size)
      (big : 1024 < size → r.size = 4096 * pageCount size - 12 ∧ 0 < pageCount size)
      (served : h.Serves page size) : Given h as free page size (.ok (some b, h'))

/-- A block that has been given out is live. -/
theorem Granted.sound (hs : Sound h as free) (hg : Granted h as free h' as' free' r b) (size : Nat) :
    Sound { h' with live := (b, size) :: h'.live } as' free' where
  inv := ⟨hg.inv.room, hg.inv.proper, hg.inv.apart, hg.inv.pages, fun a ha => by
    obtain ⟨hmagic, hdesc, hcnt⟩ := hg.inv.header a ha
    exact ⟨hmagic, hdesc, hcnt⟩, hg.inv.lists, hg.inv.elems, hg.inv.nodup⟩
  nodup := by
    rw [List.map_cons, hg.live]
    refine List.nodup_cons.mpr ⟨fun hin => hg.fresh ((hs.live b).mp hin), hs.nodup⟩
  live := by
    intro x
    rw [List.map_cons, hg.live, List.mem_cons, hs.live, hg.held]
    exact Or.comm
  used := by
    intro a ha
    rcases (hg.arenas a).mp ha with ha | rfl
    · obtain ⟨x, hx, hheld⟩ := hs.used a ha
      exact ⟨x, hx, (hg.held x).mpr (.inl hheld)⟩
    · exact ⟨b, hg.block, (hg.held b).mpr (.inr rfl)⟩

/-- `malloc` gives a block that was free, or null. -/
theorem Sound.malloc (hs : Sound h as free) (size : Nat) (page : Option Nat) :
    Given h as free page size (malloc size page h) := by
  unfold Malloc.malloc
  by_cases hzero : size = 0
  · rw [if_pos hzero]
    exact .failed fun hserves => hserves.1 hzero
  rw [if_neg hzero]
  have hgive : ∀ {served : Prop} {good : Arena → Prop} {res : Except Fault (Option Nat × Heap)},
      Outcome h as free served good res → (h.Serves page size ↔ served) →
      (∀ r, good r → (size ≤ 1024 → size ≤ r.size) ∧
        (1024 < size → r.size = 4096 * pageCount size - 12)) →
      (1024 < size → served → 0 < pageCount size) →
      Given h as free page size (res >>= fun x =>
        .ok (x.1, { x.2 with live := (x.1.map fun b => (b, size)).toList ++ x.2.live })) := by
    intro served good res hout hserves hgood hpos
    cases hout with
    | failed hno => exact .failed fun hs => hno (hserves.mp hs)
    | notEnabled hno => exact .notEnabled fun hs => hno (hserves.mp hs)
    | granted hg hgr hserved =>
      exact .given (hg.sound hs size) (by rw [hg.live]; rfl) hg.arena hg.block hg.fresh
        (fun a ha => (hg.arenas a).mpr (.inl ha)) (fun a ha => (hg.arenas a).mp ha) hg.kept
        (hgood _ hgr).1 (fun hlt => ⟨(hgood _ hgr).2 hlt, hpos hlt hserved⟩) (hserves.mpr hserved)
  unfold Heap.Serves at hgive
  cases hfind : findDesc size with
  | none =>
    have hlarge := findDesc_eq_none.mp hfind
    rw [hfind] at hgive
    refine hgive (hs.inv.mallocBig size page) (and_iff_right hzero)
      (fun r hr => ⟨fun hle => by omega, fun _ => ?_⟩) fun _ hserved => hserved.1
    unfold Arena.size
    rw [hr.1, hr.2]
  | some i =>
    obtain ⟨hi, hle⟩ := findDesc_eq_some hfind
    have hsmall : ¬1024 < size := fun hlt => by
      rw [findDesc_eq_none.mpr hlt] at hfind
      cases hfind
    rw [hfind] at hgive
    refine hgive (hs.inv.mallocSmall hi page) (and_iff_right hzero)
      (fun r hr => ⟨fun _ => ?_, fun hlt => absurd hlt hsmall⟩) fun hlt _ => absurd hlt hsmall
    unfold Arena.size
    rw [hr]
    exact hle

/-! ## `free` -/

/-- A heap that got a block back is sound. -/
theorem Returned.sound (hs : Sound h as free) (hr : r ∈ as) (hb : b ∈ r.blocks)
    (hret : Returned h as free h' as' free' r b) :
    Sound { h' with live := h'.live.filter (·.1 ≠ b) } as' free' where
  inv := ⟨hret.inv.room, hret.inv.proper, hret.inv.apart, hret.inv.pages, fun a ha => by
    obtain ⟨hmagic, hdesc, hcnt⟩ := hret.inv.header a ha
    exact ⟨hmagic, hdesc, hcnt⟩, hret.inv.lists, hret.inv.elems, hret.inv.nodup⟩
  nodup := by
    rw [hret.live]
    exact hs.nodup.sublist (List.filter_sublist.map _)
  live := by
    intro x
    rw [hret.live, hret.held, ← hs.live, List.mem_map, List.mem_map]
    constructor
    · rintro ⟨y, hy, rfl⟩
      obtain ⟨hy, hne⟩ := List.mem_filter.mp hy
      exact ⟨⟨y, hy, rfl⟩, of_decide_eq_true hne⟩
    · rintro ⟨⟨y, hy, rfl⟩, hne⟩
      exact ⟨y, List.mem_filter.mpr ⟨hy, decide_eq_true hne⟩, rfl⟩
  used := by
    intro a ha
    obtain ⟨ha, hlast⟩ := (hret.arenas a).mp ha
    by_cases heq : a = r
    · obtain ⟨x, hx, hne, hheld⟩ := hlast heq
      exact ⟨x, heq ▸ hx, (hret.held x).mpr ⟨hheld, hne⟩⟩
    · obtain ⟨x, hx, hheld⟩ := hs.used a ha
      by_cases hxb : x = b
      · exact absurd (hs.inv.arena_unique ha hx hr (hxb ▸ hb)) heq
      · exact ⟨x, hx, (hret.held x).mpr ⟨hheld, hxb⟩⟩

/-- An arena goes with its last block. -/
theorem Returned.follows (hs : Sound h as free) (hr : r ∈ as)
    (hret : Returned h as free h' as' free' r b) : Follows as h' as' free' := by
  intro a ha
  by_cases hlast : a = r → ∃ x ∈ r.blocks, x ≠ b ∧ Held as free x
  · exact .inl ((hret.arenas a).mpr ⟨ha, hlast⟩)
  · rw [Classical.not_imp] at hlast
    obtain ⟨rfl, hlast⟩ := hlast
    refine .inr ⟨fun p hlow hhigh hp => ?_, fun x hx hheld => ?_⟩
    · obtain ⟨a', ha', hp'⟩ := (hret.inv.pages p).mp hp
      obtain ⟨hold, hlast'⟩ := (hret.arenas a').mp ha'
      have hne : a' ≠ a := fun heq => hlast (hlast' heq)
      have hapart := hs.inv.arenas_apart hold hr hne
      unfold Arena.Apart at hapart
      omega
    · obtain ⟨hheld, hne⟩ := (hret.held x).mp hheld
      exact hlast ⟨x, hx, hne, hheld⟩

/-- `free` takes a live block back, and only that. -/
theorem Sound.free_ok (hs : Sound h as free) (hb : b ∈ h.live.map Prod.fst) :
    ∃ h' as' free', Malloc.free (some b) h = .ok h' ∧ Sound h' as' free' ∧
      h'.live = h.live.filter (·.1 ≠ b) ∧ (∀ a ∈ as', a ∈ as) ∧ Follows as h' as' free' ∧
      ∀ r ∈ as, ∀ b' ∈ r.blocks, (∀ i < 7, b' ∉ free i) → b' ≠ b → Agree h.mem h'.mem b' r.size := by
  obtain ⟨r, hr, hblock, hheld⟩ := hs.held hb
  obtain ⟨h', as', free', hok, hret⟩ := hs.inv.free_ok hr hblock hheld
  have hfollow : Follows as h' as' free' := hret.follows hs hr
  refine ⟨_, as', free', hok, hret.sound hs hr hblock, ?_, fun a ha => ((hret.arenas a).mp ha).1,
    hfollow, hret.kept⟩
  show h'.live.filter _ = _
  rw [hret.live]

/-! ## `calloc` and `realloc` -/

/-- How `calloc (a, b)` can end. -/
inductive Cleared (h : Heap) (as : List Arena) (free : Nat → List Nat) (served : Prop)
    (size : Nat) : Except Fault (Option Nat × Heap) → Prop where
  | failed (hno : ¬served) : Cleared h as free served size (.ok (none, h))
  | notEnabled (hno : ¬served) : Cleared h as free served size (.error .notEnabled)
  | overrun {r : Arena} (large : 1024 < size) (big : r.size = 4096 * pageCount size - 12)
      (pos : 0 < pageCount size) (short : r.size < size) (yes : served) :
      Cleared h as free served size (.error .overrun)
  | given {h' : Heap} {as' : List Arena} {free' : Nat → List Nat} {r : Arena} {b : Nat}
      (sound : Sound h' as' free') (live : h'.live = (b, size) :: h.live) (arena : r ∈ as')
      (block : b ∈ r.blocks) (arenas : ∀ a ∈ as, a ∈ as') (new : ∀ a ∈ as', a ∈ as ∨ a = r)
      (kept : Kept h h' as free) (room : size ≤ r.size) (zero : ∀ k < size, h'.mem (b + k) = 0)
      (big : 1024 < size → r.size = 4096 * pageCount size - 12 ∧ 0 < pageCount size)
      (yes : served) : Cleared h as free served size (.ok (some b, h'))

/-- `calloc` gives a block of zeros, or null. -/
theorem Sound.calloc (hs : Sound h as free) (a b : Nat) (page : Option Nat) :
    Cleared h as free (¬(a * b % 2 ^ 32 < a ∨ a * b % 2 ^ 32 < b) ∧ h.Serves page (a * b % 2 ^ 32))
      (a * b % 2 ^ 32) (calloc a b page h) := by
  unfold Malloc.calloc
  dsimp only
  by_cases hover : a * b % 2 ^ 32 < a ∨ a * b % 2 ^ 32 < b
  · rw [if_pos hover]
    exact .failed fun hyes => hyes.1 hover
  rw [if_neg hover]
  have hgiven := hs.malloc (a * b % 2 ^ 32) page
  generalize a * b % 2 ^ 32 = size at hgiven hover ⊢
  generalize Malloc.malloc size page h = res at hgiven ⊢
  cases hgiven with
  | failed hno => exact .failed fun hyes => hno hyes.2
  | notEnabled hno => exact .notEnabled fun hyes => hno hyes.2
  | @given h' as' free' r b sound live arena block fresh arenas new kept small big served =>
    have hlive : b ∈ h'.live.map Prod.fst := by
      rw [live]
      exact List.mem_cons_self
    have hheld := ((sound.live b).mp hlive).2
    rw [bind_ok]
    dsimp only
    rw [sound.inv.checkBlock arena block]
    by_cases hroom : size ≤ r.size
    · rw [if_pos hroom, bind_ok]
      have hoff := (sound.inv.held_off arena block hheld).sub (Nat.le_refl b)
        (Nat.add_le_add_left hroom b)
      refine .given (sound.of_write hoff fun c k hout => agree_fill hout) live arena block arenas new
        (fun r' hr' b' hb' hheld' => (kept r' hr' b' hb' hheld').trans (agree_fill ?_)) hroom
        (fun k hk => if_pos ⟨by omega, by omega⟩) big ⟨hover, served⟩
      have hne : b' ≠ b := fun heq => fresh (heq ▸ ⟨⟨r', hr', hb'⟩, hheld'⟩)
      have := sound.inv.block_block (arenas r' hr') hb' arena block hne
      omega
    · rw [if_neg hroom]
      have hlarge : 1024 < size := by
        by_contra hle
        exact hroom (small (by omega))
      exact .overrun hlarge (big hlarge).1 (big hlarge).2 (by omega) ⟨hover, served⟩

/-- How `realloc` of a block to a size can end. -/
inductive Moved (h : Heap) (as : List Arena) (free : Nat → List Nat) (page : Option Nat)
    (old size : Nat) : Except Fault (Option Nat × Heap) → Prop where
  | failed (hno : ¬h.Serves page size) : Moved h as free page old size (.ok (none, h))
  | notEnabled (hno : ¬h.Serves page size) : Moved h as free page old size (.error .notEnabled)
  | overrun {r : Arena} (large : 1024 < size) (big : r.size = 4096 * pageCount size - 12)
      (pos : 0 < pageCount size) (short : r.size < size) (served : h.Serves page size) :
      Moved h as free page old size (.error .overrun)
  | given {h' : Heap} {as' : List Arena} {free' : Nat → List Nat} {r : Arena} {b : Nat}
      (sound : Sound h' as' free') (live : h'.live = (b, size) :: h.live.filter (·.1 ≠ old))
      (arena : r ∈ as') (block : b ∈ r.blocks) (follows : Follows as h' as' free')
      (new : ∀ a ∈ as', a ∈ as ∨ a = r)
      (kept : ∀ r' ∈ as, ∀ b' ∈ r'.blocks, (∀ i < 7, b' ∉ free i) → b' ≠ old →
        Agree h.mem h'.mem b' r'.size)
      (copied : ∀ r' ∈ as, old ∈ r'.blocks → ∀ k < min size r'.size,
        h'.mem (b + k) = h.mem (old + k))
      (small : size ≤ 1024 → size ≤ r.size)
      (big : 1024 < size → r.size = 4096 * pageCount size - 12 ∧ 0 < pageCount size)
      (served : h.Serves page size) : Moved h as free page old size (.ok (some b, h'))

/-- `realloc` moves the contents to the new block, or returns null and keeps the old. -/
theorem Sound.realloc {old : Nat} (hs : Sound h as free) (hold : old ∈ h.live.map Prod.fst)
    (hsize : size ≠ 0) (page : Option Nat) :
    Moved h as free page old size (realloc (some old) size page h) := by
  unfold Malloc.realloc
  rw [if_neg hsize]
  have hgiven := hs.malloc size page
  generalize Malloc.malloc size page h = res at hgiven ⊢
  obtain ⟨r₀, hr₀, hblock₀, hheld₀⟩ := hs.held hold
  cases hgiven with
  | failed hno => exact .failed hno
  | notEnabled hno => exact .notEnabled hno
  | @given h₁ as₁ free₁ r b sound live arena block fresh arenas new kept small big served =>
    have hlive : b ∈ h₁.live.map Prod.fst := by
      rw [live]
      exact List.mem_cons_self
    have hlive₀ : old ∈ h₁.live.map Prod.fst := by
      rw [live]
      exact List.mem_cons_of_mem _ hold
    have hheld := ((sound.live b).mp hlive).2
    have hne : b ≠ old := fun heq => fresh (heq ▸ (hs.live old).mp hold)
    have harena₀ := arenas r₀ hr₀
    have hapart := sound.inv.block_block harena₀ hblock₀ arena block hne.symm
    rw [bind_ok]
    dsimp only
    rw [sound.inv.blockSize harena₀ hblock₀, bind_ok, sound.inv.checkBlock arena block]
    have hmin : (if size < r₀.size then size else r₀.size) = min size r₀.size := by
      by_cases hlt : size < r₀.size
      · rw [if_pos hlt, Nat.min_eq_left (Nat.le_of_lt hlt)]
      · rw [if_neg hlt, Nat.min_eq_right (by omega)]
    rw [hmin]
    by_cases hroom : min size r₀.size ≤ r.size
    · rw [if_pos hroom, bind_ok]
      have hoff := (sound.inv.held_off arena block hheld).sub (Nat.le_refl b)
        (Nat.add_le_add_left hroom b)
      have hs₂ : Sound { h₁ with mem := h₁.mem.copy b old (min size r₀.size) } as₁ free₁ :=
        sound.of_write hoff fun c k hout => agree_copy hout
      obtain ⟨h', as', free', hok, hs', hlive', hsub, hfollows, hkept'⟩ := hs₂.free_ok hlive₀
      rw [hok, bind_ok]
      -- The new block is held, so that `free` leaves it.
      have hnew : Agree (h₁.mem.copy b old (min size r₀.size)) h'.mem b r.size :=
        hkept' r arena b block hheld hne
      have hin : b ∈ h'.live.map Prod.fst := by
        rw [hlive']
        refine List.mem_map.mpr ⟨(b, size), List.mem_filter.mpr ⟨?_, decide_eq_true hne⟩, rfl⟩
        show (b, size) ∈ h₁.live
        rw [live]
        exact List.mem_cons_self
      obtain ⟨r', hr', hb', -⟩ := hs'.held hin
      have heq : r' = r := sound.inv.arena_unique (hsub r' hr') hb' arena block
      refine .given hs' ?_ (heq ▸ hr') block (fun a ha => hfollows a (arenas a ha))
        (fun a ha => new a (hsub a ha)) (fun r' hr' b' hb' hheld' hb'old => ?_)
        (fun r' hr' hb' k hk => ?_) small big served
      · rw [hlive']
        show h₁.live.filter _ = _
        rw [live]
        exact List.filter_cons_of_pos (decide_eq_true hne)
      · have hb'b : b' ≠ b := fun heq => fresh (heq ▸ ⟨⟨r', hr', hb'⟩, hheld'⟩)
        have hin' : b' ∈ h₁.live.map Prod.fst := by
          rw [live]
          exact List.mem_cons_of_mem _ ((hs.live b').mpr ⟨⟨r', hr', hb'⟩, hheld'⟩)
        have hout := sound.inv.block_block (arenas r' hr') hb' arena block hb'b
        exact ((kept r' hr' b' hb' hheld').trans (agree_copy (by omega))).trans
          (hkept' r' (arenas r' hr') b' hb' ((sound.live b').mp hin').2 hb'old)
      · have hr'₀ := hs.inv.arena_unique hr' hb' hr₀ hblock₀
        rw [hr'₀] at hk
        rw [hnew (b + k) (by omega) (by omega)]
        unfold copy
        rw [if_pos ⟨by omega, by omega⟩, Nat.add_sub_cancel_left]
        exact kept r₀ hr₀ old hblock₀ hheld₀ (old + k) (by omega) (by omega)
    · rw [if_neg hroom]
      have hlarge : 1024 < size := by
        by_contra hle
        have := small (by omega)
        omega
      exact .overrun hlarge (big hlarge).1 (big hlarge).2 (by omega) served

/-! ## Sizes -/

/-- Up to 2^32 - 12 the pages that `malloc` asks for have room. -/
theorem pageCount_room (hlarge : 1024 < size) (hsize : size < 2 ^ 32) (hpos : 0 < pageCount size) :
    size ≤ 4096 * pageCount size - 12 ↔ size < 2 ^ 32 - 11 := by
  unfold pageCount at hpos ⊢
  omega

/-- The request is for no more than 2^31 bytes. -/
def Event.Sized : Event → Prop
  | .malloc size _ => size ≤ 2 ^ 31
  | .calloc a b _ => a * b ≤ 2 ^ 31
  | .realloc _ newSize _ => newSize ≤ 2 ^ 31
  | .free _ => True
  | .write _ _ _ => True

instance : DecidablePred Event.Sized
  | .malloc size _ => inferInstanceAs (Decidable (size ≤ 2 ^ 31))
  | .calloc a b _ => inferInstanceAs (Decidable (a * b ≤ 2 ^ 31))
  | .realloc _ newSize _ => inferInstanceAs (Decidable (newSize ≤ 2 ^ 31))
  | .free _ | .write _ _ _ => .isTrue trivial

/-- A block that `malloc` gives has the bytes, but for the largest sizes. -/
theorem size_le (hsize : size < 2 ^ 32 - 11) (small : size ≤ 1024 → size ≤ r.size)
    (big : 1024 < size → r.size = 4096 * pageCount size - 12 ∧ 0 < pageCount size) : size ≤ r.size := by
  by_cases hlarge : 1024 < size
  · obtain ⟨hsize', hpos⟩ := big hlarge
    rw [hsize']
    exact (pageCount_room hlarge (by omega) hpos).mpr hsize
  · exact small (by omega)

/-! ## Sizes of the blocks that are held -/

/-- The new block has the size that was asked for. -/
theorem Fits.given (hf : Fits h as) (hs : Sound h as free) (hs' : Sound h' as' free')
    (hlive : ∀ x ∈ h'.live, x = (b, size) ∨ x ∈ h.live) (hfollows : Follows as h' as' free')
    (hr : r ∈ as') (hb : b ∈ r.blocks) (hsize : size ≤ r.size) :
    Fits h' as' := by
  intro x hx a ha hblock
  rcases hlive x hx with rfl | hold
  · exact hs'.inv.arena_unique ha hblock hr hb ▸ hsize
  · obtain ⟨r', hr', hb', -⟩ := hs.held (List.mem_map.mpr ⟨x, hold, rfl⟩)
    -- The arena of a block that is still held is still there.
    rcases hfollows r' hr' with hkept | ⟨-, hnone⟩
    · rw [hs'.inv.arena_unique ha hblock hkept hb']
      exact hf x hold r' hr' hb'
    · exact absurd ((hs'.live x.1).mp (List.mem_map.mpr ⟨x, hx, rfl⟩)) (hnone x.1 hb')

/-- Arenas that stay may be followed. -/
theorem follows_of_subset (h : ∀ a ∈ as, a ∈ as') : Follows as h' as' free' := fun a ha => .inl (h a ha)

/-! ## Steps -/

/-- What a step leads to. -/
structure Next (h : Heap) (as : List Arena) (e : Event) (h' : Heap) (as' : List Arena)
    (free' : Nat → List Nat) : Prop where
  sound : Sound h' as' free'
  follows : Follows as h' as' free'
  fits : e.Sized → Fits h as → Fits h' as'

/-- `malloc` as an event keeps the heap sound. -/
theorem Sound.step_malloc (hs : Sound h as free) (page : Option Nat) :
    (∃ h' as' free', step (.malloc size page) h = .ok h' ∧ Next h as (.malloc size page) h' as' free') ∨
      step (.malloc size page) h = .error .notEnabled := by
  unfold Malloc.step
  dsimp only
  by_cases hlt : size < 2 ^ 32
  · rw [if_pos hlt]
    have hgiven := hs.malloc size page
    generalize Malloc.malloc size page h = res at hgiven ⊢
    cases hgiven with
    | failed => exact .inl ⟨h, as, free, rfl, hs, follows_of_subset fun _ ha => ha, fun _ hf => hf⟩
    | notEnabled => exact .inr rfl
    | @given h' as' free' r b sound live arena block fresh arenas new kept small big =>
      have hfollows : Follows as h' as' free' := follows_of_subset arenas
      refine .inl ⟨h', as', free', rfl, sound, hfollows, fun hsized hf => ?_⟩
      have hsized' : size ≤ 2 ^ 31 := hsized
      exact hf.given hs sound (fun x hx => List.mem_cons.mp (live ▸ hx)) hfollows arena block
        (size_le (by omega) small big)
  · rw [if_neg hlt]
    exact .inr rfl

/-- `calloc` keeps it sound, or runs over a block of a size that wrapped. -/
theorem Sound.step_calloc (hs : Sound h as free) (a b : Nat) (page : Option Nat) :
    (∃ h' as' free', step (.calloc a b page) h = .ok h' ∧ Next h as (.calloc a b page) h' as' free') ∨
      step (.calloc a b page) h = .error .notEnabled ∨
      (step (.calloc a b page) h = .error .overrun ∧ ¬(Event.calloc a b page).Sized) := by
  unfold Malloc.step
  dsimp only
  by_cases hlt : a < 2 ^ 32 ∧ b < 2 ^ 32
  · rw [if_pos hlt]
    have hcleared := hs.calloc a b page
    generalize Malloc.calloc a b page h = res at hcleared ⊢
    cases hcleared with
    | failed => exact .inl ⟨h, as, free, rfl, hs, follows_of_subset fun _ ha => ha, fun _ hf => hf⟩
    | notEnabled => exact .inr (.inl rfl)
    | overrun large big pos short =>
      refine .inr (.inr ⟨rfl, fun hsized => ?_⟩)
      have hsized' : a * b ≤ 2 ^ 31 := hsized
      have hmod : a * b % 2 ^ 32 = a * b := Nat.mod_eq_of_lt (by omega)
      rw [hmod] at large big pos short
      have := (pageCount_room large (by omega) pos).mpr (by omega)
      omega
    | @given h' as' free' r p sound live arena block arenas new kept room =>
      have hfollows : Follows as h' as' free' := follows_of_subset arenas
      refine .inl ⟨h', as', free', rfl, sound, hfollows, fun _ hf => ?_⟩
      exact hf.given hs sound (fun x hx => List.mem_cons.mp (live ▸ hx)) hfollows arena block room
  · rw [if_neg hlt]
    exact .inr (.inl rfl)

/-- `free` as an event keeps the heap sound. -/
theorem Sound.step_free (hs : Sound h as free) (p : Option Nat) :
    (∃ h' as' free', step (.free p) h = .ok h' ∧ Next h as (.free p) h' as' free') ∨
      step (.free p) h = .error .notEnabled := by
  unfold Malloc.step
  dsimp only
  by_cases hholds : h.Holds p
  · rw [if_pos hholds]
    cases p with
    | none => exact .inl ⟨h, as, free, rfl, hs, follows_of_subset fun _ ha => ha, fun _ hf => hf⟩
    | some b =>
      obtain ⟨h', as', free', hok, hs', hlive, hsub, hfollows, -⟩ := hs.free_ok (hholds b rfl)
      refine .inl ⟨h', as', free', hok, hs', hfollows, fun _ hf x hx a ha => ?_⟩
      rw [hlive] at hx
      exact hf x (List.mem_filter.mp hx).1 a (hsub a ha)
  · rw [if_neg hholds]
    exact .inr rfl

/-- `realloc` keeps it sound, or runs over a block of a size that wrapped. -/
theorem Sound.step_realloc (hs : Sound h as free) (old : Option Nat) (page : Option Nat) :
    (∃ h' as' free', step (.realloc old size page) h = .ok h' ∧
        Next h as (.realloc old size page) h' as' free') ∨
      step (.realloc old size page) h = .error .notEnabled ∨
      (step (.realloc old size page) h = .error .overrun ∧ ¬(Event.realloc old size page).Sized) := by
  by_cases hcond : size < 2 ^ 32 ∧ h.Holds old
  swap
  · exact .inr (.inl (if_neg hcond))
  by_cases hzero : size = 0
  · -- A request for no bytes is `free`.
    have hfree : step (.realloc old size page) h = step (.free old) h := by
      unfold Malloc.step Malloc.realloc
      dsimp only
      rw [if_pos hcond, if_pos hcond.2, if_pos hzero]
      cases Malloc.free old h <;> rfl
    rw [hfree]
    rcases hs.step_free old with ⟨h', as', free', hok, hnext⟩ | hno
    · exact .inl ⟨h', as', free', hok, hnext.sound, hnext.follows, fun _ => hnext.fits trivial⟩
    · exact .inr (.inl hno)
  cases old with
  | none =>
    -- Without a block it is `malloc`.
    have hmalloc : step (.realloc none size page) h = step (.malloc size page) h := by
      unfold Malloc.step Malloc.realloc
      dsimp only
      rw [if_pos hcond, if_pos hcond.1, if_neg hzero]
      cases Malloc.malloc size page h <;> rfl
    rw [hmalloc]
    rcases hs.step_malloc page with ⟨h', as', free', hok, hnext⟩ | hno
    · exact .inl ⟨h', as', free', hok, hnext.sound, hnext.follows, hnext.fits⟩
    · exact .inr (.inl hno)
  | some b₀ =>
    have hmoved := hs.realloc (hcond.2 b₀ rfl) hzero page
    unfold Malloc.step
    dsimp only
    rw [if_pos hcond]
    generalize Malloc.realloc (some b₀) size page h = res at hmoved ⊢
    cases hmoved with
    | failed => exact .inl ⟨h, as, free, rfl, hs, follows_of_subset fun _ ha => ha, fun _ hf => hf⟩
    | notEnabled => exact .inr (.inl rfl)
    | overrun large big pos short =>
      refine .inr (.inr ⟨rfl, fun hsized => ?_⟩)
      have hsized' : size ≤ 2 ^ 31 := hsized
      have := (pageCount_room large (by omega) pos).mpr (by omega)
      omega
    | @given h' as' free' r b sound live arena block follows new kept copied small big =>
      refine .inl ⟨h', as', free', rfl, sound, follows, fun hsized hf => ?_⟩
      have hsized' : size ≤ 2 ^ 31 := hsized
      refine hf.given hs sound (fun x hx => ?_) follows arena block (size_le (by omega) small big)
      rw [live] at hx
      exact (List.mem_cons.mp hx).imp_right fun hx => (List.mem_filter.mp hx).1

/-- A store of the program inside its block keeps the heap sound. -/
theorem Sound.step_write (hs : Sound h as free) (b i : Nat) (c : UInt8) :
    (∃ h' as' free', step (.write b i c) h = .ok h' ∧ Next h as (.write b i c) h' as' free') ∨
      step (.write b i c) h = .error .notEnabled ∨
      (step (.write b i c) h = .error .overrun ∧ ¬Fits h as) := by
  unfold Malloc.step
  dsimp only
  by_cases hex : ∃ x ∈ h.live, x.1 = b ∧ i < x.2
  · rw [if_pos hex]
    obtain ⟨x, hx, rfl, hi⟩ := hex
    obtain ⟨r, hr, hb, hheld⟩ := hs.held (List.mem_map.mpr ⟨x, hx, rfl⟩)
    rw [hs.inv.checkBlock hr hb]
    by_cases hroom : i + 1 ≤ r.size
    · rw [if_pos hroom]
      have hoff : OffMeta h as free (x.1 + i) 1 :=
        (hs.inv.held_off hr hb hheld).sub (by omega) (by omega)
      exact .inl ⟨_, as, free, rfl, hs.of_write hoff fun a n hout => agree_fill hout,
        follows_of_subset fun _ ha => ha, fun _ hf => hf⟩
    · rw [if_neg hroom]
      refine .inr (.inr ⟨rfl, fun hf => ?_⟩)
      have := hf x hx r hr hb
      omega
  · rw [if_neg hex]
    exact .inr (.inl rfl)

/-- A step ends well, or it could not be taken, or it writes past a block that is too small. -/
theorem Sound.step (hs : Sound h as free) (e : Event) :
    (∃ h' as' free', Malloc.step e h = .ok h' ∧ Next h as e h' as' free') ∨
      Malloc.step e h = .error .notEnabled ∨
      (Malloc.step e h = .error .overrun ∧ ¬(e.Sized ∧ Fits h as)) := by
  cases e with
  | malloc size page => exact (hs.step_malloc page).imp_right .inl
  | calloc a b page =>
    exact (hs.step_calloc a b page).imp_right (Or.imp_right (And.imp_right (mt And.left)))
  | realloc old size page =>
    exact (hs.step_realloc old page).imp_right (Or.imp_right (And.imp_right (mt And.left)))
  | free p => exact (hs.step_free p).imp_right .inl
  | write b i c =>
    exact (hs.step_write b i c).imp_right (Or.imp_right (And.imp_right (mt And.right)))

/-! ## The first state -/

/-- A free list is in its descriptor. -/
theorem listInit_agree {list a n : Nat} (hoff : a + n ≤ list ∨ list + 16 ≤ a) :
    Agree m (listInit list m) a n := by
  unfold listInit setPrev setNext
  have h₁ : Agree m (m.store list 0) a n := agree_store (by omega)
  have h₂ : Agree (m.store list 0) ((m.store list 0).store (list + 4) (list + 8)) a n :=
    agree_store (by omega)
  exact ((h₁.trans h₂).trans (agree_store (by omega))).trans (agree_store (by omega))

/-- The loop of `malloc_init`. -/
theorem mallocInit_lists {d₀ : Nat} (m : Memory) (hpos : 0 < d₀) (hroom : d₀ + 480 ≤ 2 ^ 32) :
    ∀ n ≤ 7, ∀ i < n, IsList
      ((List.range n).foldl (fun m i => listInit (d₀ + 48 * i + 8) m) m) (d₀ + 48 * i + 8) [] := by
  intro n
  induction n with
  | zero => exact fun _ i hi => absurd hi (Nat.not_lt_zero i)
  | succ n ih =>
    intro hn i hi
    rw [List.range_succ, List.foldl_append]
    rcases Nat.lt_succ_iff_lt_or_eq.mp hi with hlt | rfl
    · refine (ih (by omega) i hlt).of_agree fun y hy => listInit_agree ?_
      rcases List.mem_pair.mp hy with rfl | rfl <;> omega
    · exact isList_listInit _ (by omega) (by omega)

/-- The heap of `malloc_init` is sound. -/
theorem mallocInit_sound {d₀ : Nat} (m : Memory) (hpos : 0 < d₀) (hroom : d₀ + 480 ≤ 2 ^ 32) :
    Sound (mallocInit d₀ m) [] fun _ => [] where
  inv := {
    room := ⟨hpos, hroom⟩
    proper := fun a ha => absurd ha List.not_mem_nil
    apart := .nil
    pages := fun p => ⟨fun hp => absurd hp List.not_mem_nil, fun ⟨a, ha, _⟩ => absurd ha List.not_mem_nil⟩
    header := fun a ha => absurd ha List.not_mem_nil
    lists := by
      intro i hi
      have hlists := mallocInit_lists m hpos hroom 7 (Nat.le_refl 7) i hi
      rw [← length_descs] at hlists
      exact hlists
    elems := fun i _ b hb => absurd hb List.not_mem_nil
    nodup := fun i _ => .nil }
  nodup := .nil
  live := fun b => ⟨fun hb => absurd hb List.not_mem_nil, fun ⟨⟨a, ha, _⟩, _⟩ => absurd ha List.not_mem_nil⟩
  used := fun a ha => absurd ha List.not_mem_nil

/-! ## Runs -/

/-- The states of runs in which the steps meet a condition. -/
def ReachHeap (ok : Event → Prop) (d₀ : Nat) (m₀ : Memory) (h : Heap) : Prop :=
  0 < d₀ ∧ d₀ + 480 ≤ 2 ^ 32 ∧
    ReachWhere (Steps step) (fun _ e => ok e) (mallocInit d₀ m₀) h

/-- Every reachable heap is sound. -/
theorem ReachHeap.sound {ok : Event → Prop} {d₀ : Nat} {m₀ : Memory} (hr : ReachHeap ok d₀ m₀ h) :
    ∃ as free, Sound h as free := by
  obtain ⟨hpos, hroom, hreach⟩ := hr
  refine hreach.invariant (P := fun h => ∃ as free, Sound h as free)
    ⟨_, _, mallocInit_sound m₀ hpos hroom⟩ ?_
  rintro s e s' ⟨as, free, hs⟩ - hstep
  unfold Steps at hstep
  rcases hs.step e with ⟨h', as', free', hok, hnext⟩ | hno | ⟨hover, -⟩
  · rw [hok] at hstep
    cases hstep
    exact ⟨as', free', hnext.sound⟩
  · rw [hno] at hstep
    cases hstep
  · rw [hover] at hstep
    cases hstep

/-- When no request is for more than 2^31 bytes. -/
theorem ReachHeap.fits {d₀ : Nat} {m₀ : Memory} (hr : ReachHeap Event.Sized d₀ m₀ h) :
    ∃ as free, Sound h as free ∧ Fits h as := by
  obtain ⟨hpos, hroom, hreach⟩ := hr
  refine hreach.invariant (P := fun h => ∃ as free, Sound h as free ∧ Fits h as)
    ⟨_, _, mallocInit_sound m₀ hpos hroom, fun x hx => absurd hx List.not_mem_nil⟩ ?_
  rintro s e s' ⟨as, free, hs, hf⟩ hsized hstep
  unfold Steps at hstep
  rcases hs.step e with ⟨h', as', free', hok, hnext⟩ | hno | ⟨hover, -⟩
  · rw [hok] at hstep
    cases hstep
    exact ⟨as', free', hnext.sound, hnext.fits hsized hf⟩
  · rw [hno] at hstep
    cases hstep
  · rw [hover] at hstep
    cases hstep

end Pintos.Malloc
