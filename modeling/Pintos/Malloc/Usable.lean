import Pintos.Malloc.Runs

/-!
# How much a block holds

`malloc` adds the header to the size in 32 bits, and rounds up in 32 bits: from 2^32 - 11 on, one page
is what it asks for. `calloc` compares a product that has wrapped around with its factors, and many
are larger than both.
-/

namespace Pintos.Malloc

open Pintos.Lib Pintos.Lib.Memory

variable {h h' : Heap} {as as' : List Arena} {free free' : Nat → List Nat} {r : Arena} {b n size : Nat}
  {d₀ : Nat} {m₀ : Memory}

/-- The block has at least `n` bytes, all in pages that have been handed out. -/
def Usable (h : Heap) (b n : Nat) : Prop :=
  ∃ s, blockSize b h = .ok s ∧ n ≤ s ∧ ∀ k < s, (b + k) / 4096 ∈ h.pages

/-- The block that is returned, if any, has at least `n` bytes; and no more of it than it has is
written. -/
def Ample (n : Nat) (res : Except Fault (Option Nat × Heap)) : Prop :=
  res ≠ .error .overrun ∧ ∀ b h', res = .ok (some b, h') → Usable h' b n

/-- A block is usable up to its arena's size. -/
theorem Inv.usable_iff (hi : Inv h as free) (hr : r ∈ as) (hb : b ∈ r.blocks) :
    Usable h b n ↔ n ≤ r.size := by
  have hsize := hi.blockSize hr hb
  constructor
  · rintro ⟨s, hs, hn, -⟩
    rw [hsize] at hs
    cases hs
    exact hn
  · intro hn
    refine ⟨r.size, hsize, hn, fun k hk => (hi.pages _).mpr ⟨r, hr, ?_⟩⟩
    have hinside := (hi.proper r hr).block_inside hb
    unfold Arena.addr at hinside
    omega

theorem ample_none (h : Heap) (n : Nat) : Ample n (.ok (none, h)) :=
  ⟨nofun, nofun⟩

theorem ample_notEnabled (n : Nat) : Ample n (.error .notEnabled) :=
  ⟨nofun, nofun⟩

/-- A block is ample if it is usable. -/
theorem ample_some : Ample n (.ok (some b, h)) ↔ Usable h b n := by
  constructor
  · exact fun ha => ha.2 b h rfl
  · refine fun hu => ⟨nofun, fun b' h' heq => ?_⟩
    cases heq
    exact hu

/-- To run over a block is not to be given an ample one. -/
theorem not_ample_overrun : ¬Ample n (.error .overrun) := fun ha => ha.1 rfl

/-- What `malloc` gives is large enough but for the largest sizes. -/
theorem size_le_iff (hsize : size < 2 ^ 32) (small : size ≤ 1024 → size ≤ r.size)
    (big : 1024 < size → r.size = 4096 * pageCount size - 12 ∧ 0 < pageCount size) :
    size ≤ r.size ↔ size < 2 ^ 32 - 11 := by
  by_cases hlarge : 1024 < size
  · obtain ⟨hbig, hpos⟩ := big hlarge
    rw [hbig]
    exact pageCount_room hlarge hsize hpos
  · exact iff_of_true (small (by omega)) (by omega)

/-- A block is as large as was asked for, unless the sum wraps. -/
theorem Sound.malloc_ample (hs : Sound h as free) (hsize : size < 2 ^ 32) (page : Option Nat) :
    Ample size (Malloc.malloc size page h) ↔ size < 2 ^ 32 - 11 ∨ ¬h.Serves page size := by
  have hgiven := hs.malloc size page
  generalize Malloc.malloc size page h = res at hgiven ⊢
  cases hgiven with
  | failed hno => exact iff_of_true (ample_none h size) (.inr hno)
  | notEnabled hno => exact iff_of_true (ample_notEnabled size) (.inr hno)
  | @given h' as' free' r b sound live arena block fresh arenas new kept small big served =>
    rw [ample_some, sound.inv.usable_iff arena block, size_le_iff hsize small big,
      or_iff_left (not_not_intro served)]

/-- A block that was moved is as large as was asked for, unless the sum wraps. -/
theorem Sound.realloc_ample (hs : Sound h as free) {p : Option Nat} (hholds : h.Holds p)
    (hsize : size < 2 ^ 32) (page : Option Nat) :
    Ample size (Malloc.realloc p size page h) ↔ size < 2 ^ 32 - 11 ∨ ¬h.Serves page size := by
  by_cases hzero : size = 0
  · refine iff_of_true ?_ (.inl (by omega))
    unfold Malloc.realloc
    rw [if_pos hzero]
    cases p with
    | none => exact ample_none h size
    | some b =>
      obtain ⟨h', -, -, hok, -⟩ := hs.free_ok (hholds b rfl)
      rw [hok]
      exact ample_none h' size
  cases p with
  | none =>
    have hmalloc : Malloc.realloc none size page h = Malloc.malloc size page h := by
      unfold Malloc.realloc
      rw [if_neg hzero]
      cases Malloc.malloc size page h <;> rfl
    rw [hmalloc]
    exact hs.malloc_ample hsize page
  | some old =>
    have hmoved := hs.realloc (hholds old rfl) hzero page
    generalize Malloc.realloc (some old) size page h = res at hmoved ⊢
    cases hmoved with
    | failed hno => exact iff_of_true (ample_none h size) (.inr hno)
    | notEnabled hno => exact iff_of_true (ample_notEnabled size) (.inr hno)
    | overrun large big pos short served =>
      refine iff_of_false not_ample_overrun fun hor => ?_
      have := (pageCount_room large hsize pos).mpr (hor.resolve_right (not_not_intro served))
      omega
    | @given h' as' free' r b sound live arena block follows new kept copied small big served =>
      rw [ample_some, sound.inv.usable_iff arena block, size_le_iff hsize small big,
        or_iff_left (not_not_intro served)]

/-- What `calloc` should do. -/
def Clears (a b : Nat) (res : Except Fault (Option Nat × Heap)) : Prop :=
  Ample (a * b) res ∧ (∀ p h', res = .ok (some p, h') → ∀ k < a * b, h'.mem (p + k) = 0) ∧
    (2 ^ 32 ≤ a * b → ∀ p h', res ≠ .ok (some p, h'))

theorem clears_none (h : Heap) (a b : Nat) : Clears a b (.ok (none, h)) :=
  ⟨ample_none h _, nofun, fun _ => nofun⟩

theorem clears_notEnabled (a b : Nat) : Clears a b (.error .notEnabled) :=
  ⟨ample_notEnabled _, nofun, fun _ => nofun⟩

/-- `calloc` clears all it gave, unless the sum wraps. -/
theorem Sound.calloc_clears (hs : Sound h as free) (a b : Nat) (page : Option Nat) :
    Clears a b (Malloc.calloc a b page h) ↔ a * b < 2 ^ 32 - 11 ∨ a * b % 2 ^ 32 < a ∨
      a * b % 2 ^ 32 < b ∨ ¬h.Serves page (a * b % 2 ^ 32) := by
  have hcleared := hs.calloc a b page
  have hless := Nat.mod_lt (a * b) (Nat.two_pow_pos 32)
  have hno : ∀ {s : Prop}, ¬(¬(a * b % 2 ^ 32 < a ∨ a * b % 2 ^ 32 < b) ∧ s) →
      a * b % 2 ^ 32 < a ∨ a * b % 2 ^ 32 < b ∨ ¬s := by
    intro s hno
    by_cases h₁ : a * b % 2 ^ 32 < a
    · exact .inl h₁
    · by_cases h₂ : a * b % 2 ^ 32 < b
      · exact .inr (.inl h₂)
      · exact .inr (.inr fun hs => hno ⟨fun hor => hor.elim h₁ h₂, hs⟩)
  have hyes : ∀ {s : Prop}, ¬(a * b % 2 ^ 32 < a ∨ a * b % 2 ^ 32 < b) ∧ s →
      ¬(a * b % 2 ^ 32 < a ∨ a * b % 2 ^ 32 < b ∨ ¬s) := by
    rintro s ⟨hover, hs⟩ (h₁ | h₂ | h₃)
    · exact hover (.inl h₁)
    · exact hover (.inr h₂)
    · exact h₃ hs
  generalize Malloc.calloc a b page h = res at hcleared ⊢
  cases hcleared with
  | failed hfail => exact iff_of_true (clears_none h a b) (.inr (hno hfail))
  | notEnabled hfail => exact iff_of_true (clears_notEnabled a b) (.inr (hno hfail))
  | overrun large big pos short served =>
    refine iff_of_false (fun hc => not_ample_overrun hc.1) fun hor => ?_
    have hlt := hor.resolve_right (hyes served)
    rw [Nat.mod_eq_of_lt (by omega : a * b < 2 ^ 32)] at large big pos short
    have := (pageCount_room large (by omega) pos).mpr hlt
    omega
  | @given h' as' free' r p sound live arena block arenas new kept room zero big served =>
    rw [or_iff_left (hyes served)]
    have husable := sound.inv.usable_iff (n := a * b) arena block
    by_cases hfits : a * b < 2 ^ 32
    · rw [Nat.mod_eq_of_lt hfits] at room zero big served
      constructor
      · intro _
        by_cases hlarge : 1024 < a * b
        · obtain ⟨hbig, hpos⟩ := big hlarge
          exact (pageCount_room hlarge hfits hpos).mp (hbig ▸ room)
        · omega
      · intro _
        refine ⟨ample_some.mpr (husable.mpr room), fun p' h'' heq => ?_, fun hge => by omega⟩
        cases heq
        exact zero
    · exact iff_of_false (fun hc => hc.2.2 (by omega) p h' rfl) (by omega)

/-- A block has what was asked for, unless the sizes are among the largest, or the product of the
factors of `calloc` wraps around to no less than either, and there is memory for what is left. -/
theorem allocation_ample (hr : ReachHeap (fun _ => True) d₀ m₀ h) (page : Option Nat) :
    (∀ size < 2 ^ 32, Ample size (malloc size page h) ↔
      size < 2 ^ 32 - 11 ∨ ¬h.Serves page size) ∧
    (∀ p, h.Holds p → ∀ size < 2 ^ 32, Ample size (realloc p size page h) ↔
      size < 2 ^ 32 - 11 ∨ ¬h.Serves page size) ∧
    ∀ a < 2 ^ 32, ∀ b < 2 ^ 32, Clears a b (calloc a b page h) ↔
      a * b < 2 ^ 32 - 11 ∨ a * b % 2 ^ 32 < a ∨ a * b % 2 ^ 32 < b ∨
        ¬h.Serves page (a * b % 2 ^ 32) := by
  obtain ⟨as, free, hs⟩ := hr.sound
  exact ⟨fun size hsize => hs.malloc_ample hsize page,
    fun p hholds size hsize => hs.realloc_ample hholds hsize page,
    fun a _ b _ => hs.calloc_clears a b page⟩

/-- A block of its own pages. -/
theorem allocation_ample_start :
    Ample 3000 (malloc 3000 (some 2) (mallocInit 4096 fun _ => 0)) := by
  have hreach : ReachHeap (fun _ => True) 4096 (fun _ => 0) (mallocInit 4096 fun _ => 0) :=
    ⟨by decide, by decide, .start⟩
  exact ((allocation_ample hreach (some 2)).1 3000 (by decide)).mpr (.inl (by decide))

/-- 2^32 - 1 bytes are asked for, and a block of 4084 is returned; 65537 times 65537 zeroes are, and
131073 are in the block. -/
theorem allocated_short :
    (∃ h', malloc (2 ^ 32 - 1) (some 2) (mallocInit 4096 fun _ => 0) = .ok (some 8204, h') ∧
      ¬Usable h' 8204 (2 ^ 32 - 1)) ∧
    ∃ h', calloc 65537 65537 (some 2) (mallocInit 4096 fun _ => 0) = .ok (some 8204, h') ∧
      ¬Usable h' 8204 (65537 * 65537) := by
  refine ⟨⟨_, rfl, ?_⟩, ⟨_, rfl, ?_⟩⟩
  · rintro ⟨s, hs, hn, -⟩
    have hsize : Except.ok 4084 = Except.ok s := hs
    cases hsize
    omega
  · rintro ⟨s, hs, hn, -⟩
    have hsize : Except.ok 135156 = Except.ok s := hs
    cases hsize
    omega

end Pintos.Malloc
