import Mathlib.Data.Set.Basic

/-!
# Exclusive ownership

Owners hold cells, and a table says which cells are in use. `Exclusive` says that a cell has one
owner at most and that a cell with an owner is in use. Three things can happen to it: an owner claims
cells that are not in use, cells are dropped, and all that one owner holds is passed to another that
holds nothing.
-/

namespace Pintos.Lib

variable {O C : Type*} {owns owns' : O → C → Prop} {used used' : C → Prop} {o o' : O} {S : Set C}

structure Exclusive (owns : O → C → Prop) (used : C → Prop) : Prop where
  unique : ∀ o o' c, owns o c → owns o' c → o = o'
  used : ∀ o c, owns o c → used c

/-- Nobody owns more than before. -/
theorem Exclusive.sub (h : Exclusive owns used) (hown : ∀ p c, owns' p c → owns p c)
    (hused : ∀ c, used c → used' c) : Exclusive owns' used' :=
  ⟨fun p p' c hp hp' => h.unique p p' c (hown p c hp) (hown p' c hp'),
    fun p c hp => hused c (h.used p c (hown p c hp))⟩

/-- Cells that are not in use are claimed, and nothing else. -/
theorem Exclusive.claim (h : Exclusive owns used) (hfree : ∀ c ∈ S, ¬ used c)
    (hown : ∀ p c, owns' p c → owns p c ∨ (p = o ∧ c ∈ S))
    (hused : ∀ c, used c ∨ c ∈ S → used' c) : Exclusive owns' used' := by
  constructor
  · intro p p' c hp hp'
    rcases hown p c hp with hp | ⟨rfl, hS⟩
    · rcases hown p' c hp' with hp' | ⟨rfl, hS⟩
      · exact h.unique p p' c hp hp'
      · exact absurd (h.used p c hp) (hfree c hS)
    · rcases hown p' c hp' with hp' | ⟨rfl, _⟩
      · exact absurd (h.used p' c hp') (hfree c hS)
      · rfl
  · intro p c hp
    rcases hown p c hp with hp | ⟨_, hS⟩
    · exact hused c (.inl (h.used p c hp))
    · exact hused c (.inr hS)

/-- Cells are given up, and then need not be in use any more. -/
theorem Exclusive.drop (h : Exclusive owns used) (hown : ∀ p c, owns' p c → owns p c ∧ c ∉ S)
    (hused : ∀ c, used c → c ∉ S → used' c) : Exclusive owns' used' := by
  constructor
  · intro p p' c hp hp'
    exact h.unique p p' c (hown p c hp).1 (hown p' c hp').1
  · intro p c hp
    obtain ⟨hp, hS⟩ := hown p c hp
    exact hused c (h.used p c hp) hS

/-- What `o` holds goes to `o'`, which holds nothing else. -/
theorem Exclusive.pass (h : Exclusive owns used) (o o' : O)
    (hown : ∀ p c, owns' p c → (p ≠ o' ∧ p ≠ o ∧ owns p c) ∨ (p = o' ∧ owns o c)) :
    Exclusive owns' used := by
  constructor
  · intro p p' c hp hp'
    rcases hown p c hp with ⟨_, hne, hp⟩ | ⟨rfl, hp⟩
    · rcases hown p' c hp' with ⟨_, _, hp'⟩ | ⟨_, hp'⟩
      · exact h.unique p p' c hp hp'
      · exact absurd (h.unique p o c hp hp') hne
    · rcases hown p' c hp' with ⟨_, hne, hp'⟩ | ⟨rfl, _⟩
      · exact absurd (h.unique p' o c hp' hp) hne
      · rfl
  · intro p c hp
    rcases hown p c hp with ⟨_, _, hp⟩ | ⟨_, hp⟩
    · exact h.used p c hp
    · exact h.used o c hp

end Pintos.Lib
