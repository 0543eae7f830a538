import Mathlib.Logic.Equiv.Basic
import Mathlib.Data.List.Nodup

/-!
# Heaps in arrays

An array with positions from 1 on is a heap if no element is larger than the one at half its position.
`SiftingAt` is a heap but for one element, which is on its way down; a swap with the larger child takes
it one level further. The order is a total preorder.
-/

namespace Pintos.Lib

variable {α : Type*} {le : α → α → Prop} {x : Nat → α} {lo cnt i m k : Nat}

structure TotalPreorder (le : α → α → Prop) : Prop where
  total : ∀ a b, le a b ∨ le b a
  trans : ∀ {a b c}, le a b → le b c → le a c

theorem TotalPreorder.refl (h : TotalPreorder le) (a : α) : le a a := (h.total a a).elim id id

def IsChild (c p : Nat) : Prop := c = 2 * p ∨ c = 2 * p + 1

/-- The children of a position are not larger. -/
def Above (le : α → α → Prop) (x : Nat → α) (cnt p : Nat) : Prop :=
  ∀ c, IsChild c p → c ≤ cnt → le (x c) (x p)

/-- A heap, from the position `lo` on. -/
def HeapFrom (le : α → α → Prop) (x : Nat → α) (lo cnt : Nat) : Prop :=
  ∀ p, lo ≤ p → Above le x cnt p

/-- A heap but for the element at `i`, which may be smaller than its children. -/
structure SiftingAt (le : α → α → Prop) (x : Nat → α) (lo cnt i : Nat) : Prop where
  others : ∀ p, lo ≤ p → p ≠ i → Above le x cnt p
  grand : ∀ p, lo ≤ p → IsChild i p → ∀ c, IsChild c i → c ≤ cnt → le (x c) (x p)

theorem IsChild.lt (h : IsChild k i) (hi : 0 < i) : i < k := by
  unfold IsChild at h
  omega

theorem IsChild.unique (h : IsChild k i) (h' : IsChild k m) : i = m := by
  unfold IsChild at h h'
  omega

/-- With a new element in front of a heap. -/
theorem HeapFrom.sifting (h : HeapFrom le x (i + 1) cnt) (hi : 0 < i) : SiftingAt le x i cnt i where
  others := fun p hp hne => h p (by omega)
  grand := fun p hp hchild => by
    have := hchild.lt (by omega)
    omega

/-- The element has come far enough. -/
theorem SiftingAt.finish (h : SiftingAt le x lo cnt i) (habove : Above le x cnt i) :
    HeapFrom le x lo cnt := by
  intro p hp
  by_cases heq : p = i
  · exact heq ▸ habove
  · exact h.others p hp heq

/-- The element changes places with a child that is no smaller than it and the other child. -/
theorem SiftingAt.swap (h : SiftingAt le x lo cnt i) (hlo : lo ≤ i) (hi : 0 < i) (hm : IsChild m i)
    (hle : m ≤ cnt) (hmax : le (x i) (x m)) (hother : ∀ c, IsChild c i → c ≤ cnt → le (x c) (x m)) :
    SiftingAt le (x ∘ Equiv.swap i m) lo cnt m := by
  have hlt := hm.lt hi
  have hstay : ∀ c, c ≠ i → c ≠ m → (x ∘ Equiv.swap i m) c = x c := fun c hci hcm =>
    congrArg x (Equiv.swap_apply_of_ne_of_ne hci hcm)
  have hati : (x ∘ Equiv.swap i m) i = x m := congrArg x (Equiv.swap_apply_left i m)
  have hatm : (x ∘ Equiv.swap i m) m = x i := congrArg x (Equiv.swap_apply_right i m)
  constructor
  case others =>
    intro p hp hpm c hc hcle
    by_cases hpi : p = i
    · subst hpi
      rw [hati]
      by_cases hcm : c = m
      · rw [hcm, hatm]
        exact hmax
      · rw [hstay c (Nat.ne_of_gt (hc.lt hi)) hcm]
        exact hother c hc hcle
    · rw [hstay p hpi hpm]
      by_cases hci : c = i
      · rw [hci, hati]
        exact h.grand p hp (hci ▸ hc) m hm hle
      · have hcm : c ≠ m := fun heq => hpi ((heq ▸ hc).unique hm)
        rw [hstay c hci hcm]
        exact h.others p hp hpi c hc hcle
  case grand =>
    intro p hp hmp c hc hcle
    have hclt := hc.lt (by omega)
    rw [hmp.unique hm, hati, hstay c (by omega) (by omega)]
    exact h.others m (by omega) (by omega) c hc hcle

/-- The first element of a heap is the largest. -/
theorem HeapFrom.root (hle : TotalPreorder le) (h : HeapFrom le x 1 cnt) :
    ∀ k, 1 ≤ k → k ≤ cnt → le (x k) (x 1) := by
  intro k
  induction k using Nat.strongRecOn with
  | _ k ih =>
    intro hk hkle
    by_cases hone : k = 1
    · rw [hone]
      exact hle.refl _
    · have hchild : IsChild k (k / 2) := by
        unfold IsChild
        omega
      have hparent := h (k / 2) (by omega) k hchild hkle
      exact hle.trans hparent (ih (k / 2) (by omega) (by omega) (by omega))

/-- The last element is put first, and the first behind the heap. -/
theorem HeapFrom.sifting_root (h : HeapFrom le x 1 (cnt + 1)) :
    SiftingAt le (x ∘ Equiv.swap 1 (cnt + 1)) 1 cnt 1 where
  others := by
    intro p hp hne c hc hcle
    have hlt := hc.lt (by omega)
    have hstay : ∀ k, k ≠ 1 → k ≤ cnt → (x ∘ Equiv.swap 1 (cnt + 1)) k = x k := fun k hk hkle =>
      congrArg x (Equiv.swap_apply_of_ne_of_ne hk (by omega))
    rw [hstay p hne (by omega), hstay c (by omega) hcle]
    exact h p hp c hc (by omega)
  grand := fun p hp hchild => by
    have := hchild.lt (by omega)
    omega

/-! ## Permutations of positions -/

/-- It moves nothing but the positions from 1 to `cnt`. -/
def Within (cnt : Nat) (f : Equiv.Perm Nat) : Prop := ∀ k, k = 0 ∨ cnt < k → f k = k

theorem within_refl : Within cnt (Equiv.refl Nat) := fun _ _ => rfl

theorem within_swap (hi : 1 ≤ i ∧ i ≤ cnt) (hm : 1 ≤ m ∧ m ≤ cnt) : Within cnt (Equiv.swap i m) :=
  fun k hk => Equiv.swap_apply_of_ne_of_ne (by omega) (by omega)

theorem Within.trans {f g : Equiv.Perm Nat} (hf : Within cnt f) (hg : Within cnt g) :
    Within cnt (f.trans g) := fun k hk => by
  rw [Equiv.trans_apply, hf k hk, hg k hk]

theorem Within.mono {cnt' : Nat} {f : Equiv.Perm Nat} (hf : Within cnt f) (hle : cnt ≤ cnt') :
    Within cnt' f := fun k hk => hf k (by omega)

/-- Positions stay inside. -/
theorem Within.inside {f : Equiv.Perm Nat} (hf : Within cnt f) (hk : 1 ≤ k ∧ k ≤ cnt) :
    1 ≤ f k ∧ f k ≤ cnt := by
  by_contra hout
  have hfix := hf (f k) (by omega)
  have heq := f.injective hfix
  omega

/-- The elements are the same ones. -/
theorem Within.perm {f : Equiv.Perm Nat} (hf : Within cnt f) (x : Nat → α) :
    ((List.range' 1 cnt).map (x ∘ f)).Perm ((List.range' 1 cnt).map x) := by
  rw [← List.map_map]
  refine List.Perm.map x ?_
  have hnodup : ((List.range' 1 cnt).map f).Nodup :=
    (List.nodup_range' (s := 1)).map f.injective
  refine (List.perm_ext_iff_of_nodup hnodup List.nodup_range').mpr fun k => ?_
  rw [List.mem_map]
  constructor
  · rintro ⟨j, hj, rfl⟩
    rw [List.mem_range'_1] at hj ⊢
    have := hf.inside (k := j) (by omega)
    omega
  · intro hk
    refine ⟨f.symm k, ?_, f.apply_symm_apply k⟩
    rw [List.mem_range'_1] at hk ⊢
    by_contra hout
    have hfix := hf (f.symm k) (by omega)
    rw [f.apply_symm_apply] at hfix
    omega

end Pintos.Lib
