import Mathlib.Data.Int.ModEq
import Mathlib.Data.Set.Card

/-!
# Counting semaphores with barging

A semaphore is a value and a queue of waiters. A `down` that finds the value zero joins the queue
and is blocked; an `up` takes one waiter off the queue, if there is one, and increments the value
in any case. The waiter an `up` has woken does not own the unit: it tests the value again when it
runs, and until then anybody may take the unit in front of it. `pick waiters t` says that an `up`
may wake `t` out of `waiters`.

Two facts survive. `Tally` counts what was done, and the value is what was put in less what was
taken out (`Balanced`), modulo the size of the counter. And a unit cannot lie idle while a thread
waits for it: the value is covered by woken threads that have still to test it (`Covered`).
-/

namespace Pintos.Lib

/-- A value and the threads that wait for it. -/
structure Sem (τ : Type*) where
  value : Nat
  waiters : List τ

/-- What is done to a semaphore. -/
inductive SemOp where
  | init (value : Nat)
  | down
  | tryDown
  | up
  deriving DecidableEq, Repr

/-- What an operation of the thread `cur` makes of a semaphore: `down` is one test of the value,
by a thread that has just called it or that was woken. -/
inductive SemOp.Does {τ : Type*} [DecidableEq τ] (size : Nat) (pick : List τ → τ → Prop) (cur : τ) (v : Sem τ) :
    SemOp → Sem τ → Prop
  | init {n : Nat} : n < size → Does size pick cur v (.init n) ⟨n, []⟩
  | waits : v.value = 0 → Does size pick cur v .down ⟨v.value, v.waiters ++ [cur]⟩
  | takes : v.value ≠ 0 → Does size pick cur v .down ⟨v.value - 1, v.waiters⟩
  | tries : v.value ≠ 0 → Does size pick cur v .tryDown ⟨v.value - 1, v.waiters⟩
  | fails : v.value = 0 → Does size pick cur v .tryDown v
  | ups : v.waiters = [] → Does size pick cur v .up ⟨(v.value + 1) % size, []⟩
  | wakes {t : τ} : t ∈ v.waiters → pick v.waiters t →
      Does size pick cur v .up ⟨(v.value + 1) % size, v.waiters.erase t⟩

/-! ## What was done -/

/-- What a semaphore started with, and the operations completed since. -/
structure Tally where
  initial : Nat
  ups : Nat
  downs : Nat
  deriving DecidableEq, Repr

/-- The tally after an operation on a semaphore of the value given. -/
def SemOp.tally (value : Nat) (t : Tally) : SemOp → Tally
  | .init n => { initial := n, ups := 0, downs := 0 }
  | .down | .tryDown => if value = 0 then t else { t with downs := t.downs + 1 }
  | .up => { t with ups := t.ups + 1 }

/-- The value is what the tally says, modulo the size of the counter. -/
def Balanced (size : Nat) (value : Nat) (t : Tally) : Prop :=
  (value : Int) = ((t.initial : Int) + t.ups - t.downs) % size

section Books

variable {size value : Nat} {t : Tally}

theorem Balanced.lt (h : Balanced size value t) (hs : 0 < size) : value < size := by
  have := Int.emod_lt_of_pos ((t.initial : Int) + t.ups - t.downs) (Int.natCast_pos.mpr hs)
  rw [← h] at this
  omega

theorem Balanced.modEq (h : Balanced size value t) :
    (value : Int) ≡ t.initial + t.ups - t.downs [ZMOD size] := by
  rw [h]
  exact Int.mod_modEq _ _

/-- A unit taken out of a semaphore that has one. -/
theorem Balanced.take (h : Balanced size value t) (hs : 0 < size) (hv : value ≠ 0) :
    Balanced size (value - 1) { t with downs := t.downs + 1 } := by
  have hlt := h.lt hs
  have hval : ((value - 1 : Nat) : Int) = (value : Int) - 1 := by omega
  have hsum : (t.initial : Int) + t.ups - ((t.downs + 1 : Nat) : Int) =
      (t.initial + t.ups - t.downs) - 1 := by omega
  show ((value - 1 : Nat) : Int) = ((t.initial : Int) + t.ups - ((t.downs + 1 : Nat) : Int)) % size
  rw [hsum, hval, ← (h.modEq.sub_right 1).eq, Int.emod_eq_of_lt (by omega) (by omega)]

/-- A unit put in. -/
theorem Balanced.put (h : Balanced size value t) :
    Balanced size ((value + 1) % size) { t with ups := t.ups + 1 } := by
  have hsum : (t.initial : Int) + ((t.ups + 1 : Nat) : Int) - t.downs =
      (t.initial + t.ups - t.downs) + 1 := by omega
  show (((value + 1) % size : Nat) : Int) =
    ((t.initial : Int) + ((t.ups + 1 : Nat) : Int) - t.downs) % size
  rw [hsum, ← (h.modEq.add_right 1).eq]
  push_cast
  rfl

end Books

section Operations

variable {τ : Type*} [DecidableEq τ] {size : Nat} {pick : List τ → τ → Prop} {cur : τ}
  {v v' : Sem τ} {op : SemOp} {t : Tally}

/-- Who may be woken matters to an up only, and for the queue at hand. -/
theorem SemOp.Does.mono {pick' : List τ → τ → Prop} (hd : op.Does size pick cur v v')
    (hp : op = .up → ∀ x, pick v.waiters x → pick' v.waiters x) :
    op.Does size pick' cur v v' := by
  cases hd with
  | init hn => exact .init hn
  | waits hv => exact .waits hv
  | takes hv => exact .takes hv
  | tries hv => exact .tries hv
  | fails hv => exact .fails hv
  | ups hw => exact .ups hw
  | wakes hmem hpick => exact .wakes hmem (hp rfl _ hpick)

/-- Nobody joins the queue but the thread that runs, in a down that finds no unit. -/
theorem SemOp.Does.mem_waiters {x : τ} (hd : op.Does size pick cur v v')
    (hx : x ∈ v'.waiters) : x ∈ v.waiters ∨ (x = cur ∧ op = .down ∧ v.value = 0) := by
  cases hd with
  | init _ => cases hx
  | waits hv =>
    rcases List.mem_append.mp hx with hx | hx
    · exact .inl hx
    · exact .inr ⟨List.mem_singleton.mp hx, rfl, hv⟩
  | takes _ => exact .inl hx
  | tries _ => exact .inl hx
  | fails _ => exact .inl hx
  | ups _ => cases hx
  | wakes _ _ => exact .inl (List.mem_of_mem_erase hx)

theorem SemOp.Does.nodup_waiters (hd : op.Does size pick cur v v') (hn : v.waiters.Nodup)
    (hcur : cur ∉ v.waiters) : v'.waiters.Nodup := by
  cases hd with
  | init _ => exact List.nodup_nil
  | waits _ =>
    rw [← List.concat_eq_append]
    exact hn.concat hcur
  | takes _ => exact hn
  | tries _ => exact hn
  | fails _ => exact hn
  | ups _ => exact List.nodup_nil
  | wakes _ _ => exact hn.erase _

/-- An up wakes a waiter if there is one. -/
theorem SemOp.Does.woken_of_up (hd : SemOp.up.Does size pick cur v v') (hw : v.waiters ≠ []) :
    ∃ x ∈ v.waiters, pick v.waiters x ∧ v'.waiters = v.waiters.erase x := by
  cases hd with
  | ups hempty => exact absurd hempty hw
  | @wakes x hmem hpick => exact ⟨x, hmem, hpick, rfl⟩

/-- Every operation keeps the books. -/
theorem Balanced.of_does (h : Balanced size v.value t) (hs : 0 < size)
    (hd : op.Does size pick cur v v') : Balanced size v'.value (op.tally v.value t) := by
  cases hd with
  | init hn =>
    show Balanced size _ _
    unfold Balanced
    simp only [SemOp.tally]
    rw [Int.emod_eq_of_lt] <;> omega
  | waits hv => simpa [SemOp.tally, hv] using h
  | takes hv =>
    simp only [SemOp.tally, hv, if_false]
    exact h.take hs hv
  | tries hv =>
    simp only [SemOp.tally, hv, if_false]
    exact h.take hs hv
  | fails hv => simpa [SemOp.tally, hv] using h
  | ups _ => exact h.put
  | wakes _ _ => exact h.put

end Operations

/-! ## Woken threads -/

/-- While somebody waits, there is a woken thread for every unit. -/
def Covered {τ : Type*} (v : Sem τ) (woken : Set τ) : Prop :=
  v.waiters ≠ [] → (v.value : ℕ∞) ≤ woken.encard

theorem Covered.mono {τ : Type*} {v : Sem τ} {woken woken' : Set τ} (h : Covered v woken)
    (hsub : woken ⊆ woken') : Covered v woken' :=
  fun hw => (h hw).trans (Set.encard_le_encard hsub)

/-- A positive value with waiters has a woken thread to consume it. -/
theorem Covered.exists_woken {τ : Type*} {v : Sem τ} {woken : Set τ} (h : Covered v woken) (hw : v.waiters ≠ [])
    (hv : 0 < v.value) : ∃ x, x ∈ woken := by
  have hle := h hw
  apply Set.nonempty_iff_ne_empty.mpr
  rintro rfl
  rw [Set.encard_empty] at hle
  have : v.value = 0 := by exact_mod_cast nonpos_iff_eq_zero.mp hle
  omega

/-- Every operation keeps the units covered: only the thread that runs leaves the woken ones, by
testing the value, and a thread taken off the queue joins them. -/
theorem Covered.of_does {τ : Type*} [DecidableEq τ] {size : Nat} {pick : List τ → τ → Prop}
    {cur : τ} {v v' : Sem τ} {op : SemOp} {woken woken' : Set τ} (h : Covered v woken)
    (hd : op.Does size pick cur v v') (hkeep : ∀ x ∈ woken, x ≠ cur → x ∈ woken')
    (hup : op = .up → cur ∉ woken)
    (hjoin : ∀ x ∈ v.waiters, x ∉ v'.waiters → x ∈ woken' ∧ x ∉ woken)
    (hnodup : v.waiters.Nodup) : Covered v' woken' := by
  have hless : woken.encard ≤ woken'.encard + 1 := by
    calc woken.encard ≤ (insert cur woken').encard := by
          apply Set.encard_le_encard
          intro x hx
          by_cases hxc : x = cur
          · exact .inl hxc
          · exact .inr (hkeep x hx hxc)
      _ ≤ woken'.encard + 1 := Set.encard_insert_le _ _
  -- taking a unit
  have htake : v.value ≠ 0 → Covered ⟨v.value - 1, v.waiters⟩ woken' := by
    intro hv hw
    have hle := (h hw).trans hless
    have hval : (v.value : ℕ∞) = ((v.value - 1 : Nat) : ℕ∞) + 1 := by
      rw [← Nat.cast_succ, Nat.succ_eq_add_one, Nat.sub_add_cancel (by omega)]
    rw [hval] at hle
    exact (ENat.add_le_add_iff_right ENat.one_ne_top).mp hle
  cases hd with
  | init _ => exact fun hw => absurd rfl hw
  | waits hv =>
    intro _
    simp [hv]
  | takes hv => exact htake hv
  | tries hv => exact htake hv
  | fails hv =>
    intro _
    simp [hv]
  | ups _ => exact fun hw => absurd rfl hw
  | @wakes top hmem _ =>
    intro _
    have hgone : top ∉ v.waiters.erase top := hnodup.not_mem_erase
    obtain ⟨hin, hout⟩ := hjoin top hmem hgone
    have hsub : insert top woken ⊆ woken' := by
      intro x hx
      rcases hx with rfl | hx
      · exact hin
      · exact hkeep x hx fun he => hup rfl (he ▸ hx)
    calc (((v.value + 1) % size : Nat) : ℕ∞) ≤ ((v.value + 1 : Nat) : ℕ∞) := by
          exact_mod_cast Nat.mod_le _ _
      _ = (v.value : ℕ∞) + 1 := by push_cast; rfl
      _ ≤ woken.encard + 1 := by gcongr; exact h (List.ne_nil_of_mem hmem)
      _ = (insert top woken).encard := (Set.encard_insert_of_notMem hout).symm
      _ ≤ woken'.encard := Set.encard_le_encard hsub

end Pintos.Lib
