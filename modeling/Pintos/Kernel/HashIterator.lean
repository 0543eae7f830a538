import Pintos.Kernel.HashContents

/-!
# Going through a hash table

`hash_next` starts at the head of the first chain and passes over any number of empty chains. What
lies ahead of an iterator is the rest of its chain and the chains after it (`Ahead`); a call takes
the first of these elements, and answers null when there is none. So the calls give the elements
bucket after bucket, as `hash_apply` does.
-/

namespace Pintos.Kernel

open Pintos.Lib

variable {E σ : Type*} {fs : HashFuncs E} {h : Hash E} {e x : E} {i : HashIterator E}
  {l : List E} {b : Nat}

/-- The elements in the buckets after `b`. -/
def Hash.after (h : Hash E) (b : Nat) : List E :=
  ((List.finRange h.bucketCnt).drop (b + 1)).flatMap h.buckets

theorem after_eq (hb : b + 1 < h.bucketCnt) :
    h.after b = h.buckets ⟨b + 1, hb⟩ ++ h.after (b + 1) := by
  unfold Hash.after
  rw [List.drop_eq_getElem_cons (by simpa using hb), List.flatMap_cons]
  simp

theorem after_last (hb : ¬ b + 1 < h.bucketCnt) : h.after b = [] := by
  unfold Hash.after
  rw [List.drop_eq_nil_of_le (by simpa using hb)]
  rfl

theorem elems_eq (h : Hash E) : h.elems = h.buckets ⟨0, h.bucketCnt_pos⟩ ++ h.after 0 := by
  have hlen : 0 < (List.finRange h.bucketCnt).length := by simpa using h.bucketCnt_pos
  have hcons : List.finRange h.bucketCnt =
      (List.finRange h.bucketCnt)[0] :: (List.finRange h.bucketCnt).drop 1 :=
    List.drop_eq_getElem_cons hlen
  refine (congrArg (List.flatMap h.buckets) hcons).trans ?_
  rw [List.flatMap_cons]
  simp [Hash.after]

theorem hashApply_eq (action : σ → E → σ) (s : σ) (h : Hash E) :
    hashApply action s h = h.elems.foldl action s := by
  unfold hashApply Hash.elems listed
  rw [List.foldl_flatMap]

/-- The elements that an iterator has yet to come to. -/
inductive Ahead (h : Hash E) : HashIterator E → List E → Prop
  | head {b : Nat} (hb : b < h.bucketCnt) :
    Ahead h { bucket := b, elem := .head } (h.buckets ⟨b, hb⟩ ++ h.after b)
  | elem {b : Nat} {pre post : List E} {e : E} (hb : b < h.bucketCnt)
    (hchain : h.buckets ⟨b, hb⟩ = pre ++ e :: post) (hpre : e ∉ pre) :
    Ahead h { bucket := b, elem := .elem e } (post ++ h.after b)

/-- What an iterator finds: the first of the elements `l`, or null. -/
def Finds (h : Hash E) (i : HashIterator E) : List E → Prop
  | [] => i.elem = .null
  | e :: l => i.elem = .elem e ∧ Ahead h i l

/-- The loop of `hash_next`, from the rest `l` of a chain. -/
theorem skipEmpty_finds (hn : ∀ j, (h.buckets j).Nodup) (pre : List E) (hb : b < h.bucketCnt)
    (hchain : h.buckets ⟨b, hb⟩ = pre ++ l) :
    Finds h (skipEmpty h b l.head?) (l ++ h.after b) := by
  induction hm : h.bucketCnt - b generalizing b pre l with
  | zero => omega
  | succ m ih =>
    cases l with
    | cons e post =>
      have hnodup : (pre ++ e :: post).Nodup := hchain ▸ hn _
      have hpre : e ∉ pre := fun he => by
        have := (List.nodup_append.mp hnodup).2.2 e he e List.mem_cons_self
        exact this rfl
      show Finds h (skipEmpty h b (some e)) (e :: (post ++ h.after b))
      unfold skipEmpty
      exact ⟨rfl, .elem hb hchain hpre⟩
    | nil =>
      show Finds h (skipEmpty h b none) (h.after b)
      unfold skipEmpty
      split
      next hnext =>
        rw [after_eq hnext]
        exact ih [] hnext rfl (by omega)
      next hlast =>
        rw [after_last hlast]
        exact rfl

variable [DecidableEq E]

/-- A call of `hash_next`. -/
theorem hashNext_finds (hn : ∀ j, (h.buckets j).Nodup) (ha : Ahead h i l) :
    ∃ i', hashNext h i = some i' ∧ Finds h i' l := by
  cases ha with
  | head hb =>
    unfold hashNext
    rw [dif_pos hb]
    exact ⟨_, rfl, skipEmpty_finds hn [] hb rfl⟩
  | @elem b pre post e hb hchain hpre =>
    have hdrop : (pre ++ e :: post).dropWhile (· != e) = e :: post := by
      rw [List.dropWhile_append_of_pos]
      · simp
      · intro x hx
        simpa using fun hxe : x = e => hpre (hxe ▸ hx)
    unfold hashNext
    rw [dif_pos hb]
    refine ⟨_, ?_, skipEmpty_finds hn (pre ++ [e]) hb (by simpa using hchain)⟩
    simp only [listNext, hchain, hdrop, List.tail_cons, Option.map_some]

/-- The calls of `hash_next` until it answers null. -/
theorem visits_eq (hn : ∀ j, (h.buckets j).Nodup) (ha : Ahead h i l) {fuel : Nat}
    (hfuel : l.length < fuel) : visits h fuel i = some l := by
  induction l generalizing i fuel with
  | nil =>
    obtain ⟨fuel, rfl⟩ : ∃ n, fuel = n + 1 := ⟨fuel - 1, by simp at hfuel; omega⟩
    obtain ⟨i', hi', hnull⟩ := hashNext_finds hn ha
    unfold visits
    simp only [hi', show i'.elem = .null from hnull]
  | cons e l ih =>
    obtain ⟨fuel, rfl⟩ : ∃ n, fuel = n + 1 := ⟨fuel - 1, by simp at hfuel; omega⟩
    obtain ⟨i', hi', helem, hahead⟩ := hashNext_finds hn ha
    unfold visits
    simp only [hi', helem, ih hahead (by simpa using hfuel), Option.map_some]

/-! ## Every history -/

omit [DecidableEq E] in
theorem Hash.Valid.buckets_nodup (hv : h.Valid fs) (j : Fin h.bucketCnt) : (h.buckets j).Nodup :=
  Multiset.coe_nodup.mp (Multiset.nodup_of_le (le_contents h.buckets j) hv.nodup)

/-- A hash table is the set of its elements, whatever the history and whatever `malloc` answered in
it: the buckets are as they should be, every operation does what it does to a set keyed by the
comparison, and the two ways to go through the table visit every element once. -/
theorem hash_refines_set (hfs : fs.Lawful) (hr : Reach (Performs fs) hashInit h) :
    ((∃ k, h.bucketCnt = 2 ^ (k + 2)) ∧
      (∀ j, ∀ e ∈ h.buckets j, (j : Nat) = (fs.hash e).toNat &&& (h.bucketCnt - 1)) ∧
      h.toSet.ncard = h.elemCnt ∧
      ∀ a ∈ h.toSet, ∀ b ∈ h.toSet, fs.equal a b = true → a = b) ∧
    (∀ mem (op : KeyedOp E), op.Does (fun a b => fs.equal a b = true) h.toSet (perform fs mem h op).1
      (perform fs mem h op).2.toSet) ∧
    ∃ l : List E, l.Nodup ∧ (∀ e, e ∈ l ↔ e ∈ h.toSet) ∧
      (∀ fuel > h.elemCnt, visits h fuel hashFirst = some l) ∧
      ∀ (τ : Type) (action : τ → E → τ) (s : τ), hashApply action s h = l.foldl action s := by
  have hv := reach_valid hfs hr
  refine ⟨⟨hv.power, fun j e he => ?_, hv.ncard_toSet, hv.keyed⟩,
    fun mem op => (perform_does hfs hv mem op).2, h.elems, hv.elems_nodup, fun _ => mem_elems, ?_,
    fun _ action s => hashApply_eq action s h⟩
  · exact (congrArg Fin.val (hv.home j e he)).symm
  · intro fuel hfuel
    apply visits_eq hv.buckets_nodup
    · rw [elems_eq]
      exact .head h.bucketCnt_pos
    · rw [hv.length_elems]
      exact hfuel

/-- Numbers that hash to themselves. -/
def numbers : HashFuncs UInt32 where
  hash := id
  less := fun a b => decide (a < b)

theorem numbers_lawful : numbers.Lawful := by
  have heq : ∀ a b, numbers.equal a b = true → a = b := by
    intro a b h
    obtain ⟨hab, hba⟩ := equal_iff.mp h
    simp only [numbers, decide_eq_true_eq, UInt32.not_lt] at hab hba
    exact UInt32.le_antisymm hba hab
  have hirr : ∀ a, ¬ numbers.less a a = true := fun a => by simp [numbers]
  have htrans : ∀ a b c, numbers.less a b = true → numbers.less b c = true →
      numbers.less a c = true := by
    intro a b c hab hbc
    simp only [numbers, decide_eq_true_eq] at hab hbc ⊢
    exact UInt32.lt_trans hab hbc
  refine ⟨{ irrefl := hirr, trans := htrans, incomp_trans := fun a b c hab hbc => ?_ },
    fun a b h => congrArg id (heq a b h)⟩
  rw [heq a b (equal_iff.mpr hab)]
  exact hbc

theorem hash_refines_set_numbers :
    (perform numbers true (perform numbers false hashInit (.insert 5)).2 (.insert 9)).2.toSet.ncard =
      (perform numbers true (perform numbers false hashInit (.insert 5)).2 (.insert 9)).2.elemCnt :=
  (hash_refines_set numbers_lawful (.next (i := (.insert 9, true))
    (.next (i := (.insert 5, false)) .start trivial rfl) trivial rfl)).1.2.2.1

end Pintos.Kernel
