import Pintos.Kernel.Hash
import Pintos.Lib.Run

/-!
# What is in a hash table

A hash table is the set of its elements, keyed by the comparison. `Hash.Valid` is what every history
keeps, whatever `malloc` answers: the number of buckets is a power of two, every element is in the
bucket of its hash, the elements are counted, and no two are equal to the comparison.
-/

namespace Pintos.Kernel

open Pintos.Lib

variable {E σ : Type*} {fs : HashFuncs E} {h : Hash E} {e x : E}

/-- The comparison is a strict weak order, and elements that it does not tell apart hash equally. -/
structure HashFuncs.Lawful (fs : HashFuncs E) : Prop where
  weak : IsStrictWeakOrder E fun a b => fs.less a b = true
  hash_eq : ∀ a b, fs.equal a b = true → fs.hash a = fs.hash b

theorem equal_iff {a b : E} :
    fs.equal a b = true ↔ ¬ fs.less a b = true ∧ ¬ fs.less b a = true := by
  simp [HashFuncs.equal]

/-- To be equal is an equivalence. -/
theorem HashFuncs.Lawful.equivalence (hfs : fs.Lawful) :
    Equivalence fun a b => fs.equal a b = true := by
  have hirr : ∀ a, ¬ fs.less a a = true := hfs.weak.toIsStrictOrder.toIrrefl.irrefl
  constructor
  case refl => exact fun a => equal_iff.mpr ⟨hirr a, hirr a⟩
  case symm => exact fun h => equal_iff.mpr (equal_iff.mp h).symm
  case trans =>
    intro a b c hab hbc
    exact equal_iff.mpr (hfs.weak.incomp_trans a b c (equal_iff.mp hab) (equal_iff.mp hbc))

/-- The elements of a table. -/
def Hash.toSet (h : Hash E) : Set E := {e | e ∈ contents h.buckets}

/-- The elements of a table, bucket after bucket. -/
def Hash.elems (h : Hash E) : List E := listed h.buckets

structure Hash.Valid (fs : HashFuncs E) (h : Hash E) : Prop where
  power : ∃ k, h.bucketCnt = 2 ^ (k + 2)
  home : Homed (bucketIdx fs h.bucketCnt_pos) h.buckets
  count : h.elemCnt = (contents h.buckets).card
  nodup : (contents h.buckets).Nodup
  keyed : Keyed (fun a b => fs.equal a b = true) h.toSet

/-- The elements of the buckets are those of the set. -/
theorem mem_elems : e ∈ h.elems ↔ e ∈ h.toSet := by
  show e ∈ h.elems ↔ e ∈ contents h.buckets
  rw [← coe_listed, Multiset.mem_coe]
  rfl

/-- No element is in the buckets twice. -/
theorem Hash.Valid.elems_nodup (hv : h.Valid fs) : h.elems.Nodup := by
  rw [← Multiset.coe_nodup]
  exact coe_listed h.buckets ▸ hv.nodup

/-- There are as many elements as are counted. -/
theorem Hash.Valid.length_elems (hv : h.Valid fs) : h.elems.length = h.elemCnt := by
  rw [hv.count, ← coe_listed]
  rfl

/-- The count is the size of the set. -/
theorem Hash.Valid.ncard_toSet (hv : h.Valid fs) : h.toSet.ncard = h.elemCnt := by
  rw [hv.count]
  exact Set.ncard_coe_finset ⟨contents h.buckets, hv.nodup⟩

/-- A table of empty buckets. -/
theorem valid_empty (fs : HashFuncs E) {n : Nat} (hn : 0 < n) (hpower : ∃ k, n = 2 ^ (k + 2)) :
    (Hash.mk 0 n hn fun _ => []).Valid fs ∧ (Hash.mk (E := E) 0 n hn fun _ => []).toSet = ∅ := by
  have hset : (Hash.mk (E := E) 0 n hn fun _ => []).toSet = ∅ := by
    ext e
    show e ∈ contents (fun _ : Fin n => ([] : List E)) ↔ False
    simp [contents_nil]
  refine ⟨⟨hpower, homed_nil _, ?_, ?_, hset ▸ keyed_empty⟩, hset⟩
  · show 0 = Multiset.card (contents fun _ : Fin n => ([] : List E))
    rw [contents_nil, Multiset.card_zero]
  · show (contents fun _ : Fin n => ([] : List E)).Nodup
    rw [contents_nil]
    exact Multiset.nodup_zero

/-! ## Search -/

/-- The search of one bucket is the search of the table. -/
theorem findElem_matches (hfs : fs.Lawful) (hv : h.Valid fs) (e : E) :
    Matches (fun a b => fs.equal a b = true) h.toSet e
      (findElem fs (h.buckets (findBucket fs h e)) e) := by
  have hbucket : ∀ x ∈ h.toSet, fs.equal x e = true → x ∈ h.buckets (findBucket fs h e) := by
    intro x hx hxe
    have hidx : bucketIdx fs h.bucketCnt_pos x = findBucket fs h e :=
      Fin.ext (congrArg (fun n : UInt32 => n.toNat &&& (h.bucketCnt - 1)) (hfs.hash_eq x e hxe))
    exact hidx ▸ hv.home.mem_iff.mp hx
  have hfound : ∀ y, findElem fs (h.buckets (findBucket fs h e)) e = some y →
      y ∈ h.toSet ∧ fs.equal y e = true := fun y hy =>
    ⟨mem_contents.mpr ⟨_, List.mem_of_find?_eq_some hy⟩,
      List.find?_some (p := fun hi => fs.equal hi e) hy⟩
  intro y
  refine ⟨hfound y, ?_⟩
  rintro ⟨hy, hye⟩
  cases hfind : findElem fs (h.buckets (findBucket fs h e)) e with
  | none => exact absurd hye (List.find?_eq_none.mp hfind y (hbucket y hy hye))
  | some z =>
    obtain ⟨hz, hze⟩ := hfound z hfind
    have hr := hfs.equivalence
    rw [hv.keyed z hz y hy (hr.trans hze (hr.symm hye))]

/-! ## Changes -/

/-- A new element goes to its bucket. -/
theorem Hash.Valid.insertElem (hfs : fs.Lawful) (hv : h.Valid fs)
    (hnew : ∀ y ∈ h.toSet, ¬ fs.equal y e = true) :
    (insertElem h (findBucket fs h e) e).Valid fs ∧
      (insertElem h (findBucket fs h e) e).toSet = insert e h.toSet := by
  have hcont : contents (Kernel.insertElem h (findBucket fs h e) e).buckets =
      e ::ₘ contents h.buckets := contents_pushAt h.buckets _ e
  have hset : (Kernel.insertElem h (findBucket fs h e) e).toSet = insert e h.toSet := by
    ext x
    show x ∈ contents (Kernel.insertElem h (findBucket fs h e) e).buckets ↔ _
    rw [hcont, Multiset.mem_cons]
    rfl
  have hr := hfs.equivalence
  refine ⟨⟨hv.power, hv.home.push e, ?_, ?_, ?_⟩, hset⟩
  · rw [hcont, Multiset.card_cons, ← hv.count]
    rfl
  · rw [hcont, Multiset.nodup_cons]
    exact ⟨fun he => hnew e he (hr.refl e), hv.nodup⟩
  · rw [hset]
    exact hv.keyed.insert hr hnew

/-- An element that is removed leaves its bucket. -/
theorem Hash.Valid.removeElem [DecidableEq E] (hv : h.Valid fs) (he : e ∈ h.toSet) :
    (removeElem h e).Valid fs ∧ (removeElem h e).toSet = h.toSet \ {e} := by
  have hcont : e ::ₘ contents (Kernel.removeElem h e).buckets = contents h.buckets :=
    hv.home.contents_erase he
  have hnodup : (e ::ₘ contents (Kernel.removeElem h e).buckets).Nodup := hcont ▸ hv.nodup
  obtain ⟨hnot, hnodup⟩ := Multiset.nodup_cons.mp hnodup
  have hset : (Kernel.removeElem h e).toSet = h.toSet \ {e} := by
    ext x
    show x ∈ contents (Kernel.removeElem h e).buckets ↔ x ∈ contents h.buckets ∧ ¬ x = e
    rw [← hcont, Multiset.mem_cons]
    constructor
    · exact fun hx => ⟨.inr hx, fun hxe => hnot (hxe ▸ hx)⟩
    · exact fun hx => hx.1.resolve_left hx.2
  refine ⟨⟨hv.power, hv.home.erase e, ?_, hnodup, ?_⟩, hset⟩
  · show h.elemCnt - 1 = _
    rw [hv.count, ← hcont, Multiset.card_cons, Nat.add_sub_cancel]
  · rw [hset]
    exact hv.keyed.subset Set.sdiff_subset

/-- After `rehash` the buckets hold the same set, whether there was memory or not. -/
theorem Hash.Valid.rehash (hv : h.Valid fs) (mem : Bool) :
    (rehash fs mem h).Valid fs ∧ (rehash fs mem h).toSet = h.toSet := by
  unfold Kernel.rehash
  split
  next => exact ⟨hv, rfl⟩
  next =>
    split
    next =>
      -- the two loops push the elements of the old buckets one by one
      rw [← List.foldl_flatMap]
      obtain ⟨hhome, hcont⟩ :=
        (homed_nil (bucketIdx fs (newBucketCnt_pos h.elemCnt))).foldl_push h.elems
      rw [contents_nil, add_zero] at hcont
      have hsame := hcont.trans (coe_listed h.buckets)
      have hset : {e | e ∈ contents (h.elems.foldl (pushElem fs (newBucketCnt_pos h.elemCnt))
          fun _ => [])} = h.toSet := by
        ext x
        show x ∈ contents _ ↔ x ∈ contents h.buckets
        rw [← hsame]
        rfl
      refine ⟨⟨newBucketCnt_eq h.elemCnt, hhome, ?_, ?_, ?_⟩, hset⟩
      · exact hv.count.trans (congrArg _ hsame.symm)
      · exact hsame ▸ hv.nodup
      · have hkeyed := hv.keyed
        rw [← hset] at hkeyed
        exact hkeyed
    next => exact ⟨hv, rfl⟩

/-! ## Operations -/

/-- Every operation keeps a table valid, answers as the set it stands for does, and leaves that
set. -/
theorem perform_does [DecidableEq E] (hfs : fs.Lawful) (hv : h.Valid fs) (mem : Bool)
    (op : KeyedOp E) : (perform fs mem h op).2.Valid fs ∧
      op.Does (fun a b => fs.equal a b = true) h.toSet (perform fs mem h op).1
        (perform fs mem h op).2.toSet := by
  have hr := hfs.equivalence
  cases op with
  | insert new =>
    have hm := findElem_matches hfs hv new
    simp only [perform, hashInsert]
    cases hold : findElem fs (h.buckets (findBucket fs h new)) new with
    | none =>
      rw [hold] at hm
      obtain ⟨hv₁, hset₁⟩ := hv.insertElem hfs (hm.none_iff.mp rfl)
      obtain ⟨hv₂, hset₂⟩ := hv₁.rehash mem
      refine ⟨hv₂, hm, hset₂.trans (hset₁.trans ?_)⟩
      ext x
      simp
    | some old =>
      rw [hold] at hm
      obtain ⟨hv₂, hset₂⟩ := hv.rehash mem
      refine ⟨hv₂, hm, hset₂.trans ?_⟩
      simp
  | replace new =>
    have hm := findElem_matches hfs hv new
    simp only [perform, hashReplace]
    cases hold : findElem fs (h.buckets (findBucket fs h new)) new with
    | none =>
      rw [hold] at hm
      obtain ⟨hv₁, hset₁⟩ := hv.insertElem hfs (hm.none_iff.mp rfl)
      obtain ⟨hv₂, hset₂⟩ := hv₁.rehash mem
      refine ⟨hv₂, hm, hset₂.trans (hset₁.trans ?_)⟩
      rw [hm.diff_eq_self]
    | some old =>
      rw [hold] at hm
      obtain ⟨hv₁, hset₁⟩ := hv.removeElem ((hm old).mp rfl).1
      have hdiff := hm.diff_eq hr hv.keyed
      have hfree : ∀ y ∈ (removeElem h old).toSet, ¬ fs.equal y new = true := by
        rw [hset₁, ← hdiff]
        exact fun y hy => hy.2
      obtain ⟨hv₂, hset₂⟩ := hv₁.insertElem hfs hfree
      obtain ⟨hv₃, hset₃⟩ := hv₂.rehash mem
      refine ⟨hv₃, hm, hset₃.trans (hset₂.trans ?_)⟩
      rw [hset₁, hdiff]
  | find e => exact ⟨hv, findElem_matches hfs hv e, rfl⟩
  | delete e =>
    have hm := findElem_matches hfs hv e
    simp only [perform, hashDelete]
    cases hfound : findElem fs (h.buckets (findBucket fs h e)) e with
    | none =>
      rw [hfound] at hm
      exact ⟨hv, hm, hm.diff_eq_self.symm⟩
    | some found =>
      rw [hfound] at hm
      obtain ⟨hv₁, hset₁⟩ := hv.removeElem ((hm found).mp rfl).1
      obtain ⟨hv₂, hset₂⟩ := hv₁.rehash mem
      refine ⟨hv₂, hm, hset₂.trans (hset₁.trans ?_)⟩
      rw [hm.diff_eq hr hv.keyed]
  | clear =>
    obtain ⟨hv', hset⟩ := valid_empty fs h.bucketCnt_pos hv.power
    exact ⟨hv', rfl, hset⟩

/-- A history: every operation with what `malloc` answers to it. -/
def Performs [DecidableEq E] (fs : HashFuncs E) (h : Hash E) (op : KeyedOp E × Bool) (h' : Hash E) :
    Prop :=
  (perform fs op.2 h op.1).2 = h'

/-- Every reachable table is valid. -/
theorem reach_valid [DecidableEq E] (hfs : fs.Lawful) (hr : Reach (Performs fs) hashInit h) :
    h.Valid fs := by
  refine hr.invariant (valid_empty fs (by decide) ⟨0, rfl⟩).1 fun s op s' hv hstep => ?_
  rw [← show (perform fs op.2 s op.1).2 = s' from hstep]
  exact (perform_does hfs hv op.2 op.1).1

end Pintos.Kernel
