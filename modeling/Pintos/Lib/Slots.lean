import Mathlib.Data.Finmap
import Mathlib.Data.List.Nodup

/-!
# Tables of slots

A table is a list of slots, some of them in use. `View` says which, and what key and value a slot in
use has. While the keys in use are distinct the table is a finite map: filling a free slot inserts,
freeing a slot erases, a search from the front is the lookup, and there is a free slot as long as the
map is smaller than the table.
-/

namespace Pintos.Lib

variable {E K V : Type*}

/-- How a slot is read. -/
structure View (E K V : Type*) where
  used : E → Bool
  key : E → K
  val : E → V

namespace View

variable (v : View E K V) {es : List E} {e e₀ : E} {k : Nat}

/-- The keys in use, in the order of the slots. -/
def keys (es : List E) : List K := (es.filter v.used).map v.key

/-- No two slots in use have the same key. -/
def Distinct (es : List E) : Prop := (v.keys es).Nodup

/-- The map that the slots in use stand for. -/
def map [DecidableEq K] (es : List E) : Finmap fun _ : K => V :=
  ((es.filter v.used).map fun e => (⟨v.key e, v.val e⟩ : Sigma fun _ : K => V)).toFinmap

variable {v}

/-- A key is that of a slot in use. -/
theorem mem_keys {a : K} : a ∈ v.keys es ↔ ∃ e ∈ es, v.used e = true ∧ v.key e = a := by
  unfold keys
  rw [List.mem_map]
  constructor
  · rintro ⟨e, he, rfl⟩
    obtain ⟨hmem, hused⟩ := List.mem_filter.mp he
    exact ⟨e, hmem, hused, rfl⟩
  · rintro ⟨e, hmem, hused, rfl⟩
    exact ⟨e, List.mem_filter.mpr ⟨hmem, hused⟩, rfl⟩

/-- A slot in use brings its key. -/
theorem keys_cons_used (h : v.used e = true) : v.keys (e :: es) = v.key e :: v.keys es := by
  unfold keys
  rw [List.filter_cons_of_pos h, List.map_cons]

/-- An unused slot brings no key. -/
theorem keys_cons_unused (h : v.used e = false) : v.keys (e :: es) = v.keys es := by
  unfold keys
  rw [List.filter_cons_of_neg (by rw [h]; exact Bool.false_ne_true)]

/-- The keys stay distinct if the new one is new. -/
theorem distinct_cons_used (h : v.used e = true) :
    v.Distinct (e :: es) ↔ v.key e ∉ v.keys es ∧ v.Distinct es := by
  unfold Distinct
  rw [keys_cons_used h, List.nodup_cons]

/-- An unused slot takes no key. -/
theorem distinct_cons_unused (h : v.used e = false) : v.Distinct (e :: es) ↔ v.Distinct es := by
  unfold Distinct
  rw [keys_cons_unused h]

/-- A table with nothing in use. -/
theorem keys_of_unused (h : ∀ e ∈ es, v.used e = false) : v.keys es = [] := by
  unfold keys
  rw [List.filter_eq_nil_iff.mpr fun e he => by rw [h e he]; exact Bool.false_ne_true, List.map_nil]

/-! ## Filling and freeing a slot -/

/-- The keys when a free slot is filled. -/
theorem keys_set_used (hk : es[k]? = some e₀) (hfree : v.used e₀ = false) (hused : v.used e = true) :
    (v.keys (es.set k e)).Perm (v.key e :: v.keys es) := by
  induction es generalizing k with
  | nil => cases hk
  | cons x xs ih =>
    cases k with
    | zero =>
      cases hk
      rw [List.set_cons_zero, keys_cons_used hused, keys_cons_unused hfree]
    | succ k =>
      rw [List.set_cons_succ]
      cases hx : v.used x with
      | true =>
        rw [keys_cons_used hx, keys_cons_used hx]
        exact ((ih hk).cons _).trans (List.Perm.swap _ _ _)
      | false =>
        rw [keys_cons_unused hx, keys_cons_unused hx]
        exact ih hk

/-- The keys when a slot in use is freed. -/
theorem keys_set_unused (hk : es[k]? = some e₀) (hused : v.used e₀ = true) (hfree : v.used e = false) :
    (v.keys es).Perm (v.key e₀ :: v.keys (es.set k e)) := by
  induction es generalizing k with
  | nil => cases hk
  | cons x xs ih =>
    cases k with
    | zero =>
      cases hk
      rw [List.set_cons_zero, keys_cons_used hused, keys_cons_unused hfree]
    | succ k =>
      rw [List.set_cons_succ]
      cases hx : v.used x with
      | true =>
        rw [keys_cons_used hx, keys_cons_used hx]
        exact ((ih hk).cons _).trans (List.Perm.swap _ _ _)
      | false =>
        rw [keys_cons_unused hx, keys_cons_unused hx]
        exact ih hk

/-- A free slot may be filled with a new key. -/
theorem Distinct.set_used (h : v.Distinct es) (hk : es[k]? = some e₀) (hfree : v.used e₀ = false)
    (hused : v.used e = true) (hnew : v.key e ∉ v.keys es) : v.Distinct (es.set k e) :=
  (keys_set_used hk hfree hused).nodup_iff.mpr (List.nodup_cons.mpr ⟨hnew, h⟩)

/-- A slot may be freed. -/
theorem Distinct.set_unused (h : v.Distinct es) (hk : es[k]? = some e₀) (hused : v.used e₀ = true)
    (hfree : v.used e = false) : v.Distinct (es.set k e) :=
  (List.nodup_cons.mp ((keys_set_unused hk hused hfree).nodup_iff.mp h)).2

/-- What is left in use when a slot is freed. -/
theorem Distinct.mem_keys_set_unused {a : K} (h : v.Distinct es) (hk : es[k]? = some e₀)
    (hused : v.used e₀ = true) (hfree : v.used e = false) :
    a ∈ v.keys (es.set k e) ↔ a ∈ v.keys es ∧ a ≠ v.key e₀ := by
  have hperm := keys_set_unused hk hused hfree
  have hout := (List.nodup_cons.mp (hperm.nodup_iff.mp h)).1
  rw [hperm.mem_iff, List.mem_cons]
  constructor
  · exact fun ha => ⟨.inr ha, fun heq => hout (heq ▸ ha)⟩
  · exact fun ha => ha.1.resolve_left ha.2

/-! ## The map -/

section Map

variable [DecidableEq K]

/-- A slot in use is an entry of the map. -/
theorem map_cons_used (h : v.used e = true) :
    v.map (e :: es) = (v.map es).insert (v.key e) (v.val e) := by
  unfold map
  rw [List.filter_cons_of_pos h, List.map_cons, Finmap.toFinmap_cons]

/-- An unused slot is no entry of the map. -/
theorem map_cons_unused (h : v.used e = false) : v.map (e :: es) = v.map es := by
  unfold map
  rw [List.filter_cons_of_neg (by rw [h]; exact Bool.false_ne_true)]

/-- Where no slot is in use the map is empty. -/
theorem map_of_unused (h : ∀ e ∈ es, v.used e = false) : v.map es = ∅ := by
  unfold map
  rw [List.filter_eq_nil_iff.mpr fun e he => by rw [h e he]; exact Bool.false_ne_true, List.map_nil,
    Finmap.toFinmap_nil]

/-- A search from the front for the slot that has a key in use is the lookup. -/
theorem lookup_map {a : K} {p : E → Bool}
    (hp : ∀ e, p e = true ↔ v.used e = true ∧ v.key e = a) :
    (v.map es).lookup a = (es.find? p).map v.val := by
  induction es with
  | nil => rfl
  | cons x xs ih =>
    cases hpx : p x with
    | true =>
      obtain ⟨hused, hkey⟩ := (hp x).mp hpx
      rw [List.find?_cons_of_pos hpx, map_cons_used hused, hkey, Finmap.lookup_insert]
      rfl
    | false =>
      rw [List.find?_cons_of_neg (by rw [hpx]; exact Bool.false_ne_true), ← ih]
      cases hx : v.used x with
      | false => rw [map_cons_unused hx]
      | true =>
        have hne : a ≠ v.key x := by
          intro heq
          rw [(hp x).mpr ⟨hx, heq.symm⟩] at hpx
          exact Bool.noConfusion hpx
        rw [map_cons_used hx, Finmap.lookup_insert_of_ne _ hne]

/-- The map has the keys of the slots. -/
theorem mem_map {a : K} : a ∈ v.map es ↔ a ∈ v.keys es := by
  induction es with
  | nil => exact iff_of_false Finmap.notMem_empty List.not_mem_nil
  | cons x xs ih =>
    cases hx : v.used x with
    | false => rw [map_cons_unused hx, keys_cons_unused hx, ih]
    | true => rw [map_cons_used hx, keys_cons_used hx, Finmap.mem_insert, List.mem_cons, ih]

/-- It finds a slot where the map has the key. -/
theorem mem_map_iff_find {a : K} {p : E → Bool}
    (hp : ∀ e, p e = true ↔ v.used e = true ∧ v.key e = a) :
    a ∈ v.map es ↔ (es.find? p).isSome = true := by
  rw [← Finmap.lookup_isSome, lookup_map hp, Option.isSome_map]

/-- To fill a slot is to insert its key. -/
theorem map_set_used (hk : es[k]? = some e₀) (hfree : v.used e₀ = false) (hused : v.used e = true)
    (hnew : v.key e ∉ v.keys es) : v.map (es.set k e) = (v.map es).insert (v.key e) (v.val e) := by
  induction es generalizing k with
  | nil => cases hk
  | cons x xs ih =>
    cases k with
    | zero =>
      cases hk
      rw [List.set_cons_zero, map_cons_used hused, map_cons_unused hfree]
    | succ k =>
      rw [List.set_cons_succ]
      cases hx : v.used x with
      | false =>
        rw [keys_cons_unused hx] at hnew
        rw [map_cons_unused hx, map_cons_unused hx, ih hk hnew]
      | true =>
        rw [keys_cons_used hx, List.mem_cons, not_or] at hnew
        rw [map_cons_used hx, map_cons_used hx, ih hk hnew.2,
          Finmap.insert_insert_of_ne _ hnew.1]

/-- To free one is to erase it. -/
theorem Distinct.map_set_unused (h : v.Distinct es) (hk : es[k]? = some e₀)
    (hused : v.used e₀ = true) (hfree : v.used e = false) :
    v.map (es.set k e) = (v.map es).erase (v.key e₀) := by
  induction es generalizing k with
  | nil => cases hk
  | cons x xs ih =>
    cases k with
    | zero =>
      cases hk
      have hout := ((distinct_cons_used hused).mp h).1
      rw [List.set_cons_zero, map_cons_unused hfree, map_cons_used hused]
      refine Finmap.ext_lookup fun a => ?_
      by_cases heq : a = v.key e₀
      · rw [heq, Finmap.lookup_erase]
        exact Finmap.lookup_eq_none.mpr (mt mem_map.mp hout)
      · rw [Finmap.lookup_erase_ne heq, Finmap.lookup_insert_of_ne _ heq]
    | succ k =>
      rw [List.set_cons_succ]
      cases hx : v.used x with
      | false =>
        rw [map_cons_unused hx, map_cons_unused hx, ih ((distinct_cons_unused hx).mp h) hk]
      | true =>
        obtain ⟨hout, hrest⟩ := (distinct_cons_used hx).mp h
        have hne : v.key x ≠ v.key e₀ := fun heq =>
          hout (heq ▸ mem_keys.mpr ⟨e₀, List.mem_of_getElem? hk, hused, rfl⟩)
        rw [map_cons_used hx, map_cons_used hx, ih hrest hk]
        refine Finmap.ext_lookup fun a => ?_
        by_cases heq : a = v.key x
        · rw [heq, Finmap.lookup_insert, Finmap.lookup_erase_ne hne, Finmap.lookup_insert]
        · rw [Finmap.lookup_insert_of_ne _ heq]
          by_cases heq₀ : a = v.key e₀
          · rw [heq₀, Finmap.lookup_erase, Finmap.lookup_erase]
          · rw [Finmap.lookup_erase_ne heq₀, Finmap.lookup_erase_ne heq₀,
              Finmap.lookup_insert_of_ne _ heq]

/-! ## Room -/

/-- The keys of the map, as a set. -/
theorem keys_map : (v.map es).keys = (v.keys es).toFinset := by
  refine Finset.ext fun a => ?_
  rw [Finmap.mem_keys, mem_map, List.mem_toFinset]

/-- There are as many as there are slots in use. -/
theorem Distinct.card (h : v.Distinct es) : (v.map es).keys.card = (es.filter v.used).length := by
  rw [keys_map, List.toFinset_card_of_nodup h]
  exact List.length_map _

/-- There is a free slot exactly while the map is smaller than the table. -/
theorem Distinct.findIdx_lt (h : v.Distinct es) :
    es.findIdx (fun e => !v.used e) < es.length ↔ (v.map es).keys.card < es.length := by
  rw [h.card, List.findIdx_lt_length, List.length_filter_lt_length_iff_exists]
  simp only [Bool.not_eq_true', Bool.not_eq_true]

end Map

end View

end Pintos.Lib
