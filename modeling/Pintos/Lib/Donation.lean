import Mathlib.Order.Bounds.Basic
import Mathlib.Algebra.Order.Ring.Int

/-!
# Priority donation

Threads hold locks and are blocked on locks. A thread should run at the largest of its own base
priority and the priorities of all threads that wait for it, directly or through others. Nobody
recomputes this maximum: each thread has a current priority, which every operation adjusts.

`Exact` is the local form of "the adjustments are right": it looks at the locks a thread holds
and at the threads blocked on them, one step away. `Exact.greatest` says that the local form
everywhere is the global one. The other laws are the operations: a donor joins a queue and raises
the chain of holders in front of it, a thread takes a free lock, and a thread recomputes its own
priority after giving up a lock or changing its base.
-/

namespace Pintos.Lib

variable {T L : Type*}

/-- `w` is blocked, directly or through a chain of locks, on a lock that `t` holds. -/
inductive Donor (holder : L → Option T) (blocked : T → L → Prop) : T → T → Prop
  | direct {t w : T} {l : L} : holder l = some t → blocked w l → Donor holder blocked t w
  | chain {t u w : T} {l : L} : Donor holder blocked t u → holder l = some u → blocked w l →
      Donor holder blocked t w

/-- Priorities are exact, seen one lock at a time. -/
structure Exact (holder : L → Option T) (blocked : T → L → Prop) (prio base : T → Int)
    (live : T → Prop) : Prop where
  base_le : ∀ t, live t → base t ≤ prio t
  bound : ∀ {l t w}, holder l = some t → blocked w l → prio w ≤ prio t
  attained : ∀ t, live t →
    prio t = base t ∨ ∃ l w, holder l = some t ∧ blocked w l ∧ prio w = prio t

variable {holder holder' : L → Option T} {blocked blocked' : T → L → Prop}
  {prio prio' base base' : T → Int} {live live' : T → Prop}

theorem Exact.donor_le (h : Exact holder blocked prio base live) {t w : T}
    (hd : Donor holder blocked t w) : prio w ≤ prio t := by
  induction hd with
  | direct hl hb => exact h.bound hl hb
  | chain _ hl hb ih => exact le_trans (h.bound hl hb) ih

/-- Locally exact priorities are exact: each is the largest of the base priority and the
priorities of all donors. -/
theorem Exact.greatest (h : Exact holder blocked prio base live) {t : T} (ht : live t) :
    IsGreatest ({base t} ∪ {p | ∃ w, Donor holder blocked t w ∧ prio w = p}) (prio t) := by
  constructor
  · rcases h.attained t ht with hbase | ⟨l, w, hl, hb, hp⟩
    · exact .inl hbase
    · exact .inr ⟨w, .direct hl hb, hp⟩
  · rintro p (rfl | ⟨w, hd, rfl⟩)
    · exact h.base_le t ht
    · exact h.donor_le hd

/-! ## The chain in front of a donor -/

/-- The holders met by following `waits` from a lock: its holder, the holder of the lock that
one waits for, and so on. -/
inductive OnChain (holder : L → Option T) (waits : T → Option L) : Option L → T → Prop
  | here {l : L} {t : T} : holder l = some t → OnChain holder waits (some l) t
  | there {l : L} {t u : T} : holder l = some t → OnChain holder waits (waits t) u →
      OnChain holder waits (some l) u

/-- The locks met on the way. -/
inductive Passes (holder : L → Option T) (waits : T → Option L) : Option L → L → Prop
  | here {l : L} {t : T} : holder l = some t → Passes holder waits (some l) l
  | there {l l' : L} {t : T} : holder l = some t → Passes holder waits (waits t) l' →
      Passes holder waits (some l) l'

variable {waits : T → Option L}

/-- The chain goes on from each of its threads. -/
theorem OnChain.next {lo : Option L} {t u : T} {l : L} (h : OnChain holder waits lo t)
    (hw : waits t = some l) (hl : holder l = some u) : OnChain holder waits lo u := by
  induction h with
  | here ht => exact .there ht (hw ▸ .here hl)
  | there ht _ ih => exact .there ht (ih hw)

/-- A thread on the chain holds the first lock, or the lock an earlier thread waits for. -/
theorem OnChain.prev {lo : Option L} {l : L} {u : T} (h : OnChain holder waits lo u)
    (hlo : lo = some l) :
    holder l = some u ∨ ∃ t l', OnChain holder waits (some l) t ∧ waits t = some l' ∧
      holder l' = some u := by
  induction h generalizing l with
  | here ht =>
    cases hlo
    exact .inl ht
  | @there l₀ t u ht hrest ih =>
    cases hlo
    right
    cases hw : waits t with
    | none =>
      rw [hw] at hrest
      cases hrest
    | some l₁ =>
      rcases ih hw with hu | ⟨v, l', hv, hwv, hl'⟩
      · exact ⟨t, l₁, .here ht, hw, hu⟩
      · exact ⟨v, l', .there ht (hw ▸ hv), hwv, hl'⟩

/-- A lock passed is the first one, or the one a thread on the chain waits for; its holder is
on the chain. -/
theorem Passes.prev {lo : Option L} {l l' : L} (h : Passes holder waits lo l')
    (hlo : lo = some l) :
    (l' = l ∨ ∃ t, OnChain holder waits (some l) t ∧ waits t = some l') ∧
      ∃ u, holder l' = some u ∧ OnChain holder waits (some l) u := by
  induction h generalizing l with
  | here ht =>
    cases hlo
    exact ⟨.inl rfl, _, ht, .here ht⟩
  | @there l₀ l₂ t ht hrest ih =>
    cases hlo
    cases hw : waits t with
    | none =>
      rw [hw] at hrest
      cases hrest
    | some l₁ =>
      obtain ⟨hprev, u, hu, hc⟩ := ih hw
      refine ⟨.inr ?_, u, hu, .there ht (hw ▸ hc)⟩
      rcases hprev with rfl | ⟨v, hv, hwv⟩
      · exact ⟨t, .here ht, hw⟩
      · exact ⟨v, .there ht (hw ▸ hv), hwv⟩

/-- A held lock that a thread on the chain waits for is passed. -/
theorem OnChain.passes {lo : Option L} {t u : T} {l : L} (h : OnChain holder waits lo t)
    (hw : waits t = some l) (hl : holder l = some u) : Passes holder waits lo l := by
  induction h with
  | here ht => exact .there ht (hw ▸ .here hl)
  | there ht _ ih => exact .there ht (ih hw)

/-! ## The operations -/

/-- A donor that is not blocked joins the queue of a held lock, after raising the whole chain
of holders, all of lower priority, to its own. Whoever on the chain waits for a held lock is
really blocked on it. -/
theorem Exact.donate {cur : T} {l : L} {h₀ : T} (h : Exact holder blocked prio base live)
    (hl : holder l = some h₀) (hcur : ∀ l', ¬ blocked cur l')
    (hwaits : ∀ {w l'}, blocked w l' → waits w = some l')
    (hchain : ∀ {u l' v}, OnChain holder waits (some l) u → waits u = some l' →
      holder l' = some v → blocked u l')
    (hup : ∀ {u}, OnChain holder waits (some l) u → prio u < prio cur ∧ prio' u = prio cur)
    (hrest : ∀ {u}, ¬ OnChain holder waits (some l) u → prio' u = prio u)
    (hjoin : ∀ {w l'}, blocked' w l' ↔ blocked w l' ∨ (w = cur ∧ l' = l)) :
    Exact holder blocked' prio' base live := by
  have hself : prio' cur = prio cur := by
    refine hrest fun hc => ?_
    exact lt_irrefl _ (hup hc).1
  have hmono : ∀ t, prio t ≤ prio' t := by
    intro t
    by_cases ht : OnChain holder waits (some l) t
    · rw [(hup ht).2]
      exact le_of_lt (hup ht).1
    · rw [hrest ht]
  constructor
  · exact fun t ht => le_trans (h.base_le t ht) (hmono t)
  · intro l' t w hl' hb
    rcases hjoin.mp hb with hb | ⟨rfl, rfl⟩
    · by_cases hw : OnChain holder waits (some l) w
      · -- the chain goes on from `w` to the holder of the lock `w` is blocked on
        have ht := hw.next (hwaits hb) hl'
        rw [(hup hw).2, (hup ht).2]
      · rw [hrest hw]
        exact le_trans (h.bound hl' hb) (hmono t)
    · rw [hself, (hup (.here hl')).2]
  · intro t ht
    by_cases hc : OnChain holder waits (some l) t
    · right
      rcases hc.prev rfl with ht₀ | ⟨u, l', hu, hwu, hl'⟩
      · exact ⟨l, cur, ht₀, hjoin.mpr (.inr ⟨rfl, rfl⟩), by rw [hself, (hup hc).2]⟩
      · exact ⟨l', u, hl', hjoin.mpr (.inl (hchain hu hwu hl')),
          by rw [(hup hu).2, (hup hc).2]⟩
    · rw [hrest hc]
      rcases h.attained t ht with hbase | ⟨l', w, hl', hb, hp⟩
      · exact .inl hbase
      · refine .inr ⟨l', w, hl', hjoin.mpr (.inl hb), ?_⟩
        rw [hrest fun hw => hc (hw.next (hwaits hb) hl'), hp]

/-- A thread joins the queue of a lock whose holder has at least its priority. -/
theorem Exact.join {cur X : T} {l : L} (h : Exact holder blocked prio base live)
    (hl : holder l = some X) (hle : prio cur ≤ prio X)
    (hjoin : ∀ {w l'}, blocked' w l' ↔ blocked w l' ∨ (w = cur ∧ l' = l)) :
    Exact holder blocked' prio base live := by
  refine ⟨h.base_le, ?_, fun t ht => ?_⟩
  · intro l' t w hl' hb
    rcases hjoin.mp hb with hb | ⟨rfl, rfl⟩
    · exact h.bound hl' hb
    · rw [hl] at hl'
      exact Option.some.inj hl' ▸ hle
  · refine (h.attained t ht).imp id ?_
    rintro ⟨l', w, hl', hb, hp⟩
    exact ⟨l', w, hl', hjoin.mpr (.inl hb), hp⟩

/-- A thread takes a free lock; nobody blocked on it has a higher priority. -/
theorem Exact.take {cur : T} {l : L} (h : Exact holder blocked prio base live)
    (hfree : holder l = none) (hle : ∀ {w}, blocked w l → prio w ≤ prio cur)
    (hl : holder' l = some cur) (hother : ∀ {l'}, l' ≠ l → holder' l' = holder l') :
    Exact holder' blocked prio base live := by
  refine ⟨h.base_le, ?_, fun t ht => ?_⟩
  · intro l' t w hl' hb
    by_cases he : l' = l
    · rw [he, hl] at hl'
      exact Option.some.inj hl' ▸ hle (he ▸ hb)
    · rw [hother he] at hl'
      exact h.bound hl' hb
  · refine (h.attained t ht).imp id ?_
    rintro ⟨l', w, hl', hb, hp⟩
    have he : l' ≠ l := by
      rintro rfl
      rw [hfree] at hl'
      cases hl'
    exact ⟨l', w, (hother he).trans hl', hb, hp⟩

/-- A thread that is not blocked recomputes its priority, possibly after giving locks up: what
it computes is its base or the priority of a thread blocked on a lock it keeps, and covers all
of these. The queues of the locks kept are as they were. -/
theorem Exact.recompute {cur : T} (h : Exact holder blocked prio base live)
    (hcur : ∀ l, ¬ blocked cur l)
    (hkeep : ∀ {l t}, holder' l = some t → holder l = some t)
    (hothers : ∀ {l t}, t ≠ cur → holder l = some t → holder' l = some t)
    (hqueue : ∀ {l t w}, holder' l = some t → (blocked' w l ↔ blocked w l))
    (hprio : ∀ {t}, t ≠ cur → prio' t = prio t) (hbase : ∀ {t}, t ≠ cur → base' t = base t)
    (hself : base' cur ≤ prio' cur)
    (hbound : ∀ {l w}, holder' l = some cur → blocked w l → prio w ≤ prio' cur)
    (hattained : prio' cur = base' cur ∨
      ∃ l w, holder' l = some cur ∧ blocked w l ∧ prio w = prio' cur) :
    Exact holder' blocked' prio' base' live := by
  have hne : ∀ {w l}, blocked w l → w ≠ cur := by
    rintro w l hb rfl
    exact hcur l hb
  refine ⟨fun t ht => ?_, ?_, fun t ht => ?_⟩
  · by_cases he : t = cur
    · rw [he]
      exact hself
    · rw [hprio he, hbase he]
      exact h.base_le t ht
  · intro l t w hl hb
    have hb' := (hqueue hl).mp hb
    rw [hprio (hne hb')]
    by_cases he : t = cur
    · subst he
      exact hbound hl hb'
    · rw [hprio he]
      exact h.bound (hkeep hl) hb'
  · by_cases he : t = cur
    · subst he
      refine hattained.imp id ?_
      rintro ⟨l, w, hl, hb, hp⟩
      exact ⟨l, w, hl, (hqueue hl).mpr hb, by rw [hprio (hne hb), hp]⟩
    · rw [hprio he, hbase he]
      refine (h.attained t ht).imp id ?_
      rintro ⟨l, w, hl, hb, hp⟩
      have hl' := hothers he hl
      exact ⟨l, w, hl', (hqueue hl').mpr hb, by rw [hprio (hne hb), hp]⟩

end Pintos.Lib
