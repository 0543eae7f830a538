import Mathlib.Algebra.Order.Ring.Int
import Mathlib.Data.List.Nodup
import Pintos.Userprog.Family

/-!
# Parent and child links

`Linked` says that the pointers between a process and its children agree: a live child whose
`parent` is set is in the `childList` of a live parent, and an entry whose `t` is set points to a
live child of that parent. It is kept by every step, and with it `thread_exit` never follows a
bad pointer: `threadExit_eq` says what it leaves.

`Moves` lists what an event can do, one constructor for each branch of the code.
-/

namespace Pintos.Userprog

open Pintos.Lib

variable {s s' : Family} {p : ProcRef}

@[simp] theorem modProc_procs (s : Family) (p r : ProcRef) (f : Proc → Proc) :
    (s.modProc p f).procs r = if r = p then f (s.procs p) else s.procs r := by
  exact Function.update_apply s.procs p (f (s.procs p)) r

@[simp] theorem modProc_nextTid (s : Family) (p : ProcRef) (f : Proc → Proc) :
    (s.modProc p f).nextTid = s.nextTid := rfl

@[simp] theorem modProc_log (s : Family) (p : ProcRef) (f : Proc → Proc) :
    (s.modProc p f).log = s.log := rfl

@[simp] theorem setPc_procs (s : Family) (p r : ProcRef) (pc : Pc) :
    (s.setPc p pc).procs r = if r = p then { s.procs p with pc := pc } else s.procs r :=
  modProc_procs s p r _

@[simp] theorem setPc_nextTid (s : Family) (p : ProcRef) (pc : Pc) :
    (s.setPc p pc).nextTid = s.nextTid := rfl

@[simp] theorem setPc_log (s : Family) (p : ProcRef) (pc : Pc) : (s.setPc p pc).log = s.log := rfl

@[simp] theorem note_procs (s : Family) (f : Fact) : (s.note f).procs = s.procs := rfl

@[simp] theorem note_nextTid (s : Family) (f : Fact) : (s.note f).nextTid = s.nextTid := rfl

@[simp] theorem note_log (s : Family) (f : Fact) : (s.note f).log = s.log ++ [f] := rfl

/-- A page is read where its process is alive. -/
theorem deref_eq_ok {t : Proc} : s.deref p = .ok t ↔ (s.procs p).live = true ∧ t = s.procs p := by
  unfold Family.deref
  split
  next h => simp [h, eq_comm]
  next h => simp [h]

theorem deref_of_live (h : (s.procs p).live = true) : s.deref p = .ok (s.procs p) :=
  deref_eq_ok.mpr ⟨h, rfl⟩

/-! ## What a step does -/

/-- An event at which a process calls `thread_exit`: by itself, killed, or out of
`start_process`. -/
def Event.isExit (pc : Pc) : Event → Bool
  | .exit _ _ => pc = .user
  | .alloc _ ok => !ok && pc = .startCopy
  | .load _ none => pc = .loading
  | .run _ => pc = .started false
  | _ => false

/-- The status a process that had `old` leaves at an event at which it exits: only `SYS_EXIT`
stores one. -/
def Event.status (old : Int) : Event → Int
  | .exit _ (some v) => v
  | _ => old

/-- The branches of `step`. -/
inductive Moves (s : Family) (p : ProcRef) : Event → Family → Prop
  | exec {n : List UInt8} : (s.procs p).pc = .user → (s.procs p).isUser = true →
      Moves s p (.exec p n) (s.setPc p (.execCopy false n))
  | runTask {n : List UInt8} : (s.procs p).pc = .user → (s.procs p).isUser = false →
      Moves s p (.runTask p n) (s.setPc p (.execCopy true n))
  | wait {tid : Tid} : (s.procs p).pc = .user → (s.procs p).isUser = true →
      Moves s p (.wait p tid) (s.setPc p (.waitFind tid))
  | exits {e : Event} (status : Int) {s' : Family} : e.isExit (s.procs p).pc = true →
      status = e.status (s.procs p).exitStatus →
      threadExit p (s.modProc p fun t => { t with exitStatus := status }) = .ok s' →
      Moves s p e s'
  | copied {d : Bool} {n : List UInt8} : (s.procs p).pc = .execCopy d n →
      Moves s p (.alloc p true) (s.setPc p (.execCopy2 d n))
  | copied2 {d : Bool} {n : List UInt8} : (s.procs p).pc = .execCopy2 d n →
      Moves s p (.alloc p true) (s.setPc p (.execCreate d n))
  | uncopied {d : Bool} {n : List UInt8} :
      (s.procs p).pc = .execCopy d n ∨ (s.procs p).pc = .execCopy2 d n →
      Moves s p (.alloc p false) (s.setPc p (afterExecute d tidError))
  | startCopied : (s.procs p).pc = .startCopy → Moves s p (.alloc p true) (s.setPc p .loading)
  | uncreated {d : Bool} {n : List UInt8} : (s.procs p).pc = .execCreate d n →
      Moves s p (.create p none) (s.setPc p (afterExecute d tidError))
  | created {d : Bool} {n : List UInt8} {c : ProcRef} : (s.procs p).pc = .execCreate d n →
      (s.procs c).live = false → Moves s p (.create p (some c))
        ((threadCreateWithParent p c s).setPc p (afterExecute d s.nextTid))
  | loaded {b : Bool} : (s.procs p).pc = .loading → Moves s p (.load p (some b))
      ((s.setPc p (.reporting b)).note (.loaded (s.procs p).tid b))
  | execDown {pid : Tid} : (s.procs p).pc = .execDown pid → (s.procs p).waiting2 ≠ 0 →
      Moves s p (.run p)
        (s.modProc p fun t => { t with waiting2 := t.waiting2 - 1, pc := .execRead pid })
  | execRead {pid : Tid} : (s.procs p).pc = .execRead pid → Moves s p (.run p)
      ((s.setPc p .user).note (.execed (s.procs p).tid pid
        (if (s.procs p).childLoadStatus then pid else -1)))
  | unreported {b : Bool} : (s.procs p).pc = .reporting b → (s.procs p).parent = none →
      Moves s p (.run p) (s.setPc p (.started b))
  | reported {b : Bool} {q : ProcRef} : (s.procs p).pc = .reporting b →
      (s.procs p).parent = some q → (s.procs q).live = true → Moves s p (.run p)
        ((s.modProc q fun t => { t with childLoadStatus := b }).setPc p (.upping b))
  | upped {b : Bool} {q : ProcRef} : (s.procs p).pc = .upping b →
      (s.procs p).parent = some q → (s.procs q).live = true → Moves s p (.run p)
        ((s.modProc q fun t => { t with waiting2 := t.waiting2 + 1 }).setPc p (.started b))
  | started : (s.procs p).pc = .started true → Moves s p (.run p) (s.setPc p .user)
  | unfound {tid : Tid} : (s.procs p).pc = .waitFind tid →
      (s.procs p).childList.find? (·.tid == tid) = none →
      Moves s p (.run p) (waitReturns p tid (-1) s)
  | found {tid : Tid} {e : ChildElem} : (s.procs p).pc = .waitFind tid →
      (s.procs p).childList.find? (·.tid == tid) = some e →
      Moves s p (.run p) (s.setPc p (.waitRead tid))
  | readNull {tid : Tid} {e : ChildElem} : (s.procs p).pc = .waitRead tid →
      (s.procs p).childList.find? (·.tid == tid) = some e → e.t = none →
      Moves s p (.run p) (s.setPc p (.waitStatus tid))
  | read {tid : Tid} {e : ChildElem} {t : ProcRef} : (s.procs p).pc = .waitRead tid →
      (s.procs p).childList.find? (·.tid == tid) = some e → e.t = some t →
      Moves s p (.run p) (s.setPc p (.waitFlag tid t))
  | flagged {tid : Tid} {t : ProcRef} : (s.procs p).pc = .waitFlag tid t →
      (s.procs t).live = true → Moves s p (.run p)
        ((s.modProc t fun c => { c with isParentWaiting := true }).setPc p (.waitDown tid))
  | downed {tid : Tid} : (s.procs p).pc = .waitDown tid → (s.procs p).waiting ≠ 0 →
      Moves s p (.run p)
        (s.modProc p fun t => { t with waiting := t.waiting - 1, pc := .waitStatus tid })
  | returned {tid : Tid} {e : ChildElem} : (s.procs p).pc = .waitStatus tid →
      (s.procs p).childList.find? (·.tid == tid) = some e →
      Moves s p (.run p) (waitReturns p tid e.exitStatus (s.modProc p fun t =>
        { t with childList := t.childList.map fun e' =>
          if e'.tid = tid then { e' with exitStatus := -1 } else e' }))

/-- A process that exits with the status it has. -/
theorem modProc_exitStatus_self (s : Family) (p : ProcRef) :
    (s.modProc p fun t => { t with exitStatus := (s.procs p).exitStatus }) = s := by
  unfold Family.modProc
  have h : Function.update s.procs p
      { s.procs p with exitStatus := (s.procs p).exitStatus } = s.procs :=
    Function.update_eq_self p s.procs
  rw [h]

/-- Taking a page moves the program counter alone. -/
theorem stepAlloc_moves {ok : Bool} (h : stepAlloc p ok s = .ok s') :
    Moves s p (.alloc p ok) s' := by
  unfold stepAlloc at h
  split at h
  next d n hpc =>
    cases h
    cases ok
    · exact .uncopied (.inl hpc)
    · exact .copied hpc
  next d n hpc =>
    cases h
    cases ok
    · exact .uncopied (.inr hpc)
    · exact .copied2 hpc
  next hpc =>
    split at h
    next hok =>
      cases h
      rw [hok]
      exact .startCopied hpc
    next hok =>
      refine .exits (s.procs p).exitStatus (by simp [Event.isExit, hpc, hok]) rfl ?_
      rw [modProc_exitStatus_self]
      exact h
  next => cases h

/-- The creation of a process adds one to its creator's list, or fails. -/
theorem stepCreate_moves {page : Option ProcRef} (h : stepCreate p page s = .ok s') :
    Moves s p (.create p page) s' := by
  unfold stepCreate at h
  split at h
  next d n hpc =>
    cases h
    exact .uncreated hpc
  next d n c hpc =>
    split at h
    next => cases h
    next hlive =>
      split at h
      next => cases h
      next =>
        cases h
        exact .created hpc (by simpa using hlive)
  next => cases h

/-- Loading is recorded, and the parent does not know it yet. -/
theorem stepLoad_moves {success : Option Bool} (h : stepLoad p success s = .ok s') :
    Moves s p (.load p success) s' := by
  unfold stepLoad at h
  split at h
  next b hpc =>
    cases h
    exact .loaded hpc
  next hpc =>
    refine .exits (s.procs p).exitStatus (by simp [Event.isExit, hpc]) rfl ?_
    rw [modProc_exitStatus_self]
    exact h
  next => cases h

/-- What a process does by itself is one of the moves. -/
theorem stepRun_moves (h : stepRun p s = .ok s') : Moves s p (.run p) s' := by
  unfold stepRun at h
  split at h
  next pid hpc =>
    split at h
    next => cases h
    next hw =>
      cases h
      exact .execDown hpc hw
  next pid hpc =>
    cases h
    exact .execRead hpc
  next b hpc =>
    split at h
    next hq =>
      cases h
      exact .unreported hpc hq
    next q hq =>
      obtain ⟨t, ht, h⟩ := bind_eq_ok.mp h
      cases h
      exact .reported hpc hq (deref_eq_ok.mp ht).1
  next b hpc =>
    split at h
    next => cases h
    next q hq =>
      obtain ⟨t, ht, h⟩ := bind_eq_ok.mp h
      cases h
      exact .upped hpc hq (deref_eq_ok.mp ht).1
  next b hpc =>
    cases b with
    | true =>
      cases h
      exact .started hpc
    | false =>
      refine .exits (s.procs p).exitStatus (by simp [Event.isExit, hpc]) rfl ?_
      rw [modProc_exitStatus_self]
      exact h
  next tid hpc =>
    split at h
    next hf =>
      cases h
      exact .unfound hpc hf
    next e hf =>
      cases h
      exact .found hpc hf
  next tid hpc =>
    split at h
    next => cases h
    next e hf =>
      split at h
      next ht =>
        cases h
        exact .readNull hpc hf ht
      next t ht =>
        cases h
        exact .read hpc hf ht
  next tid t hpc =>
    obtain ⟨c, hc, h⟩ := bind_eq_ok.mp h
    cases h
    exact .flagged hpc (deref_eq_ok.mp hc).1
  next tid hpc =>
    split at h
    next => cases h
    next hw =>
      cases h
      exact .downed hpc hw
  next tid hpc =>
    split at h
    next => cases h
    next e hf =>
      cases h
      exact .returned hpc hf
  next => cases h

/-- Every step is one of the branches, by a live process. -/
theorem step_moves {e : Event} (h : step e s = .ok s') :
    (s.procs e.proc).live = true ∧ Moves s e.proc e s' := by
  unfold step at h
  split at h
  next => cases h
  next hlive =>
    refine ⟨by simpa using hlive, ?_⟩
    cases e with
    | exec p n =>
      dsimp only at h
      split at h
      next hc =>
        cases h
        exact .exec hc.1 hc.2
      next => cases h
    | runTask p n =>
      dsimp only at h
      split at h
      next hc =>
        cases h
        exact .runTask hc.1 hc.2
      next => cases h
    | wait p tid =>
      dsimp only at h
      split at h
      next hc =>
        cases h
        exact .wait hc.1 hc.2
      next => cases h
    | exit p status =>
      dsimp only at h
      split at h
      next hc =>
        have hexit : (Event.exit p status).isExit (s.procs p).pc = true := by
          simp [Event.isExit, hc]
        refine .exits (status.getD (s.procs p).exitStatus) hexit ?_ h
        cases status with
        | none => rfl
        | some v => rfl
      next => cases h
    | alloc p ok => exact stepAlloc_moves h
    | create p page => exact stepCreate_moves h
    | load p success => exact stepLoad_moves h
    | run p => exact stepRun_moves h

/-! ## The links -/

/-- The pointers between processes agree; see the head of this module. -/
structure Linked (s : Family) : Prop where
  tidLt : ∀ {p}, (s.procs p).live = true → (s.procs p).tid < s.nextTid
  tidInj : ∀ {p q}, (s.procs p).live = true → (s.procs q).live = true →
    (s.procs p).tid = (s.procs q).tid → p = q
  older : ∀ {c p}, (s.procs c).live = true → (s.procs c).parent = some p →
    (s.procs p).tid < (s.procs c).tid
  listed : ∀ {c p}, (s.procs c).live = true → (s.procs c).parent = some p →
    (s.procs p).live = true ∧ ∃ e ∈ (s.procs p).childList, e.t = some c
  entry : ∀ {p e c}, (s.procs p).live = true → e ∈ (s.procs p).childList → e.t = some c →
    (s.procs c).live = true ∧ (s.procs c).parent = some p ∧ (s.procs c).tid = e.tid
  entryLt : ∀ {p e}, (s.procs p).live = true → e ∈ (s.procs p).childList → e.tid < s.nextTid
  nodup : ∀ {p}, (s.procs p).live = true → ((s.procs p).childList.map (·.tid)).Nodup

/-- What `thread_do_child_dying` makes of an entry of the parent of `p`. -/
def closeElem (s : Family) (p : ProcRef) (e : ChildElem) : ChildElem :=
  if e.t = some p then { e with exitStatus := (s.procs p).exitStatus, t := none } else e

/-- What is left of a process by the exit of `p`. -/
def exitProc (s : Family) (p r : ProcRef) : Proc :=
  if r = p then { s.procs r with childList := [], live := false }
  else if (s.procs p).parent = some r then
    { s.procs r with
      childList := (s.procs r).childList.map (closeElem s p)
      waiting := if (s.procs p).isParentWaiting then (s.procs r).waiting + 1
        else (s.procs r).waiting }
  else if (s.procs r).live = true ∧ (s.procs r).parent = some p then
    { s.procs r with parent := none }
  else s.procs r

/-- `thread_exit` of `p`, as a whole. -/
def exited (s : Family) (p : ProcRef) : Family :=
  { s with
    procs := exitProc s p
    log := s.log ++ [.exited (s.procs p).tid (s.procs p).exitStatus] }

/-- Where the children are alive and each has its tid, the loop over the list closes the entries of
the one that dies. -/
theorem threadDoChildDying_eq : ∀ {l : List ChildElem},
    (∀ e ∈ l, ∀ r, e.t = some r → (s.procs r).live = true ∧
      ((s.procs r).tid = (s.procs p).tid → r = p)) →
    threadDoChildDying s p l = .ok (l.map (closeElem s p))
  | [], _ => rfl
  | e :: rest, h => by
    have hrest := threadDoChildDying_eq fun e' he' => h e' (List.mem_cons_of_mem _ he')
    have he := h e List.mem_cons_self
    unfold threadDoChildDying
    cases ht : e.t with
    | none =>
      have hclose : closeElem s p e = e := by simp [closeElem, ht]
      simp only [hrest, List.map_cons, hclose]
      rfl
    | some r =>
      obtain ⟨hlive, htid⟩ := he r ht
      by_cases hr : r = p
      · subst hr
        have hclose : closeElem s r e =
            { e with exitStatus := (s.procs r).exitStatus, t := none } := by simp [closeElem, ht]
        simp only [deref_of_live hlive, hrest, List.map_cons, hclose]
        simp [bind, Except.bind]
      · have hne : (s.procs r).tid ≠ (s.procs p).tid := fun he => hr (htid he)
        have hclose : closeElem s p e = e := by simp [closeElem, ht, hr]
        simp only [deref_of_live hlive, hrest, List.map_cons, hclose]
        simp [bind, Except.bind, hne]

/-- A process after the loop over the children of an exiting one. -/
def orphanProc (l : List ChildElem) (s : Family) (r : ProcRef) : Proc :=
  if l.any (·.t == some r) then { s.procs r with parent := none } else s.procs r

/-- The loop over the caller's children, as one update. -/
theorem orphan_eq : ∀ {l : List ChildElem} {s : Family},
    (∀ e ∈ l, ∀ r, e.t = some r → (s.procs r).live = true) →
    orphan l s = .ok { s with procs := orphanProc l s }
  | [], s, _ => rfl
  | e :: rest, s, h => by
    have hrest : ∀ e' ∈ rest, ∀ r, e'.t = some r → (s.procs r).live = true :=
      fun e' he' => h e' (List.mem_cons_of_mem _ he')
    unfold orphan
    cases ht : e.t with
    | none =>
      dsimp only
      rw [orphan_eq hrest]
      congr 2
      funext r
      simp [orphanProc, ht]
    | some q =>
      dsimp only
      rw [deref_of_live (h e List.mem_cons_self q ht)]
      simp only [bind, Except.bind]
      rw [orphan_eq]
      · congr 2
        funext r
        simp only [orphanProc, modProc_procs, List.any_cons, ht]
        by_cases hr : r = q
        · subst hr
          simp
        · simp [hr, Ne.symm hr]
      · intro e' he' r hr
        rw [modProc_procs]
        split
        next hrq =>
          subst hrq
          exact hrest e' he' r hr
        next => exact hrest e' he' r hr

/-- Nobody is its own parent. -/
theorem Linked.parent_ne (h : Linked s) {c : ProcRef} (hc : (s.procs c).live = true)
    (hp : (s.procs c).parent = some p) : p ≠ c := by
  rintro rfl
  exact lt_irrefl _ (h.older hc hp)

/-- The entries of `p` that point to `r` exist exactly when `r` is a live child of `p`. -/
theorem Linked.any_iff (h : Linked s) (hp : (s.procs p).live = true) (r : ProcRef) :
    (s.procs p).childList.any (·.t == some r) = true ↔
      (s.procs r).live = true ∧ (s.procs r).parent = some p := by
  rw [List.any_eq_true]
  constructor
  · rintro ⟨e, he, ht⟩
    obtain ⟨hl, hpar, _⟩ := h.entry hp he (by simpa using ht)
    exact ⟨hl, hpar⟩
  · rintro ⟨hl, hpar⟩
    obtain ⟨_, e, he, ht⟩ := h.listed hl hpar
    exact ⟨e, he, by simp [ht]⟩

/-- A process after the exit of `p` has been told to the parent. -/
def toldProc (s : Family) (p r : ProcRef) : Proc :=
  if (s.procs p).parent = some r then
    { s.procs r with
      childList := (s.procs r).childList.map (closeElem s p)
      waiting := if (s.procs p).isParentWaiting then (s.procs r).waiting + 1
        else (s.procs r).waiting }
  else s.procs r

/-- A live process finds its parent alive, and tells it. -/
theorem Linked.tellParent_eq (h : Linked s) (hp : (s.procs p).live = true) :
    tellParent p s = .ok { s with procs := toldProc s p } := by
  unfold tellParent
  cases hpar : (s.procs p).parent with
  | none =>
    have hsame : toldProc s p = s.procs := by
      funext r
      simp [toldProc, hpar]
    rw [hsame]
  | some q =>
    obtain ⟨hq, _⟩ := h.listed hp hpar
    dsimp only
    rw [deref_of_live hq, bind_ok, threadDoChildDying_eq, bind_ok]
    · simp only [Family.modProc, Except.ok.injEq, Family.mk.injEq, and_true]
      funext r
      simp only [toldProc, hpar, Function.update_apply, Option.some.injEq]
      by_cases hr : r = q
      · subst hr
        simp
      · simp [hr, Ne.symm hr]
    · intro e he r hr
      obtain ⟨hl, _, _⟩ := h.entry hq he hr
      exact ⟨hl, h.tidInj hl hp⟩

/-- With the links in order, `thread_exit` follows no bad pointer. -/
theorem Linked.threadExit_eq (h : Linked s) (hp : (s.procs p).live = true) :
    threadExit p s = .ok (exited s p) := by
  have hself : toldProc s p p = s.procs p := by
    refine if_neg fun hpar => ?_
    exact h.parent_ne hp hpar rfl
  have hlive : ∀ r, (toldProc s p r).live = (s.procs r).live := by
    intro r
    unfold toldProc
    split <;> rfl
  have hnot : (s.procs p).childList.any (·.t == some p) = false := by
    rw [Bool.eq_false_iff]
    intro hr
    obtain ⟨hl, hpar⟩ := (h.any_iff hp p).mp hr
    exact h.parent_ne hl hpar rfl
  unfold threadExit
  rw [h.tellParent_eq hp, bind_ok]
  dsimp only
  rw [hself, orphan_eq, bind_ok]
  · have horphan : orphanProc (s.procs p).childList { s with procs := toldProc s p } p =
        s.procs p := by
      simp [orphanProc, hnot, hself]
    simp only [horphan, exited, Family.note, Family.modProc, Except.ok.injEq, Family.mk.injEq,
      and_true]
    funext r
    rw [Function.update_apply]
    unfold exitProc
    split
    next hr => rw [hr]
    next hr =>
      unfold orphanProc toldProc
      by_cases hc : (s.procs r).live = true ∧ (s.procs r).parent = some p
      · have hany := (h.any_iff hp r).mpr hc
        have hpar : (s.procs p).parent ≠ some r := by
          intro hpr
          exact lt_asymm (h.older hp hpr) (h.older hc.1 hc.2)
        simp only [if_pos hany, if_neg hpar, if_pos hc]
      · have hany : ¬ (s.procs p).childList.any (·.t == some r) = true :=
          fun hr' => hc ((h.any_iff hp r).mp hr')
        simp only [if_neg hany, if_neg hc]
  · intro e he r hr
    show (toldProc s p r).live = true
    rw [hlive]
    exact (h.entry hp he hr).1

/-! ## Every step keeps them -/

/-- Links read `live`, `tid`, `parent`, and of each entry `tid` and `t`. -/
theorem Linked.congr (h : Linked s) (hn : s'.nextTid = s.nextTid)
    (hp : ∀ r, (s'.procs r).live = (s.procs r).live ∧ (s'.procs r).tid = (s.procs r).tid ∧
      (s'.procs r).parent = (s.procs r).parent)
    (hl : ∀ r, ∃ g : ChildElem → ChildElem, (∀ e, (g e).tid = e.tid ∧ (g e).t = e.t) ∧
      (s'.procs r).childList = (s.procs r).childList.map g) : Linked s' := by
  constructor
  case tidLt =>
    intro p hp'
    rw [(hp p).1] at hp'
    rw [(hp p).2.1, hn]
    exact h.tidLt hp'
  case tidInj =>
    intro p q hp' hq' ht
    rw [(hp p).1] at hp'
    rw [(hp q).1] at hq'
    rw [(hp p).2.1, (hp q).2.1] at ht
    exact h.tidInj hp' hq' ht
  case older =>
    intro c p hc hpar
    rw [(hp c).1] at hc
    rw [(hp c).2.2] at hpar
    rw [(hp c).2.1, (hp p).2.1]
    exact h.older hc hpar
  case listed =>
    intro c p hc hpar
    rw [(hp c).1] at hc
    rw [(hp c).2.2] at hpar
    obtain ⟨hlive, e, he, ht⟩ := h.listed hc hpar
    obtain ⟨g, hg, hlist⟩ := hl p
    refine ⟨(hp p).1.trans hlive, g e, ?_, (hg e).2.trans ht⟩
    rw [hlist]
    exact List.mem_map_of_mem he
  case entry =>
    intro p e c hp' he ht
    rw [(hp p).1] at hp'
    obtain ⟨g, hg, hlist⟩ := hl p
    rw [hlist] at he
    obtain ⟨e', he', rfl⟩ := List.mem_map.mp he
    rw [(hp c).1, (hp c).2.1, (hp c).2.2, (hg e').1]
    exact h.entry hp' he' ((hg e').2.symm.trans ht)
  case entryLt =>
    intro p e hp' he
    rw [(hp p).1] at hp'
    obtain ⟨g, hg, hlist⟩ := hl p
    rw [hlist] at he
    obtain ⟨e', he', rfl⟩ := List.mem_map.mp he
    rw [(hg e').1, hn]
    exact h.entryLt hp' he'
  case nodup =>
    intro p hp'
    rw [(hp p).1] at hp'
    obtain ⟨g, hg, hlist⟩ := hl p
    have hmap : (List.map g (s.procs p).childList).map (·.tid) =
        (s.procs p).childList.map (·.tid) := by
      rw [List.map_map]
      exact List.map_congr_left fun e _ => (hg e).1
    rw [hlist, hmap]
    exact h.nodup hp'

/-- The links when no list changes. -/
theorem Linked.congr_same (h : Linked s) (hn : s'.nextTid = s.nextTid)
    (hp : ∀ r, (s'.procs r).live = (s.procs r).live ∧ (s'.procs r).tid = (s.procs r).tid ∧
      (s'.procs r).parent = (s.procs r).parent ∧
      (s'.procs r).childList = (s.procs r).childList) : Linked s' := by
  refine h.congr hn (fun r => ⟨(hp r).1, (hp r).2.1, (hp r).2.2.1⟩) fun r => ?_
  exact ⟨id, fun _ => ⟨rfl, rfl⟩, by rw [List.map_id]; exact (hp r).2.2.2⟩

/-- An exit ends one process, and no other. -/
theorem exitProc_live (s : Family) (p r : ProcRef) :
    (exitProc s p r).live = true ↔ (s.procs r).live = true ∧ r ≠ p := by
  unfold exitProc
  by_cases hr : r = p
  · simp [hr]
  · simp only [hr, if_false, ne_eq, not_false_eq_true, and_true]
    split
    · rfl
    · split <;> rfl

theorem exitProc_tid (s : Family) (p r : ProcRef) : (exitProc s p r).tid = (s.procs r).tid := by
  unfold exitProc
  split
  · rfl
  · split
    · rfl
    · split <;> rfl

/-- Who still has a parent after an exit: the live children of the other processes. -/
theorem Linked.exitProc_parent (h : Linked s) (hp : (s.procs p).live = true) {c q : ProcRef}
    (hc : (s.procs c).live = true) (hne : c ≠ p) :
    (exitProc s p c).parent = some q ↔ (s.procs c).parent = some q ∧ q ≠ p := by
  unfold exitProc
  rw [if_neg hne]
  split
  next htold =>
    refine ⟨fun hpar => ⟨hpar, ?_⟩, fun hpar => hpar.1⟩
    rintro rfl
    exact lt_asymm (h.older hp htold) (h.older hc hpar)
  next =>
    split
    next hmine =>
      constructor
      · intro hpar
        cases hpar
      · rintro ⟨hpar, hq⟩
        rw [hmine.2] at hpar
        exact absurd (Option.some.inj hpar).symm hq
    next hnot =>
      refine ⟨fun hpar => ⟨hpar, ?_⟩, fun hpar => hpar.1⟩
      rintro rfl
      exact hnot ⟨hc, hpar⟩

/-- An entry that is closed keeps its tid. -/
theorem closeElem_tid (s : Family) (p : ProcRef) (e : ChildElem) :
    (closeElem s p e).tid = e.tid := by
  unfold closeElem
  split <;> rfl

/-- The entries of the others keep their process. -/
theorem closeElem_t {s : Family} {p c : ProcRef} {e : ChildElem} :
    (closeElem s p e).t = some c ↔ e.t = some c ∧ c ≠ p := by
  unfold closeElem
  by_cases ht : e.t = some p
  · rw [if_pos ht, ht]
    constructor
    · intro hc
      cases hc
    · rintro ⟨hc, hne⟩
      exact absurd (Option.some.inj hc).symm hne
  · rw [if_neg ht]
    refine ⟨fun hc => ⟨hc, ?_⟩, fun hc => hc.1⟩
    rintro rfl
    exact ht hc

/-- Only the parent has an entry to close. -/
theorem Linked.exitProc_childList (h : Linked s) {r : ProcRef} (hr : (s.procs r).live = true)
    (hne : r ≠ p) :
    (exitProc s p r).childList = (s.procs r).childList.map (closeElem s p) := by
  have hid : (s.procs p).parent ≠ some r →
      (s.procs r).childList = (s.procs r).childList.map (closeElem s p) := by
    intro hpar
    have hsame : ∀ e ∈ (s.procs r).childList, closeElem s p e = e := by
      intro e he
      exact if_neg fun ht => hpar (h.entry hr he ht).2.1
    rw [List.map_congr_left hsame, List.map_id']
  unfold exitProc
  rw [if_neg hne]
  split
  next => rfl
  next hpar =>
    split <;> exact hid hpar

/-- The links hold when a process is gone. -/
theorem Linked.of_exited (h : Linked s) (hp : (s.procs p).live = true) : Linked (exited s p) := by
  constructor
  case tidLt =>
    intro r hr
    obtain ⟨hlive, _⟩ := (exitProc_live s p r).mp hr
    exact (exitProc_tid s p r).symm ▸ h.tidLt hlive
  case tidInj =>
    intro r q hr hq ht
    obtain ⟨hr, _⟩ := (exitProc_live s p r).mp hr
    obtain ⟨hq, _⟩ := (exitProc_live s p q).mp hq
    have ht' : (exitProc s p r).tid = (exitProc s p q).tid := ht
    rw [exitProc_tid, exitProc_tid] at ht'
    exact h.tidInj hr hq ht'
  case older =>
    intro c q hc hpar
    obtain ⟨hlive, hne⟩ := (exitProc_live s p c).mp hc
    have hpar' := ((h.exitProc_parent hp hlive hne).mp hpar).1
    show (exitProc s p q).tid < (exitProc s p c).tid
    rw [exitProc_tid, exitProc_tid]
    exact h.older hlive hpar'
  case listed =>
    intro c q hc hpar
    obtain ⟨hlive, hne⟩ := (exitProc_live s p c).mp hc
    obtain ⟨hpar', hqp⟩ := (h.exitProc_parent hp hlive hne).mp hpar
    obtain ⟨hq, e, he, ht⟩ := h.listed hlive hpar'
    refine ⟨(exitProc_live s p q).mpr ⟨hq, hqp⟩, closeElem s p e, ?_, closeElem_t.mpr ⟨ht, hne⟩⟩
    show closeElem s p e ∈ (exitProc s p q).childList
    rw [h.exitProc_childList hq hqp]
    exact List.mem_map_of_mem he
  case entry =>
    intro q e c hq he ht
    obtain ⟨hq, hqp⟩ := (exitProc_live s p q).mp hq
    have he' : e ∈ (exitProc s p q).childList := he
    rw [h.exitProc_childList hq hqp] at he'
    obtain ⟨e', hm, rfl⟩ := List.mem_map.mp he'
    obtain ⟨ht', hne⟩ := closeElem_t.mp ht
    obtain ⟨hlive, hpar, htid⟩ := h.entry hq hm ht'
    refine ⟨(exitProc_live s p c).mpr ⟨hlive, hne⟩,
      (h.exitProc_parent hp hlive hne).mpr ⟨hpar, hqp⟩, ?_⟩
    rw [closeElem_tid, ← htid]
    exact exitProc_tid s p c
  case entryLt =>
    intro q e hq he
    obtain ⟨hq, hqp⟩ := (exitProc_live s p q).mp hq
    have he' : e ∈ (exitProc s p q).childList := he
    rw [h.exitProc_childList hq hqp] at he'
    obtain ⟨e', hm, rfl⟩ := List.mem_map.mp he'
    rw [closeElem_tid]
    exact h.entryLt hq hm
  case nodup =>
    intro q hq
    obtain ⟨hq, hqp⟩ := (exitProc_live s p q).mp hq
    show ((exitProc s p q).childList.map (·.tid)).Nodup
    rw [h.exitProc_childList hq hqp, List.map_map]
    have hmap : (s.procs q).childList.map ((·.tid) ∘ closeElem s p) =
        (s.procs q).childList.map (·.tid) :=
      List.map_congr_left fun e _ => closeElem_tid s p e
    rw [hmap]
    exact h.nodup hq

/-- The new process is in a page of its own and in its creator's list. -/
theorem createWithParent_procs (s : Family) {p c : ProcRef} (hne : c ≠ p) (r : ProcRef) :
    (threadCreateWithParent p c s).procs r =
      if r = p then { s.procs p with
        childList := (s.procs p).childList ++ [newChildElem s.nextTid c] }
      else if r = c then newProc p s.nextTid else s.procs r := by
  unfold threadCreateWithParent
  simp only [note_procs, modProc_procs, if_neg (Ne.symm hne)]

/-- The others are who they were. -/
theorem createWithParent_old (s : Family) {p c r : ProcRef} (hne : c ≠ p) (hr : r ≠ c) :
    ((threadCreateWithParent p c s).procs r).live = (s.procs r).live ∧
      ((threadCreateWithParent p c s).procs r).tid = (s.procs r).tid ∧
      ((threadCreateWithParent p c s).procs r).parent = (s.procs r).parent := by
  rw [createWithParent_procs s hne, if_neg hr]
  split
  next hp =>
    subst hp
    exact ⟨rfl, rfl, rfl⟩
  next => exact ⟨rfl, rfl, rfl⟩

/-- The new one is a child of its creator. -/
theorem createWithParent_new (s : Family) {p c : ProcRef} (hne : c ≠ p) :
    (threadCreateWithParent p c s).procs c = newProc p s.nextTid := by
  rw [createWithParent_procs s hne, if_neg hne, if_pos rfl]

/-- The creator's list is longer by the new entry. -/
theorem createWithParent_mem (s : Family) {p c r : ProcRef} {e : ChildElem} (hne : c ≠ p)
    (hr : r ≠ c) : e ∈ ((threadCreateWithParent p c s).procs r).childList ↔
      e ∈ (s.procs r).childList ∨ (r = p ∧ e = newChildElem s.nextTid c) := by
  rw [createWithParent_procs s hne, if_neg hr]
  by_cases hp : r = p
  · simp [hp]
  · simp [hp]

/-- The links hold when a process is created in a free page. -/
theorem Linked.of_created (h : Linked s) (hp : (s.procs p).live = true) {c : ProcRef}
    (hc : (s.procs c).live = false) : Linked (threadCreateWithParent p c s) := by
  have hne : c ≠ p := by
    rintro rfl
    rw [hp] at hc
    cases hc
  have hnew := createWithParent_new s hne
  have hold : ∀ {r}, r ≠ c → _ := fun {r} hr => createWithParent_old s (r := r) hne hr
  have hother : ∀ {r}, (s.procs r).live = true → r ≠ c := by
    rintro r hr rfl
    rw [hr] at hc
    cases hc
  have hnext : (threadCreateWithParent p c s).nextTid = s.nextTid + 1 := rfl
  have hlt : s.nextTid < s.nextTid + 1 := Int.lt_succ _
  constructor
  case tidLt =>
    intro r hr
    rw [hnext]
    by_cases hrc : r = c
    · rw [hrc, hnew]
      exact hlt
    · rw [(hold hrc).1] at hr
      rw [(hold hrc).2.1]
      exact lt_trans (h.tidLt hr) hlt
  case tidInj =>
    intro r q hr hq ht
    by_cases hrc : r = c
    · by_cases hqc : q = c
      · rw [hrc, hqc]
      · rw [(hold hqc).1] at hq
        rw [hrc, hnew, (hold hqc).2.1] at ht
        exact absurd ht.symm (ne_of_lt (h.tidLt hq))
    · rw [(hold hrc).1] at hr
      by_cases hqc : q = c
      · rw [hqc, hnew, (hold hrc).2.1] at ht
        exact absurd ht (ne_of_lt (h.tidLt hr))
      · rw [(hold hqc).1] at hq
        rw [(hold hrc).2.1, (hold hqc).2.1] at ht
        exact h.tidInj hr hq ht
  case older =>
    intro r q hr hpar
    by_cases hrc : r = c
    · rw [hrc, hnew] at hpar ⊢
      cases hpar
      rw [(hold (Ne.symm hne)).2.1]
      exact h.tidLt hp
    · rw [(hold hrc).1] at hr
      rw [(hold hrc).2.2] at hpar
      have hqc := hother (h.listed hr hpar).1
      rw [(hold hrc).2.1, (hold hqc).2.1]
      exact h.older hr hpar
  case listed =>
    intro r q hr hpar
    by_cases hrc : r = c
    · rw [hrc, hnew] at hpar
      cases hpar
      refine ⟨(hold (Ne.symm hne)).1.trans hp, newChildElem s.nextTid c, ?_, by rw [hrc]; rfl⟩
      exact (createWithParent_mem s hne (Ne.symm hne)).mpr (.inr ⟨rfl, rfl⟩)
    · rw [(hold hrc).1] at hr
      rw [(hold hrc).2.2] at hpar
      obtain ⟨hq, e, he, ht⟩ := h.listed hr hpar
      have hqc := hother hq
      exact ⟨(hold hqc).1.trans hq, e, (createWithParent_mem s hne hqc).mpr (.inl he), ht⟩
  case entry =>
    intro q e r hq he ht
    by_cases hqc : q = c
    · rw [hqc, hnew] at he
      cases he
    · rw [(hold hqc).1] at hq
      rcases (createWithParent_mem s hne hqc).mp he with he | ⟨rfl, rfl⟩
      · obtain ⟨hr, hpar, htid⟩ := h.entry hq he ht
        have hrc := hother hr
        rw [(hold hrc).1, (hold hrc).2.1, (hold hrc).2.2]
        exact ⟨hr, hpar, htid⟩
      · cases ht
        rw [hnew]
        exact ⟨rfl, rfl, rfl⟩
  case entryLt =>
    intro q e hq he
    rw [hnext]
    by_cases hqc : q = c
    · rw [hqc, hnew] at he
      cases he
    · rw [(hold hqc).1] at hq
      rcases (createWithParent_mem s hne hqc).mp he with he | ⟨rfl, rfl⟩
      · exact lt_trans (h.entryLt hq he) hlt
      · exact hlt
  case nodup =>
    intro q hq
    by_cases hqc : q = c
    · rw [hqc, hnew]
      exact List.nodup_nil
    · rw [(hold hqc).1] at hq
      rw [createWithParent_procs s hne, if_neg hqc]
      split
      next hqp =>
        subst hqp
        simp only [List.map_append, List.map_cons, List.map_nil]
        refine List.Nodup.append (h.nodup hq) (List.nodup_singleton _) ?_
        intro tid hm hm'
        obtain ⟨e, he, rfl⟩ := List.mem_map.mp hm
        have hte : e.tid = s.nextTid := List.mem_singleton.mp hm'
        exact absurd hte (ne_of_lt (h.entryLt hq he))
      next => exact h.nodup hq

/-- The start of the run is in order. -/
theorem linked_initial (main : ProcRef) : Linked (initial main) := by
  have hlive : ∀ {r}, ((initial main).procs r).live = true → r = main := by
    intro r hr
    simpa [initial] using hr
  constructor
  case tidLt =>
    intro r hr
    rw [hlive hr]
    simp [initial]
  case tidInj => exact fun hr hq _ => (hlive hr).trans (hlive hq).symm
  case older => exact fun _ hpar => by cases hpar
  case listed => exact fun _ hpar => by cases hpar
  case entry => exact fun _ he => by cases he
  case entryLt => exact fun _ he => by cases he
  case nodup => exact fun _ => List.nodup_nil

/-- An update of what the links do not read. -/
theorem Linked.modProc (h : Linked s) (q : ProcRef) (f : Proc → Proc)
    (hf : ∀ t, (f t).live = t.live ∧ (f t).tid = t.tid ∧ (f t).parent = t.parent ∧
      (f t).childList = t.childList) : Linked (s.modProc q f) := by
  refine h.congr_same rfl fun r => ?_
  rw [modProc_procs]
  split
  next hr =>
    subst hr
    exact hf _
  next => exact ⟨rfl, rfl, rfl, rfl⟩

/-- A program counter is no link. -/
theorem Linked.setPc (h : Linked s) (q : ProcRef) (pc : Pc) : Linked (s.setPc q pc) :=
  h.modProc q _ fun _ => ⟨rfl, rfl, rfl, rfl⟩

/-- The record of what has happened is no link. -/
theorem Linked.note (h : Linked s) (f : Fact) : Linked (s.note f) :=
  h.congr_same rfl fun _ => ⟨rfl, rfl, rfl, rfl⟩

/-- What an exit leaves. -/
theorem Linked.exits (h : Linked s) (hp : (s.procs p).live = true) {status : Int}
    (hx : threadExit p (s.modProc p fun t => { t with exitStatus := status }) = .ok s') :
    s' = exited (s.modProc p fun t => { t with exitStatus := status }) p := by
  have hlive : ((s.modProc p fun t => { t with exitStatus := status }).procs p).live = true := by
    simpa using hp
  have hlinked := h.modProc p (fun t => { t with exitStatus := status })
    fun _ => ⟨rfl, rfl, rfl, rfl⟩
  rw [hlinked.threadExit_eq hlive] at hx
  exact (Except.ok.inj hx).symm

/-- Forgetting the exit status of a child changes no link. -/
theorem Linked.reset (h : Linked s) (q : ProcRef) (tid : Tid) :
    Linked (s.modProc q fun t => { t with childList := t.childList.map fun e =>
      if e.tid = tid then { e with exitStatus := -1 } else e }) := by
  refine h.congr rfl (fun r => ?_) fun r => ?_
  · rw [modProc_procs]
    split
    next hr => exact hr ▸ ⟨rfl, rfl, rfl⟩
    next => exact ⟨rfl, rfl, rfl⟩
  · rw [modProc_procs]
    split
    next hr =>
      subst hr
      refine ⟨_, fun e => ?_, rfl⟩
      by_cases he : e.tid = tid
      · simp [he]
      · simp [he]
    next => exact ⟨id, fun _ => ⟨rfl, rfl⟩, (List.map_id _).symm⟩

/-- Every step keeps the links. -/
theorem Linked.of_moves {e : Event} (h : Linked s) (hp : (s.procs p).live = true)
    (hm : Moves s p e s') : Linked s' := by
  cases hm with
  | exits status _ _ hx =>
    rw [h.exits hp hx]
    apply Linked.of_exited
    · exact h.modProc p _ fun _ => ⟨rfl, rfl, rfl, rfl⟩
    · simpa using hp
  | created _ hc => exact (h.of_created hp hc).setPc p _
  | loaded _ => exact (h.setPc p _).note _
  | execDown _ _ => exact h.modProc p _ fun _ => ⟨rfl, rfl, rfl, rfl⟩
  | execRead _ => exact (h.setPc p _).note _
  | reported _ _ _ =>
    apply Linked.setPc
    exact h.modProc _ _ fun _ => ⟨rfl, rfl, rfl, rfl⟩
  | upped _ _ _ =>
    apply Linked.setPc
    exact h.modProc _ _ fun _ => ⟨rfl, rfl, rfl, rfl⟩
  | unfound _ _ => exact (h.setPc p _).note _
  | flagged _ _ =>
    apply Linked.setPc
    exact h.modProc _ _ fun _ => ⟨rfl, rfl, rfl, rfl⟩
  | downed _ _ => exact h.modProc p _ fun _ => ⟨rfl, rfl, rfl, rfl⟩
  | returned _ _ => exact ((h.reset p _).setPc p _).note _
  | _ => exact h.setPc p _

/-- Every step keeps the links. -/
theorem Linked.of_step {e : Event} (h : Linked s) (hx : step e s = .ok s') : Linked s' := by
  obtain ⟨hp, hm⟩ := step_moves hx
  exact h.of_moves hp hm

/-- The links hold in every reachable state. -/
theorem reach_linked {main : ProcRef} (h : Reach (Steps step) (initial main) s) : Linked s :=
  h.invariant (linked_initial main) fun _ _ _ hl hx => hl.of_step hx

/-! ## The links never dangle -/

/-- In a list with distinct keys the entries with the key of one of them are that one alone. -/
theorem filter_key_eq {α κ : Type} [DecidableEq κ] {f : α → κ} {e : α} :
    ∀ {l : List α}, (l.map f).Nodup → e ∈ l → l.filter (fun x => f x = f e) = [e]
  | [], _, he => absurd he List.not_mem_nil
  | a :: l, hn, he => by
    obtain ⟨ha, hn⟩ := List.nodup_cons.mp hn
    have hne : ∀ x ∈ l, f x ≠ f a := fun x hx hxa => ha (hxa ▸ List.mem_map_of_mem hx)
    rcases List.mem_cons.mp he with rfl | he
    · have hl : l.filter (fun x => f x = f e) = [] := by
        apply List.filter_eq_nil_iff.mpr
        intro x hx
        simpa using hne x hx
      simp [hl]
    · have hae : f a ≠ f e := (hne e he).symm
      simp [hae, filter_key_eq hn he]

/-- A live child is the one entry with its tid in the list of its parent. -/
theorem Linked.filter_childList (h : Linked s) {c : ProcRef} (hc : (s.procs c).live = true)
    (hp : (s.procs c).parent = some p) :
    ∃ e, (s.procs p).childList.filter (fun e => e.tid = (s.procs c).tid) = [e] ∧
      e.t = some c := by
  obtain ⟨hlive, e, he, het⟩ := h.listed hc hp
  obtain ⟨-, -, htid⟩ := h.entry hlive he het
  refine ⟨e, ?_, het⟩
  rw [htid]
  exact filter_key_eq (h.nodup hlive) he

/-- Whichever of the two dies first, a parent and its child never keep a pointer to a thread that
is gone: a live thread whose `parent` is set is the one entry with its tid in the list of a live
parent, and an entry whose `t` is set points to a live child of the owner of the list. -/
theorem links_agree {main : ProcRef} (h : Reach (Steps step) (initial main) s) :
    (∀ c p, (s.procs c).live = true → (s.procs c).parent = some p →
      (s.procs p).live = true ∧
      ∃ e, (s.procs p).childList.filter (fun e => e.tid = (s.procs c).tid) = [e] ∧
        e.t = some c) ∧
    ∀ p, (s.procs p).live = true → ∀ e ∈ (s.procs p).childList, ∀ c, e.t = some c →
      (s.procs c).live = true ∧ (s.procs c).parent = some p := by
  have hl := reach_linked h
  refine ⟨fun c p hc hp => ⟨(hl.listed hc hp).1, hl.filter_childList hc hp⟩, ?_⟩
  intro p hp e he c het
  obtain ⟨hc, hparent, -⟩ := hl.entry hp he het
  exact ⟨hc, hparent⟩

/-- The initial thread runs a process, which runs one of its own. -/
def grandchild : List Event :=
  [.runTask 0 [97], .alloc 0 true, .alloc 0 true, .create 0 (some 1), .alloc 1 true,
    .load 1 (some true), .run 1, .run 1, .run 1, .exec 1 [98], .alloc 1 true, .alloc 1 true,
    .create 1 (some 2)]

/-- The initial process has a child, and that one a child of its own. -/
theorem links_agree_grandchild : ∃ s : Family, (s.procs 2).live = true ∧ (s.procs 1).live = true ∧
    ∃ e, (s.procs 1).childList.filter (fun e => e.tid = (s.procs 2).tid) = [e] ∧
      e.t = some 2 := by
  obtain ⟨s, hs, hlive⟩ := exists_of_replay step (fun _ _ => true) grandchild (initial 0)
    (fun s => (s.procs 2).live && (s.procs 2).parent == some 1) (by decide +kernel)
  simp only [Bool.and_eq_true, beq_iff_eq] at hlive
  exact ⟨s, hlive.1, (links_agree hs.reach).1 2 1 hlive.1 hlive.2⟩

end Pintos.Userprog
