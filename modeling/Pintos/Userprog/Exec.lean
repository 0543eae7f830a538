import Pintos.Userprog.Links

/-!
# The exec protocol

A process in `SYS_EXEC` downs `waiting2`, and the child it created ups it once `load` has
returned. The result travels in `childLoadStatus` of the parent. The down is reached also when
`process_execute` has created no thread, and a child that gets no page for its copy of the command
line, or is killed inside `load`, ends without the up. `reports` rules these failures out, except
under the initial thread, which does not down `waiting2`. It also asks for a word in the command line:
the first word is the name of the new thread, and without one `init_thread` fails an assertion.
-/

namespace Pintos.Userprog

open Pintos.Lib

variable {s s' : Family} {p : ProcRef}

/-- The statements of `start_process` up to the up of the parent's semaphore. -/
def Pc.starting : Pc → Bool
  | .startCopy | .loading | .reporting _ | .upping _ => true
  | _ => false

/-- `q` is a child of `p` that has yet to up the semaphore of `p`. -/
def Family.Owes (s : Family) (q p : ProcRef) : Prop :=
  (s.procs q).live = true ∧ (s.procs q).parent = some p ∧ (s.procs q).pc.starting = true

/-- The two statements of `SYS_EXEC` after `process_execute`. -/
def Pc.inExec : Pc → Bool
  | .execDown _ | .execRead _ => true
  | _ => false

/-- Only a process that runs a user program goes on with `SYS_EXEC` after `process_execute`. -/
def Pc.Direct (pc : Pc) (isUser : Bool) : Prop :=
  (∀ d n, pc = .execCopy d n ∨ pc = .execCopy2 d n ∨ pc = .execCreate d n → d = !isUser) ∧
    (pc.inExec = true → isUser = true)

/-- Elsewhere there is nothing to ask. -/
def Pc.apart : Pc → Bool
  | .execCopy _ _ | .execCopy2 _ _ | .execCreate _ _ | .execDown _ | .execRead _ => false
  | _ => true

/-- A process that is in neither call is in it the right way. -/
theorem Pc.direct_of_apart {pc : Pc} {isUser : Bool} (h : pc.apart = true) : pc.Direct isUser := by
  constructor
  · intro d n hd
    rcases hd with hd | hd | hd <;> rw [hd] at h <;> cases h
  · intro hin
    cases pc with
    | execDown pid => cases h
    | execRead pid => cases h
    | _ => cases hin

/-! ## What `load` returned -/

/-- Each child loads once, and knows what `load` returned until it has told its parent. -/
structure Loads (s : Family) : Prop where
  direct : ∀ {p}, (s.procs p).live = true → (s.procs p).pc.Direct (s.procs p).isUser
  unloaded : ∀ {q b}, (s.procs q).live = true →
    (s.procs q).pc = .startCopy ∨ (s.procs q).pc = .loading → .loaded (s.procs q).tid b ∉ s.log
  reported : ∀ {q b}, (s.procs q).live = true →
    (s.procs q).pc = .reporting b ∨ (s.procs q).pc = .upping b → .loaded (s.procs q).tid b ∈ s.log
  fresh : ∀ {c b}, .loaded c b ∈ s.log → c < s.nextTid
  once : ∀ {c b b'}, .loaded c b ∈ s.log → .loaded c b' ∈ s.log → b = b'

/-- One process has moved on; who there is and what `load` returned is as it was. -/
structure LoadSame (s s' : Family) (p : ProcRef) : Prop where
  nextTid : s'.nextTid = s.nextTid
  procs : ∀ r, (s'.procs r).live = (s.procs r).live ∧ (s'.procs r).tid = (s.procs r).tid ∧
    (s'.procs r).isUser = (s.procs r).isUser ∧ (s'.procs r).parent = (s.procs r).parent
  pc : ∀ r, r ≠ p → (s'.procs r).pc = (s.procs r).pc
  loaded : ∀ c b, .loaded c b ∈ s'.log ↔ .loaded c b ∈ s.log

/-- What two steps leave to a load they leave together. -/
theorem LoadSame.trans {s₁ : Family} (h : LoadSame s s₁ p) (h' : LoadSame s₁ s' p) :
    LoadSame s s' p := by
  refine ⟨h'.nextTid.trans h.nextTid, fun r => ?_, fun r hr => (h'.pc r hr).trans (h.pc r hr),
    fun c b => (h'.loaded c b).trans (h.loaded c b)⟩
  obtain ⟨a₁, a₂, a₃, a₄⟩ := h.procs r
  obtain ⟨b₁, b₂, b₃, b₄⟩ := h'.procs r
  exact ⟨b₁.trans a₁, b₂.trans a₂, b₃.trans a₃, b₄.trans a₄⟩

/-- Other fields do not matter to a load. -/
theorem loadSame_modProc (s : Family) (p q : ProcRef) (f : Proc → Proc)
    (hf : ∀ t, (f t).live = t.live ∧ (f t).tid = t.tid ∧ (f t).isUser = t.isUser ∧
      (f t).parent = t.parent)
    (hpc : q ≠ p → ∀ t, (f t).pc = t.pc) : LoadSame s (s.modProc q f) p := by
  refine ⟨rfl, fun r => ?_, fun r hr => ?_, fun _ _ => Iff.rfl⟩
  · rw [modProc_procs]
    split
    next hr =>
      subst hr
      exact hf _
    next => exact ⟨rfl, rfl, rfl, rfl⟩
  · rw [modProc_procs]
    split
    next hrq =>
      subst hrq
      exact hpc hr _
    next => rfl

theorem loadSame_setPc (s : Family) (p : ProcRef) (pc : Pc) : LoadSame s (s.setPc p pc) p :=
  loadSame_modProc s p p _ (fun _ => ⟨rfl, rfl, rfl, rfl⟩) fun h => absurd rfl h

/-- The record of something else does not matter to a load. -/
theorem loadSame_note (s : Family) (p : ProcRef) {f : Fact} (hl : ∀ c b, f ≠ .loaded c b) :
    LoadSame s (s.note f) p := by
  refine ⟨rfl, fun _ => ⟨rfl, rfl, rfl, rfl⟩, fun _ _ => rfl, fun c b => ?_⟩
  rw [note_log, List.mem_append, List.mem_singleton]
  exact or_iff_left fun h => hl c b h.symm

/-- At first nothing is loaded. -/
theorem loads_initial (main : ProcRef) : Loads (initial main) where
  direct _ := Pc.direct_of_apart rfl
  unloaded _ hpc := by rcases hpc with hpc | hpc <;> cases hpc
  reported _ hpc := by rcases hpc with hpc | hpc <;> cases hpc
  fresh hx := by cases hx
  once hx := by cases hx

/-- A move outside `start_process`, or to its next statement. -/
theorem Loads.of_same (h : Loads s) (hs : LoadSame s s' p)
    (hdirect : (s'.procs p).pc.Direct (s.procs p).isUser)
    (hun : (s'.procs p).pc = .startCopy ∨ (s'.procs p).pc = .loading →
      (s.procs p).pc = .startCopy ∨ (s.procs p).pc = .loading)
    (hrep : ∀ b, (s'.procs p).pc = .reporting b ∨ (s'.procs p).pc = .upping b →
      (s.procs p).pc = .reporting b ∨ (s.procs p).pc = .upping b) : Loads s' := by
  constructor
  case direct =>
    intro r hr
    rw [(hs.procs r).1] at hr
    rw [(hs.procs r).2.2.1]
    by_cases hrp : r = p
    · rw [hrp]
      exact hdirect
    · rw [hs.pc r hrp]
      exact h.direct hr
  case unloaded =>
    intro r b hr hpc
    rw [(hs.procs r).1] at hr
    rw [hs.loaded, (hs.procs r).2.1]
    by_cases hrp : r = p
    · rw [hrp] at hpc hr ⊢
      exact h.unloaded hr (hun hpc)
    · rw [hs.pc r hrp] at hpc
      exact h.unloaded hr hpc
  case reported =>
    intro r b hr hpc
    rw [(hs.procs r).1] at hr
    rw [hs.loaded, (hs.procs r).2.1]
    by_cases hrp : r = p
    · rw [hrp] at hpc hr ⊢
      exact h.reported hr (hrep b hpc)
    · rw [hs.pc r hrp] at hpc
      exact h.reported hr hpc
  case fresh =>
    intro c b hx
    rw [hs.nextTid]
    exact h.fresh ((hs.loaded c b).mp hx)
  case once =>
    intro c b b' hx hx'
    exact h.once ((hs.loaded c b).mp hx) ((hs.loaded c b').mp hx')

/-- The same when the new place is not in `start_process`. -/
theorem Loads.of_plain (h : Loads s) (hs : LoadSame s s' p)
    (hdirect : (s'.procs p).pc.Direct (s.procs p).isUser)
    (hpc : (s'.procs p).pc.starting = false) : Loads s' := by
  refine h.of_same hs hdirect (fun hst => ?_) fun b hst => ?_
  · rcases hst with hst | hst <;> rw [hst] at hpc <;> cases hpc
  · rcases hst with hst | hst <;> rw [hst] at hpc <;> cases hpc

/-- `load` returns. -/
theorem Loads.of_loaded {b : Bool} (h : Loads s) (hl : Linked s) (hp : (s.procs p).live = true)
    (hpc : (s.procs p).pc = .loading) :
    Loads ((s.setPc p (.reporting b)).note (.loaded (s.procs p).tid b)) := by
  set s' := (s.setPc p (.reporting b)).note (.loaded (s.procs p).tid b) with hs'
  have hself : s'.procs p = { s.procs p with pc := .reporting b } := by simp [hs']
  have hother : ∀ {r}, r ≠ p → s'.procs r = s.procs r := by
    intro r hr
    simp [hs', hr]
  have hlog : ∀ {c b'}, .loaded c b' ∈ s'.log ↔
      .loaded c b' ∈ s.log ∨ (c = (s.procs p).tid ∧ b' = b) := by
    intro c b'
    simp [hs']
  have hun : ∀ {b'}, .loaded (s.procs p).tid b' ∉ s.log := h.unloaded hp (.inr hpc)
  constructor
  case direct =>
    intro r hr
    by_cases hrp : r = p
    · rw [hrp, hself]
      exact Pc.direct_of_apart rfl
    · rw [hother hrp] at hr ⊢
      exact h.direct hr
  case unloaded =>
    intro r b' hr hst hx
    by_cases hrp : r = p
    · rw [hrp, hself] at hst
      rcases hst with hst | hst <;> cases hst
    · rw [hother hrp] at hr hst hx
      rcases hlog.mp hx with hx | ⟨ht, _⟩
      · exact h.unloaded hr hst hx
      · exact hrp (hl.tidInj hr hp ht)
  case reported =>
    intro r b' hr hst
    rw [hlog]
    by_cases hrp : r = p
    · rw [hrp, hself] at hst ⊢
      rcases hst with hst | hst <;> cases hst
      exact .inr ⟨rfl, rfl⟩
    · rw [hother hrp] at hr hst ⊢
      exact .inl (h.reported hr hst)
  case fresh =>
    intro c b' hx
    rcases hlog.mp hx with hx | ⟨rfl, _⟩
    · exact h.fresh hx
    · exact hl.tidLt hp
  case once =>
    intro c b₁ b₂ hx hx'
    rcases hlog.mp hx with hx | ⟨hc, hb⟩
    · rcases hlog.mp hx' with hx' | ⟨hc', _⟩
      · exact h.once hx hx'
      · rw [hc'] at hx
        exact absurd hx hun
    · rcases hlog.mp hx' with hx' | ⟨_, hb'⟩
      · rw [hc] at hx'
        exact absurd hx' hun
      · rw [hb, hb']

/-- A new process has not been loaded. -/
theorem Loads.of_created {c : ProcRef} (h : Loads s) (hne : c ≠ p) :
    Loads (threadCreateWithParent p c s) := by
  set s' := threadCreateWithParent p c s with hs'
  have hold : ∀ {r}, r ≠ c → s'.procs r =
      { s.procs r with childList := (s'.procs r).childList } := by
    intro r hr
    rw [hs', createWithParent_procs s hne, if_neg hr]
    split
    next hrp => rw [hrp]
    next => rfl
  have hnew : s'.procs c = newProc p s.nextTid := createWithParent_new s hne
  have hlog : ∀ {c' b}, .loaded c' b ∈ s'.log ↔ .loaded c' b ∈ s.log := by
    intro c' b
    simp [hs', threadCreateWithParent]
  constructor
  case direct =>
    intro r hr
    by_cases hrc : r = c
    · rw [hrc, hnew]
      exact Pc.direct_of_apart rfl
    · rw [hold hrc] at hr ⊢
      exact h.direct hr
  case unloaded =>
    intro r b hr hst
    rw [hlog]
    by_cases hrc : r = c
    · rw [hrc, hnew]
      exact fun hx => lt_irrefl _ (h.fresh hx)
    · rw [hold hrc] at hr hst ⊢
      exact h.unloaded hr hst
  case reported =>
    intro r b hr hst
    rw [hlog]
    by_cases hrc : r = c
    · rw [hrc, hnew] at hst
      rcases hst with hst | hst <;> cases hst
    · rw [hold hrc] at hr hst ⊢
      exact h.reported hr hst
  case fresh =>
    intro c' b hx
    exact lt_trans (h.fresh (hlog.mp hx)) (Int.lt_succ _)
  case once =>
    intro c' b b' hx hx'
    exact h.once (hlog.mp hx) (hlog.mp hx')

/-- What an exit leaves of the fields of the others that the exec protocol reads. -/
theorem exitProc_exec (s : Family) {p r : ProcRef} (hr : r ≠ p) :
    (exitProc s p r).pc = (s.procs r).pc ∧ (exitProc s p r).isUser = (s.procs r).isUser ∧
      (exitProc s p r).waiting2 = (s.procs r).waiting2 ∧
      (exitProc s p r).childLoadStatus = (s.procs r).childLoadStatus := by
  unfold exitProc
  rw [if_neg hr]
  split
  next => exact ⟨rfl, rfl, rfl, rfl⟩
  next => split <;> exact ⟨rfl, rfl, rfl, rfl⟩

/-- A process that is gone need not be loaded. -/
theorem Loads.of_exited (h : Loads s) : Loads (exited s p) := by
  have hlive : ∀ {r}, ((exited s p).procs r).live = true → (s.procs r).live = true ∧ r ≠ p :=
    fun hr => (exitProc_live s p _).mp hr
  have htid : ∀ r, ((exited s p).procs r).tid = (s.procs r).tid := exitProc_tid s p
  have hpc : ∀ {r}, r ≠ p → ((exited s p).procs r).pc = (s.procs r).pc :=
    fun hr => (exitProc_exec s hr).1
  have hlog : ∀ {c b}, .loaded c b ∈ (exited s p).log ↔ .loaded c b ∈ s.log := by
    intro c b
    simp [exited]
  constructor
  case direct =>
    intro r hr
    obtain ⟨hr, hrp⟩ := hlive hr
    rw [hpc hrp, show ((exited s p).procs r).isUser = _ from (exitProc_exec s hrp).2.1]
    exact h.direct hr
  case unloaded =>
    intro r b hr hst
    obtain ⟨hr, hrp⟩ := hlive hr
    rw [hpc hrp] at hst
    rw [hlog, htid]
    exact h.unloaded hr hst
  case reported =>
    intro r b hr hst
    obtain ⟨hr, hrp⟩ := hlive hr
    rw [hpc hrp] at hst
    rw [hlog, htid]
    exact h.reported hr hst
  case fresh =>
    intro c b hx
    exact h.fresh (hlog.mp hx)
  case once =>
    intro c b b' hx hx'
    exact h.once (hlog.mp hx) (hlog.mp hx')

/-- Behind `process_execute` a process is not starting. -/
theorem afterExecute_starting (direct : Bool) (pid : Tid) :
    (afterExecute direct pid).starting = false := by
  cases direct <;> rfl

/-- Behind `process_execute` a process is where its kind of call goes on. -/
theorem afterExecute_direct (pid : Tid) (isUser : Bool) :
    (afterExecute (!isUser) pid).Direct isUser := by
  cases isUser <;> simp [Pc.Direct, afterExecute, Pc.inExec]

/-- A process may go on anywhere but at the start. -/
theorem Loads.of_setPc {pc : Pc} (h : Loads s) (hdirect : pc.Direct (s.procs p).isUser)
    (hpc : pc.starting = false) : Loads (s.setPc p pc) := by
  refine h.of_plain (loadSame_setPc s p pc) ?_ ?_
  · simpa using hdirect
  · simpa using hpc

/-- Only the record of a load is about one. -/
theorem Loads.of_note (h : Loads s) {f : Fact} (hf : ∀ c b, f ≠ .loaded c b) :
    Loads (s.note f) where
  direct := h.direct
  unloaded hq hpc hx := h.unloaded hq hpc (((loadSame_note s 0 hf).loaded _ _).mp hx)
  reported hq hpc := ((loadSame_note s 0 hf).loaded _ _).mpr (h.reported hq hpc)
  fresh hx := h.fresh (((loadSame_note s 0 hf).loaded _ _).mp hx)
  once hx hx' :=
    h.once (((loadSame_note s 0 hf).loaded _ _).mp hx) (((loadSame_note s 0 hf).loaded _ _).mp hx')

/-- Every move keeps the loads. -/
theorem Loads.of_moves {e : Event} (h : Loads s) (hl : Linked s) (hp : (s.procs p).live = true)
    (hm : Moves s p e s') : Loads s' := by
  cases hm with
  | exits status _ _ hx =>
    rw [hl.exits hp hx]
    apply Loads.of_exited
    have hs := loadSame_modProc s p p (fun t => { t with exitStatus := status })
      (fun _ => ⟨rfl, rfl, rfl, rfl⟩) fun hne => absurd rfl hne
    refine h.of_same hs ?_ ?_ ?_
    · simpa using h.direct hp
    · simp
    · simp
  | @created d n c hpc hc =>
    have hd := (h.direct hp).1 d n (.inr (.inr hpc))
    have hne : c ≠ p := by
      rintro rfl
      rw [hp] at hc
      cases hc
    have huser : ((threadCreateWithParent p c s).procs p).isUser = (s.procs p).isUser := by
      rw [createWithParent_procs s hne, if_pos rfl]
    refine (h.of_created hne).of_setPc ?_ (afterExecute_starting _ _)
    rw [huser, hd]
    exact afterExecute_direct _ _
  | loaded hpc => exact h.of_loaded hl hp hpc
  | exec _ hu => exact h.of_setPc (by simp [Pc.Direct, Pc.inExec, hu]) rfl
  | runTask _ hu => exact h.of_setPc (by simp [Pc.Direct, Pc.inExec, hu]) rfl
  | copied hpc =>
    have hd := (h.direct hp).1 _ _ (.inl hpc)
    exact h.of_setPc (by simp [Pc.Direct, Pc.inExec, hd]) rfl
  | copied2 hpc =>
    have hd := (h.direct hp).1 _ _ (.inr (.inl hpc))
    exact h.of_setPc (by simp [Pc.Direct, Pc.inExec, hd]) rfl
  | @uncopied d n hpc =>
    have hd := (h.direct hp).1 d n (hpc.imp id .inl)
    refine h.of_setPc ?_ (afterExecute_starting _ _)
    rw [hd]
    exact afterExecute_direct _ _
  | @uncreated d n hpc =>
    have hd := (h.direct hp).1 d n (.inr (.inr hpc))
    refine h.of_setPc ?_ (afterExecute_starting _ _)
    rw [hd]
    exact afterExecute_direct _ _
  | startCopied hpc =>
    refine h.of_same (loadSame_setPc s p _) ?_ (fun _ => .inl hpc) ?_
    · exact Pc.direct_of_apart (by simp [Pc.apart])
    · simp
  | execDown hpc _ =>
    refine h.of_plain (loadSame_modProc s p p _ (fun _ => ⟨rfl, rfl, rfl, rfl⟩)
      fun hne => absurd rfl hne) ?_ ?_
    · simp [Pc.Direct, (h.direct hp).2 (by rw [hpc]; rfl)]
    · simp [Pc.starting]
  | execRead hpc => exact (h.of_setPc (Pc.direct_of_apart rfl) rfl).of_note (by simp)
  | @reported b q hpc hpar _ =>
    have hs := loadSame_modProc s p q (fun t => { t with childLoadStatus := b })
      (fun _ => ⟨rfl, rfl, rfl, rfl⟩) fun _ _ => rfl
    refine h.of_same (hs.trans (loadSame_setPc _ p (.upping b))) ?_ ?_ fun b' hb => ?_
    · exact Pc.direct_of_apart (by simp [Pc.apart])
    · simp
    · have hb : b = b' := by simpa using hb
      exact .inl (hb ▸ hpc)
  | @upped b q hpc _ _ =>
    have hs := loadSame_modProc s p q (fun t => { t with waiting2 := t.waiting2 + 1 })
      (fun _ => ⟨rfl, rfl, rfl, rfl⟩) fun _ _ => rfl
    refine h.of_plain (hs.trans (loadSame_setPc _ p (.started b))) ?_ ?_
    · exact Pc.direct_of_apart (by simp [Pc.apart])
    · simp [Pc.starting]
  | unfound _ _ => exact (h.of_setPc (Pc.direct_of_apart rfl) rfl).of_note (by simp)
  | @flagged tid t hpc _ =>
    have hs := loadSame_modProc s p t (fun c => { c with isParentWaiting := true })
      (fun _ => ⟨rfl, rfl, rfl, rfl⟩) fun _ _ => rfl
    refine h.of_plain (hs.trans (loadSame_setPc _ p (.waitDown tid))) ?_ ?_
    · exact Pc.direct_of_apart (by simp [Pc.apart])
    · simp [Pc.starting]
  | downed _ _ =>
    refine h.of_plain (loadSame_modProc s p p _ (fun _ => ⟨rfl, rfl, rfl, rfl⟩)
      fun hne => absurd rfl hne) ?_ ?_
    · exact Pc.direct_of_apart (by simp [Pc.apart])
    · simp [Pc.starting]
  | @returned tid e hpc _ =>
    have hs := loadSame_modProc s p p (fun t => { t with childList := t.childList.map fun e' =>
      if e'.tid = tid then { e' with exitStatus := -1 } else e' })
      (fun _ => ⟨rfl, rfl, rfl, rfl⟩) fun hne => absurd rfl hne
    apply Loads.of_note
    · refine h.of_plain (hs.trans (loadSame_setPc _ p .user)) ?_ ?_
      · exact Pc.direct_of_apart (by simp [Pc.apart])
      · simp [Pc.starting]
    · simp
  | _ => exact h.of_setPc (Pc.direct_of_apart rfl) rfl

/-- The loads are kept in every reachable state. -/
theorem reach_loads {main : ProcRef} (h : Reach (Steps step) (initial main) s) : Loads s := by
  refine ReachWhere.invariant_with (loads_initial main) (fun _ hr => reach_linked hr.reach) ?_ h
  intro s e s' hl hs _ hx
  obtain ⟨hp, hm⟩ := step_moves hx
  exact hs.of_moves hl hp hm

end Pintos.Userprog
