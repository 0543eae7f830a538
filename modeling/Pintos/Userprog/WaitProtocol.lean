import Pintos.Userprog.Wait

/-!
# The answers of wait

What a wait owes, for whole runs: `WaitSafe` is what the wait protocol is for, and
`wait_protocol` proves it of every run in which no process exits while its parent is about to set
its flag. `child_exits_while_watched` is the run in which it fails.
-/

namespace Pintos.Userprog

open Pintos.Lib

variable {s s' : Family} {p : ProcRef}

/-! ## Exit statuses -/

/-- A live process has not exited and has no status yet, and no process exits twice. -/
structure Exits (s : Family) : Prop where
  unset : ∀ {p}, (s.procs p).live = true → (s.procs p).exitStatus = -1
  unlogged : ∀ {p v}, (s.procs p).live = true → .exited (s.procs p).tid v ∉ s.log
  fresh : ∀ {c v}, .exited c v ∈ s.log → c < s.nextTid
  once : ∀ {c v v'}, .exited c v ∈ s.log → .exited c v' ∈ s.log → v = v'

theorem exits_initial (main : ProcRef) : Exits (initial main) where
  unset _ := rfl
  unlogged _ hx := by cases hx
  fresh hx := by cases hx
  once hx := by cases hx

/-- A step at which nobody exits, and every live process was there before. -/
theorem Exits.of_same (h : Exits s) (hn : s'.nextTid = s.nextTid)
    (hp : ∀ r, (s'.procs r).live = (s.procs r).live ∧ (s'.procs r).tid = (s.procs r).tid ∧
      (s'.procs r).exitStatus = (s.procs r).exitStatus)
    (hlog : ∀ c v, .exited c v ∈ s'.log ↔ .exited c v ∈ s.log) : Exits s' := by
  constructor
  case unset =>
    intro r hr
    rw [(hp r).1] at hr
    exact (hp r).2.2.trans (h.unset hr)
  case unlogged =>
    intro r v hr hx
    rw [(hp r).1] at hr
    rw [hlog, (hp r).2.1] at hx
    exact h.unlogged hr hx
  case fresh =>
    intro c v hx
    rw [hn]
    exact h.fresh ((hlog c v).mp hx)
  case once =>
    intro c v v' hx hx'
    exact h.once ((hlog c v).mp hx) ((hlog c v').mp hx')

/-- Other fields are no exit. -/
theorem Exits.of_modProc (h : Exits s) (q : ProcRef) (f : Proc → Proc)
    (hf : ∀ t, (f t).live = t.live ∧ (f t).tid = t.tid ∧ (f t).exitStatus = t.exitStatus) :
    Exits (s.modProc q f) := by
  refine h.of_same rfl (fun r => ?_) fun _ _ => Iff.rfl
  rw [modProc_procs]
  split
  next hr =>
    subst hr
    exact hf _
  next => exact ⟨rfl, rfl, rfl⟩

theorem Exits.of_setPc (h : Exits s) (q : ProcRef) (pc : Pc) : Exits (s.setPc q pc) :=
  h.of_modProc q _ fun _ => ⟨rfl, rfl, rfl⟩

/-- Only the record of an exit is about one. -/
theorem Exits.of_note (h : Exits s) {f : Fact} (hf : ∀ c v, f ≠ .exited c v) :
    Exits (s.note f) := by
  refine h.of_same rfl (fun _ => ⟨rfl, rfl, rfl⟩) fun c v => ?_
  rw [note_log, List.mem_append, List.mem_singleton]
  exact or_iff_left fun he => hf c v he.symm

/-- Who is gone keeps its status. -/
theorem exitProc_exitStatus (s : Family) (p r : ProcRef) :
    (exitProc s p r).exitStatus = (s.procs r).exitStatus := by
  unfold exitProc
  split
  · rfl
  · split
    · rfl
    · split <;> rfl

/-- An exit, with whatever status. -/
theorem Exits.of_exited (h : Exits s) (hl : Linked s) (hp : (s.procs p).live = true)
    (status : Int) :
    Exits (exited (s.modProc p fun t => { t with exitStatus := status }) p) := by
  set s₁ := s.modProc p fun t => { t with exitStatus := status } with hs₁
  have htid : ∀ r, ((exited s₁ p).procs r).tid = (s.procs r).tid := by
    intro r
    rw [show ((exited s₁ p).procs r).tid = (s₁.procs r).tid from exitProc_tid s₁ p r, hs₁,
      modProc_procs]
    split
    next hr => rw [hr]
    next => rfl
  have hlive : ∀ {r}, ((exited s₁ p).procs r).live = true → (s.procs r).live = true ∧ r ≠ p := by
    intro r hr
    obtain ⟨hr, hrp⟩ := (exitProc_live s₁ p r).mp hr
    rw [hs₁, modProc_procs, if_neg hrp] at hr
    exact ⟨hr, hrp⟩
  have hlog : ∀ {c v}, .exited c v ∈ (exited s₁ p).log →
      .exited c v ∈ s.log ∨ (c = (s.procs p).tid ∧ v = status) := by
    intro c v hx
    rcases List.mem_append.mp hx with hx | hx
    · exact .inl hx
    · obtain ⟨hc, hv⟩ := Fact.exited.inj (List.mem_singleton.mp hx)
      simp only [hs₁, modProc_procs, if_true] at hc hv
      exact .inr ⟨hc, hv⟩
  constructor
  case unset =>
    intro r hr
    obtain ⟨hr, hrp⟩ := hlive hr
    rw [show ((exited s₁ p).procs r).exitStatus = (s₁.procs r).exitStatus from
      exitProc_exitStatus s₁ p r, hs₁, modProc_procs, if_neg hrp]
    exact h.unset hr
  case unlogged =>
    intro r v hr hx
    obtain ⟨hr, hrp⟩ := hlive hr
    rw [htid] at hx
    rcases hlog hx with hx | ⟨hc, _⟩
    · exact h.unlogged hr hx
    · exact hrp (hl.tidInj hr hp hc)
  case fresh =>
    intro c v hx
    rcases hlog hx with hx | ⟨rfl, _⟩
    · exact h.fresh hx
    · exact hl.tidLt hp
  case once =>
    intro c v v' hx hx'
    rcases hlog hx with hx | ⟨hc, hv⟩
    · rcases hlog hx' with hx' | ⟨hc', _⟩
      · exact h.once hx hx'
      · rw [hc'] at hx
        exact absurd hx (h.unlogged hp)
    · rcases hlog hx' with hx' | ⟨_, hv'⟩
      · rw [hc] at hx'
        exact absurd hx' (h.unlogged hp)
      · rw [hv, hv']

/-- A new process has none yet. -/
theorem Exits.of_created {c : ProcRef} (h : Exits s) (hne : c ≠ p) :
    Exits (threadCreateWithParent p c s) := by
  have hold : ∀ {r}, r ≠ c → ((threadCreateWithParent p c s).procs r).live = (s.procs r).live ∧
      ((threadCreateWithParent p c s).procs r).tid = (s.procs r).tid ∧
      ((threadCreateWithParent p c s).procs r).exitStatus = (s.procs r).exitStatus := by
    intro r hr
    rw [createWithParent_procs s hne, if_neg hr]
    split
    next hrp => exact hrp ▸ ⟨rfl, rfl, rfl⟩
    next => exact ⟨rfl, rfl, rfl⟩
  have hnew := createWithParent_new s hne
  have hlog : ∀ {c' v}, .exited c' v ∈ (threadCreateWithParent p c s).log →
      .exited c' v ∈ s.log := by
    intro c' v hx
    rcases List.mem_append.mp hx with hx | hx
    · exact hx
    · cases List.mem_singleton.mp hx
  constructor
  case unset =>
    intro r hr
    by_cases hrc : r = c
    · rw [hrc, hnew]
      rfl
    · rw [(hold hrc).1] at hr
      rw [(hold hrc).2.2]
      exact h.unset hr
  case unlogged =>
    intro r v hr hx
    by_cases hrc : r = c
    · rw [hrc, hnew] at hx
      exact lt_irrefl _ (h.fresh (hlog hx))
    · rw [(hold hrc).1] at hr
      rw [(hold hrc).2.1] at hx
      exact h.unlogged hr (hlog hx)
  case fresh =>
    intro c' v hx
    exact lt_trans (h.fresh (hlog hx)) (Int.lt_succ _)
  case once =>
    intro c' v v' hx hx'
    exact h.once (hlog hx) (hlog hx')

/-- Every move keeps the statuses as they are recorded. -/
theorem Exits.of_moves {e : Event} (h : Exits s) (hl : Linked s) (hp : (s.procs p).live = true)
    (hm : Moves s p e s') : Exits s' := by
  cases hm with
  | exits status _ _ hx =>
    rw [hl.exits hp hx]
    exact h.of_exited hl hp status
  | @created d n c _ hc =>
    have hne : c ≠ p := by
      rintro rfl
      rw [hp] at hc
      cases hc
    exact (h.of_created hne).of_setPc p _
  | loaded _ => exact (h.of_setPc p _).of_note (by simp)
  | execDown _ _ => exact h.of_modProc p _ fun _ => ⟨rfl, rfl, rfl⟩
  | execRead _ => exact (h.of_setPc p _).of_note (by simp)
  | reported _ _ _ =>
    apply Exits.of_setPc
    exact h.of_modProc _ _ fun _ => ⟨rfl, rfl, rfl⟩
  | upped _ _ _ =>
    apply Exits.of_setPc
    exact h.of_modProc _ _ fun _ => ⟨rfl, rfl, rfl⟩
  | unfound _ _ => exact (h.of_setPc p _).of_note (by simp)
  | flagged _ _ =>
    apply Exits.of_setPc
    exact h.of_modProc _ _ fun _ => ⟨rfl, rfl, rfl⟩
  | downed _ _ => exact h.of_modProc p _ fun _ => ⟨rfl, rfl, rfl⟩
  | returned _ _ =>
    apply Exits.of_note
    · apply Exits.of_setPc
      exact h.of_modProc p _ fun _ => ⟨rfl, rfl, rfl⟩
    · simp
  | _ => exact h.of_setPc p _

/-- The statuses are kept in every reachable state. -/
theorem reach_exits {main : ProcRef} (h : Reach (Steps step) (initial main) s) : Exits s := by
  refine ReachWhere.invariant_with (exits_initial main) (fun _ hr => reach_linked hr.reach) ?_ h
  intro s e s' hl hs _ hx
  obtain ⟨hp, hm⟩ := step_moves hx
  exact hs.of_moves hl hp hm

/-- Who exits leaves the status it passed to `SYS_EXIT`, or the `-1` of `init_thread`. -/
theorem Exits.logs {e : Event} (h : Exits s) (hl : Linked s)
    (hexit : e.isExit (s.procs e.proc).pc = true) (hx : step e s = .ok s') :
    s'.log = s.log ++ [.exited (s.procs e.proc).tid (e.status (-1))] := by
  obtain ⟨hp, hm⟩ := step_moves hx
  generalize hpe : e.proc = p at hp hm hexit ⊢
  cases hm with
  | exits status _ hstatus hx =>
    rw [hl.exits hp hx, hstatus, h.unset hp]
    simp [exited]
  | uncopied hpc => rcases hpc with hpc | hpc <;> simp [Event.isExit, hpc] at hexit
  | exec hpc => simp [Event.isExit] at hexit
  | runTask hpc => simp [Event.isExit] at hexit
  | wait hpc => simp [Event.isExit] at hexit
  | _ hpc => simp [Event.isExit, hpc] at hexit

/-! ## Pointers to threads that are gone -/

/-- The statements of `stepRun`: the parent of a live process is live, and so is the child whose
flag is about to be set. -/
theorem Waits.stepRun_ne_dangling (h : Waits s) (hl : Linked s)
    (hp : (s.procs p).live = true) : stepRun p s ≠ .error .dangling := by
  unfold stepRun
  split
  next => split <;> simp
  next => simp
  next b hpc =>
    split
    next => simp
    next q hq =>
      rw [deref_of_live (hl.listed hp hq).1, bind_ok]
      simp
  next b hpc =>
    split
    next => simp
    next q hq =>
      rw [deref_of_live (hl.listed hp hq).1, bind_ok]
      simp
  next b hpc =>
    split
    next => simp
    next =>
      rw [hl.threadExit_eq hp]
      simp
  next => split <;> simp
  next =>
    split
    next => simp
    next => split <;> simp
  next c t hpc =>
    have hplace := h.place hp
    unfold Family.WaitsAt at hplace
    rw [hpc] at hplace
    obtain ⟨⟨e, he, _, het⟩, _⟩ := hplace
    rw [deref_of_live (hl.entry hp he het).1, bind_ok]
    simp
  next => split <;> simp
  next => split <;> simp
  next => simp

/-- Under the two invariants no step follows a pointer to a page that holds no thread. -/
theorem Waits.step_ne_dangling (h : Waits s) (hl : Linked s) (e : Event) :
    step e s ≠ .error .dangling := by
  unfold step
  split
  next => simp
  next hlive =>
    have hp : (s.procs e.proc).live = true := by simpa using hlive
    cases e with
    | exec p n => dsimp only; split <;> simp
    | runTask p n => dsimp only; split <;> simp
    | wait p tid => dsimp only; split <;> simp
    | exit p status =>
      dsimp only
      split
      next =>
        have hl' := hl.modProc p (fun t => { t with exitStatus := status.getD t.exitStatus })
          fun _ => ⟨rfl, rfl, rfl, rfl⟩
        rw [hl'.threadExit_eq (by simpa [Event.proc] using hp)]
        simp
      next => simp
    | alloc p ok =>
      rw [Event.proc] at hp
      show stepAlloc p ok s ≠ _
      unfold stepAlloc
      split
      next => simp
      next => simp
      next =>
        split
        next => simp
        next =>
          rw [hl.threadExit_eq hp]
          simp
      next => simp
    | create p page =>
      show stepCreate p page s ≠ _
      unfold stepCreate
      split
      next => simp
      next => split <;> [simp; (split <;> simp)]
      next => simp
    | load p success =>
      rw [Event.proc] at hp
      show stepLoad p success s ≠ _
      unfold stepLoad
      split
      next => simp
      next =>
        rw [hl.threadExit_eq hp]
        simp
      next => simp
    | run p => exact h.stepRun_ne_dangling hl hp

/-! ## The protocol -/

/-- What the wait protocol is for. -/
structure WaitSafe (s : Family) : Prop where
  /-- The first wait for a child returned its exit status, and every other wait `-1`. -/
  answered : Answered s.log
  /-- A process has one exit status, -/
  once : ∀ {c v v'}, .exited c v ∈ s.log → .exited c v' ∈ s.log → v = v'
  /-- and it is the one it stored, or `-1`. -/
  stored : ∀ {e s'}, e.isExit (s.procs e.proc).pc = true → step e s = .ok s' →
    s'.log = s.log ++ [.exited (s.procs e.proc).tid (e.status (-1))]
  /-- No step follows a pointer to a thread that is gone. -/
  notDangling : ∀ e, step e s ≠ .error .dangling
  /-- Nobody is blocked on a child that has exited. -/
  notLost : ∀ {p c v}, (s.procs p).live = true → (s.procs p).pc = .waitDown c →
    .exited c v ∈ s.log → (s.procs p).waiting ≠ 0

/-- A child that has exited has woken its parent. -/
theorem Waits.notLost {c : Tid} {v : Int} (h : Waits s) (hp : (s.procs p).live = true)
    (hpc : (s.procs p).pc = .waitDown c) (hx : .exited c v ∈ s.log) :
    (s.procs p).waiting ≠ 0 := by
  have hplace := h.place hp
  unfold Family.WaitsAt at hplace
  rw [hpc] at hplace
  rcases hplace with ⟨q, ⟨e, he, rfl, het⟩, _⟩ | ⟨_, hone⟩
  · have hrec := h.records hp he
    unfold Family.Records at hrec
    rw [het] at hrec
    exact absurd hx (hrec.2 v)
  · omega

/-- Every wait is answered rightly and none is lost, in every run in which no process exits while
its parent is between reading the pointer to it and writing through it. -/
theorem wait_protocol {main : ProcRef}
    (h : ReachWhere (Steps step) (fun s e => unwatched s e = true) (initial main) s) :
    WaitSafe s := by
  have hl := reach_linked h.reach
  have hw := reach_waits h
  have hx := reach_exits h.reach
  exact ⟨hw.answered, hx.once, hx.logs hl, hw.step_ne_dangling hl, hw.notLost⟩

/-- The initial thread runs a process that exits with status 7 after it is waited for. -/
def waitedFor : List Event :=
  [.runTask 0 [97], .alloc 0 true, .alloc 0 true, .create 0 (some 1), .run 0, .run 0, .run 0,
    .alloc 1 true, .load 1 (some true), .run 1, .run 1, .run 1, .exit 1 (some 7), .run 0, .run 0]

/-- A parent waits for a child that exits with 7. -/
theorem wait_protocol_seven : ∃ s, WaitSafe s ∧ .waited 1 3 7 ∈ s.log := by
  obtain ⟨s, hs, hlog⟩ := exists_of_replay step unwatched waitedFor (initial 0)
    (fun s => decide (.waited 1 3 7 ∈ s.log)) (by decide +kernel)
  exact ⟨s, wait_protocol hs, of_decide_eq_true hlog⟩

/-- The process exits after the initial thread has read the pointer to it. -/
def exitsWhileWatched : List Event :=
  [.runTask 0 [97], .alloc 0 true, .alloc 0 true, .create 0 (some 1), .alloc 1 true,
    .load 1 (some true), .run 1, .run 1, .run 1, .run 0, .run 0, .exit 1 (some 7)]

/-- The next statement of the initial thread then writes to a page that holds no thread. -/
theorem child_exits_while_watched :
    ¬ ∀ s, Reach (Steps step) (initial 0) s → WaitSafe s := by
  intro hsafe
  obtain ⟨s, hs, hd⟩ := exists_of_replay step (fun _ _ => true) exitsWhileWatched (initial 0)
    (fun s => match step (.run 0) s with | .error f => decide (f = .dangling) | .ok _ => false)
    (by decide +kernel)
  refine (hsafe s hs.reach).notDangling (.run 0) ?_
  split at hd
  next hstep => exact of_decide_eq_true hd ▸ hstep
  next => cases hd

end Pintos.Userprog
