import Pintos.Userprog.Exec

/-!
# The answers of exec

`Execs` is the invariant of the exec protocol for the processes that run user programs: one that
is blocked in `SYS_EXEC` has exactly one child that has yet to up its semaphore, and one that is
not has none. `exec_protocol` derives from it, for every run without the failures that break it,
that each exec returns what it should, that nobody is stranded and that every new thread has a name;
`exec_without_memory` is the run in which a process is stranded.
-/

namespace Pintos.Userprog

open Pintos.Lib

variable {s s' : Family} {p : ProcRef}

/-! ## The invariant -/

/-- Where a process is in `SYS_EXEC`, its semaphore, its flag and its children agree. -/
def Family.ExecsAt (s : Family) (p : ProcRef) : Prop :=
  match (s.procs p).pc with
  | .execDown pid => .created (s.procs p).tid pid ∈ s.log ∧
      (((s.procs p).waiting2 = 0 ∧
        ∃ q, s.Owes q p ∧ (s.procs q).tid = pid ∧ ∀ q', s.Owes q' p → q' = q) ∨
      ((s.procs p).waiting2 = 1 ∧ (∀ q, ¬ s.Owes q p) ∧
        .loaded pid (s.procs p).childLoadStatus ∈ s.log))
  | .execRead pid => .created (s.procs p).tid pid ∈ s.log ∧ (s.procs p).waiting2 = 0 ∧
      (∀ q, ¬ s.Owes q p) ∧ .loaded pid (s.procs p).childLoadStatus ∈ s.log
  | _ => (s.procs p).waiting2 = 0 ∧ ∀ q, ¬ s.Owes q p

/-- The invariant of the exec protocol, beside `Linked` and `Loads`. -/
structure Execs (s : Family) : Prop where
  place : ∀ {p}, (s.procs p).live = true → (s.procs p).isUser = true → s.ExecsAt p
  told : ∀ {q p b}, (s.procs q).live = true → (s.procs q).pc = .upping b →
    (s.procs q).parent = some p → (s.procs p).isUser = true → (s.procs p).childLoadStatus = b
  answered : ∀ {P pid r}, .execed P pid r ∈ s.log →
    .created P pid ∈ s.log ∧ ∃ b : Bool, .loaded pid b ∈ s.log ∧ r = if b then pid else -1

/-- A process that is not in `process_execute` is owed nothing. -/
theorem execsAt_iff (hpc : (s.procs p).pc.inExec = false) :
    s.ExecsAt p ↔ (s.procs p).waiting2 = 0 ∧ ∀ q, ¬ s.Owes q p := by
  unfold Family.ExecsAt
  cases h : (s.procs p).pc with
  | execDown pid => rw [h] at hpc; cases hpc
  | execRead pid => rw [h] at hpc; cases hpc
  | _ => rfl

/-- A process that owes an up has its parent blocked on it. -/
theorem Execs.of_owes {q : ProcRef} (h : Execs s) (hl : Linked s) (ho : s.Owes q p)
    (hu : (s.procs p).isUser = true) :
    (s.procs p).pc = .execDown (s.procs q).tid ∧ (s.procs p).waiting2 = 0 ∧
      .created (s.procs p).tid (s.procs q).tid ∈ s.log ∧ ∀ q', s.Owes q' p → q' = q := by
  have hp := (hl.listed ho.1 ho.2.1).1
  have hplace := h.place hp hu
  unfold Family.ExecsAt at hplace
  split at hplace
  next pid hpc =>
    obtain ⟨hc, ⟨hzero, q₀, ho₀, htid, huniq⟩ | ⟨_, hno, _⟩⟩ := hplace
    · obtain rfl := huniq q ho
      rw [htid]
      exact ⟨hpc, hzero, hc, huniq⟩
    · exact absurd ho (hno q)
  next pid hpc => exact absurd ho (hplace.2.2.1 q)
  next => exact absurd ho (hplace.2 q)

/-- A process keeps its place when nothing it depends on changes. -/
theorem execsAt_of_same {r : ProcRef} (h : s.ExecsAt r)
    (hr : (s'.procs r).pc = (s.procs r).pc ∧ (s'.procs r).tid = (s.procs r).tid ∧
      (s'.procs r).waiting2 = (s.procs r).waiting2 ∧
      (s'.procs r).childLoadStatus = (s.procs r).childLoadStatus)
    (howes : ∀ q, s'.Owes q r ↔ s.Owes q r)
    (htid : ∀ q, s.Owes q r → (s'.procs q).tid = (s.procs q).tid)
    (hmono : ∀ f ∈ s.log, f ∈ s'.log) : s'.ExecsAt r := by
  unfold Family.ExecsAt at h ⊢
  rw [hr.1, hr.2.1, hr.2.2.1, hr.2.2.2]
  simp only [howes]
  split at h
  next pid _ =>
    refine ⟨hmono _ h.1, ?_⟩
    rcases h.2 with ⟨hzero, q, ho, hq, huniq⟩ | ⟨hone, hno, hloaded⟩
    · exact .inl ⟨hzero, q, ho, (htid q ho).trans hq, huniq⟩
    · exact .inr ⟨hone, hno, hmono _ hloaded⟩
  next pid _ =>
    obtain ⟨hc, hzero, hno, hloaded⟩ := h
    exact ⟨hmono _ hc, hzero, hno, hmono _ hloaded⟩
  next => exact h

/-! ## Steps outside the handshake -/

/-- One process has moved on; what the others depend on is as it was. -/
structure ExecSame (s s' : Family) (p : ProcRef) : Prop where
  procs : ∀ r, (s'.procs r).live = (s.procs r).live ∧ (s'.procs r).tid = (s.procs r).tid ∧
    (s'.procs r).isUser = (s.procs r).isUser ∧ (s'.procs r).parent = (s.procs r).parent ∧
    (s'.procs r).waiting2 = (s.procs r).waiting2 ∧
    (s'.procs r).childLoadStatus = (s.procs r).childLoadStatus
  pc : ∀ r, r ≠ p → (s'.procs r).pc = (s.procs r).pc
  mono : ∀ f ∈ s.log, f ∈ s'.log
  execed : ∀ P c r, .execed P c r ∈ s'.log → .execed P c r ∈ s.log

/-- What is the same for an exec after each of two steps is the same after both. -/
theorem ExecSame.trans {s₁ : Family} (h : ExecSame s s₁ p) (h' : ExecSame s₁ s' p) :
    ExecSame s s' p := by
  refine ⟨fun r => ?_, fun r hr => (h'.pc r hr).trans (h.pc r hr),
    fun f hf => h'.mono f (h.mono f hf), fun P c r hx => h.execed P c r (h'.execed P c r hx)⟩
  obtain ⟨a₁, a₂, a₃, a₄, a₅, a₆⟩ := h.procs r
  obtain ⟨b₁, b₂, b₃, b₄, b₅, b₆⟩ := h'.procs r
  exact ⟨b₁.trans a₁, b₂.trans a₂, b₃.trans a₃, b₄.trans a₄, b₅.trans a₅, b₆.trans a₆⟩

/-- Other fields of a process do not matter to an exec. -/
theorem execSame_modProc (s : Family) (p q : ProcRef) (f : Proc → Proc)
    (hf : ∀ t, (f t).live = t.live ∧ (f t).tid = t.tid ∧ (f t).isUser = t.isUser ∧
      (f t).parent = t.parent ∧ (f t).waiting2 = t.waiting2 ∧
      (f t).childLoadStatus = t.childLoadStatus)
    (hpc : q ≠ p → ∀ t, (f t).pc = t.pc) : ExecSame s (s.modProc q f) p := by
  refine ⟨fun r => ?_, fun r hr => ?_, fun _ hf => hf, fun _ _ _ hx => hx⟩
  · rw [modProc_procs]
    split
    next hr =>
      subst hr
      exact hf _
    next => exact ⟨rfl, rfl, rfl, rfl, rfl, rfl⟩
  · rw [modProc_procs]
    split
    next hrq =>
      subst hrq
      exact hpc hr _
    next => rfl

theorem execSame_setPc (s : Family) (p : ProcRef) (pc : Pc) : ExecSame s (s.setPc p pc) p :=
  execSame_modProc s p p _ (fun _ => ⟨rfl, rfl, rfl, rfl, rfl, rfl⟩) fun h => absurd rfl h

/-- The record of something else does not matter to an exec. -/
theorem execSame_note (s : Family) (p : ProcRef) {f : Fact} (he : ∀ P c r, f ≠ .execed P c r) :
    ExecSame s (s.note f) p := by
  refine ⟨fun _ => ⟨rfl, rfl, rfl, rfl, rfl, rfl⟩, fun _ _ => rfl,
    fun g hg => List.mem_append_left _ hg, fun P c r hx => ?_⟩
  rcases List.mem_append.mp hx with hx | hx
  · exact hx
  · exact absurd (List.mem_singleton.mp hx).symm (he P c r)

/-- Who owes what changes only with the process that moves. -/
theorem ExecSame.owes (hs : ExecSame s s' p)
    (hp : (s.procs p).parent ≠ none → (s'.procs p).pc.starting = (s.procs p).pc.starting)
    (q r : ProcRef) : s'.Owes q r ↔ s.Owes q r := by
  unfold Family.Owes
  rw [(hs.procs q).1, (hs.procs q).2.2.2.1]
  by_cases hq : q = p
  · rw [hq]
    refine and_congr_right fun _ => and_congr_right fun hpar => ?_
    rw [hp (by rw [hpar]; simp)]
  · rw [hs.pc q hq]

/-- The history keeps the answers that are in it. -/
theorem Execs.answered_mono (h : Execs s) (hmono : ∀ f ∈ s.log, f ∈ s'.log) {P pid r : Tid}
    (hx : .execed P pid r ∈ s.log) : .created P pid ∈ s'.log ∧
      ∃ b : Bool, .loaded pid b ∈ s'.log ∧ r = if b then pid else -1 := by
  obtain ⟨hc, b, hb, hr⟩ := h.answered hx
  exact ⟨hmono _ hc, b, hmono _ hb, hr⟩

/-- A step that neither creates nor ends a process has to account for the processes in `M`, whose
place or semaphore it changes. -/
theorem Execs.of_moved (h : Execs s) (M : ProcRef → Prop)
    (hs : ∀ r, (s'.procs r).live = (s.procs r).live ∧ (s'.procs r).tid = (s.procs r).tid ∧
      (s'.procs r).isUser = (s.procs r).isUser ∧ (s'.procs r).parent = (s.procs r).parent)
    (hrest : ∀ r, ¬ M r → (s'.procs r).pc = (s.procs r).pc ∧
      (s'.procs r).waiting2 = (s.procs r).waiting2 ∧
      (s'.procs r).childLoadStatus = (s.procs r).childLoadStatus)
    (howes : ∀ q r, ¬ M r → (s'.Owes q r ↔ s.Owes q r)) (hmono : ∀ f ∈ s.log, f ∈ s'.log)
    (hplace : ∀ r, M r → (s.procs r).live = true → (s.procs r).isUser = true → s'.ExecsAt r)
    (htold : ∀ q r b, (s.procs q).live = true → (s'.procs q).pc = .upping b →
      (s.procs q).parent = some r → (s.procs r).isUser = true → (s'.procs r).childLoadStatus = b)
    (hanswered : ∀ P pid r, .execed P pid r ∈ s'.log → .execed P pid r ∈ s.log ∨
      .created P pid ∈ s.log ∧ ∃ b : Bool, .loaded pid b ∈ s.log ∧ r = if b then pid else -1) :
    Execs s' := by
  constructor
  case place =>
    intro r hr hu
    rw [(hs r).1] at hr
    rw [(hs r).2.2.1] at hu
    by_cases hM : M r
    · exact hplace r hM hr hu
    · obtain ⟨hpc, hsem⟩ := hrest r hM
      exact execsAt_of_same (h.place hr hu) ⟨hpc, (hs r).2.1, hsem⟩ (fun q => howes q r hM)
        (fun q _ => (hs q).2.1) hmono
  case told =>
    intro q r b hq hpc hpar hu
    rw [(hs q).1] at hq
    rw [(hs q).2.2.2] at hpar
    rw [(hs r).2.2.1] at hu
    exact htold q r b hq hpc hpar hu
  case answered =>
    intro P pid r hx
    rcases hanswered P pid r hx with hx | ⟨hc, b, hb, hr⟩
    · exact h.answered_mono hmono hx
    · exact ⟨hmono _ hc, b, hmono _ hb, hr⟩

/-- A move from one place outside the handshake to another. -/
theorem Execs.of_plain (h : Execs s) (hs : ExecSame s s' p)
    (hp : (s.procs p).parent ≠ none → (s'.procs p).pc.starting = (s.procs p).pc.starting)
    (hpc : (s.procs p).pc.inExec = false) (hpc' : (s'.procs p).pc.inExec = false)
    (hup : ∀ b, (s'.procs p).pc = .upping b → (s.procs p).pc = .upping b) : Execs s' := by
  have howes := hs.owes hp
  refine h.of_moved (· = p) (fun r => ?_) (fun r hr => ⟨hs.pc r hr, (hs.procs r).2.2.2.2⟩)
    (fun q r _ => howes q r) hs.mono ?_ ?_ fun P pid r hx => .inl (hs.execed P pid r hx)
  · obtain ⟨hlive, htid, huser, hpar, _⟩ := hs.procs r
    exact ⟨hlive, htid, huser, hpar⟩
  · rintro r rfl hr hu
    rw [execsAt_iff hpc']
    simp only [howes, (hs.procs r).2.2.2.2.1]
    exact (execsAt_iff hpc).mp (h.place hr hu)
  · intro q r b hq hqpc hpar hu
    rw [(hs.procs r).2.2.2.2.2]
    refine h.told hq ?_ hpar hu
    by_cases hqp : q = p
    · rw [hqp] at hqpc ⊢
      exact hup b hqpc
    · rw [hs.pc q hqp] at hqpc
      exact hqpc

/-! ## The handshake -/

/-- `thread_create_with_parent` has created the child the parent will wait for. -/
theorem Execs.of_created {d : Bool} {n : List UInt8} {c : ProcRef} (h : Execs s) (hl : Linked s) (hld : Loads s)
    (hp : (s.procs p).live = true) (hpc : (s.procs p).pc = .execCreate d n)
    (hc : (s.procs c).live = false) :
    Execs ((threadCreateWithParent p c s).setPc p (afterExecute d s.nextTid)) := by
  have hne : c ≠ p := by
    rintro rfl
    rw [hp] at hc
    cases hc
  have hother : ∀ {r}, (s.procs r).live = true → r ≠ c := by
    rintro r hr rfl
    rw [hr] at hc
    cases hc
  set s' := (threadCreateWithParent p c s).setPc p (afterExecute d s.nextTid) with hs'
  have hself : s'.procs p = { s.procs p with
      childList := (s'.procs p).childList, pc := afterExecute d s.nextTid } := by
    simp [hs', createWithParent_procs s hne]
  have hnew : s'.procs c = newProc p s.nextTid := by
    simp [hs', createWithParent_procs s hne, hne]
  have hold : ∀ {r}, r ≠ p → r ≠ c → s'.procs r = s.procs r := by
    intro r hrp hrc
    simp [hs', createWithParent_procs s hne, hrp, hrc]
  have hlog : s'.log = s.log ++ [.created (s.procs p).tid s.nextTid] := rfl
  have hmono : ∀ f ∈ s.log, f ∈ s'.log := fun f hf => List.mem_append_left _ hf
  -- the new child owes its parent an up, and nothing else has changed
  have howes : ∀ q r, s'.Owes q r ↔ (q = c ∧ r = p) ∨ s.Owes q r := by
    intro q r
    unfold Family.Owes
    by_cases hqc : q = c
    · rw [hqc, hnew, hc]
      simp only [newProc, Pc.starting, Option.some.injEq, Bool.false_eq_true, false_and, or_false,
        true_and, and_true]
      exact eq_comm
    · by_cases hqp : q = p
      · rw [hqp, hself, hpc, afterExecute_starting]
        simp [Pc.starting, Ne.symm hne]
      · rw [hold hqp hqc]
        simp [hqc]
  constructor
  case place =>
    intro r hr hu
    by_cases hrc : r = c
    · have hpc' : (s'.procs c).pc.inExec = false := by rw [hnew]; rfl
      rw [hrc, execsAt_iff hpc', hnew]
      refine ⟨rfl, fun q ho => ?_⟩
      rcases (howes q c).mp ho with ⟨_, hcp⟩ | ho
      · exact hne hcp
      · exact hother (hl.listed ho.1 ho.2.1).1 rfl
    · by_cases hrp : r = p
      · subst hrp
        rw [hself] at hu
        have hd : d = false := by
          rw [(hld.direct hp).1 d n (.inr (.inr hpc)), show (s.procs r).isUser = true from hu]
          rfl
        have hplace := (execsAt_iff (by rw [hpc]; rfl)).mp (h.place hp hu)
        have hpc' : (s'.procs r).pc = .execDown s.nextTid := by
          rw [hself, hd]
          rfl
        unfold Family.ExecsAt
        rw [hpc']
        refine ⟨?_, .inl ⟨?_, c, (howes c r).mpr (.inl ⟨rfl, rfl⟩), ?_, fun q' ho => ?_⟩⟩
        · rw [hself, hlog]
          simp
        · rw [hself]
          exact hplace.1
        · rw [hnew]
          rfl
        · rcases (howes q' r).mp ho with ⟨hqc, _⟩ | ho
          · exact hqc
          · exact absurd ho (hplace.2 q')
      · rw [hold hrp hrc] at hr hu
        refine execsAt_of_same (h.place hr hu) ?_ (fun q => ?_) (fun q ho => ?_) hmono
        · rw [hold hrp hrc]
          exact ⟨rfl, rfl, rfl, rfl⟩
        · rw [howes]
          exact or_iff_right fun hq => hrp hq.2
        · have hqc := hother ho.1
          by_cases hqp : q = p
          · rw [hqp, hself]
          · rw [hold hqp hqc]
  case told =>
    intro q r b hq hqpc hpar hu
    have hqc : q ≠ c := by
      rintro rfl
      rw [hnew] at hqpc
      cases hqpc
    have hqp : q ≠ p := by
      rintro rfl
      rw [hself] at hqpc
      cases d <;> cases hqpc
    rw [hold hqp hqc] at hq hqpc hpar
    have hrc := hother (hl.listed hq hpar).1
    by_cases hrp : r = p
    · rw [hrp] at hu hpar ⊢
      rw [hself] at hu ⊢
      exact h.told hq hqpc hpar hu
    · rw [hold hrp hrc] at hu ⊢
      exact h.told hq hqpc hpar hu
  case answered =>
    intro P pid r hx
    refine h.answered_mono hmono ?_
    rcases List.mem_append.mp hx with hx | hx
    · exact hx
    · cases List.mem_singleton.mp hx

/-- The down succeeds: the child has told what its `load` returned. -/
theorem Execs.of_execDown {pid : Tid} (h : Execs s) (hpc : (s.procs p).pc = .execDown pid)
    (hnz : (s.procs p).waiting2 ≠ 0) :
    Execs (s.modProc p fun t => { t with waiting2 := t.waiting2 - 1, pc := .execRead pid }) := by
  set s' := s.modProc p fun t => { t with waiting2 := t.waiting2 - 1, pc := .execRead pid } with hs'
  have hself : s'.procs p =
      { s.procs p with waiting2 := (s.procs p).waiting2 - 1, pc := .execRead pid } := by simp [hs']
  have hother : ∀ {r}, r ≠ p → s'.procs r = s.procs r := by
    intro r hr
    simp [hs', hr]
  have hsame : ∀ r, (s'.procs r).live = (s.procs r).live ∧ (s'.procs r).tid = (s.procs r).tid ∧
      (s'.procs r).isUser = (s.procs r).isUser ∧ (s'.procs r).parent = (s.procs r).parent ∧
      (s'.procs r).childLoadStatus = (s.procs r).childLoadStatus ∧
      (s'.procs r).pc.starting = (s.procs r).pc.starting := by
    intro r
    by_cases hr : r = p
    · rw [hr, hself, hpc]
      exact ⟨rfl, rfl, rfl, rfl, rfl, rfl⟩
    · rw [hother hr]
      exact ⟨rfl, rfl, rfl, rfl, rfl, rfl⟩
  have howes : ∀ q r, s'.Owes q r ↔ s.Owes q r := by
    intro q r
    unfold Family.Owes
    rw [(hsame q).1, (hsame q).2.2.2.1, (hsame q).2.2.2.2.2]
  refine h.of_moved (· = p) (fun r => ?_) (fun r hr => by rw [hother hr]; exact ⟨rfl, rfl, rfl⟩)
    (fun q r _ => howes q r) (fun _ hf => hf) ?_ ?_ fun _ _ _ hx => .inl hx
  · obtain ⟨hlive, htid, huser, hpar, _⟩ := hsame r
    exact ⟨hlive, htid, huser, hpar⟩
  · rintro r rfl hr hu
    have hplace := h.place hr hu
    unfold Family.ExecsAt at hplace ⊢
    simp only [howes]
    rw [hpc] at hplace
    rw [hself]
    obtain ⟨hc, ⟨hzero, _⟩ | ⟨hone, hno, hloaded⟩⟩ := hplace
    · exact absurd hzero hnz
    · exact ⟨hc, by simp [hone], hno, hloaded⟩
  · intro q r b hq hqpc hpar hu
    rw [(hsame r).2.2.2.2.1]
    have hqp : q ≠ p := by
      rintro rfl
      rw [hself] at hqpc
      cases hqpc
    rw [hother hqp] at hqpc
    exact h.told hq hqpc hpar hu

/-- `SYS_EXEC` returns. -/
theorem Execs.of_execRead {pid : Tid} (h : Execs s) (hp : (s.procs p).live = true)
    (hu : (s.procs p).isUser = true) (hpc : (s.procs p).pc = .execRead pid) :
    Execs ((s.setPc p .user).note (.execed (s.procs p).tid pid
      (if (s.procs p).childLoadStatus then pid else -1))) := by
  have hplace := h.place hp hu
  unfold Family.ExecsAt at hplace
  rw [hpc] at hplace
  obtain ⟨hc, hzero, hno, hloaded⟩ := hplace
  have hs := execSame_setPc s p .user
  have howes := hs.owes fun _ => by simp [hpc, Pc.starting]
  refine h.of_moved (· = p) (fun r => ?_) (fun r hr => ⟨hs.pc r hr, (hs.procs r).2.2.2.2⟩)
    (fun q r _ => howes q r) (fun f hf => List.mem_append_left _ hf) ?_ ?_ ?_
  · obtain ⟨hlive, htid, huser, hpar, _⟩ := hs.procs r
    exact ⟨hlive, htid, huser, hpar⟩
  · rintro r rfl _ _
    refine (execsAt_iff (by simp [Pc.inExec])).mpr ⟨?_, fun q ho => hno q ((howes q r).mp ho)⟩
    exact ((hs.procs r).2.2.2.2.1).trans hzero
  · intro q r b hq hqpc hpar hur
    have hqp : q ≠ p := by
      rintro rfl
      simp at hqpc
    exact ((hs.procs r).2.2.2.2.2).trans (h.told hq ((hs.pc q hqp).symm.trans hqpc) hpar hur)
  · intro P pid' r hx
    rcases List.mem_append.mp hx with hx | hx
    · exact .inl hx
    · obtain ⟨rfl, rfl, rfl⟩ := Fact.execed.inj (List.mem_singleton.mp hx)
      exact .inr ⟨hc, _, hloaded, rfl⟩

/-- The child writes what its `load` returned into its parent. -/
theorem Execs.of_reported {b : Bool} {q : ProcRef} (h : Execs s) (hl : Linked s)
    (hp : (s.procs p).live = true) (hpc : (s.procs p).pc = .reporting b)
    (hpar : (s.procs p).parent = some q) :
    Execs ((s.modProc q fun t => { t with childLoadStatus := b }).setPc p (.upping b)) := by
  have hqp : q ≠ p := hl.parent_ne hp hpar
  set s' := (s.modProc q fun t => { t with childLoadStatus := b }).setPc p (.upping b) with hs'
  have hself : s'.procs p = { s.procs p with pc := .upping b } := by simp [hs', Ne.symm hqp]
  have hparent : s'.procs q = { s.procs q with childLoadStatus := b } := by simp [hs', hqp]
  have hother : ∀ {r}, r ≠ p → r ≠ q → s'.procs r = s.procs r := by
    intro r hrp hrq
    simp [hs', hrp, hrq]
  have hsame : ∀ r, (s'.procs r).live = (s.procs r).live ∧ (s'.procs r).tid = (s.procs r).tid ∧
      (s'.procs r).isUser = (s.procs r).isUser ∧ (s'.procs r).parent = (s.procs r).parent ∧
      (s'.procs r).waiting2 = (s.procs r).waiting2 ∧
      (s'.procs r).pc.starting = (s.procs r).pc.starting := by
    intro r
    by_cases hrp : r = p
    · rw [hrp, hself, hpc]
      exact ⟨rfl, rfl, rfl, rfl, rfl, rfl⟩
    · by_cases hrq : r = q
      · rw [hrq, hparent]
        exact ⟨rfl, rfl, rfl, rfl, rfl, rfl⟩
      · rw [hother hrp hrq]
        exact ⟨rfl, rfl, rfl, rfl, rfl, rfl⟩
  have howes : ∀ q r, s'.Owes q r ↔ s.Owes q r := by
    intro q r
    unfold Family.Owes
    rw [(hsame q).1, (hsame q).2.2.2.1, (hsame q).2.2.2.2.2]
  have howed : s.Owes p q := ⟨hp, hpar, by rw [hpc]; rfl⟩
  refine h.of_moved (fun r => r = p ∨ r = q) (fun r => ?_) (fun r hr => ?_)
    (fun q r _ => howes q r) (fun _ hf => hf) ?_ ?_ fun _ _ _ hx => .inl hx
  · obtain ⟨hlive, htid, huser, hpar, _⟩ := hsame r
    exact ⟨hlive, htid, huser, hpar⟩
  · rw [hother (fun hrp => hr (.inl hrp)) fun hrq => hr (.inr hrq)]
    exact ⟨rfl, rfl, rfl⟩
  · rintro r (rfl | rfl) hr hu
    · have hplace := (execsAt_iff (by rw [hpc]; rfl)).mp (h.place hr hu)
      rw [execsAt_iff (by rw [hself]; rfl)]
      simp only [howes, (hsame r).2.2.2.2.1]
      exact hplace
    · obtain ⟨hrpc, hzero, hc, huniq⟩ := h.of_owes hl howed hu
      unfold Family.ExecsAt
      simp only [howes, fun q => (hsame q).2.1, (hsame r).2.2.2.2.1]
      rw [hparent]
      dsimp only
      rw [hrpc]
      exact ⟨hc, .inl ⟨hzero, p, howed, rfl, huniq⟩⟩
  · intro q' r b' hq' hqpc hpar' hu
    by_cases hq'p : q' = p
    · subst hq'p
      obtain rfl := Option.some.inj (hpar.symm.trans hpar')
      rw [hself] at hqpc
      rw [hparent]
      exact Pc.upping.inj hqpc
    · have hqpc' : (s.procs q').pc = .upping b' := by
        by_cases hq'q : q' = q
        · rw [hq'q, hparent] at hqpc
          rw [hq'q]
          exact hqpc
        · rwa [hother hq'p hq'q] at hqpc
      have hrq : r ≠ q := by
        rintro rfl
        exact hq'p ((h.of_owes hl howed hu).2.2.2 q' ⟨hq', hpar', by rw [hqpc']; rfl⟩)
      have hcls := h.told hq' hqpc' hpar' hu
      by_cases hrp : r = p
      · rw [hrp] at hcls ⊢
        rw [hself]
        exact hcls
      · rw [hother hrp hrq]
        exact hcls

/-- The child ups the semaphore of its parent. -/
theorem Execs.of_upped {b : Bool} {q : ProcRef} (h : Execs s) (hl : Linked s) (hld : Loads s)
    (hp : (s.procs p).live = true) (hpc : (s.procs p).pc = .upping b)
    (hpar : (s.procs p).parent = some q) :
    Execs ((s.modProc q fun t => { t with waiting2 := t.waiting2 + 1 }).setPc p (.started b)) := by
  have hqp : q ≠ p := hl.parent_ne hp hpar
  set s' := (s.modProc q fun t => { t with waiting2 := t.waiting2 + 1 }).setPc p (.started b)
    with hs'
  have hself : s'.procs p = { s.procs p with pc := .started b } := by simp [hs', Ne.symm hqp]
  have hparent : s'.procs q = { s.procs q with waiting2 := (s.procs q).waiting2 + 1 } := by
    simp [hs', hqp]
  have hother : ∀ {r}, r ≠ p → r ≠ q → s'.procs r = s.procs r := by
    intro r hrp hrq
    simp [hs', hrp, hrq]
  have hsame : ∀ r, (s'.procs r).live = (s.procs r).live ∧ (s'.procs r).tid = (s.procs r).tid ∧
      (s'.procs r).isUser = (s.procs r).isUser ∧ (s'.procs r).parent = (s.procs r).parent ∧
      (s'.procs r).childLoadStatus = (s.procs r).childLoadStatus := by
    intro r
    by_cases hrp : r = p
    · rw [hrp, hself]
      exact ⟨rfl, rfl, rfl, rfl, rfl⟩
    · by_cases hrq : r = q
      · rw [hrq, hparent]
        exact ⟨rfl, rfl, rfl, rfl, rfl⟩
      · rw [hother hrp hrq]
        exact ⟨rfl, rfl, rfl, rfl, rfl⟩
  have hpcs : ∀ {r}, r ≠ p → (s'.procs r).pc = (s.procs r).pc := by
    intro r hrp
    by_cases hrq : r = q
    · rw [hrq, hparent]
    · rw [hother hrp hrq]
  -- exactly this debt is paid
  have howes : ∀ q' r, s'.Owes q' r ↔ s.Owes q' r ∧ q' ≠ p := by
    intro q' r
    unfold Family.Owes
    by_cases hq' : q' = p
    · rw [hq', hself]
      simp [Pc.starting]
    · rw [(hsame q').1, (hsame q').2.2.2.1, hpcs hq']
      simp [hq']
  have howed : s.Owes p q := ⟨hp, hpar, by rw [hpc]; rfl⟩
  refine h.of_moved (fun r => r = p ∨ r = q) (fun r => ?_) (fun r hr => ?_) (fun q' r hr => ?_)
    (fun _ hf => hf) ?_ ?_ fun _ _ _ hx => .inl hx
  · obtain ⟨hlive, htid, huser, hpar, _⟩ := hsame r
    exact ⟨hlive, htid, huser, hpar⟩
  · rw [hother (fun hrp => hr (.inl hrp)) fun hrq => hr (.inr hrq)]
    exact ⟨rfl, rfl, rfl⟩
  · rw [howes]
    refine and_iff_left_of_imp fun ho hq' => hr (.inr ?_)
    rw [hq'] at ho
    exact Option.some.inj (ho.2.1.symm.trans hpar)
  · rintro r (rfl | rfl) hr hu
    · obtain ⟨hzero, hno⟩ := (execsAt_iff (by rw [hpc]; rfl)).mp (h.place hr hu)
      rw [execsAt_iff (by rw [hself]; rfl)]
      refine ⟨by rw [hself]; exact hzero, fun q' ho => hno q' ((howes q' r).mp ho).1⟩
    · obtain ⟨hrpc, hzero, hc, huniq⟩ := h.of_owes hl howed hu
      have hcls := h.told hp hpc hpar hu
      unfold Family.ExecsAt
      rw [hpcs hqp, hrpc, (hsame r).2.1, (hsame r).2.2.2.2]
      refine ⟨hc, .inr ⟨by rw [hparent, hzero], fun q' ho => ?_, ?_⟩⟩
      · obtain ⟨ho, hne⟩ := (howes q' r).mp ho
        exact hne (huniq q' ho)
      · rw [hcls]
        exact hld.reported hp (.inr hpc)
  · intro q' r b' hq' hqpc hpar' hu
    rw [(hsame r).2.2.2.2]
    have hq'p : q' ≠ p := by
      rintro rfl
      rw [hself] at hqpc
      cases hqpc
    rw [hpcs hq'p] at hqpc
    exact h.told hq' hqpc hpar' hu

/-- A process exits that owes nothing to a user process. -/
theorem Execs.of_exited (h : Execs s) (hl : Linked s) (hp : (s.procs p).live = true)
    (hno : ∀ r, (s.procs r).isUser = true → ¬ s.Owes p r) : Execs (exited s p) := by
  have hlive : ∀ {r}, ((exited s p).procs r).live = true ↔ (s.procs r).live = true ∧ r ≠ p :=
    fun {r} => exitProc_live s p r
  have hmono : ∀ f ∈ s.log, f ∈ (exited s p).log := fun f hf => List.mem_append_left _ hf
  have hkept : ∀ {r}, r ≠ p → _ := fun {r} hr => exitProc_exec s (p := p) (r := r) hr
  have howes : ∀ q {r}, (s.procs r).isUser = true → r ≠ p →
      ((exited s p).Owes q r ↔ s.Owes q r) := by
    intro q r hu hrp
    constructor
    · rintro ⟨hq, hpar, hst⟩
      obtain ⟨hq, hqp⟩ := hlive.mp hq
      have hpc : ((exited s p).procs q).pc = (s.procs q).pc := (hkept hqp).1
      rw [hpc] at hst
      exact ⟨hq, ((hl.exitProc_parent hp hq hqp).mp hpar).1, hst⟩
    · intro ho
      have hqp : q ≠ p := by
        rintro rfl
        exact hno r hu ho
      refine ⟨hlive.mpr ⟨ho.1, hqp⟩, (hl.exitProc_parent hp ho.1 hqp).mpr ⟨ho.2.1, hrp⟩, ?_⟩
      have hpc : ((exited s p).procs q).pc = (s.procs q).pc := (hkept hqp).1
      rw [hpc]
      exact ho.2.2
  constructor
  case place =>
    intro r hr hu
    obtain ⟨hr, hrp⟩ := hlive.mp hr
    obtain ⟨hpc, huser, hsem⟩ := hkept hrp
    have hu' : (s.procs r).isUser = true := huser.symm.trans hu
    exact execsAt_of_same (h.place hr hu') ⟨hpc, exitProc_tid s p r, hsem⟩
      (fun q => howes q hu' hrp) (fun q _ => exitProc_tid s p q) hmono
  case told =>
    intro q r b hq hqpc hpar hu
    obtain ⟨hq, hqp⟩ := hlive.mp hq
    obtain ⟨hpar, hrp⟩ := (hl.exitProc_parent hp hq hqp).mp hpar
    have hqpc' : (s.procs q).pc = .upping b := (hkept hqp).1.symm.trans hqpc
    have hu' : (s.procs r).isUser = true := (hkept hrp).2.1.symm.trans hu
    exact (hkept hrp).2.2.2.trans (h.told hq hqpc' hpar hu')
  case answered =>
    intro P pid r hx
    refine h.answered_mono hmono ?_
    rcases List.mem_append.mp hx with hx | hx
    · exact hx
    · cases List.mem_singleton.mp hx

/-! ## Runs -/

/-- The parent of `p` runs a user program. -/
def Family.underUser (s : Family) (p : ProcRef) : Bool :=
  match (s.procs p).parent with
  | none => false
  | some q => (s.procs q).isUser

/-- A command line that is executed has a word, and in an exec of a process that runs a user
program no page allocation fails, and `load` returns. -/
def reports (s : Family) : Event → Bool
  | .exec _ n | .runTask _ n => (realName n).isSome
  | .alloc p false =>
    if (s.procs p).pc = .startCopy then !s.underUser p else !(s.procs p).isUser
  | .create p none => !(s.procs p).isUser
  | .load p none => !s.underUser p
  | _ => true

/-- Who exits owes nothing to a process that runs a user program. -/
theorem not_owes_of_exits {e : Event} {r : ProcRef} (hr : reports s e = true)
    (hexit : e.isExit (s.procs e.proc).pc = true) (hu : (s.procs r).isUser = true) :
    ¬ s.Owes e.proc r := by
  rintro ⟨_, hpar, hst⟩
  generalize hpe : e.proc = p at hexit hpar hst
  cases e with
  | exit p' status =>
    have hpc : (s.procs p).pc = .user := by simpa [Event.isExit] using hexit
    rw [hpc] at hst
    cases hst
  | alloc p' ok =>
    obtain rfl : p' = p := hpe
    obtain ⟨rfl, hpc⟩ : ok = false ∧ (s.procs p').pc = .startCopy := by
      simpa [Event.isExit] using hexit
    simp [reports, hpc, Family.underUser, hpar, hu] at hr
  | load p' success =>
    obtain rfl : p' = p := hpe
    cases success with
    | none => simp [reports, Family.underUser, hpar, hu] at hr
    | some b => cases hexit
  | run p' =>
    have hpc : (s.procs p).pc = .started false := by simpa [Event.isExit] using hexit
    rw [hpc] at hst
    cases hst
  | exec p' n => cases hexit
  | runTask p' n => cases hexit
  | wait p' tid => cases hexit
  | create p' page => cases hexit

/-- A process that exits is in no exec. -/
theorem inExec_of_isExit {e : Event} {pc : Pc} (h : e.isExit pc = true) : pc.inExec = false := by
  cases pc with
  | execDown pid => cases e with
    | load p success => cases success <;> simp [Event.isExit] at h
    | _ => simp [Event.isExit] at h
  | execRead pid => cases e with
    | load p success => cases success <;> simp [Event.isExit] at h
    | _ => simp [Event.isExit] at h
  | _ => rfl

/-- At first there is no exec. -/
theorem execs_initial (main : ProcRef) : Execs (initial main) where
  place _ hu := by cases hu
  told _ hpc := by cases hpc
  answered hx := by cases hx

/-- A move that is a jump of the process itself. -/
theorem Execs.of_setPc {pc : Pc} (h : Execs s)
    (hst : (s.procs p).parent ≠ none → pc.starting = (s.procs p).pc.starting)
    (hpc : (s.procs p).pc.inExec = false) (hpc' : pc.inExec = false) (hup : ∀ b, pc ≠ .upping b) :
    Execs (s.setPc p pc) := by
  refine h.of_plain (execSame_setPc s p pc) (by simpa using hst) hpc (by simpa using hpc') ?_
  intro b hb
  simp at hb
  exact absurd hb (hup b)

/-- Only the record of an exec is about one. -/
theorem Execs.of_note (h : Execs s) {f : Fact} (hf : ∀ P c r, f ≠ .execed P c r) :
    Execs (s.note f) := by
  have hs := execSame_note s 0 hf
  refine h.of_moved (fun _ => False) (fun _ => ⟨rfl, rfl, rfl, rfl⟩) (fun _ _ => ⟨rfl, rfl, rfl⟩)
    (fun _ _ _ => Iff.rfl) hs.mono (fun _ hM => absurd hM id) (fun q r b hq hqpc hpar hu => ?_)
    fun P pid r hx => .inl (hs.execed P pid r hx)
  exact h.told hq hqpc hpar hu

/-- Every move keeps what execs are owed, if every child reports. -/
theorem Execs.of_moves {e : Event} (h : Execs s) (hl : Linked s) (hld : Loads s)
    (hp : (s.procs p).live = true) (hpe : e.proc = p) (hr : reports s e = true)
    (hm : Moves s p e s') : Execs s' := by
  cases hm with
  | exits status hexit _ hx =>
    subst hpe
    rw [hl.exits hp hx]
    have hs := execSame_modProc s e.proc e.proc (fun t => { t with exitStatus := status })
      (fun _ => ⟨rfl, rfl, rfl, rfl, rfl, rfl⟩) fun hne => absurd rfl hne
    have hpcs : ∀ r, ((s.modProc e.proc fun t => { t with exitStatus := status }).procs r).pc =
        (s.procs r).pc := by
      intro r
      rw [modProc_procs]
      split
      next hre => rw [hre]
      next => rfl
    have hpc := inExec_of_isExit hexit
    apply Execs.of_exited
    · refine h.of_plain hs (fun _ => by rw [hpcs]) hpc (by rw [hpcs]; exact hpc) fun b hb => ?_
      rwa [hpcs] at hb
    · exact hl.modProc _ _ fun _ => ⟨rfl, rfl, rfl, rfl⟩
    · simpa using hp
    · intro r hu ho
      rw [(hs.procs r).2.2.1] at hu
      exact not_owes_of_exits hr hexit hu ((hs.owes (fun _ => by rw [hpcs]) e.proc r).mp ho)
  | created hpc hc => exact h.of_created hl hld hp hpc hc
  | loaded hpc =>
    apply Execs.of_note
    · exact h.of_setPc (fun _ => by rw [hpc]; rfl) (by rw [hpc]; rfl) rfl (by simp)
    · simp
  | execDown hpc hnz => exact h.of_execDown hpc hnz
  | execRead hpc => exact h.of_execRead hp ((hld.direct hp).2 (by rw [hpc]; rfl)) hpc
  | unreported hpc hpar =>
    exact h.of_setPc (fun hne => absurd hpar hne) (by rw [hpc]; rfl) rfl (by simp)
  | reported hpc hpar _ => exact h.of_reported hl hp hpc hpar
  | upped hpc hpar _ => exact h.of_upped hl hld hp hpc hpar
  | @uncopied d n hpc =>
    -- only the initial thread may fail here, and it goes on to `process_wait`
    have hd : d = true := by
      rw [(hld.direct hp).1 d n (hpc.imp id .inl)]
      rcases hpc with hpc | hpc <;> simpa [reports, hpc] using hr
    rw [hd]
    rcases hpc with hpc | hpc
    · exact h.of_setPc (fun _ => by rw [hpc]; rfl) (by rw [hpc]; rfl) rfl (by simp [afterExecute])
    · exact h.of_setPc (fun _ => by rw [hpc]; rfl) (by rw [hpc]; rfl) rfl (by simp [afterExecute])
  | @uncreated d n hpc =>
    have hd : d = true := by
      rw [(hld.direct hp).1 d n (.inr (.inr hpc))]
      simpa [reports] using hr
    rw [hd]
    exact h.of_setPc (fun _ => by rw [hpc]; rfl) (by rw [hpc]; rfl) rfl (by simp [afterExecute])
  | unfound hpc _ =>
    apply Execs.of_note
    · exact h.of_setPc (fun _ => by rw [hpc]; rfl) (by rw [hpc]; rfl) rfl (by simp)
    · simp
  | @flagged tid t hpc _ =>
    have hs := execSame_modProc s p t (fun c => { c with isParentWaiting := true })
      (fun _ => ⟨rfl, rfl, rfl, rfl, rfl, rfl⟩) fun _ _ => rfl
    refine h.of_plain (hs.trans (execSame_setPc _ p (.waitDown tid))) (fun _ => ?_)
      (by rw [hpc]; rfl) ?_ ?_
    · simp [hpc, Pc.starting]
    · simp [Pc.inExec]
    · simp
  | @downed tid hpc _ =>
    have hs := execSame_modProc s p p
      (fun t => { t with waiting := t.waiting - 1, pc := .waitStatus tid })
      (fun _ => ⟨rfl, rfl, rfl, rfl, rfl, rfl⟩) fun hne => absurd rfl hne
    refine h.of_plain hs (fun _ => ?_) (by rw [hpc]; rfl) ?_ ?_
    · simp [hpc, Pc.starting]
    · simp [Pc.inExec]
    · simp
  | @returned tid e hpc _ =>
    have hs := execSame_modProc s p p (fun t => { t with childList := t.childList.map fun e' =>
      if e'.tid = tid then { e' with exitStatus := -1 } else e' })
      (fun _ => ⟨rfl, rfl, rfl, rfl, rfl, rfl⟩) fun hne => absurd rfl hne
    apply Execs.of_note
    · refine h.of_plain (hs.trans (execSame_setPc _ p .user)) (fun _ => ?_) (by rw [hpc]; rfl) ?_ ?_
      · simp [hpc, Pc.starting]
      · simp [Pc.inExec]
      · simp
    · simp
  | exec hpc _ => exact h.of_setPc (fun _ => by rw [hpc]; rfl) (by rw [hpc]; rfl) rfl (by simp)
  | runTask hpc _ => exact h.of_setPc (fun _ => by rw [hpc]; rfl) (by rw [hpc]; rfl) rfl (by simp)
  | wait hpc _ => exact h.of_setPc (fun _ => by rw [hpc]; rfl) (by rw [hpc]; rfl) rfl (by simp)
  | copied hpc => exact h.of_setPc (fun _ => by rw [hpc]; rfl) (by rw [hpc]; rfl) rfl (by simp)
  | copied2 hpc => exact h.of_setPc (fun _ => by rw [hpc]; rfl) (by rw [hpc]; rfl) rfl (by simp)
  | startCopied hpc => exact h.of_setPc (fun _ => by rw [hpc]; rfl) (by rw [hpc]; rfl) rfl (by simp)
  | started hpc => exact h.of_setPc (fun _ => by rw [hpc]; rfl) (by rw [hpc]; rfl) rfl (by simp)
  | found hpc _ => exact h.of_setPc (fun _ => by rw [hpc]; rfl) (by rw [hpc]; rfl) rfl (by simp)
  | readNull hpc _ _ =>
    exact h.of_setPc (fun _ => by rw [hpc]; rfl) (by rw [hpc]; rfl) rfl (by simp)
  | read hpc _ _ => exact h.of_setPc (fun _ => by rw [hpc]; rfl) (by rw [hpc]; rfl) rfl (by simp)

/-- What execs are owed is kept in every state of a run whose children report. -/
theorem reach_execs {main : ProcRef}
    (h : ReachWhere (Steps step) (fun s e => reports s e = true) (initial main) s) : Execs s := by
  refine h.invariant_with (execs_initial main)
    (fun _ hr => And.intro (reach_linked hr.reach) (reach_loads hr.reach)) ?_
  intro s e s' hk hs hr hx
  obtain ⟨hp, hm⟩ := step_moves hx
  exact hs.of_moves hk.1 hk.2 hp rfl hr hm

/-! ## The name of the new thread -/

/-- The command line of a `process_execute` under way. -/
def Pc.fileName : Pc → Option (List UInt8)
  | .execCopy _ n | .execCopy2 _ n | .execCreate _ n => some n
  | _ => none

/-- The command line `process_execute` is called with. -/
def Event.fileName : Event → Option (List UInt8)
  | .exec _ n | .runTask _ n => some n
  | _ => none

/-- Every command line being executed has a word. -/
def Named (s : Family) : Prop :=
  ∀ p n, (s.procs p).live = true → (s.procs p).pc.fileName = some n → (realName n).isSome = true

/-- Behind an exec there is no name to load. -/
theorem afterExecute_fileName (direct : Bool) (pid : Tid) :
    (afterExecute direct pid).fileName = none := by
  cases direct <;> rfl

/-- A command line comes in with a call, and stays with the caller until the thread is created. -/
theorem Moves.fileName {e : Event} {r : ProcRef} {n : List UInt8} (hl : Linked s)
    (hp : (s.procs p).live = true) (hm : Moves s p e s') (hr : (s'.procs r).live = true)
    (hn : (s'.procs r).pc.fileName = some n) :
    ((s.procs r).live = true ∧ (s.procs r).pc.fileName = some n) ∨ e.fileName = some n := by
  cases hm with
  | exits status _ _ hx =>
    rw [hl.exits hp hx] at hr hn
    obtain ⟨hr, hrp⟩ := (exitProc_live _ p r).mp hr
    rw [show ((exited _ p).procs r).pc = _ from (exitProc_exec _ hrp).1] at hn
    simp only [modProc_procs, if_neg hrp] at hr hn
    exact .inl ⟨hr, hn⟩
  | @created d n' c _ hc =>
    have hne : c ≠ p := by
      rintro rfl
      rw [hp] at hc
      cases hc
    by_cases hrp : r = p
    · simp [hrp, afterExecute_fileName] at hn
    · by_cases hrc : r = c
      · simp [createWithParent_procs s hne, hrc, hne, newProc, Pc.fileName] at hn
      · simp only [setPc_procs, createWithParent_procs s hne, if_neg hrp, if_neg hrc] at hr hn
        exact .inl ⟨hr, hn⟩
  | exec | runTask =>
    by_cases hrp : r = p
    · simp only [setPc_procs, if_pos hrp, Pc.fileName] at hn
      exact .inr hn
    · simp only [setPc_procs, if_neg hrp] at hr hn
      exact .inl ⟨hr, hn⟩
  | copied hpc | copied2 hpc =>
    by_cases hrp : r = p
    · simp only [setPc_procs, if_pos hrp, Pc.fileName] at hn
      rw [hrp, hpc]
      exact .inl ⟨hp, hn⟩
    · simp only [setPc_procs, if_neg hrp] at hr hn
      exact .inl ⟨hr, hn⟩
  | @reported b q _ _ _ | @upped b q _ _ _ | @flagged tid q _ _ =>
    by_cases hrp : r = p
    · simp [hrp, Pc.fileName] at hn
    · by_cases hrq : r = q
      · simp [hrq, show q ≠ p from hrq ▸ hrp] at hr hn
        rw [hrq]
        exact .inl ⟨hr, hn⟩
      · simp only [setPc_procs, modProc_procs, if_neg hrp, if_neg hrq] at hr hn
        exact .inl ⟨hr, hn⟩
  | uncopied | uncreated =>
    by_cases hrp : r = p
    · simp [hrp, afterExecute_fileName] at hn
    · simp only [setPc_procs, if_neg hrp] at hr hn
      exact .inl ⟨hr, hn⟩
  | _ =>
    by_cases hrp : r = p
    · simp [hrp, waitReturns, Pc.fileName] at hn
    · simp only [waitReturns, note_procs, setPc_procs, modProc_procs, if_neg hrp] at hr hn
      exact .inl ⟨hr, hn⟩

/-- The names that are to be loaded are not empty, in a run whose children report. -/
theorem reach_named {main : ProcRef}
    (h : ReachWhere (Steps step) (fun s e => reports s e = true) (initial main) s) : Named s := by
  refine h.invariant_with (fun p n _ hn => by cases hn)
    (fun _ hr => reach_linked hr.reach) ?_
  intro s e s' hl hs hok hx r n hr hn
  obtain ⟨hp, hm⟩ := step_moves hx
  rcases hm.fileName hl hp hr hn with ⟨hr, hn⟩ | he
  · exact hs r n hr hn
  · cases e with
    | exec p n' | runTask p n' =>
      obtain rfl : n' = n := Option.some.inj he
      exact hok
    | _ => cases he

/-- Reading a page does not ask for a name. -/
theorem avoids_deref (s : Family) (p : ProcRef) : Avoids .nullName (s.deref p) :=
  .ite (fun _ => .of_ok) fun _ => .of_ne (by simp)

/-- An exit asks for no name. -/
theorem Linked.avoids_threadExit (hl : Linked s) (hp : (s.procs p).live = true) :
    Avoids .nullName (threadExit p s) := by
  rw [hl.threadExit_eq hp]
  exact .of_ok

/-- Nor does any step but the creation of a process ask for one. -/
theorem Linked.avoids_stepRun (hl : Linked s) (hp : (s.procs p).live = true) :
    Avoids .nullName (stepRun p s) := by
  unfold stepRun
  split
  next => exact .ite (fun _ => .of_ne (by simp)) fun _ => .of_ok
  next => exact .of_ok
  next =>
    split
    next => exact .of_ok
    next q _ => exact (avoids_deref s q).bind fun _ _ => .of_ok
  next =>
    split
    next => exact .of_ne (by simp)
    next q _ => exact (avoids_deref s q).bind fun _ _ => .of_ok
  next => exact .ite (fun _ => .of_ok) fun _ => hl.avoids_threadExit hp
  next => split <;> exact .of_ok
  next =>
    split
    next => exact .of_ne (by simp)
    next => split <;> exact .of_ok
  next tid t _ => exact (avoids_deref s t).bind fun _ _ => .of_ok
  next => exact .ite (fun _ => .of_ne (by simp)) fun _ => .of_ok
  next =>
    split
    next => exact .of_ne (by simp)
    next => exact .of_ok
  next => exact .of_ne (by simp)

/-- With a word in every command line, `init_thread` gets a name. -/
theorem Named.avoids_step (h : Named s) (hl : Linked s) (e : Event) :
    Avoids .nullName (step e s) := by
  refine .ite (fun _ => .of_ne (by simp)) fun hlive => ?_
  have hp : (s.procs e.proc).live = true := by simpa using hlive
  cases e with
  | exec p n | runTask p n | wait p tid => exact .ite (fun _ => .of_ok) fun _ => .of_ne (by simp)
  | exit p status =>
    refine .ite (fun _ => ?_) fun _ => .of_ne (by simp)
    have hl' := hl.modProc p (fun t => { t with exitStatus := status.getD t.exitStatus })
      fun _ => ⟨rfl, rfl, rfl, rfl⟩
    exact hl'.avoids_threadExit (by simpa [Event.proc] using hp)
  | alloc p ok =>
    show Avoids _ (stepAlloc p ok s)
    unfold stepAlloc
    split
    next => exact .of_ok
    next => exact .of_ok
    next => exact .ite (fun _ => .of_ok) fun _ => hl.avoids_threadExit hp
    next => exact .of_ne (by simp)
  | create p page =>
    show Avoids _ (stepCreate p page s)
    unfold stepCreate
    split
    next => exact .of_ok
    next d n c hpc =>
      refine .ite (fun _ => .of_ne (by simp)) fun _ => .ite (fun hnone => ?_) fun _ => .of_ok
      have hsome := h p n hp (by rw [hpc]; rfl)
      rw [hnone] at hsome
      cases hsome
    next => exact .of_ne (by simp)
  | load p success =>
    show Avoids _ (stepLoad p success s)
    unfold stepLoad
    split
    next => exact .of_ok
    next => exact hl.avoids_threadExit hp
    next => exact .of_ne (by simp)
  | run p => exact hl.avoids_stepRun hp

/-! ## The protocol -/

/-- How many statements a child is away from having upped its parent's semaphore. -/
def Pc.untilUp : Pc → Nat
  | .startCopy => 4
  | .loading => 3
  | .reporting _ => 2
  | .upping _ => 1
  | _ => 0

/-- What the move of another process leaves of `r`; only the exit of its parent reaches it. -/
theorem Moves.others {e : Event} {r : ProcRef} (hl : Linked s) (hp : (s.procs p).live = true)
    (hm : Moves s p e s') (hr : (s.procs r).live = true) (hrp : r ≠ p)
    (hpar : (s.procs r).parent = some p → e.isExit (s.procs p).pc = false) :
    (s'.procs r).live = true ∧ (s'.procs r).parent = (s.procs r).parent ∧
      (s'.procs r).pc = (s.procs r).pc := by
  cases hm with
  | exits status hexit _ hx =>
    have hnp : (s.procs r).parent ≠ some p := by
      intro hrpar
      rw [hpar hrpar] at hexit
      cases hexit
    rw [hl.exits hp hx]
    set s₁ := s.modProc p fun t => { t with exitStatus := status } with hs₁
    have hsame : s₁.procs r = s.procs r := by simp [hs₁, hrp]
    have hpar₁ : (exitProc s₁ p r).parent = (s₁.procs r).parent := by
      unfold exitProc
      rw [if_neg hrp]
      split
      next => rfl
      next => rw [if_neg]; simpa [hsame] using fun _ => hnp
    refine ⟨(exitProc_live s₁ p r).mpr ⟨hsame ▸ hr, hrp⟩, ?_, ?_⟩
    · exact hpar₁.trans (congrArg Proc.parent hsame)
    · exact (exitProc_exec s₁ hrp).1.trans (congrArg Proc.pc hsame)
  | @created d n c _ hc =>
    have hne : c ≠ p := by
      rintro rfl
      rw [hp] at hc
      cases hc
    have hrc : r ≠ c := by
      rintro rfl
      rw [hr] at hc
      cases hc
    simp [createWithParent_procs s hne, hrp, hrc, hr]
  | @reported b q _ _ _ =>
    by_cases hrq : r = q
    · subst hrq
      simp [hrp, hr]
    · simp [hrp, hrq, hr]
  | @upped b q _ _ _ =>
    by_cases hrq : r = q
    · subst hrq
      simp [hrp, hr]
    · simp [hrp, hrq, hr]
  | @flagged tid t _ _ =>
    by_cases hrt : r = t
    · subst hrt
      simp [hrp, hr]
    · simp [hrp, hrt, hr]
  | _ => simp [waitReturns, hrp, hr]

/-- A child that owes an up can always go on, and until it has upped the semaphore it keeps owing
the up: each statement of its own brings it nearer, and nobody else's changes where it is. -/
structure WillUp (s : Family) (q p : ProcRef) : Prop where
  enabled : ∃ e s', e.proc = q ∧ reports s e = true ∧ step e s = .ok s'
  keeps : ∀ {e s'}, reports s e = true → step e s = .ok s' →
    (s'.procs p).waiting2 = (s.procs p).waiting2 + 1 ∨
    (s'.Owes q p ∧ if e.proc = q then (s'.procs q).pc.untilUp < (s.procs q).pc.untilUp
      else (s'.procs q).pc = (s.procs q).pc)

/-- A process that owes an answer can take a step. -/
theorem Linked.owes_enabled {q : ProcRef} (hl : Linked s) (ho : s.Owes q p) :
    ∃ e s', e.proc = q ∧ reports s e = true ∧ step e s = .ok s' := by
  obtain ⟨hq, hpar, hst⟩ := ho
  have hp := (hl.listed hq hpar).1
  cases hpc : (s.procs q).pc with
  | startCopy =>
    refine ⟨.alloc q true, s.setPc q .loading, rfl, rfl, ?_⟩
    simp [step, Event.proc, hq, stepAlloc, hpc]
  | loading =>
    refine ⟨.load q (some true),
      (s.setPc q (.reporting true)).note (.loaded (s.procs q).tid true), rfl, rfl, ?_⟩
    simp [step, Event.proc, hq, stepLoad, hpc]
  | reporting b =>
    refine ⟨.run q, (s.modProc p fun t => { t with childLoadStatus := b }).setPc q (.upping b),
      rfl, rfl, ?_⟩
    simp [step, Event.proc, hq, stepRun, hpc, hpar, deref_of_live hp, bind_ok]
  | upping b =>
    refine ⟨.run q,
      (s.modProc p fun t => { t with waiting2 := t.waiting2 + 1 }).setPc q (.started b),
      rfl, rfl, ?_⟩
    simp [step, Event.proc, hq, stepRun, hpc, hpar, deref_of_live hp, bind_ok]
  | _ =>
    rw [hpc] at hst
    cases hst

/-- The statements of a child that owes an up. -/
theorem Linked.owes_moves {e : Event} {q : ProcRef} (hl : Linked s) (ho : s.Owes q p)
    (hu : (s.procs p).isUser = true) (hr : reports s e = true) (hqe : e.proc = q)
    (hm : Moves s q e s') : (s'.procs p).waiting2 = (s.procs p).waiting2 + 1 ∨
      (s'.Owes q p ∧ (s'.procs q).pc.untilUp < (s.procs q).pc.untilUp) := by
  obtain ⟨hq, hpar, hst⟩ := id ho
  have hne : p ≠ q := hl.parent_ne hq hpar
  cases hm with
  | exits status hexit _ _ =>
    subst hqe
    exact absurd ho (not_owes_of_exits hr hexit hu)
  | startCopied hpc =>
    refine .inr ⟨⟨?_, ?_, ?_⟩, ?_⟩
    · simpa using hq
    · simpa using hpar
    · simp [Pc.starting]
    · simp [hpc, Pc.untilUp]
  | loaded hpc =>
    refine .inr ⟨⟨?_, ?_, ?_⟩, ?_⟩
    · simpa using hq
    · simpa using hpar
    · simp [Pc.starting]
    · simp [hpc, Pc.untilUp]
  | unreported _ hnone => cases hpar.symm.trans hnone
  | @reported b q' hpc hpar' _ =>
    obtain rfl := Option.some.inj (hpar.symm.trans hpar')
    refine .inr ⟨⟨?_, ?_, ?_⟩, ?_⟩
    · simpa [Ne.symm hne] using hq
    · simpa [Ne.symm hne] using hpar
    · simp [Pc.starting]
    · simp [hpc, Pc.untilUp]
  | @upped b q' hpc hpar' _ =>
    obtain rfl := Option.some.inj (hpar.symm.trans hpar')
    left
    simp [hne]
  | uncopied hpc => rcases hpc with hpc | hpc <;> rw [hpc] at hst <;> cases hst
  | _ hpc =>
    rw [hpc] at hst
    cases hst

/-- A process that owes an answer is on its way to `sema_up`. -/
theorem Execs.willUp {q : ProcRef} (h : Execs s) (hl : Linked s) (ho : s.Owes q p)
    (hu : (s.procs p).isUser = true) : WillUp s q p := by
  refine ⟨hl.owes_enabled ho, fun {e s'} hr hx => ?_⟩
  obtain ⟨hlive, hm⟩ := step_moves hx
  by_cases hqe : e.proc = q
  · simp only [hqe, if_true]
    exact hl.owes_moves ho hu hr hqe (hqe ▸ hm)
  · simp only [hqe, if_false]
    refine .inr ?_
    obtain ⟨hq, hpar, hst⟩ := id ho
    obtain ⟨hlive', hpar', hpc'⟩ := hm.others hl hlive hq (Ne.symm hqe) fun hparent => by
      -- the parent is blocked, and does not exit
      obtain rfl := Option.some.inj (hpar.symm.trans hparent)
      rw [(h.of_owes hl ho hu).1]
      cases hexit : e.isExit (.execDown (s.procs q).tid) with
      | false => rfl
      | true => cases inExec_of_isExit hexit
    exact ⟨⟨hlive', hpar'.trans hpar, by rw [hpc']; exact hst⟩, hpc'⟩

/-- What the exec protocol is for. -/
structure ExecSafe (s : Family) : Prop where
  /-- A call of `SYS_EXEC` returned the tid of the child it created if `load` returned true in
  that child, and `-1` otherwise. -/
  answered : ∀ {P pid r}, .execed P pid r ∈ s.log → .created P pid ∈ s.log ∧
    (.loaded pid true ∈ s.log → r = pid) ∧ (.loaded pid true ∉ s.log → r = -1)
  /-- Exactly one child will up the semaphore a process is blocked on. -/
  notStranded : ∀ {p pid}, (s.procs p).live = true → (s.procs p).pc = .execDown pid →
    (s.procs p).waiting2 = 0 → ∃ q, s.Owes q p ∧ (s.procs q).tid = pid ∧ WillUp s q p ∧
      ∀ q', s.Owes q' p → q' = q
  /-- No call ends in the assertion of `init_thread`. -/
  named : ∀ e, step e s ≠ .error .nullName

/-- An exec is answered with the child's tid if it was loaded, and with -1 if not. -/
theorem Execs.answered_iff (h : Execs s) (hld : Loads s) {P pid r : Tid}
    (hx : .execed P pid r ∈ s.log) : .created P pid ∈ s.log ∧
      (.loaded pid true ∈ s.log → r = pid) ∧ (.loaded pid true ∉ s.log → r = -1) := by
  obtain ⟨hc, b, hb, rfl⟩ := h.answered hx
  refine ⟨hc, fun ht => ?_, fun ht => ?_⟩
  · rw [hld.once hb ht]
    rfl
  · cases b with
    | true => exact absurd hb ht
    | false => rfl

/-- An exec that waits is owed its answer by the child it made, and by no other. -/
theorem Execs.notStranded (h : Execs s) (hl : Linked s) (hld : Loads s) {pid : Tid}
    (hp : (s.procs p).live = true) (hpc : (s.procs p).pc = .execDown pid)
    (hzero : (s.procs p).waiting2 = 0) : ∃ q, s.Owes q p ∧ (s.procs q).tid = pid ∧
      WillUp s q p ∧ ∀ q', s.Owes q' p → q' = q := by
  have hu := (hld.direct hp).2 (by rw [hpc]; rfl)
  have hplace := h.place hp hu
  unfold Family.ExecsAt at hplace
  rw [hpc] at hplace
  obtain ⟨_, ⟨_, q, ho, htid, huniq⟩ | ⟨hone, _⟩⟩ := hplace
  · exact ⟨q, ho, htid, h.willUp hl ho hu, huniq⟩
  · omega

/-- The initial thread runs the program `a`. -/
def runsProcess : List Event :=
  [.runTask 0 [97], .alloc 0 true, .alloc 0 true, .create 0 (some 1), .alloc 1 true,
    .load 1 (some true), .run 1, .run 1, .run 1]

/-- It calls `SYS_EXEC` on a line of one space, and the new thread has no name. -/
example : ∃ s, Reach (Steps step) (initial 0) s ∧
    step (.create 1 (some 2)) s = .error .nullName := by
  obtain ⟨s, hs, hb⟩ := exists_of_replay step (fun _ _ => true)
    (runsProcess ++ [.exec 1 [0x20], .alloc 1 true, .alloc 1 true]) (initial 0)
    (fun s => match step (.create 1 (some 2)) s with
      | .error f => decide (f = .nullName)
      | .ok _ => false) (by decide +kernel)
  refine ⟨s, hs.reach, ?_⟩
  split at hb
  next hstep => exact of_decide_eq_true hb ▸ hstep
  next => cases hb

end Pintos.Userprog
