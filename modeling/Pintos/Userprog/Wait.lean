import Pintos.Userprog.Links

/-!
# The wait protocol

`process_wait` reads `childElem->t`, and later writes through the pointer it has read and downs
`waiting`. When the child exits in between, the write goes to a page that is no thread any more,
and nobody is left to up the semaphore. `unwatched` rules this out, and only this: no process
exits while its parent is between the two statements for it. Then every wait gets the right
answer (`wait_protocol`).
-/

namespace Pintos.Userprog

open Pintos.Lib

variable {s s' : Family} {p : ProcRef}

/-! ## What a wait owes -/

/-- `parent` has created `child` and has not waited for it since: the answer of the next wait is
the child's exit status. -/
def owedAfter (parent child : Tid) (owed : Bool) : Fact → Bool
  | .created p c => if p = parent ∧ c = child then true else owed
  | .waited p c _ => if p = parent ∧ c = child then false else owed
  | _ => owed

/-- The same, over a whole history. -/
def owed (parent child : Tid) (log : List Fact) : Bool :=
  log.foldl (owedAfter parent child) false

@[simp] theorem owed_nil (P c : Tid) : owed P c [] = false := rfl

/-- A new fact is the last that counts. -/
@[simp] theorem owed_append (P c : Tid) (log : List Fact) (f : Fact) :
    owed P c (log ++ [f]) = owedAfter P c (owed P c log) f := by
  simp [owed, List.foldl_append]

/-- Every wait in a history was answered rightly: the first wait for a child gets the status the
child exited with, and any other gets `-1`. -/
def Answered (log : List Fact) : Prop :=
  ∀ pre P c v post, log = pre ++ .waited P c v :: post →
    if owed P c pre then .exited c v ∈ pre else v = -1

/-- An answer is right by what is recorded before it. -/
theorem Answered.append {log : List Fact} {f : Fact} (h : Answered log)
    (hf : ∀ P c v, f = .waited P c v → if owed P c log then .exited c v ∈ log else v = -1) :
    Answered (log ++ [f]) := by
  intro pre P c v post heq
  rcases List.eq_nil_or_concat post with rfl | ⟨post', g, rfl⟩
  · obtain ⟨rfl, hfe⟩ := List.append_inj' heq rfl
    exact hf P c v (List.singleton_inj.mp hfe)
  · have heq' : log ++ [f] = (pre ++ .waited P c v :: post') ++ [g] := by
      rw [heq]
      simp
    exact h pre P c v post' (List.append_inj' heq' rfl).1

/-! ## The invariant -/

/-- The entry of a process for a child. -/
def Family.HasElem (s : Family) (p : ProcRef) (tid : Tid) (t : Option ProcRef) : Prop :=
  ∃ e ∈ (s.procs p).childList, e.tid = tid ∧ e.t = t

/-- Where a process is in `process_wait`, its entries and its semaphore agree. -/
def Family.WaitsAt (s : Family) (p : ProcRef) : Prop :=
  match (s.procs p).pc with
  | .waitRead c => (∃ t, s.HasElem p c t) ∧ (s.procs p).waiting = 0
  | .waitFlag c q => s.HasElem p c (some q) ∧ (s.procs p).waiting = 0
  | .waitDown c => (∃ q, s.HasElem p c (some q) ∧ (s.procs q).isParentWaiting = true ∧
      (s.procs p).waiting = 0) ∨ (s.HasElem p c none ∧ (s.procs p).waiting = 1)
  | .waitStatus c => s.HasElem p c none ∧ (s.procs p).waiting = 0
  | _ => (s.procs p).waiting = 0

/-- What an entry of `p` tells of its child. -/
def Family.Records (s : Family) (p : ProcRef) (e : ChildElem) : Prop :=
  match e.t with
  | some _ => owed (s.procs p).tid e.tid s.log = true ∧ ∀ v, .exited e.tid v ∉ s.log
  | none => if owed (s.procs p).tid e.tid s.log then .exited e.tid e.exitStatus ∈ s.log
      else e.exitStatus = -1

/-- The invariant of the wait protocol, beside `Linked`. -/
structure Waits (s : Family) : Prop where
  place : ∀ {p}, (s.procs p).live = true → s.WaitsAt p
  flag : ∀ {q}, (s.procs q).live = true → (s.procs q).isParentWaiting = true →
    ∃ p, (s.procs q).parent = some p ∧ (s.procs p).pc = .waitDown (s.procs q).tid
  records : ∀ {p e}, (s.procs p).live = true → e ∈ (s.procs p).childList → s.Records p e
  unlisted : ∀ {p c}, (s.procs p).live = true → (∀ t, ¬ s.HasElem p c t) →
    owed (s.procs p).tid c s.log = false
  owedLt : ∀ {P c}, owed P c s.log = true → P < s.nextTid
  exitedLt : ∀ {c v}, .exited c v ∈ s.log → c < s.nextTid
  answered : Answered s.log

/-- A process has one entry for each child. -/
theorem Linked.elem_unique (h : Linked s) (hp : (s.procs p).live = true) {e e' : ChildElem}
    (he : e ∈ (s.procs p).childList) (he' : e' ∈ (s.procs p).childList) (ht : e.tid = e'.tid) :
    e = e' :=
  List.inj_on_of_nodup_map (h.nodup hp) he he' ht

/-- A child has one entry. -/
theorem Linked.hasElem_unique (h : Linked s) (hp : (s.procs p).live = true) {c : Tid}
    {t t' : Option ProcRef} (ht : s.HasElem p c t) (ht' : s.HasElem p c t') : t = t' := by
  obtain ⟨e, he, hc, rfl⟩ := ht
  obtain ⟨e', he', hc', rfl⟩ := ht'
  rw [h.elem_unique hp he he' (hc.trans hc'.symm)]

/-- The entry that is found is there. -/
theorem hasElem_of_find {c : Tid} {e : ChildElem}
    (h : (s.procs p).childList.find? (·.tid == c) = some e) : s.HasElem p c e.t :=
  ⟨e, List.mem_of_find?_eq_some h, by simpa using List.find?_some h, rfl⟩

/-- Where none is found there is none. -/
theorem not_hasElem_of_find {c : Tid} (h : (s.procs p).childList.find? (·.tid == c) = none)
    (t : Option ProcRef) : ¬ s.HasElem p c t := by
  rintro ⟨e, he, hc, _⟩
  have := List.find?_eq_none.mp h e he
  simp [hc] at this

/-! ## Steps outside the handshake -/

/-- One process has moved on; whatever the wait protocol reads is as it was. -/
structure SameBut (s s' : Family) (p : ProcRef) : Prop where
  nextTid : s'.nextTid = s.nextTid
  procs : ∀ r, (s'.procs r).live = (s.procs r).live ∧ (s'.procs r).tid = (s.procs r).tid ∧
    (s'.procs r).parent = (s.procs r).parent ∧ (s'.procs r).childList = (s.procs r).childList ∧
    (s'.procs r).isParentWaiting = (s.procs r).isParentWaiting ∧
    (s'.procs r).waiting = (s.procs r).waiting
  pc : ∀ r, r ≠ p → (s'.procs r).pc = (s.procs r).pc
  owed : ∀ P c, owed P c s'.log = owed P c s.log
  exited : ∀ c v, .exited c v ∈ s'.log ↔ .exited c v ∈ s.log
  answered : Answered s.log → Answered s'.log

/-- The entries of the other children are what they were. -/
theorem SameBut.hasElem (h : SameBut s s' p) (r : ProcRef) (c : Tid) (t : Option ProcRef) :
    s'.HasElem r c t ↔ s.HasElem r c t := by
  unfold Family.HasElem
  rw [(h.procs r).2.2.2.1]

/-- Such a step keeps the invariant when the process is at a place that fits. -/
theorem Waits.of_sameBut (h : Waits s) (hs : SameBut s s' p)
    (hdown : ∀ c, (s.procs p).pc ≠ .waitDown c)
    (hplace : (s.procs p).live = true → s'.WaitsAt p) : Waits s' := by
  constructor
  case place =>
    intro r hr
    rw [(hs.procs r).1] at hr
    by_cases hrp : r = p
    · rw [hrp] at hr ⊢
      exact hplace hr
    · have hr' := h.place hr
      unfold Family.WaitsAt at hr' ⊢
      rw [hs.pc r hrp, (hs.procs r).2.2.2.2.2]
      simp only [hs.hasElem, fun q => (hs.procs q).2.2.2.2.1]
      exact hr'
  case flag =>
    intro q hq hw
    rw [(hs.procs q).1] at hq
    rw [(hs.procs q).2.2.2.2.1] at hw
    obtain ⟨r, hpar, hpc⟩ := h.flag hq hw
    have hrp : r ≠ p := by
      rintro rfl
      exact hdown _ hpc
    refine ⟨r, (hs.procs q).2.2.1.trans hpar, ?_⟩
    rw [hs.pc r hrp, (hs.procs q).2.1]
    exact hpc
  case records =>
    intro r e hr he
    rw [(hs.procs r).1] at hr
    rw [(hs.procs r).2.2.2.1] at he
    have hrec := h.records hr he
    unfold Family.Records at hrec ⊢
    simp only [hs.owed, hs.exited, (hs.procs r).2.1]
    exact hrec
  case unlisted =>
    intro r c hr hno
    rw [(hs.procs r).1] at hr
    rw [hs.owed, (hs.procs r).2.1]
    exact h.unlisted hr fun t ht => hno t ((hs.hasElem r c t).mpr ht)
  case owedLt =>
    intro P c ho
    rw [hs.owed] at ho
    rw [hs.nextTid]
    exact h.owedLt ho
  case exitedLt =>
    intro c v hx
    rw [hs.nextTid]
    exact h.exitedLt ((hs.exited c v).mp hx)
  case answered => exact hs.answered h.answered

/-- Two steps of one process leave what is another's alone. -/
theorem SameBut.trans {s₁ : Family} (h : SameBut s s₁ p) (h' : SameBut s₁ s' p) :
    SameBut s s' p := by
  refine ⟨h'.nextTid.trans h.nextTid, fun r => ?_, fun r hr => (h'.pc r hr).trans (h.pc r hr),
    fun P c => (h'.owed P c).trans (h.owed P c), fun c v => (h'.exited c v).trans (h.exited c v),
    fun ha => h'.answered (h.answered ha)⟩
  obtain ⟨a₁, a₂, a₃, a₄, a₅, a₆⟩ := h.procs r
  obtain ⟨b₁, b₂, b₃, b₄, b₅, b₆⟩ := h'.procs r
  exact ⟨b₁.trans a₁, b₂.trans a₂, b₃.trans a₃, b₄.trans a₄, b₅.trans a₅, b₆.trans a₆⟩

/-- An update of what the wait protocol does not read. -/
theorem sameBut_modProc (s : Family) (p q : ProcRef) (f : Proc → Proc)
    (hf : ∀ t, (f t).live = t.live ∧ (f t).tid = t.tid ∧ (f t).parent = t.parent ∧
      (f t).childList = t.childList ∧ (f t).isParentWaiting = t.isParentWaiting ∧
      (f t).waiting = t.waiting)
    (hpc : q ≠ p → ∀ t, (f t).pc = t.pc) : SameBut s (s.modProc q f) p := by
  refine ⟨rfl, fun r => ?_, fun r hr => ?_, fun _ _ => rfl, fun _ _ => Iff.rfl, id⟩
  · rw [modProc_procs]
    split
    next hr =>
      subst hr
      exact hf _
    next => exact ⟨rfl, rfl, rfl, rfl, rfl, rfl⟩
  · rw [modProc_procs]
    split
    next hrq =>
      subst hrq
      exact hpc hr _
    next => rfl

/-- The program counter is the process's own. -/
theorem sameBut_setPc (s : Family) (p : ProcRef) (pc : Pc) : SameBut s (s.setPc p pc) p :=
  sameBut_modProc s p p _ (fun _ => ⟨rfl, rfl, rfl, rfl, rfl, rfl⟩) fun h => absurd rfl h

/-- A fact that is neither a creation nor an exit, and a wait only if nothing was owed. -/
theorem sameBut_note (s : Family) (p : ProcRef) {f : Fact}
    (howed : ∀ P c, owedAfter P c (owed P c s.log) f = owed P c s.log)
    (hexited : ∀ c v, f ≠ .exited c v)
    (hwaited : ∀ P c v, f = .waited P c v → if owed P c s.log then .exited c v ∈ s.log
      else v = -1) : SameBut s (s.note f) p := by
  refine ⟨rfl, fun _ => ⟨rfl, rfl, rfl, rfl, rfl, rfl⟩, fun _ _ => rfl, fun P c => ?_,
    fun c v => ?_, fun ha => ha.append hwaited⟩
  · rw [note_log, owed_append]
    exact howed P c
  · rw [note_log, List.mem_append, List.mem_singleton]
    refine or_iff_left fun he => hexited c v he.symm

/-- The statements of `process_wait` after the search. -/
def Pc.inWait : Pc → Bool
  | .waitRead _ | .waitFlag _ _ | .waitDown _ | .waitStatus _ => true
  | _ => false

/-- Outside these statements nothing is asked but that nobody has upped `waiting`. -/
theorem waitsAt_iff (hpc : (s.procs p).pc.inWait = false) :
    s.WaitsAt p ↔ (s.procs p).waiting = 0 := by
  unfold Family.WaitsAt
  cases h : (s.procs p).pc with
  | waitRead c => rw [h] at hpc; cases hpc
  | waitFlag c q => rw [h] at hpc; cases hpc
  | waitDown c => rw [h] at hpc; cases hpc
  | waitStatus c => rw [h] at hpc; cases hpc
  | _ => rfl

/-- A step from one place outside to another. -/
theorem Waits.of_outside (h : Waits s) (hs : SameBut s s' p)
    (hpc : (s.procs p).pc.inWait = false) (hpc' : (s'.procs p).pc.inWait = false) : Waits s' := by
  refine h.of_sameBut hs (fun c hc => ?_) fun hp => ?_
  · rw [hc] at hpc
    cases hpc
  · rw [waitsAt_iff hpc', (hs.procs p).2.2.2.2.2]
    exact (waitsAt_iff hpc).mp (h.place hp)

/-! ## The handshake -/

/-- `process_wait` finds no entry. -/
theorem Waits.of_unfound {c : Tid} (h : Waits s) (hp : (s.procs p).live = true)
    (hpc : (s.procs p).pc = .waitFind c)
    (hf : (s.procs p).childList.find? (·.tid == c) = none) : Waits (waitReturns p c (-1) s) := by
  have howed := h.unlisted hp (not_hasElem_of_find hf)
  have hset := sameBut_setPc s p .user
  refine h.of_outside (p := p) (hset.trans (sameBut_note _ p (fun P c' => ?_) (by simp) ?_)) ?_ ?_
  · simp only [owedAfter, setPc_log]
    split
    next he => rw [← he.1, ← he.2, howed]
    next => rfl
  · intro P c' v hw
    cases hw
    rw [setPc_log, howed]
    rfl
  · rw [hpc]
    rfl
  · simp [waitReturns, Pc.inWait]

/-- `process_wait` finds the entry, and reads its `t`. -/
theorem Waits.of_found {c : Tid} {e : ChildElem} (h : Waits s)
    (hpc : (s.procs p).pc = .waitFind c)
    (hf : (s.procs p).childList.find? (·.tid == c) = some e) :
    Waits (s.setPc p (.waitRead c)) := by
  have hs := sameBut_setPc s p (.waitRead c)
  refine h.of_sameBut hs (by simp [hpc]) fun hp => ?_
  have hw := (waitsAt_iff (by rw [hpc]; rfl)).mp (h.place hp)
  unfold Family.WaitsAt
  simp only [setPc_procs, if_true]
  exact ⟨⟨e.t, (hs.hasElem p c _).mpr (hasElem_of_find hf)⟩, hw⟩

/-- A wait reads its child's page from the entry that is still open. -/
theorem Waits.of_read {c : Tid} {e : ChildElem} (h : Waits s)
    (hpc : (s.procs p).pc = .waitRead c)
    (hf : (s.procs p).childList.find? (·.tid == c) = some e) :
    Waits (s.setPc p (match e.t with | none => .waitStatus c | some t => .waitFlag c t)) := by
  have hs := sameBut_setPc s p (match e.t with | none => .waitStatus c | some t => .waitFlag c t)
  refine h.of_sameBut hs (by simp [hpc]) fun hp => ?_
  have hw := h.place hp
  unfold Family.WaitsAt at hw
  rw [hpc] at hw
  have he := (hs.hasElem p c _).mpr (hasElem_of_find hf)
  unfold Family.WaitsAt
  simp only [setPc_procs, if_true]
  cases ht : e.t with
  | none => exact ⟨ht ▸ he, hw.2⟩
  | some t => exact ⟨ht ▸ he, hw.2⟩

/-- A step that changes no entry and logs nothing has to account for places and flags only. -/
theorem Waits.of_places (h : Waits s) (hn : s'.nextTid = s.nextTid) (hlog : s'.log = s.log)
    (hs : ∀ r, (s'.procs r).live = (s.procs r).live ∧ (s'.procs r).tid = (s.procs r).tid ∧
      (s'.procs r).childList = (s.procs r).childList)
    (hplace : ∀ {r}, (s.procs r).live = true → s'.WaitsAt r)
    (hflag : ∀ {q}, (s.procs q).live = true → (s'.procs q).isParentWaiting = true →
      ∃ r, (s'.procs q).parent = some r ∧ (s'.procs r).pc = .waitDown (s.procs q).tid) :
    Waits s' := by
  constructor
  case place =>
    intro r hr
    rw [(hs r).1] at hr
    exact hplace hr
  case flag =>
    intro q hq hw
    rw [(hs q).1] at hq
    rw [(hs q).2.1]
    exact hflag hq hw
  case records =>
    intro r e hr he
    rw [(hs r).1] at hr
    rw [(hs r).2.2] at he
    unfold Family.Records
    rw [hlog, (hs r).2.1]
    exact h.records hr he
  case unlisted =>
    intro r c hr hno
    rw [(hs r).1] at hr
    rw [hlog, (hs r).2.1]
    refine h.unlisted hr fun t ht => hno t ?_
    unfold Family.HasElem
    rw [(hs r).2.2]
    exact ht
  case owedLt =>
    intro P c ho
    rw [hlog] at ho
    rw [hn]
    exact h.owedLt ho
  case exitedLt =>
    intro c v hx
    rw [hlog] at hx
    rw [hn]
    exact h.exitedLt hx
  case answered =>
    rw [hlog]
    exact h.answered

/-- A process that is not at the step keeps its place, if no flag it relies on is taken back. -/
theorem waitsAt_of_same {r : ProcRef} (h : s.WaitsAt r)
    (hs : (s'.procs r).pc = (s.procs r).pc ∧ (s'.procs r).childList = (s.procs r).childList ∧
      (s'.procs r).waiting = (s.procs r).waiting)
    (hflag : ∀ q, (s.procs q).isParentWaiting = true → (s'.procs q).isParentWaiting = true) :
    s'.WaitsAt r := by
  unfold Family.WaitsAt at h ⊢
  have helem : ∀ c t, s'.HasElem r c t ↔ s.HasElem r c t := by
    intro c t
    unfold Family.HasElem
    rw [hs.2.1]
  rw [hs.1, hs.2.2]
  simp only [helem]
  split at h
  next => exact h
  next => exact h
  next =>
    rcases h with ⟨q, hq, hw, hz⟩ | h
    · exact .inl ⟨q, hq, hflag q hw, hz⟩
    · exact .inr h
  next => exact h
  next => exact h

/-- The flag is set, on a child that is still there. -/
theorem Waits.of_flagged {c : Tid} {t : ProcRef} (h : Waits s) (hl : Linked s)
    (hp : (s.procs p).live = true) (hpc : (s.procs p).pc = .waitFlag c t) :
    Waits ((s.modProc t fun q => { q with isParentWaiting := true }).setPc p (.waitDown c)) := by
  have hw := h.place hp
  unfold Family.WaitsAt at hw
  rw [hpc] at hw
  obtain ⟨⟨e, he, hc, het⟩, hzero⟩ := hw
  obtain ⟨ht, hpar, htid⟩ := hl.entry hp he het
  have htp : p ≠ t := hl.parent_ne ht hpar
  have hprocs : ∀ r, ((s.modProc t fun q => { q with isParentWaiting := true }).setPc p
      (.waitDown c)).procs r = if r = p then { s.procs r with pc := .waitDown c }
        else if r = t then { s.procs r with isParentWaiting := true } else s.procs r := by
    intro r
    simp only [setPc_procs, modProc_procs, if_neg htp]
    split
    next hr => rw [hr]
    next =>
      split
      next hr => rw [hr]
      next => rfl
  refine h.of_places rfl rfl (fun r => ?_) (fun {r} hr => ?_) (fun {q} hq hw => ?_)
  · rw [hprocs]
    split
    next => exact ⟨rfl, rfl, rfl⟩
    next => split <;> exact ⟨rfl, rfl, rfl⟩
  · by_cases hrp : r = p
    · subst hrp
      unfold Family.WaitsAt Family.HasElem
      simp only [hprocs, if_true]
      exact .inl ⟨t, ⟨e, he, hc, het⟩, by simp [Ne.symm htp], hzero⟩
    · refine waitsAt_of_same (h.place hr) ?_ fun q hq => ?_
      · rw [hprocs, if_neg hrp]
        split <;> exact ⟨rfl, rfl, rfl⟩
      · rw [hprocs]
        split
        next => exact hq
        next => split <;> simp [hq]
  · by_cases hqt : q = t
    · subst hqt
      refine ⟨p, ?_, ?_⟩
      · rw [hprocs, if_neg (Ne.symm htp), if_pos rfl]
        exact hpar
      · rw [hprocs, if_pos rfl, htid, hc]
    · have hw' : (s.procs q).isParentWaiting = true := by
        rw [hprocs] at hw
        split at hw
        next => exact hw
        next => exact hw
      obtain ⟨r, hr, hrpc⟩ := h.flag hq hw'
      have hrp : r ≠ p := by
        rintro rfl
        rw [hpc] at hrpc
        cases hrpc
      refine ⟨r, ?_, ?_⟩
      · rw [hprocs]
        split
        next => exact hr
        next => exact hr
      · rw [hprocs, if_neg hrp]
        split <;> exact hrpc

/-- The down succeeds: the child has exited since. -/
theorem Waits.of_downed {c : Tid} (h : Waits s) (hl : Linked s) (hp : (s.procs p).live = true)
    (hpc : (s.procs p).pc = .waitDown c) (hnz : (s.procs p).waiting ≠ 0) :
    Waits (s.modProc p fun t => { t with waiting := t.waiting - 1, pc := .waitStatus c }) := by
  have hw := h.place hp
  unfold Family.WaitsAt at hw
  rw [hpc] at hw
  obtain ⟨_, _, _, hzero⟩ | ⟨helem, hone⟩ := hw
  · exact absurd hzero hnz
  refine h.of_places rfl rfl (fun r => ?_) (fun {r} hr => ?_) (fun {q} hq hw => ?_)
  · rw [modProc_procs]
    split
    next hr => exact hr ▸ ⟨rfl, rfl, rfl⟩
    next => exact ⟨rfl, rfl, rfl⟩
  · by_cases hrp : r = p
    · subst hrp
      unfold Family.WaitsAt Family.HasElem
      simp only [modProc_procs, if_true]
      exact ⟨helem, by omega⟩
    · refine waitsAt_of_same (h.place hr) ?_ fun q hq => ?_
      · rw [modProc_procs, if_neg hrp]
        exact ⟨rfl, rfl, rfl⟩
      · rw [modProc_procs]
        split
        next hqp => exact hqp ▸ hq
        next => exact hq
  · have hw' : (s.procs q).isParentWaiting = true := by
      rw [modProc_procs] at hw
      split at hw
      next hqp => exact hqp ▸ hw
      next => exact hw
    obtain ⟨r, hr, hrpc⟩ := h.flag hq hw'
    -- a child waited for has not exited, and `c` has
    have hrp : r ≠ p := by
      rintro rfl
      rw [hpc] at hrpc
      cases hrpc
      obtain ⟨_, e, he, het⟩ := hl.listed hq hr
      have := hl.hasElem_unique hp helem ⟨e, he, (hl.entry hp he het).2.2.symm, rfl⟩
      rw [het] at this
      cases this
    refine ⟨r, ?_, ?_⟩
    · rw [modProc_procs]
      split
      next hqp => exact hqp ▸ hr
      next => exact hr
    · rw [modProc_procs, if_neg hrp]
      exact hrpc

/-- The entries of a process after `process_wait` has forgotten a status. -/
theorem mem_reset {l : List ChildElem} {c : Tid} {e' : ChildElem} :
    e' ∈ l.map (fun e => if e.tid = c then { e with exitStatus := -1 } else e) ↔
      ∃ e ∈ l, if e.tid = c then e' = { e with exitStatus := -1 } else e' = e := by
  rw [List.mem_map]
  constructor
  · rintro ⟨e, he, rfl⟩
    refine ⟨e, he, ?_⟩
    split <;> rfl
  · rintro ⟨e, he, heq⟩
    refine ⟨e, he, ?_⟩
    split at heq
    next hc => rw [if_pos hc, heq]
    next hc => rw [if_neg hc, heq]

/-- The status is read and forgotten. -/
theorem Waits.of_returned {c : Tid} {e : ChildElem} (h : Waits s) (hl : Linked s)
    (hp : (s.procs p).live = true) (hpc : (s.procs p).pc = .waitStatus c)
    (hf : (s.procs p).childList.find? (·.tid == c) = some e) :
    Waits (waitReturns p c e.exitStatus (s.modProc p fun t =>
      { t with childList := t.childList.map fun e' =>
        if e'.tid = c then { e' with exitStatus := -1 } else e' })) := by
  obtain ⟨hnull, hzero⟩ : s.HasElem p c none ∧ (s.procs p).waiting = 0 := by
    have hw := h.place hp
    unfold Family.WaitsAt at hw
    rwa [hpc] at hw
  have he := List.mem_of_find?_eq_some hf
  have hc : e.tid = c := by simpa using List.find?_some hf
  have het : e.t = none := hl.hasElem_unique hp ⟨e, he, hc, rfl⟩ hnull
  set s' := waitReturns p c e.exitStatus (s.modProc p fun t =>
    { t with childList := t.childList.map fun e' =>
      if e'.tid = c then { e' with exitStatus := -1 } else e' }) with hs'
  have hself : s'.procs p = { s.procs p with
      pc := .user
      childList := (s.procs p).childList.map fun e' =>
        if e'.tid = c then { e' with exitStatus := -1 } else e' } := by
    simp [hs', waitReturns]
  have hother : ∀ {r}, r ≠ p → s'.procs r = s.procs r := by
    intro r hr
    simp [hs', waitReturns, hr]
  have hlog : s'.log = s.log ++ [.waited (s.procs p).tid c e.exitStatus] := by
    simp [hs', waitReturns]
  have hkeep : ∀ r, (s'.procs r).live = (s.procs r).live ∧ (s'.procs r).tid = (s.procs r).tid ∧
      (s'.procs r).parent = (s.procs r).parent ∧
      (s'.procs r).isParentWaiting = (s.procs r).isParentWaiting := by
    intro r
    by_cases hr : r = p
    · rw [hr, hself]
      exact ⟨rfl, rfl, rfl, rfl⟩
    · rw [hother hr]
      exact ⟨rfl, rfl, rfl, rfl⟩
  have howed : ∀ P c', owed P c' s'.log =
      if (s.procs p).tid = P ∧ c = c' then false else owed P c' s.log := by
    intro P c'
    rw [hlog, owed_append]
    rfl
  have hexited : ∀ c' v, .exited c' v ∈ s'.log ↔ .exited c' v ∈ s.log := by
    intro c' v
    rw [hlog]
    simp
  constructor
  case place =>
    intro r hr
    rw [(hkeep r).1] at hr
    by_cases hrp : r = p
    · rw [hrp, waitsAt_iff (by rw [hself]; rfl), hself]
      exact hzero
    · refine waitsAt_of_same (h.place hr) ?_ fun q hq => (hkeep q).2.2.2.trans hq
      rw [hother hrp]
      exact ⟨rfl, rfl, rfl⟩
  case flag =>
    intro q hq hw
    rw [(hkeep q).1] at hq
    rw [(hkeep q).2.2.2] at hw
    obtain ⟨r, hpar, hrpc⟩ := h.flag hq hw
    have hrp : r ≠ p := by
      rintro rfl
      rw [hpc] at hrpc
      cases hrpc
    refine ⟨r, (hkeep q).2.2.1.trans hpar, ?_⟩
    rw [hother hrp, (hkeep q).2.1]
    exact hrpc
  case records =>
    intro r e' hr he'
    rw [(hkeep r).1] at hr
    by_cases hrp : r = p
    · subst hrp
      rw [hself] at he'
      obtain ⟨e₀, he₀, heq⟩ := mem_reset.mp he'
      split at heq
      next hc₀ =>
        obtain rfl := hl.elem_unique hp he₀ he (hc₀.trans hc.symm)
        unfold Family.Records
        subst heq
        rw [het, howed, (hkeep r).2.1]
        simp [hc]
      next hc₀ =>
        subst heq
        have hrec := h.records hp he₀
        unfold Family.Records at hrec ⊢
        simp only [howed, hexited, (hkeep r).2.1, Ne.symm hc₀, and_false, if_false]
        exact hrec
    · rw [hother hrp] at he'
      have hrec := h.records hr he'
      have htid : (s.procs p).tid ≠ (s.procs r).tid := fun ht => hrp (hl.tidInj hp hr ht).symm
      unfold Family.Records at hrec ⊢
      simp only [howed, hexited, (hkeep r).2.1, htid, false_and, if_false]
      exact hrec
  case unlisted =>
    intro r c' hr hno
    rw [(hkeep r).1] at hr
    rw [howed, (hkeep r).2.1]
    split
    next => rfl
    next =>
      refine h.unlisted hr fun t ht => ?_
      by_cases hrp : r = p
      · subst hrp
        obtain ⟨e₀, he₀, hc₀, ht₀⟩ := ht
        apply hno t
        refine ⟨_, by rw [hself]; exact List.mem_map_of_mem he₀, ?_, ?_⟩
        · split <;> exact hc₀
        · split <;> exact ht₀
      · apply hno t
        unfold Family.HasElem
        rw [hother hrp]
        exact ht
  case owedLt =>
    intro P c' ho
    rw [howed] at ho
    split at ho
    next => cases ho
    next => exact h.owedLt ho
  case exitedLt =>
    intro c' v hx
    exact h.exitedLt ((hexited c' v).mp hx)
  case answered =>
    rw [hlog]
    refine h.answered.append fun P c' v hw => ?_
    cases hw
    have hrec := h.records hp he
    unfold Family.Records at hrec
    rw [het, hc] at hrec
    exact hrec

/-! ## Creation and exit -/

/-- A new child is owed one answer. -/
theorem Waits.of_created {c : ProcRef} (h : Waits s) (hl : Linked s)
    (hp : (s.procs p).live = true) (hpc : (s.procs p).pc.inWait = false)
    (hc : (s.procs c).live = false) : Waits (threadCreateWithParent p c s) := by
  have hne : c ≠ p := by
    rintro rfl
    rw [hp] at hc
    cases hc
  have hother : ∀ {r}, (s.procs r).live = true → r ≠ c := by
    rintro r hr rfl
    rw [hr] at hc
    cases hc
  set s' := threadCreateWithParent p c s with hs'
  have hnew : s'.procs c = newProc p s.nextTid := createWithParent_new s hne
  have hmem : ∀ {r e}, r ≠ c → (e ∈ (s'.procs r).childList ↔ e ∈ (s.procs r).childList ∨
      (r = p ∧ e = newChildElem s.nextTid c)) := fun hr => createWithParent_mem s hne hr
  have hold : ∀ {r}, r ≠ c → s'.procs r =
      { s.procs r with childList := (s'.procs r).childList } := by
    intro r hr
    rw [hs', createWithParent_procs s hne, if_neg hr]
    split
    next hrp => rw [hrp]
    next => rfl
  have hlog : s'.log = s.log ++ [.created (s.procs p).tid s.nextTid] := rfl
  have howed : ∀ P c', owed P c' s'.log =
      if (s.procs p).tid = P ∧ s.nextTid = c' then true else owed P c' s.log := by
    intro P c'
    rw [hlog, owed_append]
    rfl
  have hexited : ∀ c' v, .exited c' v ∈ s'.log ↔ .exited c' v ∈ s.log := by
    intro c' v
    rw [hlog]
    simp
  have hnext : s.nextTid < s'.nextTid := Int.lt_succ _
  -- the live processes of `s'` are those of `s` and the child
  have hlive : ∀ {r}, (s'.procs r).live = true → r ≠ c → (s.procs r).live = true := by
    intro r hr hrc
    rw [hold hrc] at hr
    exact hr
  constructor
  case place =>
    intro r hr
    by_cases hrc : r = c
    · rw [hrc, waitsAt_iff (by rw [hnew]; rfl), hnew]
      rfl
    · have hr' := hlive hr hrc
      by_cases hrp : r = p
      · subst hrp
        rw [waitsAt_iff (by rw [hold hrc]; exact hpc), hold hrc]
        exact (waitsAt_iff hpc).mp (h.place hp)
      · have hlist : (s'.procs r).childList = (s.procs r).childList := by
          rw [hs', createWithParent_procs s hne, if_neg hrp, if_neg hrc]
        have hplace := h.place hr'
        unfold Family.WaitsAt at hplace ⊢
        unfold Family.HasElem at hplace ⊢
        rw [hlist, hold hrc]
        dsimp only
        split at hplace
        next => exact hplace
        next => exact hplace
        next =>
          rcases hplace with ⟨q, ⟨e, he, het⟩, hw⟩ | hplace
          · refine .inl ⟨q, ⟨e, he, het⟩, ?_⟩
            rw [hold (hother (hl.entry hr' he het.2).1)]
            exact hw
          · exact .inr hplace
        next => exact hplace
        next => exact hplace
  case flag =>
    intro q hq hw
    by_cases hqc : q = c
    · rw [hqc, hnew] at hw
      cases hw
    · have hq' := hlive hq hqc
      rw [hold hqc] at hw
      obtain ⟨r, hpar, hrpc⟩ := h.flag hq' hw
      refine ⟨r, by rw [hold hqc]; exact hpar, ?_⟩
      rw [hold (hother (hl.listed hq' hpar).1), hold hqc]
      exact hrpc
  case records =>
    intro r e hr he
    by_cases hrc : r = c
    · rw [hrc, hnew] at he
      cases he
    · have hr' := hlive hr hrc
      rcases (hmem hrc).mp he with he | ⟨rfl, rfl⟩
      · have hrec := h.records hr' he
        have hlt := ne_of_gt (hl.entryLt hr' he)
        unfold Family.Records at hrec ⊢
        rw [hold hrc]
        simp only [howed, hexited, hlt, and_false, if_false]
        exact hrec
      · unfold Family.Records
        rw [hold hrc]
        simp only [newChildElem, howed, hexited, and_self, if_true, true_and]
        exact fun v hv => lt_irrefl _ (h.exitedLt hv)
  case unlisted =>
    intro r c' hr hno
    rw [howed]
    by_cases hrc : r = c
    · rw [hrc, hnew]
      have hpn : (s.procs p).tid ≠ s.nextTid := ne_of_lt (hl.tidLt hp)
      simp only [newProc, hpn, false_and, if_false]
      rw [Bool.eq_false_iff]
      exact fun ho => lt_irrefl _ (h.owedLt ho)
    · have hr' := hlive hr hrc
      have htid : (s'.procs r).tid = (s.procs r).tid := by rw [hold hrc]
      rw [htid]
      split
      next hnp =>
        have hrp := hl.tidInj hp hr' hnp.1
        refine absurd ?_ (hno (some c))
        exact ⟨_, (hmem hrc).mpr (.inr ⟨hrp.symm, rfl⟩), hnp.2, rfl⟩
      next =>
        refine h.unlisted hr' fun t ht => hno t ?_
        obtain ⟨e, he, het⟩ := ht
        exact ⟨e, (hmem hrc).mpr (.inl he), het⟩
  case owedLt =>
    intro P c' ho
    rw [howed] at ho
    split at ho
    next hP => exact lt_trans (hP.1 ▸ hl.tidLt hp) hnext
    next => exact lt_trans (h.owedLt ho) hnext
  case exitedLt =>
    intro c' v hx
    exact lt_trans (h.exitedLt ((hexited c' v).mp hx)) hnext
  case answered =>
    rw [hlog]
    refine h.answered.append fun P c' v hw => ?_
    cases hw

/-- What an exit leaves of the fields of the others that the parent does not own. -/
theorem exitProc_kept (s : Family) {p r : ProcRef} (hr : r ≠ p) :
    (exitProc s p r).pc = (s.procs r).pc ∧
      (exitProc s p r).isParentWaiting = (s.procs r).isParentWaiting := by
  unfold exitProc
  rw [if_neg hr]
  split
  next => exact ⟨rfl, rfl⟩
  next => split <;> exact ⟨rfl, rfl⟩

/-- Only a parent that is waited on by the exiting process is upped. -/
theorem exitProc_waiting (s : Family) {p r : ProcRef} (hr : r ≠ p) :
    (exitProc s p r).waiting =
      if (s.procs p).parent = some r ∧ (s.procs p).isParentWaiting = true
      then (s.procs r).waiting + 1 else (s.procs r).waiting := by
  unfold exitProc
  rw [if_neg hr]
  split
  next hpar => simp [hpar]
  next hpar =>
    simp only [hpar, false_and, if_false]
    split <;> rfl

/-- An exit closes the entries for the process and keeps the others. -/
theorem Linked.hasElem_exited (h : Linked s) {r : ProcRef} (hr : (s.procs r).live = true)
    (hne : r ≠ p) {c : Tid} {t : Option ProcRef} (ht : s.HasElem r c t) :
    (exited s p).HasElem r c (if t = some p then none else t) := by
  obtain ⟨e, he, hc, rfl⟩ := ht
  refine ⟨closeElem s p e, ?_, (closeElem_tid s p e).trans hc, ?_⟩
  · show closeElem s p e ∈ (exitProc s p r).childList
    rw [h.exitProc_childList hr hne]
    exact List.mem_map_of_mem he
  · unfold closeElem
    split <;> rfl

/-- A waiting parent after the exit of a process nobody is about to set the flag of. -/
theorem Waits.place_exited {r : ProcRef} (h : Waits s) (hl : Linked s)
    (hp : (s.procs p).live = true) (hr : (s.procs r).live = true) (hrp : r ≠ p)
    (hun : ∀ c, (s.procs r).pc ≠ .waitFlag c p) : (exited s p).WaitsAt r := by
  -- the process is waited for exactly when its parent is blocked on it
  have hupped : (s.procs p).parent = some r ∧ (s.procs p).isParentWaiting = true →
      (s.procs r).pc = .waitDown (s.procs p).tid ∧ s.HasElem r (s.procs p).tid (some p) := by
    rintro ⟨hpar, hw⟩
    obtain ⟨r', hpar', hpc⟩ := h.flag hp hw
    obtain rfl := Option.some.inj (hpar.symm.trans hpar')
    obtain ⟨_, e, he, het⟩ := hl.listed hp hpar
    exact ⟨hpc, e, he, (hl.entry hr he het).2.2.symm, het⟩
  have hpc' : ((exited s p).procs r).pc = (s.procs r).pc := (exitProc_kept s hrp).1
  have hw' : ((exited s p).procs r).waiting = _ := exitProc_waiting s hrp
  have helem : ∀ {c t}, s.HasElem r c t → _ := fun ht => hl.hasElem_exited (p := p) hr hrp ht
  have hplace := h.place hr
  unfold Family.WaitsAt at hplace ⊢
  rw [hpc', hw']
  split at hplace
  next c hpc =>
    rw [if_neg fun hu => by simpa [hpc] using (hupped hu).1]
    obtain ⟨⟨t, ht⟩, hzero⟩ := hplace
    exact ⟨⟨_, helem ht⟩, hzero⟩
  next c q hpc =>
    rw [if_neg fun hu => by simpa [hpc] using (hupped hu).1]
    have hq : q ≠ p := by
      rintro rfl
      exact hun c hpc
    have ht := helem hplace.1
    rw [if_neg fun hq' => hq (Option.some.inj hq')] at ht
    exact ⟨ht, hplace.2⟩
  next c hpc =>
    rcases hplace with ⟨q, hq, hflag, hzero⟩ | ⟨hnull, hone⟩
    · have ht := helem hq
      obtain ⟨e, he, hc, het⟩ := hq
      obtain ⟨hqlive, hqpar, hqtid⟩ := hl.entry hr he het
      by_cases hqp : q = p
      · subst hqp
        rw [if_pos rfl] at ht
        rw [if_pos ⟨hqpar, hflag⟩, hzero]
        exact .inr ⟨ht, rfl⟩
      · rw [if_neg fun hq' => hqp (Option.some.inj hq')] at ht
        refine .inl ⟨q, ht, (exitProc_kept s hqp).2.trans hflag, ?_⟩
        rw [if_neg, hzero]
        intro hu
        have hcp : c = (s.procs p).tid := by simpa [hpc] using (hupped hu).1
        exact hqp (hl.tidInj hqlive hp (hqtid.trans (hc.trans hcp)))
    · have ht := helem hnull
      refine .inr ⟨ht, ?_⟩
      rw [if_neg, hone]
      intro hu
      obtain ⟨hdown, hmine⟩ := hupped hu
      rw [hpc] at hdown
      cases hdown
      cases hl.hasElem_unique hr hnull hmine
  next c hpc =>
    rw [if_neg fun hu => by simpa [hpc] using (hupped hu).1]
    exact ⟨helem hplace.1, hplace.2⟩
  next hread hflag hdown hstatus =>
    rw [if_neg fun hu => hdown _ (hupped hu).1]
    exact hplace

/-- An exit is recorded where the parent will look for it. -/
theorem Waits.records_exited {r : ProcRef} {e : ChildElem} (h : Waits s) (hl : Linked s)
    (hp : (s.procs p).live = true) (hr : (s.procs r).live = true)
    (he : e ∈ (s.procs r).childList) : (exited s p).Records r (closeElem s p e) := by
  have hrec := h.records hr he
  have htid : ((exited s p).procs r).tid = (s.procs r).tid := exitProc_tid s p r
  have howed : ∀ P c, owed P c (exited s p).log = owed P c s.log := fun P c => owed_append P c _ _
  have hlog : (exited s p).log = s.log ++ [.exited (s.procs p).tid (s.procs p).exitStatus] := rfl
  unfold Family.Records at hrec ⊢
  rw [closeElem_tid, htid, howed, hlog]
  cases het : e.t with
  | none =>
    have hclose : closeElem s p e = e := by simp [closeElem, het]
    rw [het] at hrec
    rw [hclose, het]
    dsimp only at hrec ⊢
    split at hrec
    next ho =>
      rw [if_pos ho]
      exact List.mem_append_left _ hrec
    next ho =>
      rw [if_neg ho]
      exact hrec
  | some q =>
    rw [het] at hrec
    obtain ⟨hq, hqpar, hqtid⟩ := hl.entry hr he het
    by_cases hqp : q = p
    · subst hqp
      have hclose : closeElem s q e =
          { e with exitStatus := (s.procs q).exitStatus, t := none } := by simp [closeElem, het]
      rw [hclose]
      dsimp only
      rw [if_pos hrec.1, hqtid]
      exact List.mem_append_right _ (List.mem_singleton_self _)
    · have hclose : closeElem s p e = e := by simp [closeElem, het, hqp]
      rw [hclose, het]
      refine ⟨hrec.1, fun v hv => ?_⟩
      rcases List.mem_append.mp hv with hv | hv
      · exact hrec.2 v hv
      · obtain ⟨ht, _⟩ := Fact.exited.inj (List.mem_singleton.mp hv)
        exact hqp (hl.tidInj hq hp (hqtid.trans ht))

/-- Who exits unwatched leaves nobody reading its page. -/
theorem Waits.of_exited (h : Waits s) (hl : Linked s) (hp : (s.procs p).live = true)
    (hpc : (s.procs p).pc.inWait = false)
    (hun : ∀ r c, (s.procs r).live = true → (s.procs r).pc ≠ .waitFlag c p) :
    Waits (exited s p) := by
  have hlive : ∀ {r}, ((exited s p).procs r).live = true → (s.procs r).live = true ∧ r ≠ p :=
    fun hr => (exitProc_live s p _).mp hr
  have htid : ∀ r, ((exited s p).procs r).tid = (s.procs r).tid := exitProc_tid s p
  have howed : ∀ P c, owed P c (exited s p).log = owed P c s.log := fun P c => owed_append P c _ _
  constructor
  case place =>
    intro r hr
    obtain ⟨hr, hrp⟩ := hlive hr
    exact h.place_exited hl hp hr hrp fun c => hun r c hr
  case flag =>
    intro q hq hw
    obtain ⟨hq, hqp⟩ := hlive hq
    have hw' : (s.procs q).isParentWaiting = true := (exitProc_kept s hqp).2.symm.trans hw
    obtain ⟨r, hpar, hrpc⟩ := h.flag hq hw'
    have hrp : r ≠ p := by
      rintro rfl
      rw [hrpc] at hpc
      cases hpc
    refine ⟨r, (hl.exitProc_parent hp hq hqp).mpr ⟨hpar, hrp⟩, ?_⟩
    rw [htid]
    exact (exitProc_kept s hrp).1.trans hrpc
  case records =>
    intro r e hr he
    obtain ⟨hr, hrp⟩ := hlive hr
    have he' : e ∈ (exitProc s p r).childList := he
    rw [hl.exitProc_childList hr hrp] at he'
    obtain ⟨e₀, he₀, rfl⟩ := List.mem_map.mp he'
    exact h.records_exited hl hp hr he₀
  case unlisted =>
    intro r c hr hno
    obtain ⟨hr, hrp⟩ := hlive hr
    rw [howed, htid]
    exact h.unlisted hr fun t ht => hno _ (hl.hasElem_exited hr hrp ht)
  case owedLt =>
    intro P c ho
    rw [howed] at ho
    exact h.owedLt ho
  case exitedLt =>
    intro c v hx
    rcases List.mem_append.mp hx with hx | hx
    · exact h.exitedLt hx
    · cases List.mem_singleton.mp hx
      exact hl.tidLt hp
  case answered =>
    refine h.answered.append fun P c v hw => ?_
    cases hw

/-! ## Runs -/

/-- No process exits while its parent is about to write through a pointer to it: between the read
of `childElem->t` and the write to `t->isParentWaiting`. -/
def unwatched (s : Family) (e : Event) : Bool :=
  if e.isExit (s.procs e.proc).pc then
    match (s.procs e.proc).parent with
    | none => true
    | some p => match (s.procs p).pc with
      | .waitFlag _ t => t != e.proc
      | _ => true
  else true

/-- Only the parent of a process can be about to set its flag. -/
theorem Waits.unwatched_spec {e : Event} (h : Waits s) (hl : Linked s)
    (hu : unwatched s e = true) (he : e.isExit (s.procs e.proc).pc = true) (r : ProcRef) (c : Tid)
    (hr : (s.procs r).live = true) : (s.procs r).pc ≠ .waitFlag c e.proc := by
  intro hpc
  have hplace := h.place hr
  unfold Family.WaitsAt at hplace
  rw [hpc] at hplace
  obtain ⟨⟨e', he', _, het⟩, _⟩ := hplace
  obtain ⟨_, hpar, _⟩ := hl.entry hr he' het
  unfold unwatched at hu
  simp [he, hpar, hpc] at hu

/-- A process exits outside `process_wait`. -/
theorem inWait_of_isExit {e : Event} {pc : Pc} (h : e.isExit pc = true) : pc.inWait = false := by
  cases e with
  | exit p status =>
    have hpc : pc = .user := by simpa [Event.isExit] using h
    rw [hpc]
    rfl
  | alloc p ok =>
    have hpc : pc = .startCopy := by
      simp [Event.isExit] at h
      exact h.2
    rw [hpc]
    rfl
  | load p success =>
    cases success with
    | none =>
      have hpc : pc = .loading := by simpa [Event.isExit] using h
      rw [hpc]
      rfl
    | some b => cases h
  | run p =>
    have hpc : pc = .started false := by simpa [Event.isExit] using h
    rw [hpc]
    rfl
  | exec p n => cases h
  | runTask p n => cases h
  | wait p tid => cases h
  | create p page => cases h

theorem waits_initial (main : ProcRef) : Waits (initial main) := by
  constructor
  case place =>
    intro r _
    exact (waitsAt_iff rfl).mpr rfl
  case flag =>
    intro q _ hw
    cases hw
  case records =>
    intro r e _ he
    cases he
  case unlisted =>
    intro r c _ _
    rfl
  case owedLt =>
    intro P c ho
    cases ho
  case exitedLt =>
    intro c v hx
    cases hx
  case answered =>
    intro pre P c v post heq
    cases List.nil_eq_append_iff.mp heq with
    | intro _ hpost => cases hpost

/-- One step of a process that is neither created nor exits. -/
theorem Waits.of_setPc {pc : Pc} (h : Waits s) (hpc : (s.procs p).pc.inWait = false)
    (hpc' : pc.inWait = false) : Waits (s.setPc p pc) := by
  refine h.of_outside (sameBut_setPc s p pc) hpc ?_
  simpa using hpc'

/-- Behind an exec nobody is in `process_wait`. -/
theorem afterExecute_inWait (direct : Bool) (pid : Tid) :
    (afterExecute direct pid).inWait = false := by
  cases direct <;> rfl

/-- Every move keeps the waits, if nobody exits while it is read. -/
theorem Waits.of_moves {e : Event} (h : Waits s) (hl : Linked s) (hp : (s.procs p).live = true)
    (hpe : e.proc = p) (hu : unwatched s e = true) (hm : Moves s p e s') : Waits s' := by
  cases hm with
  | exits status hexit _ hx =>
    subst hpe
    rw [hl.exits hp hx]
    have hs := sameBut_modProc s e.proc e.proc (fun t => { t with exitStatus := status })
      (fun _ => ⟨rfl, rfl, rfl, rfl, rfl, rfl⟩) fun hne => absurd rfl hne
    have hpc := inWait_of_isExit hexit
    apply Waits.of_exited
    · exact h.of_outside hs hpc (by simpa using hpc)
    · exact hl.modProc _ _ fun _ => ⟨rfl, rfl, rfl, rfl⟩
    · simpa using hp
    · simpa using hpc
    · intro r c hr
      have hpc' : ((s.modProc e.proc fun t => { t with exitStatus := status }).procs r).pc =
          (s.procs r).pc := by
        rw [modProc_procs]
        split
        next hre => rw [hre]
        next => rfl
      rw [(hs.procs r).1] at hr
      rw [hpc']
      exact h.unwatched_spec hl hu hexit r c hr
  | @created d n c hpc hc =>
    have hin : (s.procs p).pc.inWait = false := by rw [hpc]; rfl
    have hne : c ≠ p := by
      rintro rfl
      rw [hp] at hc
      cases hc
    refine (h.of_created hl hp hin hc).of_setPc ?_ (afterExecute_inWait _ _)
    rw [createWithParent_procs s hne, if_pos rfl]
    exact hin
  | loaded hpc =>
    refine h.of_outside (p := p) ((sameBut_setPc s p _).trans
      (sameBut_note _ p (fun _ _ => rfl) (by simp) (by simp))) (by rw [hpc]; rfl) ?_
    simp [Pc.inWait]
  | execDown hpc hw =>
    refine h.of_outside (sameBut_modProc s p p _ (fun _ => ⟨rfl, rfl, rfl, rfl, rfl, rfl⟩)
      fun hne => absurd rfl hne) (by rw [hpc]; rfl) ?_
    simp [Pc.inWait]
  | execRead hpc =>
    refine h.of_outside (p := p) ((sameBut_setPc s p _).trans
      (sameBut_note _ p (fun _ _ => rfl) (by simp) (by simp))) (by rw [hpc]; rfl) ?_
    simp [Pc.inWait]
  | @reported b q hpc _ _ =>
    have hs := sameBut_modProc s p q (fun t => { t with childLoadStatus := b })
      (fun _ => ⟨rfl, rfl, rfl, rfl, rfl, rfl⟩) fun _ _ => rfl
    refine h.of_outside (hs.trans (sameBut_setPc _ p _)) (by rw [hpc]; rfl) ?_
    simp [Pc.inWait]
  | @upped b q hpc _ _ =>
    have hs := sameBut_modProc s p q (fun t => { t with waiting2 := t.waiting2 + 1 })
      (fun _ => ⟨rfl, rfl, rfl, rfl, rfl, rfl⟩) fun _ _ => rfl
    refine h.of_outside (hs.trans (sameBut_setPc _ p _)) (by rw [hpc]; rfl) ?_
    simp [Pc.inWait]
  | unfound hpc hf => exact h.of_unfound hp hpc hf
  | found hpc hf => exact h.of_found hpc hf
  | readNull hpc hf ht =>
    have hread := h.of_read hpc hf
    rwa [ht] at hread
  | read hpc hf ht =>
    have hread := h.of_read hpc hf
    rwa [ht] at hread
  | flagged hpc _ => exact h.of_flagged hl hp hpc
  | downed hpc hw => exact h.of_downed hl hp hpc hw
  | returned hpc hf => exact h.of_returned hl hp hpc hf
  | exec hpc _ => exact h.of_setPc (by rw [hpc]; rfl) rfl
  | runTask hpc _ => exact h.of_setPc (by rw [hpc]; rfl) rfl
  | wait hpc _ => exact h.of_setPc (by rw [hpc]; rfl) rfl
  | copied hpc => exact h.of_setPc (by rw [hpc]; rfl) rfl
  | copied2 hpc => exact h.of_setPc (by rw [hpc]; rfl) rfl
  | uncopied hpc =>
    refine h.of_setPc ?_ (afterExecute_inWait _ _)
    rcases hpc with hpc | hpc <;> rw [hpc] <;> rfl
  | startCopied hpc => exact h.of_setPc (by rw [hpc]; rfl) rfl
  | uncreated hpc => exact h.of_setPc (by rw [hpc]; rfl) (afterExecute_inWait _ _)
  | unreported hpc _ => exact h.of_setPc (by rw [hpc]; rfl) rfl
  | started hpc => exact h.of_setPc (by rw [hpc]; rfl) rfl

/-- The waits are kept in every state of a run whose exits are unwatched. -/
theorem reach_waits {main : ProcRef}
    (h : ReachWhere (Steps step) (fun s e => unwatched s e = true) (initial main) s) : Waits s := by
  refine h.invariant_with (waits_initial main) (fun _ hr => reach_linked hr.reach) ?_
  intro s e s' hl hw hu hx
  obtain ⟨hp, hm⟩ := step_moves hx
  exact hw.of_moves hl hp rfl hu hm

end Pintos.Userprog
