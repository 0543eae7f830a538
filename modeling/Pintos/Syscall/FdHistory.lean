import Pintos.Filesys.Reboot
import Pintos.Syscall.FdAnswers

/-!
# Descriptors over a whole run

The history of a run has the descriptors that every process has been given and has closed. In every
history with fewer opens than there are numbers, and no call that is not `Answerable`, each call does
to the table of its process what `Does` says, and `SYS_EXIT` closes what is left. Two kinds of calls
are not. `SYS_SEEK` to `2 ^ 31` or more fails the assertion of `file_seek`, and a `SYS_READ` whose
buffer the process may not have ends it with `IOLock` down, for which every later call waits in vain
(`seek_and_read_fail`).
-/

namespace Pintos.Syscall

open Pintos.Lib Pintos.Filesys

variable {s s' : Files} {x x' : Proc} {y y' : Option Proc} {l : List FileRef}
  {extra : List InodeRef} {p : ProcRef} {ev : FileEvent} {out : Outcome} {c : FileCall}

/-- The kernel, with the descriptors that have been returned to each process by its opens, and those
that have been closed. -/
structure History where
  kernel : Kernel
  opened : ProcRef → List Int
  closed : ProcRef → List Int

/-- What a step adds to the descriptors that have been returned. -/
def FileEvent.opened (ev : FileEvent) (out : Outcome) (opened : List Int) : List Int :=
  match ev with
  | .exec _ _ _ => []
  | .call _ c => opened ++ c.opens out
  | _ => opened

/-- And to those that have been closed, by the process `y`. -/
def FileEvent.closed (ev : FileEvent) (y : Option Proc) (out : Outcome) (closed : List Int) :
    List Int :=
  match ev with
  | .exec _ _ _ => []
  | .call _ c => closed ++ c.closes out
  | .closeNext _ => closed ++ (y.bind (·.fileList.head?)).toList.map (·.fd)
  | _ => closed

def historyStep (ev : FileEvent) (h : History) : Except Assertion History := do
  let (k, out) ← step ev h.kernel
  let p := ev.proc
  .ok { kernel := k
        opened := Function.update h.opened p (ev.opened out (h.opened p))
        closed := Function.update h.closed p (ev.closed (h.kernel.proc p) out (h.closed p)) }

/-- A step after which no process has had `2 ^ 31 - 5` successful opens. -/
def FewOpens (h : History) (ev : FileEvent) (h' : History) : Prop :=
  Steps historyStep h ev h' ∧ ∀ p, (h'.opened p).length < 2 ^ 31 - 5

/-- And whose call, if it is one, is answerable. -/
def Meets (h : History) (ev : FileEvent) (h' : History) : Prop :=
  FewOpens h ev h' ∧
    ∀ p c x, ev = .call p c → h.kernel.proc p = some x → c.Answerable x h.kernel.files

def History.start (s : Files) : History where
  kernel := .start s
  opened := fun _ => []
  closed := fun _ => []

/-- The descriptors of a process. -/
def History.table (h : History) (p : ProcRef) : Table :=
  Syscall.table (h.kernel.proc p) h.kernel.files

/-- One step of a history, taken apart. -/
theorem historyStep_eq_ok {h h' : History} (hx : historyStep ev h = .ok h') :
    ∃ out, step ev h.kernel = .ok (h'.kernel, out) ∧
      h'.opened ev.proc = ev.opened out (h.opened ev.proc) ∧
      h'.closed ev.proc = ev.closed (h.kernel.proc ev.proc) out (h.closed ev.proc) ∧
      ∀ q, q ≠ ev.proc → h'.opened q = h.opened q ∧ h'.closed q = h.closed q := by
  obtain ⟨⟨k, out⟩, h₁, hx⟩ := bind_eq_ok.mp hx
  cases hx
  refine ⟨out, h₁, Function.update_self _ _ _, Function.update_self _ _ _, fun q hq => ?_⟩
  exact ⟨Function.update_of_ne hq _ _, Function.update_of_ne hq _ _⟩

/-- A call that returns is one of a process in user mode. -/
theorem call_eq_ok (hx : act (.call p c) y s = .ok (y', s', out)) :
    ∃ x x', y = some x ∧ y' = some x' ∧ fileCall c x s = .ok (x', s', out) := by
  cases y with
  | none => cases hx
  | some x =>
    have hproc : procStep (.call p c) x s = .ok (y', s', out) := hx
    unfold procStep at hproc
    cases hstage : x.stage with
    | user =>
      rw [hstage] at hproc
      obtain ⟨⟨x₁, s₁, out₁⟩, h₁, heq⟩ := bind_eq_ok.mp hproc
      cases heq
      exact ⟨x, x₁, rfl, rfl, h₁⟩
    | loading file =>
      rw [hstage] at hproc
      cases hproc
    | closing =>
      rw [hstage] at hproc
      cases hproc
    | exiting =>
      rw [hstage] at hproc
      cases hproc

/-! ## The numbering is kept -/

/-- A step of a process that is there. -/
theorem procStep_numbered {opened closed : List Int} (h : Numbered x opened closed)
    (hx : procStep ev x s = .ok (some x', s', out))
    (hfew : (ev.opened out opened).length < 2 ^ 31 - 5) :
    Numbered x' (ev.opened out opened) (ev.closed (some x) out closed) := by
  unfold procStep at hx
  split at hx
  · obtain ⟨⟨bytes, s₁⟩, -, hx⟩ := bind_eq_ok.mp hx
    cases hx
    exact h
  · obtain ⟨s₁, -, hx⟩ := bind_eq_ok.mp hx
    cases hx
    exact h
  · obtain ⟨s₁, -, hx⟩ := bind_eq_ok.mp hx
    cases hx
    exact h.of_same ⟨rfl, rfl⟩
  · obtain ⟨s₁, -, hx⟩ := bind_eq_ok.mp hx
    cases hx
    exact h.of_same ⟨rfl, rfl⟩
  next c _ =>
    obtain ⟨⟨x₁, s₁, out₁⟩, h₁, hx⟩ := bind_eq_ok.mp hx
    cases hx
    show Numbered x' (opened ++ c.opens out) (closed ++ c.closes out)
    rcases fileCall_list h₁ with ⟨hs, ho, hc⟩ | ⟨name, m, f, rfl, rfl, hlist, hcounter⟩ |
      ⟨e, he, rfl, rfl, hlist, hcounter⟩
    · rw [ho, hc, List.append_nil, List.append_nil]
      exact h.of_same hs
    · have hge := h.counter
      have hopens : (FileCall.sysOpen (.bytes name) m).opens (.eax x.fdCounter) =
          [x.fdCounter] := by
        show (if x.fdCounter = -1 then [] else [x.fdCounter]) = _
        rw [if_neg (by omega)]
      have hfew' : (opened ++ [x.fdCounter]).length < 2 ^ 31 - 5 := hopens ▸ hfew
      rw [List.length_append, List.length_singleton] at hfew'
      rw [hopens]
      show Numbered x' _ (closed ++ [])
      rw [List.append_nil]
      exact h.of_open hfew' hlist hcounter
    · show Numbered x' (opened ++ []) (closed ++ [e.fd])
      rw [List.append_nil]
      exact h.of_close he hlist hcounter
  next p _ =>
    split at hx
    next hlist =>
      cases hx
      show Numbered x.exit opened (closed ++ x.fileList.head?.toList.map FileListElem.fd)
      rw [hlist]
      show Numbered x.exit opened (closed ++ [])
      rw [List.append_nil]
      exact h.of_same (.exit x)
    next e rest hlist =>
      obtain ⟨s₁, -, hx⟩ := bind_eq_ok.mp hx
      cases hx
      show Numbered _ opened (closed ++ x.fileList.head?.toList.map FileListElem.fd)
      rw [hlist]
      apply h.of_close (e := e)
      · rw [hlist]
        exact List.mem_cons_self ..
      · rw [hlist, List.erase_cons_head]
      · rfl
  · cases hx
    exact h.of_same (.exit x)
  · cases hx
    exact h.of_same (.exit x)
  · split at hx
    · cases hx
    · obtain ⟨s₁, -, hx⟩ := bind_eq_ok.mp hx
      cases hx
  · cases hx

/-! ## The lock -/

/-- Only a call that ends the process leaves `IOLock` down. -/
theorem Branch.locked (h : Branch x s c x' s' out) (hout : out = .terminatedLocked) :
    Ends x s c out := by
  cases h with
  | ends h => exact h
  | leaves h => cases h <;> cases hout
  | closing | createFatal _ | create _ | removeFatal _ | remove _ | openFatal _ | openNone _
  | opened _ | read _ _ | write _ _ | seek _ _ | close _ _ | unmapped _ _ | mapped _ _ => cases hout

/-- A call that is answerable leaves `IOLock` up. -/
theorem fileCall_unlocked {opened closed : List Int} (hb : Balanced s l extra)
    (h : Owns (some x) s l) (hpos : ∀ f z, s.file f = some z → 0 ≤ z.pos)
    (hnum : Numbered x opened closed) (hans : c.Answerable x s)
    (hx : fileCall c x s = .ok (x', s', out)) : out ≠ .terminatedLocked := by
  intro hout
  have hends := (fileCall_branch hx).locked hout
  have hup := hends.terminated hb h hpos hnum hans
  cases hout.symm.trans hup

/-- Only a call may leave `IOLock` down. -/
theorem act_unlocked (hcall : ∀ p c, ev ≠ .call p c) (hx : act ev y s = .ok (y', s', out)) :
    out = .done := by
  unfold act at hx
  split at hx
  · cases hx
    rfl
  · obtain ⟨⟨file, s₁⟩, -, hx⟩ := bind_eq_ok.mp hx
    cases hx
    rfl
  · unfold procStep at hx
    split at hx
    · obtain ⟨⟨bytes, s₁⟩, -, hx⟩ := bind_eq_ok.mp hx
      cases hx
      rfl
    · obtain ⟨s₁, -, hx⟩ := bind_eq_ok.mp hx
      cases hx
      rfl
    · obtain ⟨s₁, -, hx⟩ := bind_eq_ok.mp hx
      cases hx
      rfl
    · obtain ⟨s₁, -, hx⟩ := bind_eq_ok.mp hx
      cases hx
      rfl
    · exact absurd rfl (hcall _ _)
    · split at hx
      · cases hx
        rfl
      · obtain ⟨s₁, -, hx⟩ := bind_eq_ok.mp hx
        cases hx
        rfl
    · cases hx
      rfl
    · cases hx
      rfl
    · split at hx
      · cases hx
        rfl
      · obtain ⟨s₁, -, hx⟩ := bind_eq_ok.mp hx
        cases hx
        rfl
    · cases hx
  · cases hx

/-- What becomes of `IOLock`. -/
theorem step_ioLock {k k' : Kernel} (hx : Syscall.step ev k = .ok (k', out)) :
    k'.ioLock = (k.ioLock && out != .terminatedLocked) := by
  unfold Syscall.step at hx
  split at hx
  · cases hx
  obtain ⟨⟨y, s, out'⟩, -, hx⟩ := bind_eq_ok.mp hx
  cases hx
  rfl

/-- At first no descriptor has been given. -/
theorem numbered_init (file : Option FileRef) : Numbered (Proc.init file) [] [] :=
  ⟨rfl, rfl, List.Perm.nil⟩

/-- A step gives the next, and closes one of the list. -/
theorem act_numbered {opened closed : List Int} (h : ∀ x, y = some x → Numbered x opened closed)
    (hx : act ev y s = .ok (some x', s', out))
    (hfew : (ev.opened out opened).length < 2 ^ 31 - 5) :
    Numbered x' (ev.opened out opened) (ev.closed y out closed) := by
  unfold act at hx
  split at hx
  · cases hx
    exact numbered_init none
  · obtain ⟨⟨file, s₁⟩, -, hx⟩ := bind_eq_ok.mp hx
    cases hx
    exact numbered_init file
  · exact procStep_numbered (h _ rfl) hx hfew
  · cases hx

/-- Every live process has its descriptors numbered, and nobody waits for `IOLock`. -/
structure Sound (h : History) : Prop where
  holding : ∃ l extra, Holding h.kernel l extra
  numbered : ∀ p x, h.kernel.proc p = some x → Numbered x (h.opened p) (h.closed p)
  ioLock : h.kernel.ioLock = true

/-- The first state is sound. -/
theorem Sound.start (hs : Boots s) : Sound (History.start s) := by
  refine ⟨?_, nofun, rfl⟩
  obtain ⟨l, hl⟩ := Holding.start hs
  exact ⟨l, [], hl⟩

/-- A step of a run keeps it sound. -/
theorem Sound.step {h h' : History} (hs : Sound h) (hx : Meets h ev h') : Sound h' := by
  obtain ⟨⟨hstep, hfew⟩, hmeets⟩ := hx
  obtain ⟨out, hk, ho, hc, hothers⟩ := historyStep_eq_ok hstep
  obtain ⟨hact, hprocs⟩ := step_eq_ok hk
  constructor
  case ioLock =>
    rw [step_ioLock hk, hs.ioLock, Bool.true_and, bne_iff_ne]
    by_cases hcall : ∃ p c, ev = .call p c
    · obtain ⟨p, c, rfl⟩ := hcall
      obtain ⟨x, x', hproc, -, hcall⟩ := call_eq_ok hact
      obtain ⟨l, extra, hl⟩ := hs.holding
      exact fileCall_unlocked hl.balanced (hproc ▸ hl.owns p) hl.positions (hs.numbered p x hproc)
        (hmeets p c x rfl hproc) hcall
    · rw [act_unlocked (fun p c heq => hcall ⟨p, c, heq⟩) hact]
      exact nofun
  case holding =>
    obtain ⟨l, extra, hl⟩ := hs.holding
    exact hl.step hk
  case numbered =>
    intro p x' hx'
    by_cases hp : p = ev.proc
    · have hlen := hfew ev.proc
      rw [hp] at hx' ⊢
      rw [ho] at hlen
      rw [ho, hc]
      rw [hx'] at hact
      exact act_numbered (hs.numbered ev.proc) hact hlen
    · rw [hprocs p hp] at hx'
      rw [(hothers p hp).1, (hothers p hp).2]
      exact hs.numbered p x' hx'

/-- Every state of a run is sound. -/
theorem Sound.reach {h : History} (hs : Boots s) (hr : Reach Meets (History.start s) h) : Sound h :=
  Reach.invariant (P := Sound) (.start hs) (fun _ _ _ hk hx => hk.step hx) hr

/-! ## The table over a run -/

/-- A step does not touch the descriptors of another process. -/
theorem Holding.table_other {k k' : Kernel} (h : Holding k l extra)
    (hx : Syscall.step ev k = .ok (k', out)) (hp : p ≠ ev.proc) :
    table (k'.proc p) k'.files = table (k.proc p) k.files := by
  obtain ⟨l', extra', hb, ha⟩ := h.acted hx
  rw [(step_eq_ok hx).2 p hp]
  cases hy : k.proc p with
  | none => rfl
  | some x =>
    have hin : ∀ e ∈ x.fileList, e.mFile ∈ held (k.proc p) := by
      intro e he
      rw [hy]
      exact mem_held_of_elem he
    exact table_congr rfl fun e he =>
      (ha.others e.mFile ((h.owns p).opened _ (hin e he)) (h.apart p _ hp _ (hin e he))).2

/-- A descriptor works while it has been returned and not closed. -/
theorem Sound.table_isSome {h : History} (hs : Sound h) (hx : h.kernel.proc p = some x) (fd : Int) :
    (h.table p fd).isSome = true ↔ fd ∈ h.opened p ∧ fd ∉ h.closed p := by
  have hnum := hs.numbered p x hx
  obtain ⟨l, extra, hl⟩ := hs.holding
  rw [← hnum.mem_fds]
  unfold History.table
  rw [hx]
  constructor
  · intro hsome
    obtain ⟨v, hv⟩ := Option.isSome_iff_exists.mp hsome
    obtain ⟨e, he, rfl, -⟩ := (table_eq_some hnum.fds_nodup).mp hv
    exact List.mem_map_of_mem he
  · intro hin
    obtain ⟨e, he, rfl⟩ := List.mem_map.mp hin
    have howns := hl.owns p
    rw [hx] at howns
    obtain ⟨z, hz⟩ := hl.balanced.file_of_mem (howns.opened _ (mem_held_of_elem he))
    rw [table_of_elem hnum.fds_nodup he hz]
    rfl

/-- The next step of a process in the loop of `SYS_EXIT`: the first descriptor left is closed, which
has not been closed before; when none is left all are closed, and the process ends. -/
def Closes (h h' : History) (p : ProcRef) (x : Proc) : Prop :=
  match x.fileList with
  | [] => h'.kernel.proc p = some x.exit ∧ (h.closed p).Perm (h.opened p)
  | e :: rest =>
    fileClose e.mFile h.kernel.files = .ok h'.kernel.files ∧
    h'.kernel.proc p = some { x with fileList := rest } ∧
    h'.table p = Function.update (h.table p) e.fd none ∧
    e.fd ∉ h.closed p ∧ h'.closed p = h.closed p ++ [e.fd]

/-- In the loop of `SYS_EXIT` a process takes no other step. -/
theorem procStep_closing {y : Option Proc} (hstage : x.stage = .closing)
    (hx : procStep ev x s = .ok (y, s', out)) : ev = .closeNext ev.proc ∧
      match x.fileList with
      | [] => y = some x.exit ∧ s' = s
      | e :: rest => fileClose e.mFile s = .ok s' ∧ y = some { x with fileList := rest } := by
  obtain ⟨fileList, fdCounter, mFile, stage⟩ := x
  cases hstage
  cases ev with
  | closeNext p =>
    refine ⟨rfl, ?_⟩
    cases fileList with
    | nil =>
      cases hx
      exact ⟨rfl, rfl⟩
    | cons e rest =>
      obtain ⟨s₁, h₁, hx⟩ := bind_eq_ok.mp hx
      cases hx
      exact ⟨h₁, rfl⟩
  | loaded p success => cases success <;> cases hx
  | exec p name m => cases hx
  | loadRead p size => cases hx
  | loadSeek p ofs => cases hx
  | call p c => cases hx
  | kill p => cases hx
  | die p => cases hx

/-- A process that exits closes its descriptors one by one. -/
theorem Sound.closes {h h' : History} (hs : Sound h) (hx : h.kernel.proc ev.proc = some x)
    (hstage : x.stage = .closing) (hstep : historyStep ev h = .ok h') :
    Closes h h' ev.proc x := by
  obtain ⟨out, hk, -, hc, -⟩ := historyStep_eq_ok hstep
  obtain ⟨hact, -⟩ := step_eq_ok hk
  obtain ⟨l, extra, hl⟩ := hs.holding
  have hnum := hs.numbered _ x hx
  have howns := hl.owns ev.proc
  rw [hx] at hact howns hc
  have hproc : procStep ev x h.kernel.files = .ok (h'.kernel.proc ev.proc, h'.kernel.files, out) := by
    cases ev with
    | exec p name m =>
      cases name with
      | none => cases hact
      | some name => cases hact
    | loadRead p size => exact hact
    | loadSeek p ofs => exact hact
    | loaded p success => exact hact
    | call p c => exact hact
    | closeNext p => exact hact
    | kill p => exact hact
    | die p => exact hact
  obtain ⟨hev, hnext⟩ := procStep_closing hstage hproc
  unfold Closes
  cases hlist : x.fileList with
  | nil =>
    rw [hlist] at hnext
    refine ⟨hnext.1, ?_⟩
    have hsplit := hnum.split
    unfold Proc.fds at hsplit
    rw [hlist, List.map_nil, List.append_nil] at hsplit
    exact hsplit
  | cons e rest =>
    rw [hlist] at hnext
    have he : e ∈ x.fileList := by
      rw [hlist]
      exact List.mem_cons_self ..
    have hrest : x.fileList.erase e = rest := by
      rw [hlist, List.erase_cons_head]
    refine ⟨hnext.1, hnext.2, ?_, ?_, ?_⟩
    · obtain ⟨-, -, hfile, -⟩ :=
        hl.balanced.of_fileClose (howns.opened _ (mem_held_of_elem he)) hnext.1
      unfold History.table
      rw [hnext.2, hx, ← hrest]
      exact table_close hnum.fds_nodup howns he hfile
    · exact (hnum.mem_fds.mp (List.mem_map_of_mem he)).2
    · rw [hc, hev]
      show _ ++ x.fileList.head?.toList.map FileListElem.fd = _
      rw [hlist]
      rfl

/-- A call does on the table what it says. -/
theorem Sound.does {h : History} {k' : Kernel} {c : FileCall} (hs : Sound h)
    (hans : ∀ x, h.kernel.proc p = some x → c.Answerable x h.kernel.files)
    (hact : act (.call p c) (h.kernel.proc p) h.kernel.files =
      .ok (k'.proc p, k'.files, out)) :
    Does (h.opened p) (h.table p) (Syscall.table (k'.proc p) k'.files) h.kernel.files k'.files out
      c := by
  obtain ⟨l, extra, hl⟩ := hs.holding
  have howns := hl.owns p
  obtain ⟨x, x', hx, hy, hcall⟩ := call_eq_ok hact
  unfold History.table
  rw [hx] at howns ⊢
  rw [hy]
  exact fileCall_does hl.balanced howns hl.positions (hs.numbered p x hx) (hans x hx) hcall

/-! ## Calls that come back -/

/-- A step that nobody has to wait for. -/
theorem historyStep_of_act {h : History} {y : Option Proc} (hwaits : ev.waits h.kernel = false)
    (hact : act ev (h.kernel.proc ev.proc) h.kernel.files = .ok (y, s, out)) :
    ∃ h', historyStep ev h = .ok h' ∧
      h'.kernel.ioLock = (h.kernel.ioLock && out != .terminatedLocked) := by
  have hstep : step ev h.kernel = .ok ({
      files := s, proc := Function.update h.kernel.proc ev.proc y
      ioLock := h.kernel.ioLock && out != .terminatedLocked }, out) := by
    unfold step
    rw [hwaits, if_neg Bool.false_ne_true, hact, bind_ok]
  unfold historyStep
  rw [hstep, bind_ok]
  exact ⟨_, rfl, rfl⟩

/-- With `IOLock` up a call comes back, and leaves it up, exactly when it is answerable. -/
theorem Sound.returns_iff {h : History} (hs : Sound h) (hserved : Served h.kernel)
    (hx : h.kernel.proc p = some x) (hstage : x.stage = .user) (hc : c.AboutFiles) :
    (∃ h', historyStep (.call p c) h = .ok h' ∧ h'.kernel.ioLock = true) ↔
      c.Answerable x h.kernel.files := by
  obtain ⟨files, hfs, hin⟩ := hserved
  obtain ⟨l, extra, hl⟩ := hs.holding
  have hown := hl.owns p
  have hheld := hin p
  have hnum := hs.numbered p x hx
  rw [hx] at hown hheld
  have hge : ∀ e ∈ x.fileList, 5 ≤ e.fd := fun e he =>
    hnum.ge _ (hnum.mem_opened (List.mem_map_of_mem he))
  rw [← fileCall_returns_iff hfs hown hheld hge hc]
  constructor
  · rintro ⟨h', hstep, hup⟩
    obtain ⟨out, hk, -⟩ := historyStep_eq_ok hstep
    obtain ⟨x₁, x', hx₁, -, hcall⟩ := call_eq_ok (step_eq_ok hk).1
    have hsame : some x = some x₁ := hx.symm.trans hx₁
    cases hsame
    rw [step_ioLock hk, hs.ioLock, Bool.true_and, bne_iff_ne] at hup
    exact ⟨x', _, out, hcall, hup⟩
  · rintro ⟨x', s', out, hcall, hout⟩
    have hwaits : FileEvent.waits (.call p c) h.kernel = false := by
      show (!h.kernel.ioLock && _) = false
      rw [hs.ioLock]
      rfl
    have hact : act (.call p c) (h.kernel.proc p) h.kernel.files = .ok (some x', s', out) := by
      rw [hx]
      show procStep _ x _ = _
      unfold procStep
      rw [hstage]
      dsimp only
      rw [hcall, bind_ok]
    obtain ⟨h', hstep, hup⟩ := historyStep_of_act hwaits hact
    refine ⟨h', hstep, ?_⟩
    rw [hup, hs.ioLock, Bool.true_and, bne_iff_ne]
    exact hout

/-- `SYS_EXIT` goes on. -/
theorem Sound.closeNext {h : History} (hserved : Served h.kernel) (hx : h.kernel.proc p = some x)
    (hstage : x.stage = .closing) : ∃ h', historyStep (.closeNext p) h = .ok h' := by
  obtain ⟨files, hfs, hin⟩ := hserved
  have hheld := hin p
  rw [hx] at hheld
  obtain ⟨y, s', out, hstep⟩ := closeNext_returns hfs hheld hstage p
  have hact : act (.closeNext p) (h.kernel.proc p) h.kernel.files = .ok (y, s', out) := by
    rw [hx]
    exact hstep
  obtain ⟨h', hstep, -⟩ := historyStep_of_act rfl hact
  exact ⟨h', hstep⟩

/-- In every state of a run the file system is sound. -/
theorem Served.reach {h : History} (hs : Boots s) (hfs : FsSound { fs := s, files := [] })
    (hr : Reach Meets (History.start s) h) : Served h.kernel := by
  refine (Reach.invariant (P := fun h => Sound h ∧ Served h.kernel) ⟨.start hs, .start hfs⟩
    (fun h ev h' hk hx => ?_) hr).2
  obtain ⟨hsound, hserved⟩ := hk
  obtain ⟨l, extra, hl⟩ := hsound.holding
  obtain ⟨out, hstep, -⟩ := historyStep_eq_ok hx.1.1
  exact ⟨hsound.step hx, hserved.step hl hstep⟩

/-- An event gives one descriptor at most. -/
theorem FileEvent.opened_length (ev : FileEvent) (out : Outcome) (opened : List Int) :
    (ev.opened out opened).length ≤ opened.length + 1 := by
  unfold FileEvent.opened
  split
  · exact Nat.zero_le _
  next c =>
    have hone : (c.opens out).length ≤ 1 := by
      unfold FileCall.opens
      split
      · split
        · exact Nat.zero_le _
        · exact Nat.le_refl _
      · exact Nat.zero_le _
    rw [List.length_append]
    omega
  · exact Nat.le_succ _

/-- Calls that are answerable wherever they are made. -/
def FileCall.plain : FileCall → Bool
  | .sysOpen name _ => name != .fatal
  | .sysRead _ buffer _ _ => buffer.checked && buffer.fatal.isNone
  | .sysWrite _ buffer _ => buffer.fatal.isNone
  | .sysSeek _ position => decide (position < 2 ^ 31)
  | _ => true

/-- A call with nothing to ask for may be answered. -/
theorem FileCall.answerable_of_plain (h : c.plain = true) : c.Answerable x s := by
  have hnone : ∀ {b : Buffer} {n : Nat}, b.fatal.isNone = true → b.faults n = false := by
    intro b n hb
    unfold Buffer.faults
    rw [Option.isNone_iff_eq_none.mp hb]
    rfl
  cases c with
  | sysOpen name m => exact fun heq => absurd heq (bne_iff_ne.mp h)
  | sysRead fd buffer size key =>
    obtain ⟨hchecked, hfatal⟩ := Bool.and_eq_true_iff.mp h
    exact ⟨hchecked, fun _ _ => hnone hfatal⟩
  | sysWrite fd buffer size => exact fun _ _ _ _ _ => hnone h
  | sysSeek fd position =>
    have hlt : position < 2 ^ 31 := by
      simpa only [FileCall.plain, decide_eq_true_eq] using h
    intro _
    rw [offT_eq, Int32.toInt_ofNat_of_lt hlt]
    exact Int.natCast_nonneg _
  | sysExit => trivial
  | sysCreate name size m => trivial
  | sysRemove name m => trivial
  | sysFilesize fd => trivial
  | sysTell fd => trivial
  | sysClose fd => trivial
  | sysMmap fd alloc dies => trivial

def FileEvent.plain : FileEvent → Bool
  | .call _ c => c.plain
  | _ => true

/-- A short run of such calls has few opens. -/
theorem reach_of_replay {h₀ : History} : ∀ (evs : List FileEvent) {h h' : History} {n : Nat},
    Reach Meets h₀ h → (∀ p, (h.opened p).length ≤ n) → n + evs.length < 2 ^ 31 - 5 →
    replay historyStep (fun _ ev => ev.plain) evs h = some h' → Reach Meets h₀ h' := by
  intro evs
  induction evs with
  | nil =>
    intro h h' n hr _ _ hx
    cases hx
    exact hr
  | cons ev evs ih =>
    intro h h' n hr hle hn hx
    rw [List.length_cons] at hn
    unfold replay at hx
    split at hx
    next hplain =>
      split at hx
      next h₁ hstep =>
        have hle₁ : ∀ p, (h₁.opened p).length ≤ n + 1 := by
          intro p
          obtain ⟨out, -, ho, -, hothers⟩ := historyStep_eq_ok hstep
          by_cases hp : p = ev.proc
          · rw [hp, ho]
            exact Nat.le_trans (ev.opened_length out _) (Nat.succ_le_succ (hle _))
          · rw [(hothers p hp).1]
            exact Nat.le_succ_of_le (hle p)
        have hfew : ∀ p, (h₁.opened p).length < 2 ^ 31 - 5 := by
          intro p
          have := hle₁ p
          omega
        have hmeets : ∀ p c x, ev = .call p c → h.kernel.proc p = some x →
            c.Answerable x h.kernel.files := by
          rintro p c x rfl -
          exact FileCall.answerable_of_plain hplain
        exact ih (hr.next trivial ⟨⟨hstep, hfew⟩, hmeets⟩) hle₁ (by omega) hx
      next => cases hx
    next => cases hx

/-- A device of eight sectors is formatted, gets the file `a` of ten bytes, and is mounted. -/
def bootA : Option Files :=
  (filesysFormat 8 (fun _ => false) 16 (fun _ _ => 0)).toOption.bind fun s =>
  (fsStep (.create nameA 10 {}) { fs := s, files := [] }).toOption.bind fun st =>
  (filesysDone st.fs).toOption.bind fun s₁ =>
  (filesysInit 8 (fun _ => true) s₁.device).toOption

theorem boots_of_bootA (h : bootA = some s) : Boots s ∧ FsSound { fs := s, files := [] } := by
  unfold bootA at h
  obtain ⟨s₀, hformat, h⟩ := Option.bind_eq_some_iff.mp h
  obtain ⟨st, hcreate, h⟩ := Option.bind_eq_some_iff.mp h
  obtain ⟨s₁, hdone, hinit⟩ := Option.bind_eq_some_iff.mp h
  have hcreate := eq_ok_of_toOption hcreate
  have hinit := eq_ok_of_toOption hinit
  have hclosed : st.files = [] := by
    unfold fsStep at hcreate
    cases hcall : fsCall (.create nameA 10 {}) { fs := s₀, files := [] } with
    | error e =>
      rw [hcall] at hcreate
      cases hcreate
    | ok res =>
      rw [hcall] at hcreate
      obtain ⟨⟨ok, s⟩, -, hcall⟩ := bind_eq_ok.mp hcall
      cases hcall
      cases hcreate
      rfl
  refine ⟨.of_filesysInit hinit, fsSound_mounted (by decide) (by decide) (eq_ok_of_toOption hformat)
    (.next .start trivial hcreate) hclosed (eq_ok_of_toOption hdone) hinit⟩

/-- A process runs `a`, opens it twice, closes the first descriptor and writes to the second. -/
def sampleEvents : List FileEvent :=
  [.exec 7 (some nameA) {}, .loaded 7 true, .call 7 (.sysOpen (.bytes nameA) {}),
    .call 7 (.sysOpen (.bytes nameA) {}), .call 7 (.sysSeek 6 4), .call 7 (.sysClose 5),
    .call 7 (.sysRead 6 {} 3 0)]

/-- With `IOLock` down every call that comes to its `sema_down` waits, then and for ever. -/
theorem waits_for_ever {h h' : History} (hdown : h.kernel.ioLock = false)
    (hr : Reach (Steps historyStep) h h') (hx : h'.kernel.proc p = some x)
    (hc : c.downs x = true) : historyStep (.call p c) h' = .error .notEnabled := by
  have hdown' : h'.kernel.ioLock = false := by
    refine Reach.invariant (P := fun h : History => h.kernel.ioLock = false) hdown
      (fun h ev h' hk hx => ?_) hr
    obtain ⟨out, hstep, -⟩ := historyStep_eq_ok hx
    rw [step_ioLock hstep, hk, Bool.false_and]
  have hwaits : FileEvent.waits (.call p c) h'.kernel = true := by
    show (!h'.kernel.ioLock && (h'.kernel.proc p).any c.downs) = true
    rw [hdown', hx]
    exact hc
  unfold historyStep step
  rw [hwaits, if_pos rfl]
  rfl

/-- Two processes run `a`, and each opens it. -/
def twoOpens : List FileEvent :=
  [.exec 7 (some nameA) {}, .loaded 7 true, .call 7 (.sysOpen (.bytes nameA) {}),
    .exec 8 (some nameA) {}, .loaded 8 true, .call 8 (.sysOpen (.bytes nameA) {})]

/-- A process in user mode that has the descriptor 5. -/
def hasFive (h : History) (p : ProcRef) : Bool :=
  (h.kernel.proc p).any fun x => decide (x.stage = .user) && (getFileWithFd 5 x).isSome

end Pintos.Syscall
