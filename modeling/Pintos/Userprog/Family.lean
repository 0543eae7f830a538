import Mathlib.Logic.Function.Basic
import Mathlib.Data.List.Basic
import Pintos.Lib.Fallible
import Pintos.Lib.Run
import Pintos.Loading.Strtok

/-!
# Processes and their children

The protocols of `userprog/process.c` and `threads/thread.c` between a process and its children:
`process_execute` and `start_process` (exec), `process_wait` and `thread_exit` (wait). A process
is its `struct thread`, at the bottom of a page, and `ProcRef` names the page; a page that is not
`live` holds no thread, and following a pointer to it is `Fault.dangling`.

Every statement that another process can see is a step of its own, except that
`thread_create_with_parent` is one step and so is `thread_exit`. A process has a program
counter, `Pc`, for where it is in these protocols; `Pc.user` stands for all other code. Only the
owner of `waiting` and `waiting2` ever downs them, so a `sema_down` is a step that is enabled
when the value is positive, and its caller is blocked while it is zero. Tids are unbounded here.

`log` is a ghost: it records what happened and no definition reads it.
-/

namespace Pintos.Userprog

open Pintos.Lib
open Pintos.Loading (strtokR space)

/-- A page that may hold a `struct thread`. -/
abbrev ProcRef := Nat

/-- `tid_t`. -/
abbrev Tid := Int

/-- `TID_ERROR`. -/
def tidError : Tid := -1

/-- `struct childListElem`. -/
structure ChildElem where
  tid : Tid
  t : Option ProcRef
  exitStatus : Int
  deriving DecidableEq, Repr

/-- Where a process is in the exec and wait protocols. -/
inductive Pc where
  /-- Outside both protocols. -/
  | user
  /-- `process_execute (file_name)`, before the page for `fn_copy`. `direct` tells `run_task`,
  which waits for the child itself, from `SYS_EXEC`. -/
  | execCopy (direct : Bool) (fileName : List UInt8)
  /-- Before the page for `fn_copy2`. -/
  | execCopy2 (direct : Bool) (fileName : List UInt8)
  /-- Before `thread_create_with_parent`. -/
  | execCreate (direct : Bool) (fileName : List UInt8)
  /-- `sema_down (&thread_current ()->waiting2)` in `SYS_EXEC`, with the result of
  `process_execute`. -/
  | execDown (pid : Tid)
  /-- The test of `childLoadStatus`. -/
  | execRead (pid : Tid)
  /-- `start_process`, before the page for `fn_copy`. -/
  | startCopy
  | loading
  /-- `parent->childLoadStatus = success`. -/
  | reporting (success : Bool)
  /-- `sema_up (&thread_current ()->parent->waiting2)`. -/
  | upping (success : Bool)
  /-- The end of `start_process`. -/
  | started (success : Bool)
  /-- The search of `childList` in `process_wait`. -/
  | waitFind (tid : Tid)
  /-- The read of `childElem->t`. -/
  | waitRead (tid : Tid)
  /-- `t->isParentWaiting = true`, with the pointer read. -/
  | waitFlag (tid : Tid) (t : ProcRef)
  /-- `sema_down (&thread_current ()->waiting)`. -/
  | waitDown (tid : Tid)
  /-- The read and reset of `childElem->exitStatus`. -/
  | waitStatus (tid : Tid)
  deriving DecidableEq, Repr

/-- The part of `struct thread` the two protocols use. -/
structure Proc where
  live : Bool
  /-- Runs a user program; the initial thread does not. -/
  isUser : Bool
  tid : Tid
  parent : Option ProcRef
  childList : List ChildElem
  waiting : Nat
  waiting2 : Nat
  isParentWaiting : Bool
  childLoadStatus : Bool
  exitStatus : Int
  pc : Pc
  deriving DecidableEq, Repr

/-- What happened, by tids. -/
inductive Fact where
  | created (parent child : Tid)
  /-- `load` returned. -/
  | loaded (child : Tid) (success : Bool)
  | exited (child : Tid) (status : Int)
  /-- `process_wait (child)` returned `status` to `parent`. -/
  | waited (parent child : Tid) (status : Int)
  /-- A `SYS_EXEC` in which `process_execute` returned `pid` returned `result`. -/
  | execed (parent pid result : Tid)
  deriving DecidableEq, Repr

inductive Fault where
  /-- A pointer to a page that holds no thread is followed. -/
  | dangling
  /-- A null pointer is followed. -/
  | null
  /-- `ASSERT (childElem->t == child)` in `thread_do_child_dying`. -/
  | panic
  /-- `ASSERT (name != NULL)` in `init_thread`. -/
  | nullName
  /-- The step cannot be taken in this state; not a fault of the kernel. -/
  | notEnabled
  deriving DecidableEq, Repr

structure Family where
  procs : ProcRef → Proc
  nextTid : Tid
  log : List Fact

namespace Family

variable (s : Family)

/-- Changes one process. -/
def modProc (p : ProcRef) (f : Proc → Proc) : Family :=
  { s with procs := Function.update s.procs p (f (s.procs p)) }

def setPc (p : ProcRef) (pc : Pc) : Family := s.modProc p fun t => { t with pc := pc }

def note (f : Fact) : Family := { s with log := s.log ++ [f] }

/-- Follows a pointer to a thread. -/
def deref (p : ProcRef) : Except Fault Proc :=
  if (s.procs p).live then .ok (s.procs p) else .error .dangling

end Family

/-! ## `thread_exit` -/

/-- The loop of `thread_do_child_dying` over the parent's `childList`. -/
def threadDoChildDying (s : Family) (child : ProcRef) :
    List ChildElem → Except Fault (List ChildElem)
  | [] => .ok []
  | e :: rest => do
    let e ← match e.t with
      | none => .ok e
      | some r => do
        let t ← s.deref r
        if t.tid = (s.procs child).tid then
          if r = child then .ok { e with exitStatus := (s.procs child).exitStatus, t := none }
          else .error .panic
        else .ok e
    let rest ← threadDoChildDying s child rest
    .ok (e :: rest)

/-- The part of `thread_exit` that tells the parent. -/
def tellParent (p : ProcRef) (s : Family) : Except Fault Family :=
  match (s.procs p).parent with
  | none => .ok s
  | some q => do
    let parent ← s.deref q
    let childList ← threadDoChildDying s p parent.childList
    .ok (s.modProc q fun t =>
      { t with
        childList := childList
        waiting := if (s.procs p).isParentWaiting then t.waiting + 1 else t.waiting })

/-- The loop of `thread_exit` over the caller's own `childList`. -/
def orphan : List ChildElem → Family → Except Fault Family
  | [], s => .ok s
  | e :: rest, s =>
    match e.t with
    | none => orphan rest s
    | some r => do
      let _ ← s.deref r
      orphan rest (s.modProc r fun t => { t with parent := none })

/-- `thread_exit`, to the freeing of the page by the thread that runs next. -/
def threadExit (p : ProcRef) (s : Family) : Except Fault Family := do
  let s ← tellParent p s
  let s ← orphan (s.procs p).childList s
  .ok ((s.modProc p fun t => { t with childList := [], live := false }).note
    (.exited (s.procs p).tid (s.procs p).exitStatus))

/-! ## `thread_create_with_parent` -/

/-- The entry `thread_add_child` appends. -/
def newChildElem (tid : Tid) (child : ProcRef) : ChildElem :=
  { tid := tid, t := some child, exitStatus := -1 }

/-- A thread as `thread_create_with_parent` leaves it, about to run `start_process`. -/
def newProc (parent : ProcRef) (tid : Tid) : Proc :=
  { live := true, isUser := true, tid := tid, parent := some parent, childList := [], waiting := 0
    waiting2 := 0, isParentWaiting := false, childLoadStatus := false, exitStatus := -1
    pc := .startCopy }

/-- `thread_create_with_parent (thread_current (), ..)` on the page `child`. -/
def threadCreateWithParent (p child : ProcRef) (s : Family) : Family :=
  let tid := s.nextTid
  (({ s with nextTid := tid + 1 }.modProc child fun _ => newProc p tid).modProc p fun t =>
    { t with childList := t.childList ++ [newChildElem tid child] }).note
      (.created (s.procs p).tid tid)

/-- `realName` in `process_execute`: the first word of the copy of the command line, which is cut
where a page ends. A C string is the list of its characters, without the zero at its end. -/
def realName (fileName : List UInt8) : Option (List UInt8) :=
  (strtokR [space] (fileName.take 4095)).map Prod.fst

/-- Where the caller of `process_execute` goes on with its result. -/
def afterExecute (direct : Bool) (pid : Tid) : Pc :=
  if direct then .waitFind pid else .execDown pid

/-! ## Steps -/

/-- What can happen next, and to which process. -/
inductive Event where
  /-- `SYS_EXEC` of a command line. -/
  | exec (p : ProcRef) (fileName : List UInt8)
  /-- `run_task` on the initial thread. -/
  | runTask (p : ProcRef) (fileName : List UInt8)
  /-- `SYS_WAIT`. -/
  | wait (p : ProcRef) (tid : Tid)
  /-- `SYS_EXIT` with a status, or the process is killed. -/
  | exit (p : ProcRef) (status : Option Int)
  /-- `palloc_get_page`, for one of the copies of the command line, succeeds or not. -/
  | alloc (p : ProcRef) (ok : Bool)
  /-- `thread_create_with_parent`, on a page if it gets one. -/
  | create (p : ProcRef) (page : Option ProcRef)
  /-- `load` returns, or does not: a page fault in it kills the process. -/
  | load (p : ProcRef) (success : Option Bool)
  /-- Any other statement. -/
  | run (p : ProcRef)
  deriving DecidableEq, Repr

/-- The process an event is about. -/
def Event.proc : Event → ProcRef
  | .exec p _ | .runTask p _ | .wait p _ | .exit p _ | .alloc p _ | .create p _ | .load p _
  | .run p => p

/-- `palloc_get_page` for a copy of the command line, by the process that makes it. -/
def stepAlloc (p : ProcRef) (ok : Bool) (s : Family) : Except Fault Family :=
  match (s.procs p).pc with
  | .execCopy d n => .ok (s.setPc p (if ok then .execCopy2 d n else afterExecute d tidError))
  | .execCopy2 d n => .ok (s.setPc p (if ok then .execCreate d n else afterExecute d tidError))
  -- `start_process` returns to `kernel_thread`, which exits
  | .startCopy => if ok then .ok (s.setPc p .loading) else threadExit p s
  | _ => .error .notEnabled

def stepCreate (p : ProcRef) (page : Option ProcRef) (s : Family) : Except Fault Family :=
  match (s.procs p).pc, page with
  | .execCreate d _, none => .ok (s.setPc p (afterExecute d tidError))
  | .execCreate d n, some c =>
    if (s.procs c).live then .error .notEnabled
    -- `init_thread` on the page just allocated
    else if realName n = none then .error .nullName
    else .ok ((threadCreateWithParent p c s).setPc p (afterExecute d s.nextTid))
  | _, _ => .error .notEnabled

def stepLoad (p : ProcRef) (success : Option Bool) (s : Family) : Except Fault Family :=
  match (s.procs p).pc, success with
  | .loading, some b => .ok ((s.setPc p (.reporting b)).note (.loaded (s.procs p).tid b))
  | .loading, none => threadExit p s
  | _, _ => .error .notEnabled

/-- `process_wait` returns. -/
def waitReturns (p : ProcRef) (tid : Tid) (status : Int) (s : Family) : Family :=
  (s.setPc p .user).note (.waited (s.procs p).tid tid status)

/-- The other statements of the two protocols. -/
def stepRun (p : ProcRef) (s : Family) : Except Fault Family :=
  match (s.procs p).pc with
  | .execDown pid =>
    if (s.procs p).waiting2 = 0 then .error .notEnabled
    else .ok (s.modProc p fun t => { t with waiting2 := t.waiting2 - 1, pc := .execRead pid })
  | .execRead pid =>
    .ok ((s.setPc p .user).note (.execed (s.procs p).tid pid
      (if (s.procs p).childLoadStatus then pid else -1)))
  | .reporting b =>
    match (s.procs p).parent with
    | none => .ok (s.setPc p (.started b))
    | some q => do
      let _ ← s.deref q
      .ok ((s.modProc q fun t => { t with childLoadStatus := b }).setPc p (.upping b))
  | .upping b =>
    match (s.procs p).parent with
    | none => .error .null
    | some q => do
      let _ ← s.deref q
      .ok ((s.modProc q fun t => { t with waiting2 := t.waiting2 + 1 }).setPc p (.started b))
  | .started b => if b then .ok (s.setPc p .user) else threadExit p s
  | .waitFind tid =>
    match (s.procs p).childList.find? (·.tid == tid) with
    | none => .ok (waitReturns p tid (-1) s)
    | some _ => .ok (s.setPc p (.waitRead tid))
  | .waitRead tid =>
    match (s.procs p).childList.find? (·.tid == tid) with
    | none => .error .null
    | some e => match e.t with
      | none => .ok (s.setPc p (.waitStatus tid))
      | some t => .ok (s.setPc p (.waitFlag tid t))
  | .waitFlag tid t => do
    let _ ← s.deref t
    .ok ((s.modProc t fun c => { c with isParentWaiting := true }).setPc p (.waitDown tid))
  | .waitDown tid =>
    if (s.procs p).waiting = 0 then .error .notEnabled
    else .ok (s.modProc p fun t => { t with waiting := t.waiting - 1, pc := .waitStatus tid })
  | .waitStatus tid =>
    match (s.procs p).childList.find? (·.tid == tid) with
    | none => .error .null
    | some e => .ok (waitReturns p tid e.exitStatus (s.modProc p fun t =>
        { t with childList := t.childList.map fun e' =>
          if e'.tid = tid then { e' with exitStatus := -1 } else e' }))
  | _ => .error .notEnabled

/-- One event. -/
def step (e : Event) (s : Family) : Except Fault Family :=
  if (s.procs e.proc).live = false then .error .notEnabled
  else match e with
    | .exec p n =>
      if (s.procs p).pc = .user ∧ (s.procs p).isUser then .ok (s.setPc p (.execCopy false n))
      else .error .notEnabled
    | .runTask p n =>
      if (s.procs p).pc = .user ∧ (s.procs p).isUser = false then
        .ok (s.setPc p (.execCopy true n))
      else .error .notEnabled
    | .wait p tid =>
      if (s.procs p).pc = .user ∧ (s.procs p).isUser then .ok (s.setPc p (.waitFind tid))
      else .error .notEnabled
    | .exit p status =>
      if (s.procs p).pc = .user then
        threadExit p (s.modProc p fun t => { t with exitStatus := status.getD t.exitStatus })
      else .error .notEnabled
    | .alloc p ok => stepAlloc p ok s
    | .create p page => stepCreate p page s
    | .load p success => stepLoad p success s
    | .run p => stepRun p s

/-- The state before the first process is executed: the initial thread, on page `main`. -/
def initial (main : ProcRef) : Family where
  procs := fun p =>
    { live := decide (p = main), isUser := false, tid := if p = main then 1 else 0
      parent := none, childList := [], waiting := 0, waiting2 := 0, isParentWaiting := false
      childLoadStatus := false, exitStatus := -1, pc := .user }
  nextTid := 3
  log := []

end Pintos.Userprog
