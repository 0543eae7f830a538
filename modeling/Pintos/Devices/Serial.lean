import Pintos.Devices.IntqSteps
import Pintos.Devices.Keyboard

/-!
# The serial port and the input buffer

`devices/serial.c` and `devices/input.c`, with the keyboard's interrupt handler. Threads send and read
bytes, and between their steps the handlers run. `intr_disable` makes each step of a thread one step
here, up to a `thread_block` in the queues. `serial_init_queue` is one step as well, though it sets
`mode` before its `intr_disable`: what another thread would find in between, the mode set and the
enable register not yet written, is left out.

The fields `sent`, `direct` and `scans` are ghosts: the bytes written to the port, those of them that
were sent without the queue, and the scancodes.
-/

namespace Pintos.Devices

open Pintos.Lib

/-- `mode`. -/
inductive Mode where
  | uninit
  | poll
  | queue
  deriving DecidableEq, Repr

structure Serial where
  mode : Mode
  /-- `txq`. -/
  tx : State
  /-- `buffer` of `input.c`. -/
  inp : State
  /-- The interrupt enable register. -/
  ier : Nat
  kbd : Kbd
  sent : List UInt8
  direct : List UInt8
  scans : List Scancode

namespace Serial

variable (σ : Serial)

/-- `init_poll`. -/
def initPoll : Serial := { σ with mode := .poll, tx := initial, ier := 0 }

/-- `write_ier`, with `IER_XMIT` and `IER_RECV`. -/
def writeIer : Serial :=
  { σ with ier := (if intqEmpty σ.tx.q then 0 else 0x02) ||| (if intqFull σ.inp.q then 0 else 0x01) }

/-- `putc_poll`; the port gets ready in the end. -/
def putcPoll (byte : UInt8) : Serial := { σ with sent := σ.sent ++ [byte] }

/-- `serial_notify`. -/
def notify : Serial := if σ.mode = .queue then σ.writeIer else σ

/-- A byte from the queue to the port. The queue is not empty. -/
def sendNext : Except Fault Serial := do
  let tx ← takeByte σ.tx
  .ok ({ σ with tx := tx }.putcPoll σ.tx.q.ring.first)

/-- `input_putc`. The buffer is not full. -/
def inputPutc (key : UInt8) : Except Fault Serial := do
  let inp ← addByte key σ.inp
  .ok { σ with inp := inp }.notify

/-- What follows `intq_putc` in `serial_putc`, unless the thread sleeps in it. -/
def endPutc (t : ThreadRef) : Serial := if (σ.tx.inside t).isSome then σ else σ.writeIer

/-- What follows `intq_getc` in `input_getc`, unless the thread sleeps in it. -/
def endGetc (t : ThreadRef) : Serial := if (σ.inp.inside t).isSome then σ else σ.notify

/-- `serial_putc`; `off` says that interrupts were off. -/
def putc (t : ThreadRef) (byte : UInt8) (off : Bool) : Except Fault Serial :=
  match σ.mode with
  | .uninit => .ok { σ.initPoll.putcPoll byte with direct := σ.direct ++ [byte] }
  | .poll => .ok { σ.putcPoll byte with direct := σ.direct ++ [byte] }
  | .queue => do
    let σ ← if off ∧ intqFull σ.tx.q then σ.sendNext else .ok σ
    let tx ← intqPutc t byte σ.tx
    .ok ({ σ with tx := tx }.endPutc t)

/-- `input_getc`. -/
def getc (t : ThreadRef) : Except Fault Serial := do
  let inp ← intqGetc t σ.inp
  .ok ({ σ with inp := inp }.endGetc t)

/-- A thread comes back from `thread_block`, in `serial_putc` or in `input_getc`. -/
def resume (t : ThreadRef) : Except Fault Serial :=
  if (σ.tx.inside t).isSome then do
    let tx ← Devices.step (.resume t) σ.tx
    .ok ({ σ with tx := tx }.endPutc t)
  else do
    let inp ← Devices.step (.resume t) σ.inp
    .ok ({ σ with inp := inp }.endGetc t)

/-- The loop of `serial_flush`, and that of `serial_interrupt` while the port is ready `n` times. -/
def transmit : Nat → Serial → Except Fault Serial
  | 0, σ => .ok σ
  | n + 1, σ =>
    if intqEmpty σ.tx.q then .ok σ
    else do
      let σ ← σ.sendNext
      transmit n σ

/-- `serial_flush`; there are at most `INTQ_BUFSIZE` bytes. -/
def flush : Except Fault Serial := transmit intqBufsize.toNat σ

/-- The first loop of `serial_interrupt`, with the bytes that the port has. -/
def receive : List UInt8 → Serial → Except Fault Serial
  | [], σ => .ok σ
  | byte :: rx, σ =>
    if intqFull σ.inp.q then .ok σ
    else do
      let σ ← σ.inputPutc byte
      receive rx σ

/-- `serial_interrupt`. -/
def interrupt (rx : List UInt8) (ready : Nat) : Except Fault Serial := do
  let σ ← receive rx σ
  let σ ← transmit ready σ
  .ok σ.writeIer

/-- `serial_init_queue`, as if interrupts were off from `mode = QUEUE` on. -/
def initQueue : Serial :=
  let σ := if σ.mode = .uninit then σ.initPoll else σ
  { σ with mode := .queue }.writeIer

/-- `keyboard_interrupt`. -/
def keyboard (x : Scancode) : Except Fault Serial :=
  match keyboardInterrupt x (decide (intqFull σ.inp.q)) σ.kbd with
  -- the machine reboots
  | none => .error .notEnabled
  | some (none, kbd) => .ok { σ with kbd := kbd, scans := σ.scans ++ [x] }
  | some (some c, kbd) => { σ with kbd := kbd, scans := σ.scans ++ [x] }.inputPutc c

/-- What can happen next. -/
inductive Event where
  | putc (t : ThreadRef) (byte : UInt8) (off : Bool)
  | getc (t : ThreadRef)
  | resume (t : ThreadRef)
  | flush
  | interrupt (rx : List UInt8) (ready : Nat)
  | keyboard (x : Scancode)
  | initQueue

/-- The thread runs and is in no call. -/
def calls (t : ThreadRef) : Bool := σ.tx.calls t && σ.inp.calls t

/-- One event. The handler of the port is registered by `serial_init_queue`, which is called once. -/
def step (e : Event) (σ : Serial) : Except Fault Serial :=
  match e with
  | .putc t byte off => if σ.calls t then σ.putc t byte off else .error .notEnabled
  | .getc t => if σ.calls t then σ.getc t else .error .notEnabled
  | .resume t => σ.resume t
  | .flush => σ.flush
  | .interrupt rx ready => if σ.mode = .queue then σ.interrupt rx ready else .error .notEnabled
  | .keyboard x => σ.keyboard x
  | .initQueue => if σ.mode = .queue then .error .notEnabled else .ok σ.initQueue

/-- Before any output and any key. -/
def boot : Serial where
  mode := .uninit
  tx := initial
  inp := initial
  ier := 0
  kbd := {}
  sent := []
  direct := []
  scans := []

end Serial

end Pintos.Devices
