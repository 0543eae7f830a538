import Pintos.Devices.Serial

/-!
# What comes out of the port, and what goes in

What has been sent, with what is queued, is what callers have given, in order. While something is
queued the port interrupts when it is ready, and it interrupts for a byte exactly while there is room
for one. Readers get the bytes of the keyboard and the port in the order in which they came.
-/

namespace Pintos.Devices

open Pintos.Lib

namespace Serial

variable {σ σ' : Serial} {t : ThreadRef} {byte : UInt8} {tx inp : State}

/-- What holds of the queues, of the port and of the keys. -/
structure Core (σ : Serial) : Prop where
  tx : Devices.Sound none σ.tx
  inp : Devices.Sound none σ.inp
  sent : σ.sent = σ.direct ++ σ.tx.returned
  putting : ∀ t op p, σ.tx.inside t = some (op, p) → ∃ byte, op = .putc byte
  getting : ∀ t op p, σ.inp.inside t = some (op, p) → op = .getc
  held : Held σ.scans σ.kbd

/-- What holds between two steps. -/
structure Sound (σ : Serial) : Prop extends Core σ where
  idle : σ.mode ≠ .queue → σ.tx = initial
  xmit : σ.mode = .queue → ¬ intqEmpty σ.tx.q → σ.ier.testBit 1 = true
  recv : σ.mode = .queue → (σ.ier.testBit 0 = true ↔ ¬ intqFull σ.inp.q)

/-! ## The interrupt enable register -/

/-- The transmit interrupt is on while there is something to send. -/
theorem writeIer_xmit (σ : Serial) : σ.writeIer.ier.testBit 1 = true ↔ ¬ intqEmpty σ.tx.q := by
  unfold writeIer
  dsimp only
  split <;> split <;> simp_all <;> decide

/-- The receive interrupt is on while there is room. -/
theorem writeIer_recv (σ : Serial) : σ.writeIer.ier.testBit 0 = true ↔ ¬ intqFull σ.inp.q := by
  unfold writeIer
  dsimp only
  split <;> split <;> simp_all

/-- With the register written the device is sound. -/
theorem Core.writeIer (h : Core σ) (hmode : σ.mode = .queue) : Sound σ.writeIer where
  toCore := ⟨h.tx, h.inp, h.sent, h.putting, h.getting, h.held⟩
  idle := fun hno => absurd hmode hno
  xmit := fun _ => (writeIer_xmit σ).mpr
  recv := fun _ => writeIer_recv σ

/-- `serial_notify` writes it, where the queues are in use. -/
theorem Core.notify (h : Core σ) (hidle : σ.mode ≠ .queue → σ.tx = initial) : Sound σ.notify := by
  unfold Serial.notify
  split
  next hmode => exact h.writeIer hmode
  next hmode => exact ⟨h, hidle, fun hq => absurd hq hmode, fun hq => absurd hq hmode⟩

/-! ## The queues -/

/-- A byte has been taken from the transmit queue and sent. -/
theorem Core.of_took (h : Core σ) (hs : Devices.Sound none tx) (ht : Took σ.tx tx) :
    Core ({ σ with tx := tx }.putcPoll σ.tx.q.ring.first) where
  tx := hs
  inp := h.inp
  sent := by
    show σ.sent ++ [σ.tx.q.ring.first] = σ.direct ++ tx.returned
    rw [h.sent, ht.returned, List.append_assoc]
  putting := fun u op p hu => h.putting u op p (ht.inside ▸ hu)
  getting := h.getting
  held := h.held

/-- The transmit queue has changed, and nothing has left it. -/
theorem Core.of_tx (h : Core σ) (hs : Devices.Sound none tx) (hret : tx.returned = σ.tx.returned)
    (hput : ∀ u op p, tx.inside u = some (op, p) → ∃ byte, op = .putc byte) :
    Core { σ with tx := tx } :=
  ⟨hs, h.inp, h.sent.trans (congrArg _ hret.symm), hput, h.getting, h.held⟩

/-- The input buffer has changed. -/
theorem Core.of_inp (h : Core σ) (hs : Devices.Sound none inp)
    (hin : ∀ u op p, inp.inside u = some (op, p) → op = .getc) : Core { σ with inp := inp } :=
  ⟨h.tx, hs, h.sent, h.putting, hin, h.held⟩

/-- `sendNext` never fails while there is something to send. -/
theorem Core.sendNext (h : Core σ) (he : ¬ intqEmpty σ.tx.q) :
    ∃ σ', σ.sendNext = .ok σ' ∧ Core σ' ∧ Took σ.tx σ'.tx ∧ σ'.mode = σ.mode ∧ σ'.inp = σ.inp ∧
      σ'.ier = σ.ier ∧ σ'.direct = σ.direct := by
  obtain ⟨tx, htake, hs⟩ := takeByte_ok h.tx he
  have ht := takeByte_took he htake
  refine ⟨_, ?_, h.of_took hs ht, ht, rfl, rfl, rfl, rfl⟩
  unfold Serial.sendNext
  rw [htake]
  rfl

/-- Nor does `input_putc` while there is room. -/
theorem Sound.inputPutc (h : Core σ) (hidle : σ.mode ≠ .queue → σ.tx = initial)
    (hf : ¬ intqFull σ.inp.q) (key : UInt8) :
    ∃ σ', σ.inputPutc key = .ok σ' ∧ Sound σ' ∧ Added key σ.inp σ'.inp ∧ σ'.mode = σ.mode ∧
      σ'.tx = σ.tx ∧ σ'.scans = σ.scans ∧ σ'.direct = σ.direct ∧ σ'.sent = σ.sent := by
  obtain ⟨inp, hadd, hs⟩ : ∃ inp, addByte key σ.inp = .ok inp ∧ Devices.Sound none inp :=
    addByte_ok h.inp hf
  have ha := addByte_added hf hadd
  have hcore : Core { σ with inp := inp } :=
    h.of_inp hs fun u op p hu => h.getting u op p (ha.inside ▸ hu)
  refine ⟨{ σ with inp := inp }.notify, ?_, hcore.notify hidle, ?_⟩
  · unfold Serial.inputPutc
    rw [hadd]
    rfl
  · unfold Serial.notify
    split <;> exact ⟨ha, rfl, rfl, rfl, rfl, rfl⟩

/-! ## Sending -/

/-- What callers have given to `serial_putc`. -/
def given (σ : Serial) : List UInt8 := σ.direct ++ σ.tx.accepted

/-- A byte has been put in the transmit queue. -/
theorem Core.added {τ : State} (h : Core σ) (hmode : σ.mode = .queue) (hs : Devices.Sound none tx)
    (ha : Added byte τ tx) (hw : Within σ.tx τ) (hin : τ.inside t = none) :
    Sound ({ σ with tx := tx }.endPutc t) ∧ given ({ σ with tx := tx }.endPutc t) = given σ ++ [byte] ∧
      ({ σ with tx := tx }.endPutc t).tx.inside t = none := by
  have hcore := h.of_tx hs (ha.returned.trans hw.returned) fun u op p hu =>
    h.putting u op p (hw.inside u _ (ha.inside ▸ hu))
  have hend : ({ σ with tx := tx } : Serial).endPutc t = ({ σ with tx := tx } : Serial).writeIer := by
    unfold endPutc
    refine if_neg ?_
    show ¬ (tx.inside t).isSome = true
    rw [ha.inside, hin]
    exact Bool.false_ne_true
  rw [hend]
  refine ⟨hcore.writeIer hmode, ?_, ?_⟩
  · show σ.direct ++ tx.accepted = σ.direct ++ σ.tx.accepted ++ [byte]
    rw [ha.accepted, hw.accepted, List.append_assoc]
  · show tx.inside t = none
    rw [ha.inside, hin]

/-- A thread sleeps in `serial_putc`. -/
theorem Sound.parked {τ : State} (h : Sound σ) (hmode : σ.mode = .queue) (hs : Devices.Sound none tx)
    (hp : Parked t (.putc byte) τ tx) (hw : Within σ.tx τ) :
    Sound ({ σ with tx := tx }.endPutc t) ∧ given ({ σ with tx := tx }.endPutc t) = given σ := by
  have hcore := h.toCore.of_tx hs (hp.returned.trans hw.returned)
    (hp.only (Q := fun op => ∃ byte, op = .putc byte)
      (fun u op p hu => h.putting u op p (hw.inside u _ hu)) ⟨byte, rfl⟩)
  have hend : ({ σ with tx := tx } : Serial).endPutc t = { σ with tx := tx } := if_pos hp.isSome
  have hempty : intqEmpty tx.q ↔ intqEmpty σ.tx.q := by
    unfold intqEmpty
    rw [hp.ring, hw.ring]
  rw [hend]
  refine ⟨⟨hcore, fun hno => absurd hmode hno, fun hq hne => h.xmit hq (mt hempty.mpr hne),
    h.recv⟩, ?_⟩
  show σ.direct ++ tx.accepted = σ.direct ++ σ.tx.accepted
  rw [hp.accepted, hw.accepted]

/-- What `serial_putc` does in queue mode. -/
theorem putc_queue (hmode : σ.mode = .queue) (byte : UInt8) (off : Bool) : σ.putc t byte off = (do
    let σ ← if off ∧ intqFull σ.tx.q then σ.sendNext else .ok σ
    let tx ← intqPutc t byte σ.tx
    .ok ({ σ with tx := tx }.endPutc t)) := by
  unfold putc
  rw [hmode]

/-- Without the queue a byte is sent at once. -/
theorem Sound.of_direct (h : Sound σ) (hruns : Runs t σ.tx) (hmode : σ.mode ≠ .queue) (byte : UInt8)
    (off : Bool) : ∃ σ', σ.putc t byte off = .ok σ' ∧ Sound σ' ∧ given σ' = given σ ++ [byte] ∧
      σ'.tx.inside t = none := by
  have htx := h.idle hmode
  have hsent := h.sent
  rw [htx] at hsent
  have hlist : σ.sent = σ.direct := hsent.trans (List.append_nil _)
  have hgiven : given σ = σ.direct := by
    unfold given
    rw [htx]
    exact List.append_nil _
  unfold putc
  split
  next =>
    refine ⟨_, rfl, ⟨⟨sound_initial, h.inp, ?_, nofun, h.getting, h.held⟩, fun _ => rfl, nofun, nofun⟩,
      ?_, rfl⟩
    · show σ.sent ++ [byte] = σ.direct ++ [byte] ++ []
      rw [hlist, List.append_nil]
    · rw [hgiven]
      exact List.append_nil _
  next =>
    refine ⟨_, rfl, ⟨⟨h.tx, h.inp, ?_, h.putting, h.getting, h.held⟩, fun _ => htx,
      fun hq => absurd hq hmode, fun hq => absurd hq hmode⟩, ?_, hruns.inside⟩
    · show σ.sent ++ [byte] = σ.direct ++ [byte] ++ σ.tx.returned
      rw [hlist, htx]
      exact (List.append_nil _).symm
    · rw [hgiven]
      show σ.direct ++ [byte] ++ σ.tx.accepted = _
      rw [htx]
      exact List.append_nil _
  next hq => exact absurd hq hmode

/-- With room in the queue, or with interrupts off, `serial_putc` takes the byte at once. -/
theorem Sound.of_putc (h : Sound σ) (hc : σ.calls t = true) (byte : UInt8) (off : Bool) :
    ∃ σ', σ.putc t byte off = .ok σ' ∧ Sound σ' ∧
      ((given σ' = given σ ++ [byte] ∧ σ'.tx.inside t = none) ∨
        (given σ' = given σ ∧ off = false ∧ intqFull σ.tx.q)) := by
  have hruns : Runs t σ.tx := runs_of_calls (Bool.and_eq_true _ _ ▸ hc).1
  by_cases hmode : σ.mode = .queue
  · rw [putc_queue hmode]
    by_cases hfull : intqFull σ.tx.q
    · cases off with
      | true =>
        obtain ⟨σ₁, hsend, hcore, htook, hmode₁, -, -, hdirect⟩ :=
          h.toCore.sendNext (not_empty_of_full h.tx hfull)
        have hroom : ¬ intqFull σ₁.tx.q := by
          unfold intqFull
          rw [htook.ring]
          exact h.tx.inRange.not_full_drop htook.notEmpty
        obtain ⟨tx, hadd, hs⟩ : ∃ tx, addByte byte σ₁.tx = .ok tx ∧ Devices.Sound none tx :=
          addByte_ok hcore.tx hroom
        have ha := addByte_added hroom hadd
        have hloop : intqPutc t byte σ₁.tx = .ok tx := (if_neg hroom).trans hadd
        have hin : σ₁.tx.inside t = none := by rw [htook.inside, hruns.inside]
        obtain ⟨hsound, hgiven, hnone⟩ := hcore.added (hmode₁.trans hmode) hs ha (.refl _) hin
        refine ⟨_, ?_, hsound, .inl ⟨hgiven.trans ?_, hnone⟩⟩
        · rw [if_pos ⟨rfl, hfull⟩, hsend, bind_ok]
          dsimp only
          rw [hloop, bind_ok]
        · unfold given
          rw [hdirect, htook.accepted]
      | false =>
        obtain ⟨tx, hput, hs⟩ : ∃ tx, intqPutc t byte σ.tx = .ok tx ∧ Devices.Sound none tx :=
          loop_ok h.tx hruns
        rcases loop_cases hput with hp | ha
        · obtain ⟨hsound, hgiven⟩ := h.parked hmode hs hp (.refl _)
          refine ⟨_, ?_, hsound, .inr ⟨hgiven, rfl, hfull⟩⟩
          rw [if_neg fun hh => Bool.false_ne_true hh.1, bind_ok]
          dsimp only
          rw [hput, bind_ok]
        · exact absurd hfull ha.notFull
    · obtain ⟨tx, hadd, hs⟩ : ∃ tx, addByte byte σ.tx = .ok tx ∧ Devices.Sound none tx :=
        addByte_ok h.tx hfull
      have ha := addByte_added hfull hadd
      have hput : intqPutc t byte σ.tx = .ok tx := (if_neg hfull).trans hadd
      obtain ⟨hsound, hgiven, hnone⟩ := h.toCore.added hmode hs ha (.refl _) hruns.inside
      refine ⟨_, ?_, hsound, .inl ⟨hgiven, hnone⟩⟩
      rw [if_neg fun hh => hfull hh.2, bind_ok]
      dsimp only
      rw [hput, bind_ok]
  · obtain ⟨σ', hx, hs, hg, hin⟩ := h.of_direct hruns hmode byte off
    exact ⟨σ', hx, hs, .inl ⟨hg, hin⟩⟩

/-! ## The port -/

/-- Bytes go from the queue to the port. -/
theorem Core.transmit (n : Nat) (h : Core σ) : ∃ σ', σ.transmit n = .ok σ' ∧ Core σ' ∧
    given σ' = given σ ∧ σ'.mode = σ.mode ∧ σ'.inp = σ.inp ∧ σ'.ier = σ.ier ∧
    (¬ intqEmpty σ'.tx.q → ¬ intqEmpty σ.tx.q) ∧ (σ.mode ≠ .queue → intqEmpty σ.tx.q → σ' = σ) := by
  induction n generalizing σ with
  | zero => exact ⟨σ, rfl, h, rfl, rfl, rfl, rfl, id, fun _ _ => rfl⟩
  | succ n ih =>
    unfold Serial.transmit
    split
    next => exact ⟨σ, rfl, h, rfl, rfl, rfl, rfl, id, fun _ _ => rfl⟩
    next he =>
      obtain ⟨σ₁, hsend, hcore, htook, hmode, hinp, hier, hdirect⟩ := h.sendNext he
      obtain ⟨σ', hx, h', hgiven, hmode', hinp', hier', -, -⟩ := ih hcore
      refine ⟨σ', ?_, h', hgiven.trans ?_, hmode'.trans hmode, hinp'.trans hinp, hier'.trans hier,
        fun _ => he, fun _ hno => absurd hno he⟩
      · rw [hsend, bind_ok]
        exact hx
      · unfold given
        rw [hdirect, htook.accepted]

/-- The queue gets empty where the port is ready often enough. -/
theorem Core.transmit_all (n : Nat) (h : Core σ)
    (hn : (σ.tx.q.ring.contents intqBufsize).length ≤ n) (hx : σ.transmit n = .ok σ') :
    intqEmpty σ'.tx.q := by
  induction n generalizing σ with
  | zero =>
    cases hx
    exact h.tx.inRange.contents_eq_nil.mp (List.length_eq_zero_iff.mp (Nat.le_zero.mp hn))
  | succ n ih =>
    unfold Serial.transmit at hx
    split at hx
    next he =>
      cases hx
      exact he
    next he =>
      obtain ⟨σ₁, hsend, hcore, htook, -⟩ := h.sendNext he
      rw [hsend, bind_ok] at hx
      refine ih hcore ?_ hx
      rw [htook.ring]
      rw [h.tx.inRange.contents_drop he] at hn
      exact Nat.le_of_succ_le_succ hn

/-- Flushing sends what is queued, in order. -/
theorem Sound.of_flush (h : Sound σ) : ∃ σ', σ.flush = .ok σ' ∧ Sound σ' ∧ given σ' = given σ := by
  obtain ⟨σ', hx, hcore, hgiven, hmode, hinp, hier, hne, hsame⟩ := h.toCore.transmit intqBufsize.toNat
  refine ⟨σ', hx, ⟨hcore, fun hno => ?_, fun hq he => ?_, fun hq => ?_⟩, hgiven⟩
  · rw [hmode] at hno
    have htx := h.idle hno
    have hempty : intqEmpty σ.tx.q := by
      rw [htx]
      rfl
    rw [hsame hno hempty, htx]
  · rw [hier]
    exact h.xmit (hmode ▸ hq) (hne he)
  · rw [hier, hinp]
    exact h.recv (hmode ▸ hq)

/-- What is received goes to the input, as far as there is room. -/
theorem Sound.of_receive (h : Sound σ) (hmode : σ.mode = .queue) (rx : List UInt8) :
    ∃ σ', σ.receive rx = .ok σ' ∧ Sound σ' ∧ given σ' = given σ ∧ σ'.mode = .queue ∧
      ∃ taken, taken <+: rx ∧ σ'.inp.accepted = σ.inp.accepted ++ taken ∧
        (taken ≠ rx → intqFull σ'.inp.q) := by
  induction rx generalizing σ with
  | nil => exact ⟨σ, rfl, h, rfl, hmode, [], List.nil_prefix, (List.append_nil _).symm, (absurd rfl ·)⟩
  | cons byte rx ih =>
    unfold receive
    split
    next hfull =>
      exact ⟨σ, rfl, h, rfl, hmode, [], List.nil_prefix, (List.append_nil _).symm, fun _ => hfull⟩
    next hfull =>
      obtain ⟨σ₁, hput, h₁, ha, hmode₁, htx, -, hdirect, -⟩ :=
        Sound.inputPutc h.toCore h.idle hfull byte
      obtain ⟨σ', hx, h', hgiven, hmode', taken, hpre, hacc, hfull'⟩ := ih h₁ (hmode₁.trans hmode)
      refine ⟨σ', ?_, h', hgiven.trans ?_, hmode', byte :: taken, ?_, ?_, fun hne => ?_⟩
      · rw [hput, bind_ok]
        exact hx
      · unfold given
        rw [hdirect, htx]
      · exact List.cons_prefix_cons.mpr ⟨rfl, hpre⟩
      · rw [hacc, ha.accepted, List.append_assoc]
        rfl
      · exact hfull' fun heq => hne (heq ▸ rfl)

/-- An interrupt receives and sends. -/
theorem Sound.of_interrupt (h : Sound σ) (hmode : σ.mode = .queue) (rx : List UInt8) (ready : Nat) :
    ∃ σ', σ.interrupt rx ready = .ok σ' ∧ Sound σ' ∧ given σ' = given σ ∧
      ∃ taken, taken <+: rx ∧ σ'.inp.accepted = σ.inp.accepted ++ taken ∧
        (taken ≠ rx → intqFull σ'.inp.q) := by
  obtain ⟨σ₁, hrecv, h₁, hgiven₁, hmode₁, taken, hpre, hacc, hfull⟩ := h.of_receive hmode rx
  obtain ⟨σ₂, hsend, hcore, hgiven₂, hmode₂, hinp, -⟩ := h₁.toCore.transmit ready
  refine ⟨σ₂.writeIer, ?_, hcore.writeIer (hmode₂.trans hmode₁), hgiven₂.trans hgiven₁, taken, hpre,
    ?_, ?_⟩
  · unfold interrupt
    rw [hrecv, bind_ok, hsend, bind_ok]
  · show σ₂.inp.accepted = _
    rw [hinp, hacc]
  · show _ → intqFull σ₂.inp.q
    rw [hinp]
    exact hfull

/-! ## Reading -/

/-- A thread sleeps in `input_getc`, or has a byte. -/
theorem Sound.of_read {τ : State} (h : Sound σ) (hs : Devices.Sound none inp)
    (hx : Parked t .getc τ inp ∨ Took τ inp) (hw : Within σ.inp τ) (hin : τ.inside t = none) :
    Sound ({ σ with inp := inp }.endGetc t) ∧ given ({ σ with inp := inp }.endGetc t) = given σ := by
  rcases hx with hp | ht
  · have hcore := h.toCore.of_inp hs (hp.only (Q := fun op => op = .getc)
      (fun u op p hu => h.getting u op p (hw.inside u _ hu)) rfl)
    have hend : ({ σ with inp := inp } : Serial).endGetc t = { σ with inp := inp } := if_pos hp.isSome
    have hfull : intqFull inp.q ↔ intqFull σ.inp.q := by
      unfold intqFull
      rw [hp.ring, hw.ring]
    rw [hend]
    exact ⟨⟨hcore, h.idle, h.xmit, fun hq => (h.recv hq).trans (not_congr hfull.symm)⟩, rfl⟩
  · have hcore := h.toCore.of_inp hs fun u op p hu =>
      h.getting u op p (hw.inside u _ (ht.inside ▸ hu))
    have hend : ({ σ with inp := inp } : Serial).endGetc t = ({ σ with inp := inp } : Serial).notify := by
      unfold endGetc
      refine if_neg ?_
      show ¬ (inp.inside t).isSome = true
      rw [ht.inside, hin]
      exact Bool.false_ne_true
    rw [hend]
    refine ⟨hcore.notify h.idle, ?_⟩
    unfold Serial.notify
    split <;> rfl

/-- Taking a byte of input leaves the output alone. -/
theorem Sound.of_getc (h : Sound σ) (hc : σ.calls t = true) :
    ∃ σ', σ.getc t = .ok σ' ∧ Sound σ' ∧ given σ' = given σ := by
  have hruns : Runs t σ.inp := runs_of_calls (Bool.and_eq_true _ _ ▸ hc).2
  obtain ⟨inp, hloop, hs⟩ : ∃ inp, loop t .getc σ.inp = .ok inp ∧ Devices.Sound none inp :=
    loop_ok h.inp hruns
  obtain ⟨hsound, hgiven⟩ := h.of_read hs (loop_cases hloop) (.refl _) hruns.inside
  refine ⟨_, ?_, hsound, hgiven⟩
  unfold Serial.getc intqGetc
  rw [hloop, bind_ok]

/-- A thread that comes back ends its call or sleeps again. -/
theorem Sound.of_resume (h : Sound σ) (hx : σ.resume t = .ok σ') : Sound σ' ∧
    (given σ' = given σ ∨ ∃ byte p, σ.tx.inside t = some (.putc byte, p) ∧
      given σ' = given σ ++ [byte]) := by
  unfold resume at hx
  split at hx
  next hsome =>
    obtain ⟨tx, hstep, hx⟩ := bind_eq_ok.mp hx
    cases hx
    have hs := h.tx.of_step hstep
    obtain ⟨op, p, hi, hcases⟩ := resume_cases hstep
    obtain ⟨byte, rfl⟩ := h.putting t op p hi
    have hmode : σ.mode = .queue := by
      by_contra hno
      rw [h.idle hno] at hi
      cases hi
    rcases hcases with hp | ha
    · obtain ⟨hsound, hgiven⟩ := h.parked hmode hs hp (.of_unpark _ _)
      exact ⟨hsound, .inl hgiven⟩
    · obtain ⟨hsound, hgiven, -⟩ := h.toCore.added hmode hs ha (.of_unpark _ _)
        (Function.update_self _ _ _)
      exact ⟨hsound, .inr ⟨byte, p, hi, hgiven⟩⟩
  next =>
    obtain ⟨inp, hstep, hx⟩ := bind_eq_ok.mp hx
    cases hx
    obtain ⟨op, p, hi, hcases⟩ := resume_cases hstep
    rw [h.getting t op p hi] at hcases
    obtain ⟨hsound, hgiven⟩ := h.of_read (h.inp.of_step hstep) hcases (.of_unpark _ _)
      (Function.update_self _ _ _)
    exact ⟨hsound, .inl hgiven⟩

/-! ## The keyboard -/

/-- A character comes only while there is room for it. -/
theorem keyboard_room {x : Scancode} {full : Prop} [Decidable full] {k kbd : Kbd} {c : UInt8}
    (hkey : keyboardInterrupt x (decide full) k = some (some c, kbd)) : ¬ full := by
  intro hfull
  rw [decide_eq_true hfull] at hkey
  unfold keyboardInterrupt at hkey
  split at hkey
  · cases hkey
  split at hkey
  · split at hkey
    · cases hkey
    split at hkey
    · cases hkey
    rw [if_pos rfl] at hkey
    cases hkey
  · cases hkey

/-- A key is a byte of input, and no output. -/
theorem Core.of_scan {x : Scancode} {full : Bool} {c : Option UInt8} {kbd : Kbd} (h : Core σ)
    (hkey : keyboardInterrupt x full σ.kbd = some (c, kbd)) :
    Core { σ with kbd := kbd, scans := σ.scans ++ [x] } :=
  ⟨h.tx, h.inp, h.sent, h.putting, h.getting, h.held.of_interrupt hkey⟩

/-- The character of a scancode, with the keys that are held. -/
theorem Sound.of_keyboard {x : Scancode} (h : Sound σ) (hx : σ.keyboard x = .ok σ') :
    Sound σ' ∧ given σ' = given σ ∧ σ'.scans = σ.scans ++ [x] := by
  unfold Serial.keyboard at hx
  split at hx
  next => cases hx
  next kbd hkey =>
    cases hx
    exact ⟨⟨h.toCore.of_scan hkey, h.idle, h.xmit, h.recv⟩, rfl, rfl⟩
  next c kbd hkey =>
    obtain ⟨σ₁, hput, hs₁, -, -, htx, hscans, hdirect, -⟩ :=
      Sound.inputPutc (h.toCore.of_scan hkey) h.idle (keyboard_room hkey) c
    rw [hput] at hx
    cases hx
    refine ⟨hs₁, ?_, hscans⟩
    unfold given
    rw [htx, hdirect]

/-- Setting up the queues gives nothing out. -/
theorem Sound.of_initQueue (h : Sound σ) (hmode : σ.mode ≠ .queue) :
    Sound σ.initQueue ∧ given σ.initQueue = given σ := by
  have htx := h.idle hmode
  unfold initQueue
  split
  next =>
    have hcore : Core { σ.initPoll with mode := .queue } := by
      refine ⟨sound_initial, h.inp, ?_, nofun, h.getting, h.held⟩
      show σ.sent = σ.direct ++ initial.returned
      rw [h.sent, htx]
    refine ⟨hcore.writeIer rfl, ?_⟩
    show σ.direct ++ initial.accepted = σ.direct ++ σ.tx.accepted
    rw [htx]
  next =>
    have hcore : Core { σ with mode := .queue } :=
      ⟨h.tx, h.inp, h.sent, h.putting, h.getting, h.held⟩
    exact ⟨hcore.writeIer rfl, rfl⟩

/-! ## Runs -/

/-- At first the device polls. -/
theorem sound_boot : Sound boot where
  tx := sound_initial
  inp := sound_initial
  sent := rfl
  putting := nofun
  getting := nofun
  held := held_nil
  idle := fun _ => rfl
  xmit := nofun
  recv := nofun

/-- A step takes at most the byte of its caller. -/
theorem Sound.of_step {e : Event} (h : Sound σ) (hx : step e σ = .ok σ') : Sound σ' ∧
    (given σ' = given σ ∨ ∃ t byte, given σ' = given σ ++ [byte] ∧
      ((∃ off, e = .putc t byte off) ∨ (e = .resume t ∧ ∃ p, σ.tx.inside t = some (.putc byte, p)))) := by
  cases e with
  | putc t byte off =>
    dsimp only [step] at hx
    split at hx
    next hc =>
      obtain ⟨σ₁, hput, hs, hgiven⟩ := h.of_putc hc byte off
      rw [hx] at hput
      cases hput
      refine ⟨hs, ?_⟩
      rcases hgiven with ⟨hg, -⟩ | ⟨hg, -⟩
      · exact .inr ⟨t, byte, hg, .inl ⟨off, rfl⟩⟩
      · exact .inl hg
    next => cases hx
  | getc t =>
    dsimp only [step] at hx
    split at hx
    next hc =>
      obtain ⟨σ₁, hget, hs, hgiven⟩ := h.of_getc hc
      rw [hx] at hget
      cases hget
      exact ⟨hs, .inl hgiven⟩
    next => cases hx
  | resume t =>
    obtain ⟨hs, hgiven⟩ := h.of_resume hx
    refine ⟨hs, hgiven.imp_right ?_⟩
    rintro ⟨byte, p, hi, hg⟩
    exact ⟨t, byte, hg, .inr ⟨rfl, p, hi⟩⟩
  | flush =>
    obtain ⟨σ₁, hflush, hs, hgiven⟩ := h.of_flush
    rw [show σ.flush = .ok σ' from hx] at hflush
    cases hflush
    exact ⟨hs, .inl hgiven⟩
  | interrupt rx ready =>
    dsimp only [step] at hx
    split at hx
    next hmode =>
      obtain ⟨σ₁, hint, hs, hgiven, -⟩ := h.of_interrupt hmode rx ready
      rw [hx] at hint
      cases hint
      exact ⟨hs, .inl hgiven⟩
    next => cases hx
  | keyboard x =>
    obtain ⟨hs, hgiven, -⟩ := h.of_keyboard hx
    exact ⟨hs, .inl hgiven⟩
  | initQueue =>
    dsimp only [step] at hx
    split at hx
    next => cases hx
    next hmode =>
      cases hx
      obtain ⟨hs, hgiven⟩ := h.of_initQueue hmode
      exact ⟨hs, .inl hgiven⟩

/-- The device is sound in every reachable state. -/
theorem reach_sound (h : Reach (Steps step) boot σ) : Sound σ :=
  h.invariant sound_boot fun _ _ _ hs hx => (hs.of_step hx).1

/-! ## What can fail -/

/-- A thread that comes back fails in `wait`, or not at all. -/
theorem resume_error {τ : State} {f : Fault} (hs : Devices.Sound none τ)
    (hx : Devices.step (.resume t) τ = .error f) : f = .notEnabled ∨ f = .panic .waitCondition := by
  by_cases hw : (Devices.Event.resume t).stillWaits τ
  · rcases hs.step_ok hw with hno | ⟨τ', hok, -⟩
    · rw [hno] at hx
      cases hx
      exact .inl rfl
    · rw [hok] at hx
      cases hx
  · rw [step_panics hw] at hx
    cases hx
    exact .inr rfl

/-- Only a thread that need not wait any more can fail an assertion. -/
theorem Sound.step_error {e : Event} {a : Assertion} (h : Sound σ)
    (hx : step e σ = .error (.panic a)) : a = .waitCondition ∧ ∃ t, e = .resume t := by
  cases e with
  | putc t byte off =>
    dsimp only [step] at hx
    split at hx
    next hc =>
      obtain ⟨σ₁, hput, -⟩ := h.of_putc hc byte off
      rw [hput] at hx
      cases hx
    next => cases hx
  | getc t =>
    dsimp only [step] at hx
    split at hx
    next hc =>
      obtain ⟨σ₁, hget, -⟩ := h.of_getc hc
      rw [hget] at hx
      cases hx
    next => cases hx
  | resume t =>
    refine ⟨?_, t, rfl⟩
    dsimp only [step] at hx
    unfold resume at hx
    split at hx
    next =>
      rcases bind_eq_error.mp hx with hx | ⟨tx, -, hx⟩
      · rcases resume_error h.tx hx with hf | hf <;> cases hf
        rfl
      · cases hx
    next =>
      rcases bind_eq_error.mp hx with hx | ⟨inp, -, hx⟩
      · rcases resume_error h.inp hx with hf | hf <;> cases hf
        rfl
      · cases hx
  | flush =>
    obtain ⟨σ₁, hflush, -⟩ := h.of_flush
    rw [show σ.flush = .error (.panic a) from hx] at hflush
    cases hflush
  | interrupt rx ready =>
    dsimp only [step] at hx
    split at hx
    next hmode =>
      obtain ⟨σ₁, hint, -⟩ := h.of_interrupt hmode rx ready
      rw [hint] at hx
      cases hx
    next => cases hx
  | keyboard x =>
    dsimp only [step] at hx
    unfold Serial.keyboard at hx
    split at hx
    next => cases hx
    next => cases hx
    next c kbd hkey =>
      have hroom := keyboard_room hkey
      obtain ⟨σ₁, hput, -⟩ := Sound.inputPutc (h.toCore.of_scan hkey) h.idle hroom c
      rw [hput] at hx
      cases hx
  | initQueue =>
    dsimp only [step] at hx
    split at hx <;> cases hx

/-- `serial_flush` leaves nothing behind. -/
theorem Sound.flush_all (h : Sound σ) : ∃ σ', step .flush σ = .ok σ' ∧ σ'.sent = given σ := by
  obtain ⟨σ', hx, hs, hgiven⟩ := h.of_flush
  have hlen : (σ.tx.q.ring.contents intqBufsize).length ≤ intqBufsize.toNat := by
    have hcount := h.tx.inRange.count_lt
    have hnn := h.tx.inRange.count_nonneg
    unfold Ring.contents
    rw [List.length_map, List.length_range]
    omega
  have hempty := h.toCore.transmit_all _ hlen hx
  refine ⟨σ', hx, ?_⟩
  have hfifo := hs.tx.fifo
  rw [hs.tx.inRange.contents_eq_nil.mpr hempty, List.append_nil] at hfifo
  rw [hs.sent, ← hfifo, ← hgiven]
  rfl

/-- The port sends what `serial_putc` is given, each byte once and in order, whatever handlers run in
between and however threads sleep in the queue: what is sent, with what is queued, is what was given,
and `serial_flush` sends the rest. A byte is given by the call that has it, and one with interrupts off
does not sleep. In queue mode the port interrupts for as long as there are bytes to send, and for bytes
that come in exactly while there is room. Readers get the input in order, the keyboard's variables say
which keys are held, and only a thread that comes back in the queue can fail. -/
theorem serial_in_order (h : Reach (Steps step) boot σ) :
    given σ = σ.sent ++ σ.tx.q.ring.contents intqBufsize ∧
    (∃ σ', step .flush σ = .ok σ' ∧ σ'.sent = given σ) ∧
    (∀ e σ', step e σ = .ok σ' → given σ' = given σ ∨ ∃ t byte, given σ' = given σ ++ [byte] ∧
      ((∃ off, e = .putc t byte off) ∨
        (e = .resume t ∧ ∃ p, σ.tx.inside t = some (.putc byte, p)))) ∧
    (∀ t byte, σ.calls t = true → ∃ σ', step (.putc t byte true) σ = .ok σ' ∧
      given σ' = given σ ++ [byte] ∧ σ'.tx.inside t = none) ∧
    (σ.mode = .queue → (¬ intqEmpty σ.tx.q → σ.ier.testBit 1 = true) ∧
      (σ.ier.testBit 0 = true ↔ ¬ intqFull σ.inp.q)) ∧
    σ.inp.accepted = σ.inp.returned ++ σ.inp.q.ring.contents intqBufsize ∧
    Held σ.scans σ.kbd ∧
    ∀ e a, step e σ = .error (.panic a) → a = .waitCondition ∧ ∃ t, e = .resume t := by
  have hs := reach_sound h
  refine ⟨?_, hs.flush_all, fun e σ' hx => (hs.of_step hx).2, fun t byte hc => ?_,
    fun hmode => ⟨hs.xmit hmode, hs.recv hmode⟩, hs.inp.fifo, hs.held, fun e a hx => hs.step_error hx⟩
  · rw [hs.sent, List.append_assoc, ← hs.tx.fifo]
    rfl
  · obtain ⟨σ', hput, -, hcases⟩ := hs.of_putc hc byte true
    refine ⟨σ', ?_, ?_⟩
    · show (if σ.calls t then σ.putc t byte true else _) = _
      rw [if_pos hc, hput]
    · rcases hcases with hg | ⟨-, hoff, -⟩
      · exact hg
      · cases hoff

/-- One byte polled, one queued, Shift held. -/
theorem serial_in_order_two : ∃ σ, Reach (Steps step) boot σ ∧ σ.sent = [65] ∧
    given σ = σ.sent ++ σ.tx.q.ring.contents intqBufsize := by
  obtain ⟨σ, hσ, hp⟩ := exists_of_replay step (fun _ _ => true)
    [.putc 0 65 false, .initQueue, .putc 0 66 false, .keyboard (0x2a, 0)] boot
    (fun σ => σ.sent == [65]) (by decide +kernel)
  exact ⟨σ, hσ.reach, by simpa using hp, (serial_in_order hσ.reach).1⟩

end Serial

end Pintos.Devices
