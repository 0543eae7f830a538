import Pintos.Syscall.Handler

/-!
# What a call needs

With the locks left out a system call is a list of needs: checks that end the process when they
fail, ranges of user addresses that the kernel works through, and assertions. `needs` lists them in
the order in which the handler comes to them; the handler performs exactly this list.
-/

namespace Pintos.Syscall

open Pintos.Lib

variable {c : Call} {ns ms : List Need}

/-! ## Ranges -/

/-- How the handler of a page fault in the kernel ends, if it does not return. -/
def PageFault.ends (e : PageFault) : Option Leave :=
  if e.addr = 0 ∨ e.addr < codeBase then some .panic
  else if e.notPresent = false then some .exit
  else if e.frame = false ∧ (e.eviction.victim = true ∧ e.eviction.room = false ∨
      e.eviction.frame = false) then some .panic
  else if e.addr < physBase ∧ e.installed = true ∧ e.slot ≠ some false then none
  else some .panic

/-- The page fault that ends the work on a range, if one does. -/
def rangeEnds : Nat → Nat → List PageFault → Option Leave
  | _, _, [] => none
  | addr, stop, e :: rest =>
    if addr ≤ e.addr ∧ e.addr < stop then
      match e.ends with
      | none => rangeEnds e.addr stop rest
      | some l => some l
    else rangeEnds addr stop rest

/-- How far the kernel gets. -/
def rangeReached : Nat → Nat → List PageFault → Nat
  | _, stop, [] => stop
  | addr, stop, e :: rest =>
    if addr ≤ e.addr ∧ e.addr < stop then
      match e.ends with
      | none => rangeReached e.addr stop rest
      | some _ => e.addr + 1
    else rangeReached addr stop rest

/-! ## Needs -/

inductive Need where
  /-- The process ends unless it is so. -/
  | check (ok : Bool)
  /-- The kernel works through the addresses from `addr` to `stop`, and meets these faults. -/
  | range (addr stop : Nat) (faults : List PageFault)
  | assertion (holds : Bool)
  /-- The call ends here. -/
  | leave (l : Leave)

/-- How the call ends here, if it does. -/
def Need.ends : Need → Option Leave
  | .check ok => if ok then none else some .exit
  | .range addr stop faults => rangeEnds addr stop faults
  | .assertion holds => if holds then none else some .panic
  | .leave l => some l

/-- The needs that the call comes to. -/
def met : List Need → List Need
  | [] => []
  | n :: rest =>
    match n.ends with
    | none => n :: met rest
    | some _ => [n]

def Need.path : Need → Path Unit
  | .check ok => demand ok
  | .range addr stop faults => touch addr stop faults
  | .assertion holds => Syscall.assertion holds
  | .leave l => Trace.leave l

def run : List Need → Path Unit
  | [] => pure ()
  | n :: rest => do
    n.path
    run rest

/-- Needs are met from first to last. -/
@[simp] theorem run_append : run (ns ++ ms) = run ns >>= fun _ => run ms := by
  induction ns with
  | nil =>
    show run ms = _
    exact (Trace.pure_bind () fun _ => run ms).symm
  | cons n ns ih =>
    show (n.path >>= fun _ => run (ns ++ ms)) = (n.path >>= fun _ => run ns) >>= fun _ => run ms
    rw [ih, Trace.bind_assoc]

/-! ## The needs of the calls -/

/-- Argument `i` is read. -/
def Call.wordNeed (c : Call) (i : Nat) : Need :=
  .range (c.esp + 4 * i) (c.esp + 4 * i + 4) (c.faults (.word i))

def Call.workNeed (c : Call) (i n : Nat) : Need :=
  .range (c.arg i) (c.arg i + n) (c.faults .pointer)

def Call.pointerNeed (c : Call) (i : Nat) : Need := .check (c.addressCheck (c.arg i) .pointer)

def Call.argNeeds (c : Call) : Nat → List Need
  | 0 => []
  | n + 1 => c.argNeeds n ++ [.check (c.addressCheck (c.esp + 4 * (n + 1)) (.word (n + 1)))]

def mmapNeeds (upage : Nat) : List MmapPage → List Need
  | [] => []
  | pg :: rest =>
    [.assertion (pg.frame || !pg.eviction.victim || pg.eviction.room),
      .check (pg.frame || pg.eviction.frame), .check pg.whole,
      .assertion (decide (upage < physBase)), .check (!pg.mapped),
      .assertion (upage % 4096 == 0), .check pg.table] ++ mmapNeeds (upage + 4096) rest

/-- Past the checks of the arguments, of the call with this number. -/
def Call.ownNeeds (c : Call) : Nat → List Need
  | 0 => [.leave .halt]
  | 1 => [c.wordNeed 1, .assertion c.freeMap, .leave .exit]
  | 2 => [c.wordNeed 1, c.pointerNeed 1, c.workNeed 1 (c.text.length + 1), .assertion c.token]
  | 4 => [c.wordNeed 1, c.wordNeed 2, c.pointerNeed 1] ++
      if c.root && c.sector then
        .assertion (decide (c.arg 2 < 2 ^ 31)) ::
          if c.created then [c.workNeed 1 (c.text.length + 1)] else []
      else []
  | 5 => [c.wordNeed 1, c.pointerNeed 1] ++
      (if c.root then [c.workNeed 1 (nameRead c.text c.entries)] else []) ++
      [.assertion c.freeMap]
  | 6 => [c.wordNeed 1, c.pointerNeed 1] ++
      if c.root then [c.workNeed 1 (nameRead c.text c.entries)] else []
  | 7 | 11 => [c.wordNeed 1, .check c.elem.isSome]
  | 8 => [c.wordNeed 1, c.wordNeed 2, c.wordNeed 3,
      .check (c.arg 2 != 0 && decide (c.arg 2 < physBase))] ++
      (if c.addressCheck (c.arg 2) .pointer then []
        else [.check (decide (c.esp - 32 ≤ c.arg 2)), .assertion c.frame, .assertion c.table]) ++
      match c.elem with
      | none => [.check false]
      | some e => if c.arg 1 = 0 then [] else [c.workNeed 2 e.moved]
  | 9 => [c.wordNeed 1, c.wordNeed 2, c.wordNeed 3, c.pointerNeed 2,
      .check (c.elem.isSome || c.arg 1 == 1)] ++
      if c.arg 1 = 1 then [c.workNeed 2 (c.arg 3)]
      else if c.arg 1 = 0 then [.check false]
      else
        match c.elem with
        | none => [.assertion false]
        | some e => if e.denyWrite then [.check false] else [c.workNeed 2 e.moved]
  | 10 => [c.wordNeed 1, c.wordNeed 2, .check c.elem.isSome,
      .assertion (decide (c.arg 2 < 2 ^ 31))]
  | 12 => [c.wordNeed 1, .check c.elem.isSome, .assertion c.freeMap]
  | 13 => [c.wordNeed 1, .check c.elem.isSome, .check c.reopened] ++ mmapNeeds (c.esp + 8) c.pages
  | 3 | 14 => [c.wordNeed 1]
  | _ => []

/-- All the needs of a call. -/
def Call.needs (c : Call) : List Need :=
  [.check (c.addressCheck c.esp (.word 0)), c.wordNeed 0,
    .check (decide (0 ≤ c.number ∧ c.number ≤ 14))] ++
  c.argNeeds (argCounts.getD c.number.toNat 0) ++ c.ownNeeds c.number.toNat

/-! ## The handler performs them -/

def Act.isAccess : Act → Bool
  | .access _ _ => true
  | _ => false

/-- A path without its locks. -/
abbrev user {α : Type} (x : Path α) : Path α := Trace.filter Act.isAccess x

/-- What concerns the user of two steps is what concerns it of each. -/
theorem user_bind {α β : Type} (x : Path α) (f : α → Path β) :
    user (x >>= f) = user x >>= fun a => user (f a) := Trace.filter_bind x f

@[simp] theorem user_down (l : Lock) : user (Trace.act (.down l)) = pure () :=
  Trace.filter_act rfl

@[simp] theorem user_up (l : Lock) : user (Trace.act (.up l)) = pure () := Trace.filter_act rfl

@[simp] theorem demand_true : demand true = pure () := rfl

@[simp] theorem assertion_true : assertion true = pure () := rfl

@[simp] theorem demand_false : demand false = Trace.leave .exit := rfl

@[simp] theorem assertion_false : assertion false = Trace.leave .panic := rfl

@[simp] theorem user_demand (ok : Bool) : user (demand ok) = demand ok := by
  cases ok <;> rfl

/-- A failed demand that lets go of the lock first ends the process all the same. -/
@[simp] theorem user_demandUp (ok : Bool) : user (demandUp ok) = demand ok := by
  cases ok <;> rfl

@[simp] theorem user_assertion (holds : Bool) : user (assertion holds) = assertion holds := by
  cases holds <;> rfl

/-- The checks of the arguments are their needs. -/
theorem checkArgs_eq (c : Call) (n : Nat) : c.checkArgs n = run (c.argNeeds n) := by
  induction n with
  | zero => rfl
  | succ n ih =>
    show (c.checkArgs n >>= fun _ => demand _) = run (c.argNeeds n ++ [_])
    rw [run_append, ih]
    show _ = run (c.argNeeds n) >>= fun _ => (demand _ >>= fun _ => pure ())
    rw [Trace.bind_unit]

@[simp] theorem run_nil : run [] = pure () := rfl

@[simp] theorem run_cons (n : Need) (ns : List Need) :
    run (n :: ns) = n.path >>= fun _ => run ns := rfl

@[simp] theorem path_check (ok : Bool) : (Need.check ok).path = demand ok := rfl

@[simp] theorem path_assertion (holds : Bool) :
    (Need.assertion holds).path = assertion holds := rfl

@[simp] theorem path_leave (l : Leave) : (Need.leave l).path = Trace.leave l := rfl

@[simp] theorem path_wordNeed (c : Call) (i : Nat) : (c.wordNeed i).path = c.word i := rfl

@[simp] theorem path_workNeed (c : Call) (i n : Nat) : (c.workNeed i n).path = c.work i n := rfl

@[simp] theorem path_pointerNeed (c : Call) (i : Nat) :
    (c.pointerNeed i).path = demand (c.addressCheck (c.arg i) .pointer) := rfl

/-- An eviction can only fail for want of room. -/
@[simp] theorem user_evictFrame (e : Eviction) : user (evictFrame e) =
    (assertion (!e.victim || e.room)) >>= fun _ => pure e.victim := by
  unfold evictFrame
  cases e.victim <;> cases e.room <;> rfl

/-- `mmap` asks for its pages what their needs say. -/
theorem user_mmapPages (upage : Nat) (pages : List MmapPage) :
    user (mmapPages upage pages) = user (run (mmapNeeds upage pages)) := by
  induction pages generalizing upage with
  | nil => rfl
  | cons pg rest ih =>
    simp only [mmapPages, mmapPage, mmapNeeds]
    cases pg.frame with
    | true => simp [ih]
    | false => simp [ih]

/-- Every call asks, after its arguments, what its needs say. -/
theorem user_dispatch (c : Call) (n : Nat) : user (c.dispatch n) = user (run (c.ownNeeds n)) := by
  unfold Call.dispatch Call.ownNeeds
  split
  · rfl
  · simp [Call.sysExit]
  · simp [Call.sysExec]
  · simp
  · simp only [Call.sysCreate, Call.filesysCreate]
    cases c.root && c.sector with
    | false => simp
    | true =>
      cases c.created with
      | false => simp
      | true => simp
  · simp only [Call.sysRemove, Call.lookup]
    cases c.root with
    | false => simp
    | true => simp
  · simp only [Call.sysOpen, Call.lookup]
    cases c.root with
    | false => simp
    | true => simp
  · simp [Call.sysAsk]
  · simp only [Call.sysRead]
    cases c.addressCheck (c.arg 2) .pointer with
    | false =>
      cases c.elem with
      | none => simp
      | some e =>
        by_cases hfd : c.arg 1 = 0
        · simp [hfd]
        · simp [hfd]
    | true =>
      cases c.elem with
      | none => simp
      | some e =>
        by_cases hfd : c.arg 1 = 0
        · simp [hfd]
        · simp [hfd]
  · simp only [Call.sysWrite, Call.write]
    by_cases hout : c.arg 1 = 1
    · simp [hout]
    · by_cases hin : c.arg 1 = 0
      · simp [hin]
      · cases c.elem with
        | none => simp [hout, hin]
        | some e =>
          cases he : e.denyWrite with
          | false => simp [hout, hin, he]
          | true => simp [hout, hin, he]
  · simp [Call.sysSeek]
  · simp [Call.sysAsk]
  · simp [Call.sysClose]
  · simp [Call.sysMmap, user_mmapPages]
  · simp [Call.sysMunmap]
  · simp

/-- The handler is its needs, and locks. -/
theorem user_syscallHandler (c : Call) : user (syscallHandler c) = user (run c.needs) := by
  simp [syscallHandler, Call.needs, checkArgs_eq, user_dispatch]

/-! ## What becomes of a range -/

/-- A path that goes on, or ends, and does nothing else. -/
def ended : Option Leave → Path Unit
  | none => pure ()
  | some l => Trace.leave l

/-- A frame is had, or the kernel panics. -/
theorem user_getFrame (e : PageFault) : user (getFrame e) =
    ended (if e.frame = false ∧ (e.eviction.victim = true ∧ e.eviction.room = false ∨
      e.eviction.frame = false) then some .panic else none) := by
  unfold getFrame evictFrame
  cases e.frame
  · cases e.eviction.victim <;> cases e.eviction.room <;> cases e.eviction.frame <;> rfl
  · rfl

/-- A page is brought in, or the kernel panics. -/
theorem user_bringIn (e : PageFault) : user (bringIn e) =
    ended (if e.frame = false ∧ (e.eviction.victim = true ∧ e.eviction.room = false ∨
        e.eviction.frame = false) then some .panic
      else if e.addr < physBase ∧ e.installed = true ∧ e.slot ≠ some false then none
      else some .panic) := by
  unfold bringIn
  rw [user_bind, user_getFrame]
  split
  · rfl
  · show (pure () : Path Unit) >>= _ = _
    rw [Trace.pure_bind]
    by_cases hin : e.addr < physBase ∧ e.installed = true
    · rw [if_pos hin]
      cases hslot : e.slot with
      | none =>
        rw [if_pos ⟨hin.1, hin.2, nofun⟩]
        rfl
      | some onDevice =>
        cases onDevice with
        | false =>
          rw [if_neg fun hc => hc.2.2 rfl]
          rfl
        | true =>
          rw [if_pos ⟨hin.1, hin.2, nofun⟩]
          rfl
    · rw [if_neg hin, if_neg fun hc => hin ⟨hc.1, hc.2.1⟩]
      rfl

/-- A fault in the kernel ends as its outcome says. -/
theorem user_pageFault (e : PageFault) : user (pageFault false e) = ended e.ends := by
  unfold pageFault PageFault.ends kill
  rw [user_bind, user_down, Trace.pure_bind]
  simp only [Bool.false_eq_true, and_false, if_false, and_true]
  by_cases hlow : e.addr = 0 ∨ e.addr < codeBase
  · rw [if_pos hlow]
    rcases hlow with hzero | hlow
    · rw [if_pos hzero]
      rfl
    · rw [if_pos hlow]
      split <;> rfl
  · obtain ⟨hzero, hlow'⟩ := not_or.mp hlow
    rw [if_neg hzero, if_neg hlow', if_neg hlow]
    by_cases hthere : e.notPresent = false
    · rw [if_pos hthere, if_pos hthere]
      rfl
    · rw [if_neg hthere, if_neg hthere, if_neg hthere, user_bind, user_up, Trace.bind_unit,
        user_bringIn]

/-- Touching a range ends with the first fault that ends it. -/
theorem user_touch (addr stop : Nat) (faults : List PageFault) :
    (user (touch addr stop faults)).result = (ended (rangeEnds addr stop faults)).result := by
  induction faults generalizing addr with
  | nil => rfl
  | cons e rest ih =>
    unfold touch rangeEnds
    split
    · rw [user_bind, user_bind, user_pageFault]
      cases e.ends with
      | some l => rfl
      | none =>
        show (user (touch e.addr stop rest)).result = _
        exact ih e.addr
    · exact ih addr

/-- The first address of a range is reached. -/
theorem lt_rangeReached {addr stop : Nat} (faults : List PageFault) (h : addr < stop) :
    addr < rangeReached addr stop faults := by
  induction faults generalizing addr with
  | nil => exact h
  | cons e rest ih =>
    unfold rangeReached
    split
    next hin =>
      cases e.ends with
      | none => exact Nat.lt_of_le_of_lt hin.1 (ih hin.2)
      | some l => exact Nat.lt_succ_of_le hin.1
    · exact ih h

/-- Nothing the kernel works through goes past the stop, or the fault that ends it. -/
theorem touch_reached (addr stop : Nat) (faults : List PageFault) {k : Nat} :
    (∀ a b, .access a b ∈ (user (touch addr stop faults)).acts → b ≤ k) ↔
      rangeReached addr stop faults ≤ k := by
  induction faults generalizing addr with
  | nil =>
    show (∀ a b, Act.access a b ∈ [Act.access addr stop] → b ≤ k) ↔ stop ≤ k
    simp
  | cons e rest ih =>
    unfold touch rangeReached
    split
    next hin =>
      rw [user_bind, user_bind, user_pageFault]
      cases e.ends with
      | some l =>
        show (∀ a b, Act.access a b ∈ [Act.access addr (e.addr + 1)] → b ≤ k) ↔ e.addr + 1 ≤ k
        simp
      | none =>
        show (∀ a b, Act.access a b ∈ Act.access addr (e.addr + 1) ::
          (user (touch e.addr stop rest)).acts → b ≤ k) ↔ rangeReached e.addr stop rest ≤ k
        rw [← ih e.addr]
        constructor
        · exact fun h a b hab => h a b (List.mem_cons_of_mem _ hab)
        · intro h a b hab
          rcases List.mem_cons.mp hab with heq | hab
          · cases heq
            exact Nat.le_trans (lt_rangeReached rest hin.2) ((ih e.addr).mp h)
          · exact h a b hab
    · exact ih addr

/-! ## What becomes of the needs -/

/-- The user addresses of it that the kernel gets to are below `k`. -/
def Need.Below (k : Nat) : Need → Prop
  | .range addr stop faults => rangeReached addr stop faults ≤ k
  | _ => True

/-- A need ends as it says. -/
theorem user_path_result (n : Need) : (user n.path).result = (ended n.ends).result := by
  cases n with
  | check ok => cases ok <;> rfl
  | range addr stop faults => exact user_touch addr stop faults
  | assertion holds => cases holds <;> rfl
  | leave l => rfl

/-- A need accesses memory below what it says. -/
theorem user_path_below (n : Need) {k : Nat} :
    (∀ a b, .access a b ∈ (user n.path).acts → b ≤ k) ↔ n.Below k := by
  cases n with
  | check ok => cases ok <;> exact ⟨fun _ => trivial, fun _ => nofun⟩
  | range addr stop faults => exact touch_reached addr stop faults
  | assertion holds => cases holds <;> exact ⟨fun _ => trivial, fun _ => nofun⟩
  | leave l => exact ⟨fun _ => trivial, fun _ => nofun⟩

/-- A call that ends does so at the last need it comes to. -/
theorem run_result (ns : List Need) (l : Leave) :
    (user (run ns)).result = .error l ↔ ∃ n ∈ met ns, n.ends = some l := by
  induction ns with
  | nil => exact ⟨nofun, fun ⟨_, h, _⟩ => nomatch h⟩
  | cons n rest ih =>
    have hpath := user_path_result n
    rw [run_cons, user_bind]
    unfold met
    cases hn : n.ends with
    | some l' =>
      rw [hn] at hpath
      have hresult : (user n.path >>= fun _ => user (run rest)).result = .error l' := by
        show (Trace.bind (user n.path) _).result = _
        unfold Trace.bind
        rw [hpath]
        rfl
      rw [hresult]
      simp [hn]
    | none =>
      rw [hn] at hpath
      have hresult : (user n.path >>= fun _ => user (run rest)).result =
          (user (run rest)).result := by
        show (Trace.bind (user n.path) _).result = _
        unfold Trace.bind
        rw [hpath]
        rfl
      rw [hresult, ih]
      simp [hn]

/-- The accesses of a list of needs are those of the needs that are met. -/
theorem run_below (ns : List Need) {k : Nat} :
    (∀ a b, .access a b ∈ (user (run ns)).acts → b ≤ k) ↔ ∀ n ∈ met ns, n.Below k := by
  induction ns with
  | nil => exact ⟨fun _ => nofun, fun _ => nofun⟩
  | cons n rest ih =>
    have hpath := user_path_result n
    have hbelow := user_path_below n (k := k)
    rw [run_cons, user_bind]
    unfold met
    cases hn : n.ends with
    | some l' =>
      rw [hn] at hpath
      have hacts : (user n.path >>= fun _ => user (run rest)).acts = (user n.path).acts := by
        show (Trace.bind (user n.path) _).acts = _
        unfold Trace.bind
        rw [hpath]
        rfl
      rw [hacts, hbelow]
      simp
    | none =>
      rw [hn] at hpath
      have hacts : (user n.path >>= fun _ => user (run rest)).acts =
          (user n.path).acts ++ (user (run rest)).acts := by
        show (Trace.bind (user n.path) _).acts = _
        unfold Trace.bind
        rw [hpath]
        rfl
      rw [hacts]
      simp only [List.mem_append, List.mem_cons, forall_eq_or_imp, ← hbelow, ← ih]
      constructor
      · exact fun h => ⟨fun a b hab => h a b (.inl hab), fun a b hab => h a b (.inr hab)⟩
      · rintro ⟨h₁, h₂⟩ a b (hab | hab)
        · exact h₁ a b hab
        · exact h₂ a b hab

end Pintos.Syscall
