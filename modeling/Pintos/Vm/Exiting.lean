import Pintos.Vm.Slots

/-!
# Exit, one statement at a time

`process_exit` with interrupts on: between two of its statements other processes run. The state has
the process that is exiting and the statement it is at. `view` is the memory as it will be when the
directory and the entries of that process are gone. `Orderly` says that `Tracked` holds of it, and
what is known of the exiting process at each statement; here it is shown that the other processes
keep it, as long as they free no entry that the loop over `frame_table` is about to read.
-/

namespace Pintos.Vm

open Pintos.Lib

variable {s s₁ s' : Memory} {p x : ProcRef} {u : UPage} {f : Frame}

/-! ## The statements of `process_exit` -/

/-- Where a process is in `process_exit`. -/
inductive Phase where
  /-- `pd` has been read. -/
  | leaving (pd : Option (List Mapping))
  /-- In `pagedir_destroy`, with these pages to go. -/
  | destroying (rest : List Mapping)
  /-- At the test of the loop over `frame_table`; none is its end. -/
  | visiting (iter : Option FrameEntry)
  /-- The element at `iter` has been removed. Its `next` is as it was then. -/
  | unlinked (next : Option FrameEntry)
  /-- The element at `iter` belongs to another process. -/
  | passed (iter : FrameEntry)
  /-- The next element to be read has been freed by `evict_frame`; `free` has filled its block with
  `0xcc`. -/
  | dangling
  deriving DecidableEq

structure Exits where
  memory : Memory
  /-- The process in `process_exit`. -/
  exiting : Option (ProcRef × Phase)

/-- The element of the list after `e`. -/
def nextElem (e : FrameEntry) (l : List FrameEntry) : Option FrameEntry :=
  (l.dropWhile (· != e)).tail.head?

/-- The next statement of `process_exit`, by `x`. -/
def exitStep (x : ProcRef) (s : Memory) : Phase → Except Fault (Memory × Option Phase)
  | .leaving none => .ok (s, some (.visiting s.frameTable.head?))
  | .leaving (some pd) =>
    .ok ({ s with pagedir := Function.update s.pagedir x none }, some (.destroying pd))
  | .destroying [] => .ok (s, some (.visiting s.frameTable.head?))
  | .destroying (m :: rest) => do
    let s ← pallocFreePage m.frame s
    .ok (s, some (.destroying rest))
  | .visiting none => .ok (s, none)
  | .visiting (some e) =>
    if e.owner = x then
      .ok ({ s with frameTable := s.frameTable.erase e },
        some (.unlinked (nextElem e s.frameTable)))
    else .ok (s, some (.passed e))
  | .unlinked next => .ok (s, some (.visiting next))
  | .passed e => .ok (s, some (.visiting (nextElem e s.frameTable)))
  -- the pointer read is `0xcccccccc`
  | .dangling => .error .panic

/-- The element of `frame_table` that the loop reads next. -/
def Phase.reads : Phase → Option FrameEntry
  | .visiting iter | .unlinked iter => iter
  | .passed e => some e
  | _ => none

/-- The page of `v` has been evicted, and the entry freed. -/
def Phase.cut (v : Option FrameEntry) : Phase → Phase
  | .visiting (some e) => if v = some e then .dangling else .visiting (some e)
  | .unlinked (some e) => if v = some e then .dangling else .unlinked (some e)
  | .passed e => if v = some e then .dangling else .passed e
  | ph => ph

/-- The process that runs. -/
def Event.caller : Event → Option ProcRef
  | .start p | .loadPage p _ _ _ _ | .stackPage p _ | .stackCopy p | .pageFault p _ _ | .exit p
  | .store p _ _ _ => some p
  | .tick => none

inductive ExitsEvent where
  /-- An operation of another process. -/
  | op (e : Event)
  /-- A statement of `process_exit`. -/
  | exit (p : ProcRef)
  /-- The block of a freed element has been given to `frame_table_insert` before the loop reads it,
  and the loop goes on from there, at an element of the list or at its end. -/
  | reused (p : ProcRef) (iter : Option FrameEntry)

/-- An operation that a process may begin: it is not exiting, and does not exit. -/
def Event.free (e : Event) (exiting : Option (ProcRef × Phase)) : Bool :=
  match e, exiting with
  | .exit _, _ => false
  | _, none => true
  | e, some (x, _) => e.caller != some x

def exitsStep (ev : ExitsEvent) (w : Exits) : Except Fault Exits :=
  match ev with
  | .op e =>
    if e.free w.exiting then do
      let s ← step e w.memory
      .ok { memory := s, exiting := w.exiting.map fun (x, ph) => (x, ph.cut (e.evicts w.memory)) }
    else .error .notEnabled
  | .exit p =>
    match w.exiting with
    | none => .ok { w with exiting := some (p, .leaving (w.memory.pagedir p)) }
    | some (x, ph) =>
      if p = x then do
        let (s, ph) ← exitStep x w.memory ph
        .ok { memory := s, exiting := ph.map (x, ·) }
      else .error .notEnabled
  | .reused p iter =>
    if w.exiting = some (p, .dangling) ∧ ∀ e ∈ iter, e ∈ w.memory.frameTable then
      .ok { w with exiting := some (p, .visiting iter) }
    else .error .notEnabled

def Exits.start (poolSize swapSize : Nat) : Exits where
  memory := initial poolSize swapSize
  exiting := none

/-! ## Calls of `palloc_free_page` -/

/-- A call of `palloc_free_page`, and the memory at the call. -/
structure FreeCall where
  caller : ProcRef
  frame : Frame
  memory : Memory

/-- The page is allocated, and does not back a mapping of another process. -/
structure FreeCall.Proper (c : FreeCall) : Prop where
  used : c.memory.used c.frame = true
  unshared : ∀ q ≠ c.caller, ∀ u, ¬ c.memory.Maps q u c.frame

/-- `evict_frame` up to its call of `palloc_free_page`: the entry it has picked. -/
def evictUpToFree (p : ProcRef) (s : Memory) : Except Fault (Option FrameEntry × Memory) := do
  takeSwapLock p s
  match s.victim with
  | none => .ok (none, { s with swapLock := some p })
  | some e => do
    let aux := s.sup e.aux
    let s ← pagedirClearPage p aux.uservaddr s
    let index := if aux.blockIndex = -1 then s.currIndex else aux.blockIndex
    let s := { s with sup := Function.update s.sup e.aux { aux with blockIndex := index } }
    let s ← writeFrameToBlock e.frame index s
    .ok (some e, s)

/-- The rest of `evict_frame`. -/
def evictFromFree : Option FrameEntry × Memory → Except Fault (Bool × Memory)
  | (none, s) => .ok (false, s)
  | (some e, s) => do
    let s ← pallocFreePage e.frame s
    .ok (true, { s with frameTable := s.frameTable.erase e })

theorem evictFrame_eq (p : ProcRef) (s : Memory) :
    evictFrame p s = evictUpToFree p s >>= evictFromFree := by
  unfold evictFrame evictUpToFree
  rw [bind_assoc]
  congr 1
  funext _
  cases s.victim with
  | none => rfl
  | some e =>
    simp only [bind_assoc]
    rfl

/-- The call in `evict_frame`, which comes between its two parts (`evictFrame_eq`). -/
def evictFrees (p : ProcRef) (s : Memory) : List FreeCall :=
  match evictUpToFree p s with
  | .ok (some e, s) => [⟨p, e.frame, s⟩]
  | _ => []

/-- The call in an iteration of `load_segment` that has a page. -/
def loadFrees (p : ProcRef) (u : UPage) (content : Option Content) (writable table : Bool)
    (f : Frame) (s : Memory) : List FreeCall :=
  match content with
  | none => [⟨p, f, s⟩]
  | some c =>
    match installPage p u f writable table { s with mem := Function.update s.mem f c } with
    | .ok (false, s) => [⟨p, f, s⟩]
    | _ => []

/-- The call in `setup_stack` after `install_page`. -/
def stackFrees (p : ProcRef) (table : Bool) (f : Frame) (s : Memory) : List FreeCall :=
  match installPage p (physBase - 1) f true table s with
  | .ok (false, s) => [⟨p, f, s⟩]
  | _ => []

/-- The calls of an operation that takes a page, with those that follow once it has it. -/
def takeFrees (p : ProcRef) (zero : Bool) (s : Memory) (frees : Frame → Memory → List FreeCall) :
    List FreeCall :=
  match pallocGetPage zero s with
  | some (f, s) => frees f s
  | none => evictFrees p s ++
    match evictFrame p s with
    | .ok (true, s) =>
      match pallocGetPage zero s with
      | some (f, s) => frees f s
      | none => []
    | _ => []

/-- The calls of an operation. -/
def Event.frees (s : Memory) : Event → List FreeCall
  | .loadPage p u content writable table =>
    takeFrees p false s (loadFrees p u content writable table)
  | .stackPage p table => takeFrees p true s (stackFrees p table)
  | .stackCopy p => if (s.pagedir p).isSome then takeFrees p false s fun _ _ => [] else []
  | .pageFault p u _ =>
    if codeBase ≤ u ∧ s.present p u = false then takeFrees p true s fun _ _ => [] else []
  | _ => []

/-- The calls of a step. -/
def ExitsEvent.frees (w : Exits) : ExitsEvent → List FreeCall
  | .op e => if e.free w.exiting then e.frees w.memory else []
  | .exit p =>
    match w.exiting with
    | some (x, .destroying (m :: _)) => if p = x then [⟨x, m.frame, w.memory⟩] else []
    | _ => []
  | .reused _ _ => []

/-! ## The view -/

/-- The part of its directory that a process in `process_exit` still has to destroy, if it has given
it up. -/
def Phase.left : Phase → Option (Option (List Mapping))
  | .leaving _ => none
  | .destroying rest => some (some rest)
  | _ => some none

/-- For each process whether it has given up its directory, and what is left of it. -/
def Exits.gone (w : Exits) : ProcRef → Option (Option (List Mapping)) :=
  match w.exiting with
  | none => fun _ => none
  | some (x, ph) => fun q => if q = x then ph.left else none

/-- The memory without the entries of the processes that are gone, and with what is left of their
directories. -/
def Memory.view (gone : ProcRef → Option (Option (List Mapping))) (s : Memory) : Memory :=
  { s with
    pagedir := fun q => (gone q).getD (s.pagedir q)
    frameTable := s.frameTable.filter fun e => (gone e.owner).isNone }

def Exits.view (w : Exits) : Memory := w.memory.view w.gone

variable {gone : ProcRef → Option (Option (List Mapping))}

/-- What is kept of a process on its way out does not mind what another one installs. -/
theorem view_update {pd : ProcRef → Option (List Mapping)} {l : Option (List Mapping)}
    (hp : gone p = none) : (fun q => (gone q).getD (Function.update pd p l q)) =
      Function.update (fun q => (gone q).getD (pd q)) p l := by
  funext q
  by_cases hq : q = p
  · subst hq
    rw [Function.update_self, Function.update_self, hp]
    rfl
  · rw [Function.update_of_ne hq, Function.update_of_ne hq]

/-- A process that is not on its way out has the page directory it has. -/
theorem view_pagedir (hp : gone p = none) : (s.view gone).pagedir p = s.pagedir p := by
  show (gone p).getD _ = _
  rw [hp]
  rfl

/-- A new entry of such a process is in the view too. -/
theorem view_append {l : List FrameEntry} {e : FrameEntry} (he : gone e.owner = none) :
    (l ++ [e]).filter (fun e => (gone e.owner).isNone) =
      l.filter (fun e => (gone e.owner).isNone) ++ [e] := by
  rw [List.filter_append]
  simp [he]

/-- An allocation does not look at the tables. -/
theorem pallocGetPage_view {zero : Bool} (h : pallocGetPage zero s = some (f, s')) :
    pallocGetPage zero (s.view gone) = some (f, s'.view gone) := by
  unfold pallocGetPage at h ⊢
  split at h
  next => cases h
  next f' hf =>
    cases h
    have hf' : (List.range (s.view gone).poolSize).find? (fun f => !(s.view gone).used f) = some f :=
      hf
    rw [hf']
    rfl

/-- Giving a frame back does not look at the tables. -/
theorem pallocFreePage_view (h : pallocFreePage f s = .ok s') :
    pallocFreePage f (s.view gone) = .ok (s'.view gone) := by
  obtain ⟨hused, rfl⟩ := pallocFreePage_eq_ok h
  exact if_pos hused

/-- A process that stays installs its page in the view as well. -/
theorem installPage_view {writable table ok : Bool} (hp : gone p = none)
    (h : installPage p u f writable table s = .ok (ok, s')) :
    installPage p u f writable table (s.view gone) = .ok (ok, s'.view gone) := by
  unfold installPage at h ⊢
  rw [view_pagedir hp]
  split at h
  · cases h
  · split at h
    next hu =>
      rw [if_pos hu]
      split at h
      next hany =>
        cases h
        exact if_pos hany
      next hany =>
        rw [if_neg hany]
        split at h
        next htable =>
          cases h
          rw [if_pos htable, Memory.view, Memory.view, view_update hp]
        next htable =>
          cases h
          exact if_neg htable
    next => cases h

/-- The entries of a process that stays go into both tables of the view. -/
theorem inserts_view (hp : gone p = none) :
    frameTableInsert f p s.nextSup (supPageTableInsert p u (-1) (s.view gone)).2 =
      (frameTableInsert f p s.nextSup (supPageTableInsert p u (-1) s).2).view gone := by
  simp only [frameTableInsert, Memory.view, supPageTableInsert, view_append (e := ⟨f, p, s.nextSup⟩) hp]

/-- A process that stays loads a page of its segments in the view as well. -/
theorem loadInto_view {content : Option Content} {writable table ok : Bool} (hp : gone p = none)
    (h : loadInto p u f content writable table s = .ok (ok, s')) :
    loadInto p u f content writable table (s.view gone) = .ok (ok, s'.view gone) := by
  unfold loadInto at h ⊢
  cases content with
  | none =>
    obtain ⟨s₁, h₁, h⟩ := bind_eq_ok.mp h
    cases h
    exact bind_eq_ok.mpr ⟨_, pallocFreePage_view h₁, rfl⟩
  | some c =>
    obtain ⟨⟨installed, s₁⟩, h₁, h⟩ := bind_eq_ok.mp h
    refine bind_eq_ok.mpr ⟨_, installPage_view hp h₁, ?_⟩
    cases installed with
    | true =>
      cases h
      exact congrArg (fun t => Except.ok (true, t)) (inserts_view hp)
    | false =>
      obtain ⟨s₂, h₂, h⟩ := bind_eq_ok.mp h
      cases h
      exact bind_eq_ok.mpr ⟨_, pallocFreePage_view h₂, rfl⟩

/-- A process that stays installs its stack in the view as well. -/
theorem installStack_view {table ok : Bool} (hp : gone p = none)
    (h : installStack p f table s = .ok (ok, s')) :
    installStack p f table (s.view gone) = .ok (ok, s'.view gone) := by
  unfold installStack at h ⊢
  obtain ⟨⟨installed, s₁⟩, h₁, h⟩ := bind_eq_ok.mp h
  refine bind_eq_ok.mpr ⟨_, installPage_view hp h₁, ?_⟩
  cases installed with
  | true =>
    cases h
    rfl
  | false =>
    obtain ⟨s₂, h₂, h⟩ := bind_eq_ok.mp h
    cases h
    exact bind_eq_ok.mpr ⟨_, pallocFreePage_view h₂, rfl⟩

/-- Reading a page back from its slot looks at the frame's own entry alone. -/
theorem loadFrameFromBlock_view {index : Int} (h : loadFrameFromBlock p f index s = .ok s') :
    loadFrameFromBlock p f index (s.view gone) = .ok (s'.view gone) := by
  unfold loadFrameFromBlock at h
  obtain ⟨_, hlock, h⟩ := bind_eq_ok.mp h
  refine bind_eq_ok.mpr ⟨(), hlock, ?_⟩
  split at h
  next hdev =>
    cases h
    exact if_pos hdev
  next => cases h

/-- A fault of a process that stays goes through in the view as it does in memory. -/
theorem faultInto_view {table : Bool} (hp : gone p = none)
    (h : faultInto p u f table s = .ok s') :
    faultInto p u f table (s.view gone) = .ok (s'.view gone) := by
  have hfind : (s.view gone).findPage p u = s.findPage p u := findPage_congr rfl fun _ => rfl
  unfold faultInto at h ⊢
  rw [hfind]
  obtain ⟨⟨installed, s₁⟩, h₁, h⟩ := bind_eq_ok.mp h
  refine bind_eq_ok.mpr ⟨_, installPage_view hp h₁, ?_⟩
  cases installed with
  | false => cases h
  | true =>
    simp only [if_true] at h ⊢
    cases hr : s.findPage p u with
    | none =>
      rw [hr] at h
      cases h
      exact congrArg Except.ok (inserts_view hp)
    | some r =>
      rw [hr] at h
      obtain ⟨s₂, h₂, h⟩ := bind_eq_ok.mp h
      cases h
      refine bind_eq_ok.mpr ⟨_, loadFrameFromBlock_view h₂, ?_⟩
      simp only [frameTableInsert, Memory.view, view_append (e := ⟨f, p, r⟩) hp]

/-! ## What an operation changes -/

/-- No directory has two entries for a page. -/
def Memory.OnePer (s : Memory) : Prop := ∀ p pd, s.pagedir p = some pd → (pd.map (·.upage)).Nodup

/-- What an operation of `p` does to the directories and to `frame_table`, evictions apart. -/
structure Acts (p : ProcRef) (s s' : Memory) : Prop where
  others : ∀ q ≠ p, s'.pagedir q = s.pagedir q
  added : ∃ l, s'.frameTable = s.frameTable ++ l ∧ ∀ e ∈ l, e.owner = p
  onePer : s.OnePer → s'.OnePer

/-- A step that leaves page directories and frame table alone acts for anyone. -/
theorem Acts.of_eq (hpd : s'.pagedir = s.pagedir) (hft : s'.frameTable = s.frameTable) :
    Acts p s s' where
  others := fun q _ => congrFun hpd q
  added := ⟨[], by rw [hft, List.append_nil], fun _ he => by cases he⟩
  onePer := by
    intro h q pd hq
    rw [hpd] at hq
    exact h q pd hq

theorem Acts.refl (s : Memory) : Acts p s s := .of_eq rfl rfl

/-- What a process does in two steps, it does. -/
theorem Acts.trans (h : Acts p s s₁) (h' : Acts p s₁ s') : Acts p s s' where
  others := fun q hq => (h'.others q hq).trans (h.others q hq)
  added := by
    obtain ⟨l, hl, hown⟩ := h.added
    obtain ⟨l', hl', hown'⟩ := h'.added
    refine ⟨l ++ l', by rw [hl', hl, List.append_assoc], fun e he => ?_⟩
    rcases List.mem_append.mp he with he | he
    · exact hown e he
    · exact hown' e he
  onePer := fun ho => h'.onePer (h.onePer ho)

/-- The directory of `p` is another one. -/
theorem Acts.of_update {pd : List Mapping} (hs : s'.pagedir = Function.update s.pagedir p (some pd))
    (hft : s'.frameTable = s.frameTable) (hone : s.OnePer → (pd.map (·.upage)).Nodup) :
    Acts p s s' where
  others := by
    intro q hq
    rw [hs, Function.update_of_ne hq]
  added := ⟨[], by rw [hft, List.append_nil], fun _ he => by cases he⟩
  onePer := by
    intro h q pd' hq
    rw [hs, Function.update_apply] at hq
    split at hq
    · cases hq
      exact hone h
    · exact h q pd' hq

/-- A process may add an entry of its own. -/
theorem Acts.frameInsert {aux : SupRef} (h : Acts p s s') :
    Acts p s (frameTableInsert f p aux s') := by
  refine h.trans ⟨fun _ _ => rfl, ⟨[⟨f, p, aux⟩], rfl, fun e he => ?_⟩, id⟩
  rw [List.mem_singleton.mp he]

/-- An allocation acts for anyone. -/
theorem acts_palloc {zero : Bool} (h : pallocGetPage zero s = some (f, s')) : Acts p s s' := by
  obtain ⟨_, rfl⟩ := pallocGetPage_eq_some h
  exact .of_eq rfl rfl

/-- Giving a frame back acts for anyone. -/
theorem acts_free (h : pallocFreePage f s = .ok s') : Acts p s s' := by
  obtain ⟨_, rfl⟩ := pallocFreePage_eq_ok h
  exact .of_eq rfl rfl

/-- `install_page` acts for the process whose directory it changes. -/
theorem acts_install {writable table ok : Bool}
    (h : installPage p u f writable table s = .ok (ok, s')) : Acts p s s' := by
  rcases installPage_eq_ok h with ⟨_, rfl⟩ | ⟨_, hnot, pd, hpd, rfl⟩
  · exact .refl _
  · refine .of_update rfl rfl fun hone => ?_
    rw [List.map_cons, List.nodup_cons]
    refine ⟨fun hmem => ?_, hone p pd hpd⟩
    obtain ⟨m, hm, hmu⟩ := List.mem_map.mp hmem
    exact hnot m.frame ⟨pd, hpd, m, hm, hmu, rfl⟩

/-- A page of a segment acts for the process that loads. -/
theorem acts_loadInto {content : Option Content} {writable table ok : Bool}
    (h : loadInto p u f content writable table s = .ok (ok, s')) : Acts p s s' := by
  unfold loadInto at h
  split at h
  next =>
    obtain ⟨s₁, h₁, h⟩ := bind_eq_ok.mp h
    cases h
    exact acts_free h₁
  next c =>
    obtain ⟨⟨installed, s₁⟩, h₁, h⟩ := bind_eq_ok.mp h
    have hfill : Acts p s { s with mem := Function.update s.mem f c } := .of_eq rfl rfl
    have hin := hfill.trans (acts_install h₁)
    cases installed with
    | true =>
      cases h
      have hsup : Acts p s₁ (supPageTableInsert p u (-1) s₁).2 := .of_eq rfl rfl
      exact (hin.trans hsup).frameInsert
    | false =>
      obtain ⟨s₂, h₂, h⟩ := bind_eq_ok.mp h
      cases h
      exact hin.trans (acts_free h₂)

/-- The stack acts for the process that sets it up. -/
theorem acts_installStack {table ok : Bool} (h : installStack p f table s = .ok (ok, s')) :
    Acts p s s' := by
  unfold installStack at h
  obtain ⟨⟨installed, s₁⟩, h₁, h⟩ := bind_eq_ok.mp h
  cases installed with
  | true =>
    cases h
    exact acts_install h₁
  | false =>
    obtain ⟨s₂, h₂, h⟩ := bind_eq_ok.mp h
    cases h
    exact (acts_install h₁).trans (acts_free h₂)

/-- A fault acts for the process that faults. -/
theorem acts_faultInto {table : Bool} (h : faultInto p u f table s = .ok s') : Acts p s s' := by
  unfold faultInto at h
  obtain ⟨⟨installed, s₁⟩, h₁, h⟩ := bind_eq_ok.mp h
  cases installed with
  | false => cases h
  | true =>
    simp only [if_true] at h
    split at h
    next =>
      cases h
      have hsup : Acts p s₁ (supPageTableInsert p u (-1) s₁).2 := .of_eq rfl rfl
      exact ((acts_install h₁).trans hsup).frameInsert
    next r hr =>
      obtain ⟨s₂, h₂, h⟩ := bind_eq_ok.mp h
      cases h
      have hs₂ := loadFrameFromBlock_same h₂
      exact ((acts_install h₁).trans (.of_eq hs₂.pagedir hs₂.frameTable)).frameInsert

/-! ## The invariant -/

/-- The entries of `x` that are left stand at `iter` or behind it. -/
def Behind (x : ProcRef) (l : List FrameEntry) : Option FrameEntry → Prop
  | none => ∀ e ∈ l, e.owner ≠ x
  | some e => ∃ l₁ l₂, l = l₁ ++ e :: l₂ ∧ ∀ e' ∈ l₁, e'.owner ≠ x

/-- What is known of `x` at each statement. -/
def Phase.Fits (x : ProcRef) (s : Memory) : Phase → Prop
  | .leaving pd => s.pagedir x = pd
  | .destroying rest => s.pagedir x = none ∧ (rest.map (·.upage)).Nodup
  | .visiting iter | .unlinked iter => s.pagedir x = none ∧ Behind x s.frameTable iter
  | .passed e => s.pagedir x = none ∧ e.owner ≠ x ∧ Behind x s.frameTable (some e)
  | .dangling => False

/-- What holds between any two statements. -/
structure Orderly (w : Exits) : Prop where
  tracked : Tracked w.view
  onePer : w.memory.OnePer
  nodup : w.memory.frameTable.Nodup
  fits : ∀ x ph, w.exiting = some (x, ph) → ph.Fits x w.memory

/-- Entries of others at the end of the frame table do not bring the loop of `process_exit` more to
do. -/
theorem Behind.append {l l' : List FrameEntry} {iter : Option FrameEntry} (h : Behind x l iter)
    (hl' : ∀ e ∈ l', e.owner ≠ x) : Behind x (l ++ l') iter := by
  cases iter with
  | none =>
    intro e he
    rcases List.mem_append.mp he with he | he
    · exact h e he
    · exact hl' e he
  | some e =>
    obtain ⟨l₁, l₂, rfl, hl₁⟩ := h
    exact ⟨l₁, l₂ ++ l', by simp, hl₁⟩

/-- The loss of an entry the loop does not hold brings it no more to do. -/
theorem Behind.erase {l : List FrameEntry} {v : FrameEntry} {iter : Option FrameEntry}
    (h : Behind x l iter) (hne : iter ≠ some v) : Behind x (l.erase v) iter := by
  cases iter with
  | none => exact fun e he => h e (List.mem_of_mem_erase he)
  | some e =>
    obtain ⟨l₁, l₂, rfl, hl₁⟩ := h
    by_cases hv : v ∈ l₁
    · refine ⟨l₁.erase v, l₂, List.erase_append_left _ hv, fun e' he' => ?_⟩
      exact hl₁ e' (List.mem_of_mem_erase he')
    · refine ⟨l₁, l₂.erase v, ?_, hl₁⟩
      rw [List.erase_append_right _ hv, List.erase_cons_tail]
      simpa using fun he => hne (by rw [he])

/-- Another process acts. -/
theorem Phase.Fits.of_acts {ph : Phase} (h : ph.Fits x s) (ha : Acts p s s') (hx : x ≠ p) :
    ph.Fits x s' := by
  have hdir := ha.others x hx
  obtain ⟨l, hl, hown⟩ := ha.added
  have hbehind : ∀ {iter}, Behind x s.frameTable iter → Behind x s'.frameTable iter := by
    intro iter hb
    rw [hl]
    exact hb.append fun e he heq => hx (heq.symm.trans (hown e he))
  cases ph with
  | leaving pd => exact hdir.trans h
  | destroying rest => exact ⟨hdir.trans h.1, h.2⟩
  | visiting iter => exact ⟨hdir.trans h.1, hbehind h.2⟩
  | unlinked iter => exact ⟨hdir.trans h.1, hbehind h.2⟩
  | passed e => exact ⟨hdir.trans h.1, h.2.1, hbehind h.2.2⟩
  | dangling => exact h

/-- A phase whose next entry is another is not cut off. -/
theorem Phase.cut_of_reads {ph : Phase} {v : FrameEntry} (h : ph.reads ≠ some v) :
    ph.cut (some v) = ph := by
  unfold Phase.cut
  split
  next e => exact if_neg fun he => h he.symm
  next e => exact if_neg fun he => h he.symm
  next e => exact if_neg fun he => h he.symm
  next => rfl

/-- Another process evicts a page of its own, and not the element that is read next. -/
theorem Phase.Fits.of_evicted {ph : Phase} {v : FrameEntry} (h : ph.Fits x s)
    (he : Evicted s s' p v) (hx : x ≠ p) (hv : ph.reads ≠ some v) :
    (ph.cut (some v)).Fits x s' := by
  have hdir : s'.pagedir x = s.pagedir x := by
    obtain ⟨pd, _, hs⟩ := he.pagedir
    rw [hs, Function.update_of_ne hx]
  have hbehind : ∀ {iter}, Behind x s.frameTable iter → iter ≠ some v →
      Behind x s'.frameTable iter := by
    intro iter hb hne
    rw [he.frameTable]
    exact hb.erase hne
  rw [Phase.cut_of_reads hv]
  cases ph with
  | leaving pd => exact hdir.trans h
  | destroying rest => exact ⟨hdir.trans h.1, h.2⟩
  | visiting iter => exact ⟨hdir.trans h.1, hbehind h.2 hv⟩
  | unlinked iter => exact ⟨hdir.trans h.1, hbehind h.2 hv⟩
  | passed e => exact ⟨hdir.trans h.1, h.2.1, hbehind h.2.2 hv⟩
  | dangling => exact h

/-! ## Operations of other processes -/

variable {ex : Option (ProcRef × Phase)}

/-- The process is not in `process_exit`. -/
def Idle (p : ProcRef) (ex : Option (ProcRef × Phase)) : Prop := ∀ x ph, ex = some (x, ph) → x ≠ p

/-- A process that is not in `process_exit` is not on its way out. -/
theorem Idle.here (h : Idle p ex) : (Exits.mk s ex).gone p = none := by
  cases ex with
  | none => rfl
  | some g =>
    obtain ⟨x, ph⟩ := g
    exact if_neg fun hpx => h x ph rfl hpx.symm

/-- Cutting a phase off does not bring its page directory back. -/
theorem Phase.left_cut (ph : Phase) (v : Option FrameEntry) : (ph.cut v).left = ph.left := by
  unfold Phase.cut
  split
  · split <;> rfl
  · split <;> rfl
  · split <;> rfl
  · rfl

/-- Where nothing is evicted, no phase is cut off. -/
theorem Phase.cut_none (ph : Phase) : ph.cut none = ph := by
  unfold Phase.cut
  split
  · rfl
  · rfl
  · rfl
  · rfl

/-- The exiting process after another one has evicted a page, if it has. -/
def cutBy (v : Option FrameEntry) (ex : Option (ProcRef × Phase)) : Option (ProcRef × Phase) :=
  ex.map fun (x, ph) => (x, ph.cut v)

/-- Without an eviction no exit is cut off. -/
theorem cutBy_none : cutBy none ex = ex := by
  cases ex with
  | none => rfl
  | some g => simp [cutBy, Phase.cut_none]

/-- Who is on the way out stays on the way out, cut off or not. -/
theorem gone_cutBy (v : Option FrameEntry) : (Exits.mk s (cutBy v ex)).gone = (Exits.mk s₁ ex).gone := by
  cases ex with
  | none => rfl
  | some g =>
    funext q
    show (if q = g.1 then (g.2.cut v).left else none) = if q = g.1 then g.2.left else none
    rw [Phase.left_cut]

/-- A process that is not on its way out is not cut off. -/
theorem Idle.cutBy {v : Option FrameEntry} (h : Idle p ex) : Idle p (cutBy v ex) := by
  intro x ph hx
  cases ex with
  | none => cases hx
  | some g =>
    cases hx
    exact h g.1 g.2 rfl

/-- The view has the entries of the processes that are not on their way out. -/
theorem mem_view {w : Exits} {e : FrameEntry} : e ∈ w.view.frameTable ↔
    e ∈ w.memory.frameTable ∧ w.gone e.owner = none := by
  show e ∈ List.filter _ _ ↔ _
  rw [List.mem_filter, Option.isNone_iff_eq_none]

/-- What a running process does for itself keeps the books of those that exit. -/
theorem Orderly.of_acts (h : Orderly ⟨s, ex⟩) (hp : Idle p ex) (ha : Acts p s s')
    (ht : Tracked (Exits.view ⟨s', ex⟩)) : Orderly ⟨s', ex⟩ where
  tracked := ht
  onePer := ha.onePer h.onePer
  nodup := by
    obtain ⟨l, hl, hown⟩ := ha.added
    have hkeep : ∀ e ∈ l, (Exits.mk s ex).gone e.owner = none := by
      intro e he
      rw [hown e he]
      exact hp.here
    have hview : (Exits.view ⟨s', ex⟩).frameTable = (Exits.view ⟨s, ex⟩).frameTable ++ l := by
      show List.filter _ s'.frameTable = _
      rw [hl, List.filter_append]
      congr 1
      apply List.filter_eq_self.mpr
      intro e he
      rw [Option.isNone_iff_eq_none]
      exact hkeep e he
    have hnodup : (Exits.view ⟨s', ex⟩).frameTable.Nodup := List.Nodup.of_map _ ht.once
    rw [hview, List.nodup_append] at hnodup
    show s'.frameTable.Nodup
    rw [hl, List.nodup_append]
    refine ⟨h.nodup, hnodup.2.1, fun e he e' he' => ?_⟩
    intro heq
    exact hnodup.2.2 e (mem_view.mpr ⟨he, heq ▸ hkeep e' he'⟩) e' he' heq
  fits := fun x ph hx => (h.fits x ph hx).of_acts ha (hp x ph hx)

/-- The element of `frame_table` that is evicted is not the one an exiting process reads next. -/
def Spares (v : Option FrameEntry) (ex : Option (ProcRef × Phase)) : Prop :=
  ∀ x ph e, ex = some (x, ph) → v = some e → ph.reads ≠ some e

/-- The eviction of its own page keeps the books, if the loops keep their next entries. -/
theorem Orderly.of_evicted {v : FrameEntry} (h : Orderly ⟨s, ex⟩) (hp : Idle p ex)
    (he : Evicted s s' p v) (hown : v.owner = p) (hspare : Spares (some v) ex) :
    Orderly ⟨s', cutBy (some v) ex⟩ where
  tracked := by
    have hv : v ∈ (Exits.view ⟨s, ex⟩).frameTable :=
      mem_view.mpr ⟨victim_mem he.victim, hown ▸ hp.here⟩
    have hgone : (Exits.mk s' (Vm.cutBy (some v) ex)).gone = (Exits.mk s ex).gone := gone_cutBy _
    have hview : Exits.view ⟨s', Vm.cutBy (some v) ex⟩ = s'.view (Exits.mk s ex).gone := by
      unfold Exits.view
      rw [hgone]
    rw [hview]
    refine h.tracked.of_cleared hv ?_ he.used ?_ he.pageTable he.nextSup he.uservaddr
    · obtain ⟨pd, hpd, hs⟩ := he.pagedir
      rw [hown]
      refine ⟨pd, (view_pagedir hp.here).trans hpd, ?_⟩
      show (fun q => Option.getD _ (s'.pagedir q)) = _
      rw [hs, view_update hp.here]
      rfl
    · show List.filter _ s'.frameTable = (List.filter _ s.frameTable).erase v
      rw [he.frameTable, List.erase_filter]
  onePer := by
    obtain ⟨pd, hpd, hs⟩ := he.pagedir
    intro q pd' hq
    have hq' : s'.pagedir q = some pd' := hq
    rw [hs, Function.update_apply] at hq'
    split at hq'
    · cases hq'
      exact (h.onePer p pd hpd).sublist (List.Sublist.map _ List.filter_sublist)
    · exact h.onePer q pd' hq'
  nodup := by
    show s'.frameTable.Nodup
    rw [he.frameTable]
    exact h.nodup.sublist List.erase_sublist
  fits := by
    intro x ph hx
    cases ex with
    | none => cases hx
    | some g =>
      cases hx
      exact (h.fits g.1 g.2 rfl).of_evicted he (hp g.1 g.2 rfl) (hspare g.1 g.2 v rfl rfl)

/-- The entry that is evicted when a page is taken. -/
def Memory.evictedFor (s : Memory) : Option FrameEntry :=
  match pallocGetPage false s with
  | none => s.victim
  | some _ => none

/-- Making room keeps the books, whether something is evicted or not. -/
theorem Orderly.of_madeRoom (h : Orderly ⟨s, ex⟩) (hp : Idle p ex)
    (hown : pallocGetPage false s = none → ∀ e, s.victim = some e → e.owner = p)
    (hspare : Spares s.evictedFor ex) (hx : MadeRoom p s s') :
    Orderly ⟨s', cutBy s.evictedFor ex⟩ := by
  unfold Memory.evictedFor at hspare ⊢
  cases hx with
  | free hsome =>
    obtain ⟨r, hr⟩ := hsome
    rw [hr, cutBy_none]
    exact h
  | evicted hnone he =>
    rw [hnone] at hspare ⊢
    rcases evictFrame_eq_ok he with ⟨_, hv, hs⟩ | ⟨_, v, hv⟩
    · rw [hv, cutBy_none]
      refine h.of_acts hp (.of_eq hs.pagedir hs.frameTable) (h.tracked.of_same ?_)
      refine ⟨hs.used, ?_, ?_, hs.pageTable, hs.nextSup, hs.uservaddr⟩
      · show (fun q => Option.getD _ (s'.pagedir q)) = _
        rw [hs.pagedir]
        rfl
      · show List.filter _ s'.frameTable = _
        rw [hs.frameTable]
        rfl
    · rw [hv.victim] at hspare ⊢
      exact h.of_evicted hp hv (hown hnone v hv.victim) hspare

/-- A new frame is one nobody has, in the view too. -/
theorem Orderly.of_palloc {zero : Bool} (h : Orderly ⟨s, ex⟩) (hp : Idle p ex)
    (hx : pallocGetPage zero s = some (f, s')) :
    Orderly ⟨s', ex⟩ ∧ (Exits.view ⟨s', ex⟩).Fresh f := by
  obtain ⟨ht, hf⟩ := h.tracked.of_palloc (pallocGetPage_view hx)
  exact ⟨h.of_acts hp (acts_palloc hx) ht, hf⟩

/-- An event that the scheduler lets through is not of a process in `process_exit`. -/
theorem free_idle {e : Event} (h : e.free ex = true) (hp : e.caller = some p) : Idle p ex := by
  intro x ph hx
  subst hx
  unfold Event.free at h
  split at h
  · cases h
  · next heq => cases heq
  · next heq =>
    cases heq
    rw [hp] at h
    intro hxp
    simp [hxp] at h

/-- Every event keeps the books, where the victim is the caller's own and no loop loses its next
entry. -/
theorem Orderly.of_step {e : Event} (h : Orderly ⟨s, ex⟩) (hfree : e.free ex = true)
    (hown : ownVictim s e = true) (hspare : Spares (e.evicts s) ex) (hx : step e s = .ok s') :
    Orderly ⟨s', cutBy (e.evicts s) ex⟩ := by
  cases e with
  | start p =>
    have hp : Idle p ex := free_idle hfree rfl
    show Orderly ⟨s', cutBy none ex⟩
    rw [cutBy_none]
    simp only [step] at hx
    split at hx
    · cases hx
    · next hnone =>
      cases hx
      have hdir : s.pagedir p = none := by simpa using hnone
      have ha : Acts p s { s with
          pagedir := Function.update s.pagedir p (some [])
          pageTable := Function.update s.pageTable p [] } :=
        .of_update rfl rfl fun _ => List.nodup_nil
      refine h.of_acts hp ha ?_
      have ht := h.tracked.of_start ((view_pagedir hp.here).trans hdir)
      exact ht.of_same ⟨rfl, view_update hp.here, rfl, rfl, rfl, fun _ => rfl⟩
  | loadPage p u content writable table =>
    have hp : Idle p ex := free_idle hfree rfl
    obtain ⟨⟨_, s₁⟩, h₁, hx⟩ := bind_eq_ok.mp hx
    cases hx
    obtain ⟨s₂, hroom, ⟨f, s₃, h₃, hload⟩ | ⟨_, rfl⟩⟩ := loadSegmentPage_cases h₁
    · obtain ⟨hs₃, hf⟩ := (h.of_madeRoom hp (owner_of_ownVictim hown rfl) hspare hroom).of_palloc hp.cutBy h₃
      exact hs₃.of_acts hp.cutBy (acts_loadInto hload)
        (hs₃.tracked.of_loadInto hf (loadInto_view hp.cutBy.here hload))
    · exact h.of_madeRoom hp (owner_of_ownVictim hown rfl) hspare hroom
  | stackPage p table =>
    have hp : Idle p ex := free_idle hfree rfl
    obtain ⟨⟨_, s₁⟩, h₁, hx⟩ := bind_eq_ok.mp hx
    cases hx
    obtain ⟨s₂, hroom, ⟨f, s₃, h₃, hload⟩ | rfl⟩ := setupStackPage_cases h₁
    · obtain ⟨hs₃, hf⟩ := (h.of_madeRoom hp (owner_of_ownVictim hown rfl) hspare hroom).of_palloc hp.cutBy h₃
      exact hs₃.of_acts hp.cutBy (acts_installStack hload)
        (hs₃.tracked.of_installStack hf (installStack_view hp.cutBy.here hload))
    · exact h.of_madeRoom hp (owner_of_ownVictim hown rfl) hspare hroom
  | stackCopy p =>
    have hp : Idle p ex := free_idle hfree rfl
    simp only [step] at hx
    split at hx
    · obtain ⟨s₂, hroom, ⟨f, h₃⟩ | rfl⟩ := setupStackCopy_cases hx
      · exact ((h.of_madeRoom hp (owner_of_ownVictim hown rfl) hspare hroom).of_palloc hp.cutBy h₃).1
      · exact h.of_madeRoom hp (owner_of_ownVictim hown rfl) hspare hroom
    · cases hx
  | pageFault p u table =>
    have hp : Idle p ex := free_idle hfree rfl
    simp only [step] at hx
    split at hx
    · obtain ⟨s₂, f, s₃, hroom, h₃, hload⟩ := pageFault_cases hx
      obtain ⟨hs₃, hf⟩ := (h.of_madeRoom hp (owner_of_ownVictim hown rfl) hspare hroom).of_palloc hp.cutBy h₃
      exact hs₃.of_acts hp.cutBy (acts_faultInto hload)
        (hs₃.tracked.of_faultInto hf (faultInto_view hp.cutBy.here hload))
    · cases hx
  | exit p => cases hfree
  | store p u i b =>
    have hp : Idle p ex := free_idle hfree rfl
    show Orderly ⟨s', cutBy none ex⟩
    rw [cutBy_none]
    have hs := storeByte_same hx
    refine h.of_acts hp (.of_eq hs.pagedir hs.frameTable) (h.tracked.of_same ?_)
    refine ⟨hs.used, ?_, ?_, hs.pageTable, hs.nextSup, hs.uservaddr⟩
    · show (fun q => Option.getD _ (s'.pagedir q)) = _
      rw [hs.pagedir]
      rfl
    · show List.filter _ s'.frameTable = _
      rw [hs.frameTable]
      rfl
  | tick =>
    show Orderly ⟨s', cutBy none ex⟩
    rw [cutBy_none]
    cases hx
    exact ⟨h.tracked.of_same ⟨rfl, rfl, rfl, rfl, rfl, fun _ => rfl⟩, h.onePer, h.nodup, h.fits⟩

end Pintos.Vm
