import Pintos.Vm.Slots

/-!
# Paging is transparent to one process

A process sees a flat memory: a page holds what `load_segment` put there or zeros, and then what
the process wrote. Behind it stand the page directory, the entries of the page table, the frames
and the slots on the device. `Faithful` relates the two: a page that is present has its bytes in
its frame, a page that has been evicted has them in the slot of its entry, and a page that was
never touched is blank. Every operation of a single process keeps it as long as slots stay apart,
which they do until `curr_index` overflows.
-/

namespace Pintos.Vm

open Pintos.Lib

variable {s s₁ s' : Memory} {p : ProcRef} {u : UPage} {f : Frame}

/-- The memory as the process sees it. -/
abbrev Flat := UPage → Content

/-! ## What a process does -/

/-- An access to a page: the one that faults is tried again once the page is there. -/
def touch (p : ProcRef) (u : UPage) (table : Bool) (s : Memory) : Except Fault Memory :=
  if s.present p u then .ok s
  else if codeBase ≤ u then pageFault p u table s
  else .error .notEnabled

/-- A load from a page that is present. -/
def readByte (p : ProcRef) (u : UPage) (i : Fin 4096) (s : Memory) : Except Fault UInt8 :=
  match s.pagedir p with
  | none => .error .notEnabled
  | some pd => match pd.find? (·.upage == u) with
    | none => .error .notEnabled
    | some m => .ok (s.mem m.frame i)

inductive UserOp where
  /-- One page of `load_segment`. -/
  | load (u : UPage) (content : Option Content) (writable table : Bool)
  | read (u : UPage) (i : Fin 4096) (table : Bool)
  | write (u : UPage) (i : Fin 4096) (b : UInt8) (table : Bool)
  | evict
  | tick

/-- One operation of the process, and what it reads. -/
def userStep (p : ProcRef) (op : UserOp) (s : Memory) : Except Fault (Option UInt8 × Memory) :=
  match op with
  | .load u content writable table => do
    let (_, s) ← loadSegmentPage p u content writable table s
    .ok (none, s)
  | .read u i table => do
    let s ← touch p u table s
    let b ← readByte p u i s
    .ok (some b, s)
  | .write u i b table => do
    let s ← touch p u table s
    let s ← storeByte p u i b s
    .ok (none, s)
  | .evict => do
    let (_, s) ← evictFrame p s
    .ok (none, s)
  | .tick => .ok (none, { s with ticks := s.ticks + 1 })

/-- The flat memory after `load_segment` has answered for a page. -/
def Flat.loaded (flat : Flat) (u : UPage) (ok : Bool) (content : Option Content) : Flat :=
  match ok, content with
  | true, some c => Function.update flat u c
  | _, _ => flat

/-- What the operation does to the flat memory. -/
def UserOp.flat (p : ProcRef) (s : Memory) (op : UserOp) (flat : Flat) : Flat :=
  match op with
  | .load u content writable table =>
    match loadSegmentPage p u content writable table s with
    | .ok (ok, _) => flat.loaded u ok content
    | .error _ => flat
  | .write u i b _ => Function.update flat u (Function.update (flat u) i b)
  | _ => flat

/-- The entry whose page the operation evicts. -/
def UserOp.evicts (p : ProcRef) (s : Memory) : UserOp → Option FrameEntry
  | .load _ _ _ _ => if (pallocGetPage false s).isNone then s.victim else none
  | .read u _ _ | .write u _ _ _ =>
    if s.present p u then none
    else if (pallocGetPage false s).isNone then s.victim else none
  | .evict => s.victim
  | .tick => none

/-! ## The relation -/

/-- The process `p` is alone, and sees the flat memory; `written` is what was last written for
each entry. -/
structure Faithful (p : ProcRef) (s : Memory) (flat : Flat) (written : SupRef → Option Content) :
    Prop where
  tracked : Tracked s
  slotted : Slotted s written
  own : ∀ e ∈ s.frameTable, e.owner = p
  last : ∀ e ∈ s.frameTable, s.findPage p (s.sup e.aux).uservaddr = some e.aux
  resident : ∀ {u f}, s.Maps p u f → s.mem f = flat u
  swapped : ∀ {u r}, (∀ f, ¬ s.Maps p u f) → s.findPage p u = some r →
    s.slot r ≠ -1 ∧ written r = some (flat u)
  blank : ∀ {u}, (∀ f, ¬ s.Maps p u f) → s.findPage p u = none → flat u = fun _ => 0

variable {flat : Flat} {written : SupRef → Option Content}

/-- A page is the sum of its sectors. -/
theorem ofSectors_sector (c : Content) : Content.ofSectors c.sector = c := by
  funext j
  unfold Content.ofSectors Content.sector
  congr 1
  ext
  show (j : Nat) / 512 * 512 + j % 512 = j
  omega

/-- An eviction moves the bytes of a page from its frame to its slot. -/
theorem Faithful.of_evicted {v : FrameEntry} (h : Faithful p s flat written)
    (he : Evicted s s' p v) (hw : Written s s' v) (hroom : s.currIndex + 8 < 2 ^ 31) :
    Faithful p s' flat (Function.update written v.aux (some (s.mem v.frame))) := by
  have hv := victim_mem he.victim
  have hmine := h.tracked.entry hv
  rw [h.own v hv] at hmine
  have hfind : ∀ u, s'.findPage p u = s.findPage p u := fun u =>
    findPage_congr (congrFun he.pageTable p) he.uservaddr
  have hmem : ∀ e ∈ s'.frameTable, e ∈ s.frameTable := by
    intro e he'
    rw [he.frameTable] at he'
    exact List.mem_of_mem_erase he'
  -- the page evicted is not present any more, and no other page is affected
  have hgone : ∀ {u}, u ≠ (s.sup v.aux).uservaddr → (∀ f, ¬ s'.Maps p u f) → ∀ f, ¬ s.Maps p u f := by
    intro u hu hnot f hf
    exact hnot f ((he.maps p u f).mpr ⟨hf, fun hsame => hu hsame.2⟩)
  constructor
  case tracked => exact h.tracked.of_evicted he (h.own v hv)
  case slotted => exact h.slotted.of_written he hw hroom
  case own => exact fun e he' => h.own e (hmem e he')
  case last =>
    intro e he'
    rw [hfind, he.uservaddr]
    exact h.last e (hmem e he')
  case resident =>
    intro u f hm
    obtain ⟨hm, hne⟩ := (he.maps p u f).mp hm
    have hf : f ≠ v.frame := by
      intro hf
      rw [hf] at hm
      exact hne ⟨rfl, (h.tracked.exclusive hm hmine).2⟩
    rw [hw.mem, Function.update_of_ne hf]
    exact h.resident hm
  case swapped =>
    intro u r hnot hr
    rw [hfind] at hr
    by_cases hu : u = (s.sup v.aux).uservaddr
    · rw [hu, h.last v hv] at hr
      cases hr
      have hdev := hw.device.1
      rw [hw.slot, if_pos rfl, Function.update_self, h.resident hmine, ← hu]
      exact ⟨by omega, rfl⟩
    · have hrv : r ≠ v.aux := by
        intro hrv
        have huser := (findPage_spec hr).2
        rw [hrv] at huser
        exact hu huser.symm
      rw [hw.slot, if_neg hrv, Function.update_of_ne hrv]
      exact h.swapped (hgone hu hnot) hr
  case blank =>
    intro u hnot hr
    rw [hfind] at hr
    have hu : u ≠ (s.sup v.aux).uservaddr := by
      intro hu
      rw [hu, h.last v hv] at hr
      cases hr
    exact h.blank (hgone hu hnot) hr

/-- Bytes of frames that are not mapped do not matter. -/
theorem Faithful.of_unmapped (h : Faithful p s flat written) (ht : Tracked s')
    (hk : SlotsKept s s') (hpd : s'.pagedir = s.pagedir) (hpt : s'.pageTable = s.pageTable)
    (hft : s'.frameTable = s.frameTable) (hsup : s'.sup = s.sup)
    (hmem : ∀ u g, s.Maps p u g → s'.mem g = s.mem g) : Faithful p s' flat written := by
  have hfind : ∀ u, s'.findPage p u = s.findPage p u := fun u =>
    findPage_congr (congrFun hpt p) fun r => by rw [hsup]
  have hmaps : ∀ {u f}, s'.Maps p u f ↔ s.Maps p u f := maps_congr hpd p _ _
  constructor
  case tracked => exact ht
  case slotted => exact h.slotted.of_kept hk
  case own =>
    rw [hft]
    exact h.own
  case last =>
    intro e he
    rw [hft] at he
    rw [hfind, hsup]
    exact h.last e he
  case resident =>
    intro u f hm
    rw [hmaps] at hm
    rw [hmem u f hm]
    exact h.resident hm
  case swapped =>
    intro u r hnot hr
    rw [hfind] at hr
    rw [Memory.slot, hsup]
    exact h.swapped (fun f hf => hnot f (hmaps.mpr hf)) hr
  case blank =>
    intro u hnot hr
    rw [hfind] at hr
    exact h.blank (fun f hf => hnot f (hmaps.mpr hf)) hr

/-- A new frame is nobody's, so memory is still the flat one. -/
theorem Faithful.of_palloc {zero : Bool} (h : Faithful p s flat written)
    (hx : pallocGetPage zero s = some (f, s')) :
    Faithful p s' flat written ∧ s'.Fresh f ∧ (zero = true → s'.mem f = fun _ => 0) := by
  obtain ⟨ht, hfresh⟩ := h.tracked.of_palloc hx
  have hk := slotsKept_palloc hx
  obtain ⟨_, rfl⟩ := pallocGetPage_eq_some hx
  refine ⟨h.of_unmapped ht hk rfl rfl rfl rfl fun u g hg => ?_, hfresh, fun hz => ?_⟩
  · have hgf : g ≠ f := by
      intro hgf
      exact hfresh.2 p u (hgf ▸ hg)
    show (if zero then Function.update s.mem f (fun _ => 0) else s.mem) g = _
    split
    · rw [Function.update_of_ne hgf]
    · rfl
  · show (if zero then Function.update s.mem f (fun _ => 0) else s.mem) f = _
    rw [hz, if_pos rfl, Function.update_self]

/-- A frame nobody has may be given back. -/
theorem Faithful.of_free (h : Faithful p s flat written) (hf : ∀ p u, ¬ s.Maps p u f)
    (hx : pallocFreePage f s = .ok s') : Faithful p s' flat written := by
  have ht := h.tracked.of_free hf hx
  have hk := slotsKept_free hx
  obtain ⟨_, rfl⟩ := pallocFreePage_eq_ok hx
  refine h.of_unmapped ht hk rfl rfl rfl rfl fun u g hg => ?_
  show Function.update s.mem f _ g = _
  rw [Function.update_of_ne]
  intro hgf
  exact hf p u (hgf ▸ hg)

/-- A page is mapped to a frame of its own that holds the bytes `c`, and its entry is the last
for the page. -/
theorem Faithful.of_mapped {r : SupRef} {c : Content} (h : Faithful p s flat written)
    (ht : Tracked s') (hk : SlotsKept s s') (hf : s.Fresh f)
    (hmaps : ∀ v g, s'.Maps p v g ↔ s.Maps p v g ∨ (v = u ∧ g = f)) (hnot : ∀ g, ¬ s.Maps p u g)
    (hmem : s'.mem = Function.update s.mem f c)
    (hfind : ∀ v, s'.findPage p v = if v = u then some r else s.findPage p v)
    (hft : s'.frameTable = s.frameTable ++ [⟨f, p, r⟩])
    (haddr : ∀ r < s.nextSup, (s'.sup r).uservaddr = (s.sup r).uservaddr)
    (haux : (s'.sup r).uservaddr = u) : Faithful p s' (Function.update flat u c) written := by
  -- the entries that were there are for other pages
  have hold : ∀ e ∈ s.frameTable, (s.sup e.aux).uservaddr ≠ u := by
    intro e he hu
    have hm := h.tracked.entry he
    rw [h.own e he, hu] at hm
    exact hnot _ hm
  have hout : ∀ {v}, (∀ g, ¬ s'.Maps p v g) → v ≠ u ∧ ∀ g, ¬ s.Maps p v g := by
    intro v hv
    refine ⟨fun hvu => ?_, fun g hg => hv g ((hmaps v g).mpr (.inl hg))⟩
    exact hv f ((hmaps v f).mpr (.inr ⟨hvu, rfl⟩))
  constructor
  case tracked => exact ht
  case slotted => exact h.slotted.of_kept hk
  case own =>
    intro e he
    rw [hft] at he
    rcases List.mem_append.mp he with he | he
    · exact h.own e he
    · rw [List.mem_singleton.mp he]
  case last =>
    intro e he
    rw [hft] at he
    rw [hfind]
    rcases List.mem_append.mp he with he | he
    · rw [haddr _ (h.tracked.bound he), if_neg (hold e he)]
      exact h.last e he
    · rw [List.mem_singleton.mp he, haux, if_pos rfl]
  case resident =>
    intro v g hm
    rw [hmem]
    rcases (hmaps v g).mp hm with hm | ⟨rfl, rfl⟩
    · have hvu : v ≠ u := fun hvu => hnot g (hvu ▸ hm)
      have hgf : g ≠ f := fun hgf => hf.2 p v (hgf ▸ hm)
      rw [Function.update_of_ne hgf, Function.update_of_ne hvu]
      exact h.resident hm
    · rw [Function.update_self, Function.update_self]
  case swapped =>
    intro v r hv hr
    obtain ⟨hvu, hv'⟩ := hout hv
    rw [hfind, if_neg hvu] at hr
    rw [Function.update_of_ne hvu, hk.old r (h.slotted.known.listed (findPage_spec hr).1)]
    exact h.swapped hv' hr
  case blank =>
    intro v hv hr
    obtain ⟨hvu, hv'⟩ := hout hv
    rw [hfind, if_neg hvu] at hr
    rw [Function.update_of_ne hvu]
    exact h.blank hv' hr

/-- A new entry is the last for its page. -/
theorem findPage_insert {index : Int} (hlisted : ∀ r ∈ s.pageTable p, r < s.nextSup) (v : UPage) :
    (supPageTableInsert p u index s).2.findPage p v =
      if v = u then some s.nextSup else s.findPage p v := by
  have hpt : (supPageTableInsert p u index s).2.pageTable p = s.pageTable p ++ [s.nextSup] :=
    Function.update_self _ _ _
  have hself : ((supPageTableInsert p u index s).2.sup s.nextSup).uservaddr = u := by
    show (Function.update s.sup s.nextSup _ s.nextSup).uservaddr = u
    rw [Function.update_self]
  have hfold : (s.pageTable p).foldl (fun found r =>
      if ((supPageTableInsert p u index s).2.sup r).uservaddr = v then some r else found) none =
      s.findPage p v := by
    unfold Memory.findPage
    apply List.foldl_ext
    intro found r hr
    have hsame : (supPageTableInsert p u index s).2.sup r = s.sup r :=
      Function.update_of_ne (Nat.ne_of_lt (hlisted r hr)) _ _
    rw [hsame]
  rw [Memory.findPage, hpt, List.foldl_append, hfold, List.foldl_cons, List.foldl_nil, hself]
  simp only [eq_comm]

/-- The entries that go with a page that has just been mapped. -/
theorem Faithful.of_new {pd : List Mapping} {w : Bool} {c : Content}
    (h : Faithful p s flat written) (hf : s.Fresh f) (hpd : s.pagedir p = some pd)
    (hnot : ∀ g, ¬ s.Maps p u g)
    (hs' : s' = frameTableInsert f p s.nextSup (supPageTableInsert p u (-1) { s with
      pagedir := Function.update s.pagedir p (some (⟨u, f, w⟩ :: pd))
      mem := Function.update s.mem f c }).2) (ht : Tracked s') :
    Faithful p s' (Function.update flat u c) written := by
  have hbase : SlotsKept s { s with
      pagedir := Function.update s.pagedir p (some (⟨u, f, w⟩ :: pd))
      mem := Function.update s.mem f c } := .of_eq rfl rfl rfl rfl rfl rfl fun _ he => he
  have hk : SlotsKept s s' := by
    rw [hs']
    exact hbase.trans (slotsKept_inserts p u f _)
  refine h.of_mapped (r := s.nextSup) ht hk hf (fun v g => ?_) hnot (by rw [hs']; rfl) (fun v => ?_)
    (by rw [hs']; rfl) (fun r hr => ?_) ?_
  · exact maps_install_own (w := w) hpd (by rw [hs']; rfl) v g
  · rw [hs']
    refine (findPage_congr rfl fun _ => rfl).trans ((findPage_insert ?_ v).trans ?_)
    · exact fun r hr => h.slotted.known.listed hr
    · rfl
  · rw [hs']
    show (Function.update s.sup s.nextSup _ r).uservaddr = _
    rw [Function.update_of_ne (Nat.ne_of_lt hr)]
  · rw [hs']
    show (Function.update s.sup s.nextSup _ s.nextSup).uservaddr = u
    rw [Function.update_self]

/-- `page_fault` brings in the bytes that the process sees at the page. -/
theorem Faithful.of_faultInto {table : Bool} (h : Faithful p s flat written) (hf : s.Fresh f)
    (hzero : s.mem f = fun _ => 0) (hx : faultInto p u f table s = .ok s') :
    Faithful p s' flat written := by
  have ht := h.tracked.of_faultInto hf hx
  have hk := slotsKept_faultInto hx
  obtain ⟨pd, hpd, hnot, ⟨hnone, hs'⟩ | ⟨r, hr, _, hs'⟩⟩ := faultInto_eq_ok hx
  · have hblank := h.blank hnot hnone
    have hnew := h.of_new (c := fun _ => 0) (w := true) hf hpd hnot (by
      rw [← hzero, Function.update_eq_self]
      exact hs') ht
    rw [← hblank, Function.update_eq_self] at hnew
    exact hnew
  · obtain ⟨hslot, hwritten⟩ := h.swapped hnot hr
    obtain ⟨hmem, huser⟩ := findPage_spec hr
    -- the slot holds the bytes of the page
    have hback : Content.ofSectors (fun i => s.swap ((s.slot r).toNat + i)) = flat u := by
      obtain ⟨c, hc, hsect⟩ := h.slotted.holds r (h.slotted.known.listed hmem) hslot
      rw [hwritten] at hc
      cases hc
      rw [← ofSectors_sector (flat u)]
      congr 1
      funext i
      exact hsect i
    have haddr : ∀ r', (s'.sup r').uservaddr = (s.sup r').uservaddr := by
      intro r'
      rw [hs']
      show (Function.update s.sup r _ r').uservaddr = _
      by_cases hrr : r' = r
      · rw [hrr, Function.update_self]
      · rw [Function.update_of_ne hrr]
    have hnew := h.of_mapped (u := u) (r := r) (c := flat u) ht hk hf (fun v g => ?_) hnot
      (by rw [hs', ← hback]; rfl) (fun v => ?_) (by rw [hs']; rfl) (fun r' _ => haddr r')
      (by rw [haddr, huser])
    · rw [Function.update_eq_self] at hnew
      exact hnew
    · exact maps_install_own (w := true) hpd (by rw [hs']; rfl) v g
    · have hsame : s'.findPage p v = s.findPage p v := findPage_congr (by rw [hs']; rfl) haddr
      rw [hsame]
      split
      next hv => rw [hv, hr]
      next => rfl

/-- `load_segment` puts the bytes of the file there, or leaves the page alone. -/
theorem Faithful.of_loadInto {content : Option Content} {writable table ok : Bool}
    (h : Faithful p s flat written) (hf : s.Fresh f)
    (hx : loadInto p u f content writable table s = .ok (ok, s')) :
    Faithful p s' (flat.loaded u ok content) written := by
  have ht := h.tracked.of_loadInto hf hx
  unfold loadInto at hx
  split at hx
  next =>
    obtain ⟨s₁, h₁, hx⟩ := bind_eq_ok.mp hx
    cases hx
    exact h.of_free hf.2 h₁
  next c =>
    obtain ⟨⟨installed, s₁⟩, h₁, hx⟩ := bind_eq_ok.mp hx
    rcases installPage_eq_ok h₁ with ⟨rfl, rfl⟩ | ⟨rfl, hnot, pd, hpd, rfl⟩
    · obtain ⟨s₂, h₂, hx⟩ := bind_eq_ok.mp hx
      cases hx
      have hs₁ : Tracked { s with mem := Function.update s.mem f c } :=
        h.tracked.of_same ⟨rfl, rfl, rfl, rfl, rfl, fun _ => rfl⟩
      have hfill : Faithful p { s with mem := Function.update s.mem f c } flat written := by
        refine h.of_unmapped hs₁ (.of_eq rfl rfl rfl rfl rfl rfl fun _ he => he) rfl rfl rfl rfl ?_
        intro v g hg
        apply Function.update_of_ne
        intro hgf
        exact hf.2 p v (hgf ▸ hg)
      exact hfill.of_free hf.2 h₂
    · cases hx
      exact h.of_new hf hpd hnot rfl ht

/-! ## Reading and writing -/

/-- A load reads the frame of the page. -/
theorem readByte_eq_ok {i : Fin 4096} {b : UInt8} (h : readByte p u i s = .ok b) :
    ∃ f, s.Maps p u f ∧ b = s.mem f i := by
  unfold readByte at h
  split at h
  next => cases h
  next pd hpd =>
    split at h
    next => cases h
    next m hm =>
      cases h
      refine ⟨m.frame, ⟨pd, hpd, m, List.mem_of_find?_eq_some hm, ?_, rfl⟩, rfl⟩
      simpa using List.find?_some hm

/-- A store writes the frame of the page. -/
theorem storeByte_eq_ok {i : Fin 4096} {b : UInt8} (h : storeByte p u i b s = .ok s') :
    ∃ f, s.Maps p u f ∧
      s' = { s with mem := Function.update s.mem f (Function.update (s.mem f) i b) } := by
  unfold storeByte at h
  split at h
  next => cases h
  next pd hpd =>
    split at h
    next => cases h
    next m hm =>
      split at h
      next =>
        cases h
        refine ⟨m.frame, ⟨pd, hpd, m, List.mem_of_find?_eq_some hm, ?_, rfl⟩, rfl⟩
        simpa using List.find?_some hm
      next => cases h

/-- A store does to the page what it does to the flat memory. -/
theorem Faithful.of_storeByte {i : Fin 4096} {b : UInt8} (h : Faithful p s flat written)
    (hx : storeByte p u i b s = .ok s') :
    Faithful p s' (Function.update flat u (Function.update (flat u) i b)) written := by
  have ht := h.tracked.of_same (storeByte_same hx)
  have hk := slotsKept_storeByte hx
  obtain ⟨f, hm, rfl⟩ := storeByte_eq_ok hx
  have hin : ∀ {v}, (∀ g, ¬ s.Maps p v g) → v ≠ u := fun hv hvu => hv f (hvu ▸ hm)
  constructor
  case tracked => exact ht
  case slotted => exact h.slotted.of_kept hk
  case own => exact h.own
  case last => exact h.last
  case resident =>
    intro v g hg
    have hg' : s.Maps p v g := hg
    show Function.update s.mem f _ g = _
    by_cases hvu : v = u
    · subst hvu
      cases h.tracked.single hg' hm
      rw [Function.update_self, Function.update_self, h.resident hm]
    · have hgf : g ≠ f := by
        intro hgf
        rw [hgf] at hg'
        exact hvu (h.tracked.exclusive hg' hm).2
      rw [Function.update_of_ne hgf, Function.update_of_ne hvu]
      exact h.resident hg'
  case swapped =>
    intro v r hv hr
    rw [Function.update_of_ne (hin hv)]
    exact h.swapped hv hr
  case blank =>
    intro v hv hr
    rw [Function.update_of_ne (hin hv)]
    exact h.blank hv hr

/-! ## Operations -/

/-- An eviction moves a page to its slot, unless the index wraps. -/
theorem Faithful.of_evictFrame {evicted : Bool} (h : Faithful p s flat written)
    (hcount : s.victim ≠ none → s.currIndex + 8 < 2 ^ 31)
    (hx : evictFrame p s = .ok (evicted, s')) : ∃ written', Faithful p s' flat written' := by
  have hstep := slotStep_evictFrame hx
  rcases evictFrame_eq_ok hx with ⟨rfl, hnone, hsame⟩ | ⟨rfl, _⟩
  · unfold evictFrame at hx
    obtain ⟨_, _, hx⟩ := bind_eq_ok.mp hx
    rw [hnone] at hx hstep
    cases hx
    exact ⟨written, h.of_unmapped (h.tracked.of_same hsame) hstep rfl rfl rfl rfl fun _ _ _ => rfl⟩
  · obtain ⟨v, he, hw⟩ := evictFrame_written hx
    exact ⟨_, h.of_evicted he hw (hcount (by rw [he.victim]; simp))⟩

/-- Making room keeps memory the flat one. -/
theorem Faithful.of_madeRoom (h : Faithful p s flat written)
    (hcount : pallocGetPage false s = none → s.victim ≠ none → s.currIndex + 8 < 2 ^ 31)
    (hx : MadeRoom p s s') : ∃ written', Faithful p s' flat written' := by
  cases hx with
  | free => exact ⟨written, h⟩
  | evicted hnone he => exact h.of_evictFrame (hcount hnone) he

/-- A fault brings the page back as it was. -/
theorem Faithful.of_pageFault {table : Bool} (h : Faithful p s flat written)
    (hcount : pallocGetPage false s = none → s.victim ≠ none → s.currIndex + 8 < 2 ^ 31)
    (hx : pageFault p u table s = .ok s') : ∃ written', Faithful p s' flat written' := by
  obtain ⟨s₁, f, s₂, hroom, h₂, hx⟩ := pageFault_cases hx
  obtain ⟨written₁, hs₁⟩ := h.of_madeRoom hcount hroom
  obtain ⟨hs₂, hf, hzero⟩ := hs₁.of_palloc h₂
  exact ⟨written₁, hs₂.of_faultInto hf (hzero rfl) hx⟩

/-- A page of a segment comes from its file. -/
theorem Faithful.of_loadSegmentPage {content : Option Content} {writable table ok : Bool}
    (h : Faithful p s flat written)
    (hcount : pallocGetPage false s = none → s.victim ≠ none → s.currIndex + 8 < 2 ^ 31)
    (hx : loadSegmentPage p u content writable table s = .ok (ok, s')) :
    ∃ written', Faithful p s' (flat.loaded u ok content) written' := by
  obtain ⟨s₁, hroom, ⟨f, s₂, h₂, hx⟩ | ⟨rfl, rfl⟩⟩ := loadSegmentPage_cases hx
  · obtain ⟨written₁, hs₁⟩ := h.of_madeRoom hcount hroom
    obtain ⟨hs₂, hf, _⟩ := hs₁.of_palloc h₂
    exact ⟨written₁, hs₂.of_loadInto hf hx⟩
  · exact h.of_madeRoom hcount hroom

/-- The operation does not overflow `curr_index`, the clock stays below the access time that is
never picked, and `evict_frame` is called when there is a page to evict. -/
def UserOp.counts (p : ProcRef) (s : Memory) (op : UserOp) : Bool :=
  ((op.evicts p s).isNone || decide (s.currIndex + 8 < 2 ^ 31)) &&
    match op with
    | .tick => decide (s.ticks + 2 < 2 ^ 64)
    | .evict => s.victim.isSome
    | _ => true

/-- The condition is on the evictions of the step. -/
theorem UserOp.room_of_counts {op : UserOp} (h : op.counts p s = true)
    (he : op.evicts p s ≠ none) : s.currIndex + 8 < 2 ^ 31 := by
  unfold UserOp.counts at h
  cases hv : op.evicts p s with
  | none => exact absurd hv he
  | some v =>
    rw [hv] at h
    simp only [Option.isNone_some, Bool.false_or, Bool.and_eq_true, decide_eq_true_eq] at h
    exact h.1

/-- An access faults first where it has to. -/
theorem Faithful.of_touch {table : Bool} (h : Faithful p s flat written)
    (hcount : s.present p u = false → pallocGetPage false s = none → s.victim ≠ none →
      s.currIndex + 8 < 2 ^ 31)
    (hx : touch p u table s = .ok s') : ∃ written', Faithful p s' flat written' := by
  unfold touch at hx
  split at hx
  next =>
    cases hx
    exact ⟨written, h⟩
  next hnot =>
    split at hx
    next => exact h.of_pageFault (hcount (by simpa using hnot)) hx
    next => cases hx

/-- An operation keeps the relation, and a read returns what the process sees. -/
theorem Faithful.of_userStep {op : UserOp} {out : Option UInt8} (h : Faithful p s flat written)
    (hcount : op.counts p s = true) (hx : userStep p op s = .ok (out, s')) :
    (∃ written', Faithful p s' (op.flat p s flat) written') ∧
      ∀ u i table, op = .read u i table → out = some (flat u i) := by
  have hroom := UserOp.room_of_counts hcount
  cases op with
  | load u content writable table =>
    refine ⟨?_, fun _ _ _ he => by cases he⟩
    obtain ⟨⟨ok, s₁⟩, h₁, hx⟩ := bind_eq_ok.mp hx
    cases hx
    have hflat : (UserOp.load u content writable table).flat p s flat =
        flat.loaded u ok content := by
      simp only [UserOp.flat, h₁]
    rw [hflat]
    refine h.of_loadSegmentPage (fun hnone hv => hroom ?_) h₁
    simpa [UserOp.evicts, hnone] using hv
  | read u i table =>
    obtain ⟨s₁, h₁, hx⟩ := bind_eq_ok.mp hx
    obtain ⟨b, hb, hx⟩ := bind_eq_ok.mp hx
    cases hx
    obtain ⟨written₁, hs₁⟩ := h.of_touch (fun hout hnone hv => hroom (by
      simpa [UserOp.evicts, hout, hnone] using hv)) h₁
    refine ⟨⟨written₁, hs₁⟩, fun u' i' table' he => ?_⟩
    cases he
    obtain ⟨f, hm, rfl⟩ := readByte_eq_ok hb
    rw [hs₁.resident hm]
  | write u i b table =>
    refine ⟨?_, fun _ _ _ he => by cases he⟩
    obtain ⟨s₁, h₁, hx⟩ := bind_eq_ok.mp hx
    obtain ⟨s₂, h₂, hx⟩ := bind_eq_ok.mp hx
    cases hx
    obtain ⟨written₁, hs₁⟩ := h.of_touch (fun hout hnone hv => hroom (by
      simpa [UserOp.evicts, hout, hnone] using hv)) h₁
    exact ⟨written₁, hs₁.of_storeByte h₂⟩
  | evict =>
    refine ⟨?_, fun _ _ _ he => by cases he⟩
    obtain ⟨⟨evicted, s₁⟩, h₁, hx⟩ := bind_eq_ok.mp hx
    cases hx
    exact h.of_evictFrame (fun hv => hroom hv) h₁
  | tick =>
    refine ⟨?_, fun _ _ _ he => by cases he⟩
    cases hx
    exact ⟨written, h.of_unmapped (h.tracked.of_same ⟨rfl, rfl, rfl, rfl, rfl, fun _ => rfl⟩)
      (.of_eq rfl rfl rfl rfl rfl rfl fun _ he => he) rfl rfl rfl rfl fun _ _ _ => rfl⟩

end Pintos.Vm
