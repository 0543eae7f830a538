import Pintos.Loading.SetupStack

/-!
# What `setup_stack` writes to the stack

From the top of the stack down: the copies of the arguments, the bytes that align them, a null
pointer, the addresses of the copies, and `argv`, `argc` and a return address. Room is made for as
many addresses as `setup_stack` has counted arguments, which may be more than there are. The layout
succeeds exactly when every page from the stack pointer up can be written (`layoutArgs_ok_iff`).
-/

namespace Pintos.Loading

open Pintos.Lib Pintos.Vm

variable {faults : Faults} {m m₁ m₂ m' : UserSpace} {a x args addresses : Nat} {v : UInt8}
  {cs : List UInt8} {ts : List (List UInt8)}

/-! ## The copies and their addresses -/

/-- The room that strings take with the zeros at their ends. -/
def room (ts : List (List UInt8)) : Nat := (ts.map fun t => t.length + 1).sum

/-- Where a string stands among the others. -/
def offset (ts : List (List UInt8)) (i : Nat) : Nat := room (ts.take i)

/-- A token takes its bytes and a null byte. -/
theorem room_cons (t : List UInt8) (ts : List (List UInt8)) :
    room (t :: ts) = t.length + 1 + room ts := by
  simp [room]

/-- The first stands in front. -/
theorem offset_zero (ts : List (List UInt8)) : offset ts 0 = 0 := by
  simp [offset, room]

/-- The others stand behind it. -/
theorem offset_cons_succ (t : List UInt8) (ts : List (List UInt8)) (i : Nat) :
    offset (t :: ts) (i + 1) = t.length + 1 + offset ts i := by
  unfold offset
  rw [List.take_succ_cons, room_cons]

/-- The strings stand one behind the other. -/
theorem offset_succ_le (ts : List (List UInt8)) {i j : Nat} (hi : i < ts.length) (hij : i < j) :
    offset ts i + ts[i].length + 1 ≤ offset ts j := by
  induction ts generalizing i j with
  | nil => simp at hi
  | cons t ts ih =>
    obtain ⟨j, rfl⟩ : ∃ k, j = k + 1 := ⟨j - 1, by omega⟩
    rw [offset_cons_succ]
    cases i with
    | zero =>
      rw [offset_zero, List.getElem_cons_zero]
      omega
    | succ i =>
      have := ih (by simpa using hi) (show i < j by omega)
      rw [offset_cons_succ, List.getElem_cons_succ]
      omega

/-- Each token has room. -/
theorem offset_add_le (ts : List (List UInt8)) {i : Nat} (hi : i < ts.length) :
    offset ts i + ts[i].length + 1 ≤ room ts := by
  have h := offset_succ_le ts hi hi
  unfold offset at h ⊢
  rwa [List.take_length] at h

/-- The strings have been copied to `args`, their addresses to `addresses`, and nothing else has
changed. -/
structure Copied (faults : Faults) (ts : List (List UInt8)) (args addresses : Nat)
    (m m' : UserSpace) : Prop where
  copy : ∀ i (h : i < ts.length), m'.Holds (args + offset ts i) (ts[i] ++ [0])
  address : ∀ i < ts.length, m'.Holds (addresses + 4 * i) (leBytes 4 (args + offset ts i))
  frame : ∀ {x v}, m.byte x = some v → x < addresses ∨ addresses + 4 * ts.length ≤ x →
    x < args ∨ args + room ts ≤ x → m'.byte x = some v
  storable : ∀ u, m'.Storable faults u ↔ m.Storable faults u

/-- The copy keeps what lies elsewhere. -/
theorem Copied.keeps (h : Copied faults ts args addresses m m') (hx : m.Holds x cs)
    (haddr : x + cs.length ≤ addresses ∨ addresses + 4 * ts.length ≤ x)
    (hargs : x + cs.length ≤ args ∨ args + room ts ≤ x) : m'.Holds x cs :=
  fun i hi => h.frame (hx i hi) (by omega) (by omega)

theorem add32_eq {a b : Nat} (h : a + b ≤ physBaseAddr) : add32 a b = a + b := by
  unfold physBaseAddr at h
  unfold add32
  omega

/-- The addresses that copying writes to. -/
def CopyWrites (ts : List (List UInt8)) (args addresses x : Nat) : Prop :=
  args ≤ x ∧ x < args + room ts ∨ addresses ≤ x ∧ x < addresses + 4 * ts.length

/-- The loop copies the tokens, and notes where. -/
theorem copyTokens_eq_ok (hroom : args + room ts ≤ physBaseAddr)
    (hbelow : addresses + 4 * ts.length ≤ args) (h : copyTokens faults ts args addresses m = .ok m') :
    Copied faults ts args addresses m m' ∧
      ∀ x, CopyWrites ts args addresses x → m.Storable faults (x / 4096) := by
  induction ts generalizing args addresses m with
  | nil =>
    cases h
    refine ⟨⟨fun i hi => by simp at hi, fun i hi => by simp at hi, fun hx _ _ => hx,
      fun _ => Iff.rfl⟩, ?_⟩
    rintro x (⟨h₁, h₂⟩ | ⟨h₁, h₂⟩)
    · simp [room] at h₂
      omega
    · simp at h₂
      omega
  | cons t ts ih =>
    obtain ⟨m₁, h₁, h⟩ := bind_eq_ok.mp h
    obtain ⟨m₂, h₂, h⟩ := bind_eq_ok.mp h
    rw [room_cons] at hroom
    rw [List.length_cons] at hbelow
    have hlen : (t ++ [0]).length = t.length + 1 := by simp
    obtain ⟨hs₁, ht₁⟩ := store_eq_ok (by omega) h₁
    obtain ⟨hs₂, ht₂⟩ := store_eq_ok (by rw [length_leBytes]; omega) h₂
    rw [add32_eq (by omega), add32_eq (by omega)] at h
    obtain ⟨hc, ht⟩ := ih (by omega) (by omega) h
    rw [hlen] at ht₁
    rw [length_leBytes] at ht₂
    constructor
    · constructor
      case copy =>
        intro i hi
        cases i with
        | zero =>
          rw [offset_zero, List.getElem_cons_zero, Nat.add_zero]
          have hm₂ := hs₁.holds.frame hs₂ (by rw [length_leBytes]; omega)
          exact hc.keeps hm₂ (by rw [hlen]; omega) (by rw [hlen]; omega)
        | succ i =>
          have := hc.copy i (by simpa using hi)
          rwa [offset_cons_succ, ← Nat.add_assoc, ← Nat.add_assoc]
      case address =>
        intro i hi
        cases i with
        | zero =>
          rw [offset_zero, Nat.mul_zero, Nat.add_zero, Nat.add_zero]
          exact hc.keeps hs₂.holds (by rw [length_leBytes]; omega) (by rw [length_leBytes]; omega)
        | succ i =>
          have := hc.address i (by simpa using hi)
          rw [offset_cons_succ, ← Nat.add_assoc, ← Nat.add_assoc]
          rwa [show addresses + 4 * (i + 1) = addresses + 4 + 4 * i by omega]
      case frame =>
        intro x v hx haddr hargs
        rw [List.length_cons] at haddr
        rw [room_cons] at hargs
        have hx₁ := hs₁.frame hx (by rw [hlen]; omega)
        have hx₂ := hs₂.frame hx₁ (by rw [length_leBytes]; omega)
        exact hc.frame hx₂ (by omega) (by omega)
      case storable =>
        intro u
        rw [hc.storable, hs₂.storable, hs₁.storable]
    · intro x hx
      unfold CopyWrites at hx
      rw [room_cons, List.length_cons] at hx
      by_cases h₁ : args ≤ x ∧ x < args + (t.length + 1)
      · have := ht₁ (x - args) (by omega)
        rwa [Nat.add_sub_cancel' h₁.1] at this
      · by_cases h₂ : addresses ≤ x ∧ x < addresses + 4
        · have := ht₂ (x - addresses) (by omega)
          rwa [Nat.add_sub_cancel' h₂.1, hs₁.storable] at this
        · have := ht x (by unfold CopyWrites; omega)
          rwa [hs₂.storable, hs₁.storable] at this

/-- Copying succeeds when all the pages it writes to can be written. -/
theorem copyTokens_ok (hroom : args + room ts ≤ physBaseAddr)
    (hbelow : addresses + 4 * ts.length ≤ args)
    (h : ∀ x, CopyWrites ts args addresses x → m.Storable faults (x / 4096)) :
    ∃ m', copyTokens faults ts args addresses m = .ok m' := by
  induction ts generalizing args addresses m with
  | nil => exact ⟨m, rfl⟩
  | cons t ts ih =>
    rw [room_cons] at hroom
    rw [List.length_cons] at hbelow
    unfold CopyWrites at h
    rw [room_cons, List.length_cons] at h
    have hlen : (t ++ [0]).length = t.length + 1 := by simp
    obtain ⟨m₁, h₁⟩ : ∃ m₁, store faults args (t ++ [0]) m = .ok m₁ :=
      store_ok (by omega) fun i hi => h (args + i) (by omega)
    have hs₁ := (store_eq_ok (by omega) h₁).1
    obtain ⟨m₂, h₂⟩ : ∃ m₂, store faults addresses (leBytes 4 args) m₁ = .ok m₂ :=
      store_ok (by rw [length_leBytes]; omega) fun i hi => by
        rw [length_leBytes] at hi
        rw [hs₁.storable]
        exact h (addresses + i) (by omega)
    have hs₂ := (store_eq_ok (by rw [length_leBytes]; omega) h₂).1
    obtain ⟨m', hm'⟩ : ∃ m', copyTokens faults ts (args + (t.length + 1)) (addresses + 4) m₂ =
        .ok m' :=
      ih (by omega) (by omega) fun x hx => by
        rw [hs₂.storable, hs₁.storable]
        unfold CopyWrites at hx
        exact h x (by omega)
    refine ⟨m', bind_eq_ok.mpr ⟨m₁, h₁, bind_eq_ok.mpr ⟨m₂, h₂, ?_⟩⟩⟩
    rw [add32_eq (by omega), add32_eq (by omega)]
    exact hm'

/-! ## The layout -/

variable {cmd : List UInt8}

/-- `argc`, as `setup_stack` counts. -/
def argCount (cmd : List UInt8) : Nat := (scanArgs cmd 1 0 false).1

/-- The bytes that align the copies. -/
def alignment (cmd : List UInt8) : Nat := 4 - (cmd.length + 1) % 4

/-- Where the copies start. -/
def argsAt (cmd : List UInt8) : Nat := physBaseAddr - (cmd.length + 1)

/-- Where the null pointer is. -/
def nullAt (cmd : List UInt8) : Nat := argsAt cmd - alignment cmd - 4

/-- Where the addresses of the copies start. -/
def addressesAt (cmd : List UInt8) : Nat := nullAt cmd - 4 * argCount cmd

/-- The stack pointer. -/
def espAt (cmd : List UInt8) : Nat := addressesAt cmd - 12

/-- Tokens are apart by a space. -/
theorem length_tokens_le (cmd : List UInt8) :
    2 * (tokens cmd).length ≤ cmd.length + 1 ∧ room (tokens cmd) ≤ cmd.length + 1 := by
  have hroom : room (tokens cmd) ≤ cmd.length + 1 := sum_length_words cmd
  refine ⟨le_trans ?_ hroom, hroom⟩
  have hne : ∀ t ∈ tokens cmd, 2 ≤ t.length + 1 := by
    intro t ht
    have hpos : t ≠ [] := by
      unfold tokens words at ht
      simpa using (List.mem_filter.mp ht).2
    have := List.length_pos_iff.mpr hpos
    omega
  have := List.card_nsmul_le_sum ((tokens cmd).map fun t => t.length + 1) 2 (by simpa using hne)
  rw [List.length_map, smul_eq_mul] at this
  unfold room
  omega

/-- The count is that of the tokens, with one more for spaces at an end. -/
theorem length_tokens_le_argCount (hcmd : cmd ≠ []) :
    (tokens cmd).length ≤ argCount cmd ∧ argCount cmd ≤ (tokens cmd).length + 2 := by
  have h := scanArgs_fst hcmd
  unfold beginsWithSpace endsWithSpace at h
  unfold argCount
  split at h <;> split at h <;> omega

/-- How the parts of the layout lie. -/
structure Lies (cmd : List UInt8) : Prop where
  tokens_le : (tokens cmd).length ≤ argCount cmd
  argCount_le : argCount cmd ≤ (tokens cmd).length + 2
  argCount_lt : argCount cmd < 4096
  room_le : room (tokens cmd) ≤ cmd.length + 1
  top : argsAt cmd + (cmd.length + 1) = physBaseAddr
  null : nullAt cmd + 4 + alignment cmd = argsAt cmd
  addresses : addressesAt cmd + 4 * argCount cmd = nullAt cmd
  esp : espAt cmd + 12 = addressesAt cmd
  pos : 0 < alignment cmd
  aligned : espAt cmd % 4 = 0

/-- On the stack everything has its place. -/
theorem lies (hcmd : cmd ≠ []) (hlen : cmd.length < 4096) : Lies cmd := by
  obtain ⟨htok, hroom⟩ := length_tokens_le cmd
  obtain ⟨hle, hge⟩ := length_tokens_le_argCount hcmd
  constructor
  case tokens_le => exact hle
  case argCount_le => exact hge
  case argCount_lt => omega
  case room_le => exact hroom
  all_goals
    simp only [espAt, addressesAt, nullAt, alignment, argsAt, physBaseAddr]
    omega

theorem sub32_eq {a b c : Nat} (h : c + b = a) (ha : a ≤ physBaseAddr) : sub32 a b = c := by
  unfold physBaseAddr at ha
  unfold sub32
  omega

/-- `layoutArgs` with its addresses worked out. -/
theorem layoutArgs_eq (faults : Faults) (m : UserSpace) (htok : tokens cmd ≠ [])
    (hlen : cmd.length < 4096) : layoutArgs faults cmd physBaseAddr m = (do
      let m ← store faults (nullAt cmd + 4) (List.replicate (alignment cmd) 0) m
      let m ← store faults (nullAt cmd) (List.replicate 4 0) m
      let m ← store faults (espAt cmd + 8) (leBytes 4 (addressesAt cmd)) m
      let m ← store faults (espAt cmd + 4) (leBytes 4 (argCount cmd)) m
      let m ← store faults (espAt cmd) (List.replicate 4 0) m
      let m ← copyTokens faults (tokens cmd) (argsAt cmd) (addressesAt cmd) m
      .ok (espAt cmd, m)) := by
  have hcmd : cmd ≠ [] := fun hnil => htok (by rw [hnil]; exact words_nil)
  obtain ⟨_, _, _, _, htop, hnull, haddr, hesp, _, _⟩ := lies hcmd hlen
  have hscan : scanArgs cmd 1 0 false = (argCount cmd, cmd.length) := by
    refine Prod.ext rfl ?_
    rw [scanArgs_snd, Nat.zero_add]
  have htake : cmd.take 4095 = cmd := List.take_of_length_le (by omega)
  have h₁ : sub32 physBaseAddr (cmd.length + 1) = argsAt cmd := sub32_eq htop (le_refl _)
  have h₂ : sub32 (argsAt cmd) (4 - (cmd.length + 1) % 4) = nullAt cmd + 4 :=
    sub32_eq hnull (by omega)
  have h₃ : sub32 (nullAt cmd + 4) 4 = nullAt cmd := sub32_eq rfl (by omega)
  have h₄ : sub32 (nullAt cmd) (4 * argCount cmd) = addressesAt cmd := sub32_eq haddr (by omega)
  have h₅ : sub32 (addressesAt cmd) 4 = espAt cmd + 8 := sub32_eq (by omega) (by omega)
  have h₆ : sub32 (espAt cmd + 8) 4 = espAt cmd + 4 := sub32_eq (by omega) (by omega)
  have h₇ : sub32 (espAt cmd + 4) 4 = espAt cmd := sub32_eq rfl (by omega)
  unfold layoutArgs
  simp only [hscan, htake, h₁, h₂, h₃, h₄, h₅, h₆, h₇, copyArgs_eq]
  cases hstr : strtokR [space] cmd with
  | none =>
    rw [tokens_eq, hstr] at htok
    exact absurd rfl htok
  | some x =>
    obtain ⟨currArg, rest⟩ := x
    have htokens : tokens cmd = currArg :: tokens rest := by rw [tokens_eq, hstr]
    rw [htokens]
    rfl

/-- What the layout writes to. -/
def LayoutWrites (cmd : List UInt8) (x : Nat) : Prop :=
  (espAt cmd ≤ x ∧ x < espAt cmd + 12) ∨ (nullAt cmd ≤ x ∧ x < argsAt cmd) ∨
    CopyWrites (tokens cmd) (argsAt cmd) (addressesAt cmd) x

/-- What stands in memory after the layout. -/
structure LaidOut (cmd : List UInt8) (m' : UserSpace) : Prop where
  ret : m'.Holds (espAt cmd) (List.replicate 4 0)
  argc : m'.Holds (espAt cmd + 4) (leBytes 4 (argCount cmd))
  argv : m'.Holds (espAt cmd + 8) (leBytes 4 (addressesAt cmd))
  null : m'.Holds (nullAt cmd) (List.replicate 4 0)
  copy : ∀ i (h : i < (tokens cmd).length),
    m'.Holds (argsAt cmd + offset (tokens cmd) i) ((tokens cmd)[i] ++ [0])
  address : ∀ i < (tokens cmd).length,
    m'.Holds (addressesAt cmd + 4 * i) (leBytes 4 (argsAt cmd + offset (tokens cmd) i))

/-- The arguments are laid out as they should be. -/
theorem layoutArgs_eq_ok {esp : Nat} (htok : tokens cmd ≠ []) (hlen : cmd.length < 4096)
    (h : layoutArgs faults cmd physBaseAddr m = .ok (esp, m')) :
    esp = espAt cmd ∧ LaidOut cmd m' ∧
      ∀ x, LayoutWrites cmd x → m.Storable faults (x / 4096) := by
  have hcmd : cmd ≠ [] := fun hnil => htok (by rw [hnil]; exact words_nil)
  obtain ⟨hle, _, _, hroom, htop, hnull, haddr, hesp, _, _⟩ := lies hcmd hlen
  have hzeros : (List.replicate 4 (0 : UInt8)).length = 4 := List.length_replicate
  have halign : (List.replicate (alignment cmd) (0 : UInt8)).length = alignment cmd :=
    List.length_replicate
  have hword : ∀ n, (leBytes 4 n).length = 4 := length_leBytes 4
  rw [layoutArgs_eq faults m htok hlen] at h
  obtain ⟨m₁, h₁, h⟩ := bind_eq_ok.mp h
  obtain ⟨m₂, h₂, h⟩ := bind_eq_ok.mp h
  obtain ⟨m₃, h₃, h⟩ := bind_eq_ok.mp h
  obtain ⟨m₄, h₄, h⟩ := bind_eq_ok.mp h
  obtain ⟨m₅, h₅, h⟩ := bind_eq_ok.mp h
  obtain ⟨m₆, h₆, h⟩ := bind_eq_ok.mp h
  cases h
  obtain ⟨hs₁, ht₁⟩ := store_eq_ok (by omega) h₁
  obtain ⟨hs₂, ht₂⟩ := store_eq_ok (by omega) h₂
  obtain ⟨hs₃, ht₃⟩ := store_eq_ok (by rw [hword]; omega) h₃
  obtain ⟨hs₄, ht₄⟩ := store_eq_ok (by rw [hword]; omega) h₄
  obtain ⟨hs₅, ht₅⟩ := store_eq_ok (by omega) h₅
  obtain ⟨hc, ht₆⟩ := copyTokens_eq_ok (by omega) (by omega) h₆
  rw [halign] at ht₁
  rw [hzeros] at ht₂ ht₅
  rw [hword] at ht₃ ht₄
  refine ⟨rfl, ⟨?_, ?_, ?_, ?_, hc.copy, hc.address⟩, ?_⟩
  · exact hc.keeps hs₅.holds (by omega) (by omega)
  · have h₁ := hs₄.holds.frame hs₅ (by rw [hword]; omega)
    exact hc.keeps h₁ (by rw [hword]; omega) (by rw [hword]; omega)
  · have h₁ := hs₃.holds.frame hs₄ (by rw [hword, hword]; omega)
    have h₂ := h₁.frame hs₅ (by rw [hword]; omega)
    exact hc.keeps h₂ (by rw [hword]; omega) (by rw [hword]; omega)
  · have h₁ := hs₂.holds.frame hs₃ (by rw [hword]; omega)
    have h₂ := h₁.frame hs₄ (by rw [hword]; omega)
    have h₃ := h₂.frame hs₅ (by omega)
    exact hc.keeps h₃ (by omega) (by omega)
  · -- what can be stored to is the same all along
    have hst : ∀ u, (m₁.Storable faults u ↔ m.Storable faults u) ∧
        (m₂.Storable faults u ↔ m.Storable faults u) ∧
        (m₃.Storable faults u ↔ m.Storable faults u) ∧
        (m₄.Storable faults u ↔ m.Storable faults u) ∧
        (m₅.Storable faults u ↔ m.Storable faults u) := by
      intro u
      simp only [hs₅.storable, hs₄.storable, hs₃.storable, hs₂.storable, hs₁.storable, and_self]
    have hin : ∀ {a x n : Nat} {s : UserSpace},
        (∀ i < n, s.Storable faults ((a + i) / 4096)) → a ≤ x → x < a + n →
          s.Storable faults (x / 4096) := by
      intro a x n s hs hax hxn
      have := hs (x - a) (by omega)
      rwa [Nat.add_sub_cancel' hax] at this
    rintro x (⟨hlo, hhi⟩ | ⟨hlo, hhi⟩ | hx)
    · by_cases hx₁ : x < espAt cmd + 4
      · exact (hst _).2.2.2.1.mp (hin ht₅ hlo hx₁)
      · by_cases hx₂ : x < espAt cmd + 4 + 4
        · exact (hst _).2.2.1.mp (hin ht₄ (by omega) hx₂)
        · exact (hst _).2.1.mp (hin ht₃ (by omega) (by omega))
    · by_cases hx₁ : x < nullAt cmd + 4
      · exact (hst _).1.mp (hin ht₂ hlo hx₁)
      · exact hin ht₁ (by omega) (by omega)
    · exact (hst _).2.2.2.2.mp (ht₆ x hx)

/-- The layout succeeds when all the pages it writes to can be written. -/
theorem layoutArgs_ok (htok : tokens cmd ≠ []) (hlen : cmd.length < 4096)
    (h : ∀ x, LayoutWrites cmd x → m.Storable faults (x / 4096)) :
    ∃ m', layoutArgs faults cmd physBaseAddr m = .ok (espAt cmd, m') := by
  have hcmd : cmd ≠ [] := fun hnil => htok (by rw [hnil]; exact words_nil)
  obtain ⟨hle, _, _, hroom, htop, hnull, haddr, hesp, _, _⟩ := lies hcmd hlen
  have hzeros : (List.replicate 4 (0 : UInt8)).length = 4 := List.length_replicate
  have halign : (List.replicate (alignment cmd) (0 : UInt8)).length = alignment cmd :=
    List.length_replicate
  have hword : ∀ n, (leBytes 4 n).length = 4 := length_leBytes 4
  -- a store of `bs` at `a`, from a state like the first
  have hstore : ∀ (a : Nat) (bs : List UInt8) (s : UserSpace), a + bs.length ≤ physBaseAddr →
      (∀ u, s.Storable faults u ↔ m.Storable faults u) →
      (∀ x, a ≤ x → x < a + bs.length → LayoutWrites cmd x) →
      ∃ s', store faults a bs s = .ok s' ∧ ∀ u, s'.Storable faults u ↔ m.Storable faults u := by
    intro a bs s hle hs hw
    obtain ⟨s', hs'⟩ := store_ok hle fun i hi =>
      (hs _).mpr (h (a + i) (hw _ (by omega) (by omega)))
    exact ⟨s', hs', fun u => ((store_eq_ok hle hs').1.storable u).trans (hs u)⟩
  unfold LayoutWrites at hstore h
  obtain ⟨m₁, h₁, hs₁⟩ := hstore (nullAt cmd + 4) (List.replicate (alignment cmd) 0) m (by omega)
    (fun _ => Iff.rfl) (by omega)
  obtain ⟨m₂, h₂, hs₂⟩ := hstore (nullAt cmd) (List.replicate 4 0) m₁ (by omega) hs₁ (by omega)
  obtain ⟨m₃, h₃, hs₃⟩ := hstore (espAt cmd + 8) (leBytes 4 (addressesAt cmd)) m₂
    (by rw [hword]; omega) hs₂ (by rw [hword]; omega)
  obtain ⟨m₄, h₄, hs₄⟩ := hstore (espAt cmd + 4) (leBytes 4 (argCount cmd)) m₃
    (by rw [hword]; omega) hs₃ (by rw [hword]; omega)
  obtain ⟨m₅, h₅, hs₅⟩ := hstore (espAt cmd) (List.replicate 4 0) m₄ (by omega) hs₄ (by omega)
  obtain ⟨m₆, h₆⟩ : ∃ m₆, copyTokens faults (tokens cmd) (argsAt cmd) (addressesAt cmd) m₅ =
      .ok m₆ :=
    copyTokens_ok (by omega) (by omega) fun x hx => (hs₅ _).mpr (h x (.inr (.inr hx)))
  refine ⟨m₆, ?_⟩
  rw [layoutArgs_eq faults m htok hlen]
  exact bind_eq_ok.mpr ⟨m₁, h₁, bind_eq_ok.mpr ⟨m₂, h₂, bind_eq_ok.mpr ⟨m₃, h₃,
    bind_eq_ok.mpr ⟨m₄, h₄, bind_eq_ok.mpr ⟨m₅, h₅, bind_eq_ok.mpr ⟨m₆, h₆, rfl⟩⟩⟩⟩⟩⟩

/-- The pages that the layout writes to are all those from the stack pointer up: what it leaves out
below its copies are two words at most. -/
theorem layoutWrites_pages (htok : tokens cmd ≠ []) (hlen : cmd.length < 4096) {u : Nat}
    (hlow : espAt cmd / 4096 ≤ u) (hu : u < 0xC0000) :
    ∃ x, LayoutWrites cmd x ∧ x / 4096 = u := by
  have hcmd : cmd ≠ [] := fun hnil => htok (by rw [hnil]; exact words_nil)
  obtain ⟨hle, hge, _, hroom, htop, hnull, haddr, hesp, _, _⟩ := lies hcmd hlen
  have hpos : 0 < (tokens cmd).length := List.length_pos_iff.mpr htok
  unfold physBaseAddr at htop
  unfold LayoutWrites CopyWrites
  by_cases hlast : u = 0xBFFFF
  · -- the copies start in the last page
    have hfirst : 0 < room (tokens cmd) := by
      obtain ⟨t, ts, hts⟩ := List.exists_cons_of_ne_nil htok
      rw [hts, room_cons]
      omega
    exact ⟨argsAt cmd, .inr (.inr (.inl ⟨le_refl _, by omega⟩)), by omega⟩
  · by_cases hgap : addressesAt cmd + 4 * (tokens cmd).length ≤ 4096 * u + 4095 ∧
        4096 * u + 4095 < nullAt cmd
    · exact ⟨addressesAt cmd + 4 * (tokens cmd).length - 1, by omega, by omega⟩
    · exact ⟨4096 * u + 4095, by omega, by omega⟩

/-- The layout succeeds exactly when every page from the stack pointer up can be written. -/
theorem layoutArgs_ok_iff (htok : tokens cmd ≠ []) (hlen : cmd.length < 4096) :
    (∃ esp m', layoutArgs faults cmd physBaseAddr m = .ok (esp, m')) ↔
      ∀ u : Nat, espAt cmd / 4096 ≤ u → u < 0xC0000 → m.Storable faults u := by
  have hcmd : cmd ≠ [] := fun hnil => htok (by rw [hnil]; exact words_nil)
  obtain ⟨hle, _, _, hroom, htop, hnull, haddr, hesp, _, _⟩ := lies hcmd hlen
  constructor
  · rintro ⟨esp, m', h⟩ u hlow hu
    obtain ⟨x, hx, rfl⟩ := layoutWrites_pages htok hlen hlow hu
    exact (layoutArgs_eq_ok htok hlen h).2.2 x hx
  · intro h
    obtain ⟨m', hm'⟩ := layoutArgs_ok (m := m) htok hlen fun x hx => by
      unfold LayoutWrites CopyWrites at hx
      unfold physBaseAddr at htop
      exact h (x / 4096) (by omega) (by omega)
    exact ⟨_, m', hm'⟩

end Pintos.Loading
