import Mathlib.Data.Nat.Bitwise

/-!
# The keyboard

`keyboard_interrupt` of `devices/kbd.c`. Whatever has been typed before, a key counts as held when its
last scancode was that of a press, and caps lock is on after an odd number of presses
(`Held.of_interrupt`).
-/

namespace Pintos.Devices

/-- The static variables of `kbd.c`. -/
structure Kbd where
  leftShift : Bool := false
  rightShift : Bool := false
  leftAlt : Bool := false
  rightAlt : Bool := false
  leftCtrl : Bool := false
  rightCtrl : Bool := false
  capsLock : Bool := false
  keyCnt : Nat := 0
  deriving DecidableEq, Repr

/-! ## Keymaps -/

def chars (s : String) : List UInt8 := s.toList.map fun c => UInt8.ofNat c.toNat

/-- A `struct keymap` is its first scancode and its characters. -/
abbrev Keymap := List (Nat × List UInt8)

/-- `invariant_keymap`. -/
def invariantKeymap : Keymap :=
  [(0x01, chars "\x1b"), (0x0e, chars "\x08"), (0x0f, chars "\tQWERTYUIOP"), (0x1c, chars "\r"),
    (0x1e, chars "ASDFGHJKL"), (0x2c, chars "ZXCVBNM"), (0x37, chars "*"), (0x39, chars " "),
    (0x53, chars "\x7f")]

/-- `unshifted_keymap`. -/
def unshiftedKeymap : Keymap :=
  [(0x02, chars "1234567890-="), (0x1a, chars "[]"), (0x27, chars ";'`"), (0x2b, chars "\\"),
    (0x33, chars ",./")]

/-- `shifted_keymap`. -/
def shiftedKeymap : Keymap :=
  [(0x02, chars "!@#$%^&*()_+"), (0x1a, chars "\x7b\x7d"), (0x27, chars ":\"~"), (0x2b, chars "|"),
    (0x33, chars "<>?")]

/-- `map_key`. -/
def mapKey : Keymap → Nat → Option UInt8
  | [], _ => none
  | (first, chars) :: k, scancode =>
    if first ≤ scancode ∧ scancode < first + chars.length then chars[scancode - first]?
    else mapKey k scancode

/-! ## Scancodes -/

/-- What is read from the data register: a byte, and a second one behind a prefix. -/
abbrev Scancode := UInt8 × UInt8

/-- The scancode as it is read. -/
def Scancode.raw (x : Scancode) : Nat :=
  if x.1 = 0xe0 then (x.1.toNat <<< 8) ||| x.2.toNat else x.1.toNat

/-- `release`. -/
def Scancode.release (x : Scancode) : Bool := x.raw &&& 0x80 != 0

/-- `code &= ~0x80u`. -/
def Scancode.code (x : Scancode) : Nat := x.raw &&& 0xffffff7f

/-- `tolower`. -/
def tolower (c : UInt8) : UInt8 := if 65 ≤ c ∧ c ≤ 90 then c - 65 + 97 else c

/-! ## The handler -/

namespace Kbd

variable (k : Kbd)

def shift : Bool := k.leftShift || k.rightShift

def alt : Bool := k.leftAlt || k.rightAlt

def ctrl : Bool := k.leftCtrl || k.rightCtrl

/-- The character of a key, as the `||` of the `map_key`s finds it. -/
def lookup (code : Nat) : Option UInt8 :=
  mapKey invariantKeymap code <|>
    (if k.shift then none else mapKey unshiftedKeymap code) <|>
    (if k.shift then mapKey shiftedKeymap code else none)

/-- What Ctrl, Shift, caps lock and Alt make of it. -/
def modify (c : UInt8) : UInt8 :=
  let c := if k.ctrl ∧ 0x40 ≤ c ∧ c < 0x60 then c - 0x40
    else if k.shift = k.capsLock then tolower c else c
  if k.alt then c + 0x80 else c

/-- The table `shift_keys`. -/
def setShift (code : Nat) (down : Bool) : Kbd :=
  if code = 0x2a then { k with leftShift := down }
  else if code = 0x36 then { k with rightShift := down }
  else if code = 0x38 then { k with leftAlt := down }
  else if code = 0xe038 then { k with rightAlt := down }
  else if code = 0x1d then { k with leftCtrl := down }
  else if code = 0xe01d then { k with rightCtrl := down }
  else k

end Kbd

/-- `keyboard_interrupt`: the character for the input buffer, `full` or not, or none, and `none` for
`shutdown_reboot`. -/
def keyboardInterrupt (x : Scancode) (full : Bool) (k : Kbd) : Option (Option UInt8 × Kbd) :=
  if x.code = 0x3a then
    some (none, if x.release then k else { k with capsLock := !k.capsLock })
  else
    match k.lookup x.code with
    | some c =>
      if x.release then some (none, k)
      else if c = 0x7f ∧ k.ctrl ∧ k.alt then none
      else if full then some (none, k)
      else some (some (k.modify c), { k with keyCnt := k.keyCnt + 1 })
    | none => some (none, k.setShift x.code (!x.release))

/-! ## Keys that are held -/

/-- The last scancode of the key is that of a press. -/
def held (code : Nat) (history : List Scancode) : Bool :=
  history.foldl (fun down x => if x.code = code then !x.release else down) false

def presses (code : Nat) (history : List Scancode) : Nat :=
  history.countP fun x => x.code == code && !x.release

/-- The keys of `shift_keys`, with their variables. -/
def shiftKeys : List (Nat × (Kbd → Bool)) :=
  [(0x2a, Kbd.leftShift), (0x36, Kbd.rightShift), (0x38, Kbd.leftAlt), (0xe038, Kbd.rightAlt),
    (0x1d, Kbd.leftCtrl), (0xe01d, Kbd.rightCtrl)]

/-- The variables say what is held. -/
structure Held (history : List Scancode) (k : Kbd) : Prop where
  shift : ∀ key ∈ shiftKeys, key.2 k = held key.1 history
  capsLock : k.capsLock = (presses 0x3a history).bodd

variable {history : List Scancode} {k k' : Kbd} {x : Scancode} {full : Bool} {c : Option UInt8}
  {code : Nat}

theorem held_concat (code : Nat) (history : List Scancode) (x : Scancode) :
    held code (history ++ [x]) = if x.code = code then !x.release else held code history := by
  unfold held
  rw [List.foldl_append]
  rfl

theorem presses_concat (code : Nat) (history : List Scancode) (x : Scancode) :
    presses code (history ++ [x]) =
      presses code history + if x.code == code && !x.release then 1 else 0 := by
  unfold presses
  rw [List.countP_append, List.countP_singleton]

/-- `setShift` sets the variable of its key, and no other. -/
theorem var_setShift {key : Nat × (Kbd → Bool)} (hkey : key ∈ shiftKeys) (k : Kbd) (code : Nat)
    (down : Bool) : key.2 (k.setShift code down) = if code = key.1 then down else key.2 k := by
  unfold Kbd.setShift
  simp only [shiftKeys, List.mem_cons, List.not_mem_nil, or_false] at hkey
  rcases hkey with rfl | rfl | rfl | rfl | rfl | rfl
  all_goals
    dsimp only
    split_ifs <;> first | rfl | omega

theorem capsLock_setShift (k : Kbd) (code : Nat) (down : Bool) :
    (k.setShift code down).capsLock = k.capsLock := by
  unfold Kbd.setShift
  split_ifs <;> rfl

/-- What the shift keys depend on. -/
theorem var_congr {key : Nat × (Kbd → Bool)} (hkey : key ∈ shiftKeys) (caps : Bool) (n : Nat) :
    key.2 { k with capsLock := caps, keyCnt := n } = key.2 k := by
  simp only [shiftKeys, List.mem_cons, List.not_mem_nil, or_false] at hkey
  rcases hkey with rfl | rfl | rfl | rfl | rfl | rfl <;> rfl

/-- The shift keys and caps lock have no character. -/
theorem lookup_modifier (h : code = 0x3a ∨ ∃ key ∈ shiftKeys, key.1 = code) (k : Kbd) :
    k.lookup code = none := by
  have hnone : ∀ code ∈ 0x3a :: shiftKeys.map Prod.fst, mapKey invariantKeymap code = none ∧
      mapKey unshiftedKeymap code = none ∧ mapKey shiftedKeymap code = none := by decide
  have hmem : code ∈ 0x3a :: shiftKeys.map Prod.fst := by
    rcases h with rfl | ⟨key, hkey, rfl⟩
    · exact List.mem_cons_self
    · exact List.mem_cons_of_mem _ (List.mem_map_of_mem hkey)
  obtain ⟨hinv, hun, hsh⟩ := hnone code hmem
  unfold Kbd.lookup
  rw [hinv, hun, hsh]
  cases k.shift <;> rfl

/-- One scancode more. -/
theorem Held.of_scancode (h : Held history k)
    (hshift : ∀ key ∈ shiftKeys, key.2 k' = if x.code = key.1 then !x.release else key.2 k)
    (hcaps : k'.capsLock = if x.code = 0x3a ∧ x.release = false then !k.capsLock else k.capsLock) :
    Held (history ++ [x]) k' := by
  refine ⟨fun key hkey => ?_, ?_⟩
  · rw [hshift key hkey, held_concat, h.shift key hkey]
  · rw [hcaps, presses_concat, h.capsLock]
    by_cases hpress : x.code = 0x3a ∧ x.release = false
    · rw [if_pos hpress, if_pos (by rw [hpress.1, hpress.2]; rfl), Nat.bodd_succ]
    · rw [if_neg hpress, if_neg, Nat.add_zero]
      intro hx
      rw [Bool.and_eq_true, beq_iff_eq, Bool.not_eq_true'] at hx
      exact hpress hx

/-- The handler keeps track of what is held. -/
theorem Held.of_interrupt (h : Held history k) (hx : keyboardInterrupt x full k = some (c, k')) :
    Held (history ++ [x]) k' := by
  unfold keyboardInterrupt at hx
  split at hx
  next hcaps =>
    cases hx
    have hother : ∀ key ∈ shiftKeys, x.code ≠ key.1 := by
      rw [hcaps]
      decide
    refine h.of_scancode (fun key hkey => ?_) ?_
    · rw [if_neg (hother key hkey)]
      cases x.release with
      | true => rfl
      | false => exact var_congr hkey _ _
    · cases hrel : x.release with
      | true => exact (if_neg fun hh => Bool.noConfusion hh.2).symm
      | false => exact (if_pos ⟨hcaps, rfl⟩).symm
  next hcaps =>
    have hkeep : ∀ caps, (if x.code = 0x3a ∧ x.release = false then !caps else caps) = caps :=
      fun caps => if_neg fun hh => hcaps hh.1
    split at hx
    next ch hlook =>
      have hother : ∀ key ∈ shiftKeys, x.code ≠ key.1 := by
        intro key hkey heq
        rw [lookup_modifier (.inr ⟨key, hkey, heq.symm⟩)] at hlook
        cases hlook
      have hstay : ∀ n, Held (history ++ [x]) { k with keyCnt := n } := fun n =>
        h.of_scancode (fun key hkey => (var_congr hkey _ n).trans (if_neg (hother key hkey)).symm)
          (hkeep _).symm
      split at hx
      next =>
        cases hx
        exact hstay k.keyCnt
      split at hx
      next => cases hx
      split at hx
      next =>
        cases hx
        exact hstay k.keyCnt
      next =>
        cases hx
        exact hstay _
    next =>
      cases hx
      refine h.of_scancode (fun key hkey => var_setShift hkey k _ _) ?_
      rw [hkeep, capsLock_setShift]

theorem held_nil : Held [] {} := by
  refine ⟨?_, rfl⟩
  decide

end Pintos.Devices
