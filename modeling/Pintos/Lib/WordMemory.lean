import Pintos.Lib.Bytes

/-!
# Words in memory

A memory of bytes, with words of four bytes, least significant first. A read depends on the bytes it
covers, and a write leaves the others.
-/

namespace Pintos.Lib

abbrev Memory := Nat → UInt8

namespace Memory

variable {m m' m'' : Memory} {a b n k v i : Nat} {c : UInt8}

/-- The word at `a`. -/
def load (m : Memory) (a : Nat) : Nat := ofLe [m a, m (a + 1), m (a + 2), m (a + 3)]

/-- A word put in at `a`. -/
def store (m : Memory) (a v : Nat) : Memory := fun i =>
  if a ≤ i ∧ i < a + 4 then (leBytes 4 v).getD (i - a) 0 else m i

/-- `memset`: `n` bytes from `a` on. -/
def fill (m : Memory) (a n : Nat) (c : UInt8) : Memory := fun i =>
  if a ≤ i ∧ i < a + n then c else m i

/-- `memcpy`: `n` bytes at `a`, from those at `b`, where the two do not overlap. -/
def copy (m : Memory) (a b n : Nat) : Memory := fun i =>
  if a ≤ i ∧ i < a + n then m (b + (i - a)) else m i

/-- The `n` bytes from `a` on are the same. -/
def Agree (m m' : Memory) (a n : Nat) : Prop := ∀ i, a ≤ i → i < a + n → m' i = m i

theorem Agree.refl (m : Memory) (a n : Nat) : Agree m m a n := fun _ _ _ => rfl

theorem Agree.trans (h : Agree m m' a n) (h' : Agree m' m'' a n) : Agree m m'' a n :=
  fun i hlow hhigh => (h' i hlow hhigh).trans (h i hlow hhigh)

/-- Part of what is the same. -/
theorem Agree.sub (h : Agree m m' a n) (hlow : a ≤ b) (hhigh : b + k ≤ a + n) : Agree m m' b k :=
  fun i hi hi' => h i (by omega) (by omega)

/-- Where two memories agree they hold the same word. -/
theorem Agree.load (h : Agree m m' a 4) : m'.load a = m.load a := by
  unfold Memory.load
  rw [h a (by omega) (by omega), h (a + 1) (by omega) (by omega), h (a + 2) (by omega) (by omega),
    h (a + 3) (by omega) (by omega)]

/-- A word has 32 bits. -/
theorem load_lt (m : Memory) (a : Nat) : m.load a < 2 ^ 32 := by
  have h₀ := (m a).toNat_lt
  have h₁ := (m (a + 1)).toNat_lt
  have h₂ := (m (a + 2)).toNat_lt
  have h₃ := (m (a + 3)).toNat_lt
  simp only [load, ofLe]
  omega

/-- A word that fits is read back. -/
theorem load_store_self (h : v < 2 ^ 32) : (m.store a v).load a = v := by
  have hbyte : ∀ j < 4, m.store a v (a + j) = (leBytes 4 v).getD j 0 := by
    intro j hj
    unfold store
    rw [if_pos (by omega), Nat.add_sub_cancel_left]
  have hlist : [m.store a v a, m.store a v (a + 1), m.store a v (a + 2), m.store a v (a + 3)] =
      leBytes 4 v := by
    have hfirst := hbyte 0 (by omega)
    rw [Nat.add_zero] at hfirst
    rw [hfirst, hbyte 1 (by omega), hbyte 2 (by omega), hbyte 3 (by omega)]
    rfl
  unfold load
  rw [hlist, ofLe_leBytes_of_lt h]

/-! ## What a write leaves -/

/-- A store elsewhere changes nothing here. -/
theorem agree_store (h : b + n ≤ a ∨ a + 4 ≤ b) : Agree m (m.store a v) b n :=
  fun i hlow hhigh => if_neg (by omega)

/-- A fill elsewhere changes nothing here. -/
theorem agree_fill (h : b + k ≤ a ∨ a + n ≤ b) : Agree m (m.fill a n c) b k :=
  fun i hlow hhigh => if_neg (by omega)

/-- A copy to elsewhere changes nothing here. -/
theorem agree_copy {src : Nat} (h : b + k ≤ a ∨ a + n ≤ b) : Agree m (m.copy a src n) b k :=
  fun i hlow hhigh => if_neg (by omega)

/-- A word elsewhere is read as it was. -/
theorem load_store_of_apart (h : b + 4 ≤ a ∨ a + 4 ≤ b) : (m.store a v).load b = m.load b :=
  (agree_store h).load

end Memory

end Pintos.Lib
