import Pintos.Lib.Fallible
import Pintos.Lib.WordMemory

/-!
# `memmove`

The copy of `lib/string.c` between ranges that may overlap. Pointers have 32 bits; a pointer just past
a range may wrap around to 0.

The bytes are right for every overlap (`memmove_ok`): the loop upwards is ahead of what it overwrites
where `dst` is below `src`, the loop downwards where it is not. The pointer that comes back is the one
the loops have stepped (`memmove_returns_dst_iff`).
-/

namespace Pintos.Libc

open Pintos.Lib Pintos.Lib.Memory

inductive MemmoveFault where
  /-- `dst != NULL || size == 0`. -/
  | dstNull
  /-- `src != NULL || size == 0`. -/
  | srcNull
  deriving DecidableEq, Repr

/-- `while (size-- > 0) *dst++ = *src++;`, with the `dst` it ends at. -/
def copyUp : Nat → Nat → Nat → Memory → Memory × Nat
  | 0, dst, _, m => (m, dst)
  | size + 1, dst, src, m =>
    copyUp size ((dst + 1) % 2 ^ 32) ((src + 1) % 2 ^ 32) (Function.update m dst (m src))

/-- `while (size-- > 0) *--dst = *--src;`, with the `dst` it ends at. -/
def copyDown : Nat → Nat → Nat → Memory → Memory × Nat
  | 0, dst, _, m => (m, dst)
  | size + 1, dst, src, m =>
    let dst := (dst + (2 ^ 32 - 1)) % 2 ^ 32
    let src := (src + (2 ^ 32 - 1)) % 2 ^ 32
    copyDown size dst src (Function.update m dst (m src))

/-- `memmove`: the memory after it, and what it returns. -/
def memmove (dst src size : Nat) (m : Memory) : Except MemmoveFault (Memory × Nat) :=
  if ¬(dst ≠ 0 ∨ size = 0) then .error .dstNull
  else if ¬(src ≠ 0 ∨ size = 0) then .error .srcNull
  else if dst < src then .ok (copyUp size dst src m)
  else .ok (copyDown size ((dst + size) % 2 ^ 32) ((src + size) % 2 ^ 32) m)

variable {dst src size : Nat}

/-! ## The two loops -/

/-- The loop upwards writes below what it still has to read. -/
theorem copyUp_eq (hlt : dst < src) (hsrc : src + size ≤ 2 ^ 32) (m : Memory) :
    copyUp size (dst % 2 ^ 32) (src % 2 ^ 32) m = (m.copy dst src size, (dst + size) % 2 ^ 32) := by
  induction size generalizing dst src m with
  | zero =>
    have hcopy : m.copy dst src 0 = m := funext fun p => if_neg (by omega)
    rw [hcopy]
    rfl
  | succ size ih =>
    have hd : dst % 2 ^ 32 = dst := Nat.mod_eq_of_lt (by omega)
    have hs : src % 2 ^ 32 = src := Nat.mod_eq_of_lt (by omega)
    have hcopy : Memory.copy (Function.update m dst (m src)) (dst + 1) (src + 1) size =
        m.copy dst src (size + 1) := by
      funext p
      unfold copy
      by_cases hp : p = dst
      · rw [if_neg (by omega), if_pos (by omega), hp, Function.update_self, Nat.sub_self, Nat.add_zero]
      · by_cases hin : dst + 1 ≤ p ∧ p < dst + 1 + size
        · have heq : src + 1 + (p - (dst + 1)) = src + (p - dst) := by omega
          rw [if_pos hin, if_pos (by omega), heq, Function.update_of_ne (by omega)]
        · rw [if_neg hin, if_neg (by omega), Function.update_of_ne hp]
    unfold copyUp
    rw [hd, hs, ih (by omega) (by omega), hcopy, Nat.add_assoc, Nat.add_comm 1 size]

/-- The loop downwards writes above what it still has to read, or over what it has just read. -/
theorem copyDown_eq (hle : src ≤ dst) (hdst : dst + size ≤ 2 ^ 32) (m : Memory) :
    copyDown size ((dst + size) % 2 ^ 32) ((src + size) % 2 ^ 32) m =
      (m.copy dst src size, dst % 2 ^ 32) := by
  induction size generalizing m with
  | zero =>
    have hcopy : m.copy dst src 0 = m := funext fun p => if_neg (by omega)
    rw [hcopy]
    rfl
  | succ size ih =>
    have hd : ((dst + (size + 1)) % 2 ^ 32 + (2 ^ 32 - 1)) % 2 ^ 32 = (dst + size) % 2 ^ 32 := by omega
    have hs : ((src + (size + 1)) % 2 ^ 32 + (2 ^ 32 - 1)) % 2 ^ 32 = (src + size) % 2 ^ 32 := by omega
    have hd' : (dst + size) % 2 ^ 32 = dst + size := Nat.mod_eq_of_lt (by omega)
    have hs' : (src + size) % 2 ^ 32 = src + size := Nat.mod_eq_of_lt (by omega)
    have hcopy : Memory.copy (Function.update m (dst + size) (m (src + size))) dst src size =
        m.copy dst src (size + 1) := by
      funext p
      unfold copy
      by_cases hp : p = dst + size
      · rw [if_neg (by omega), if_pos (by omega), hp, Function.update_self, Nat.add_sub_cancel_left]
      · by_cases hin : dst ≤ p ∧ p < dst + size
        · rw [if_pos hin, if_pos (by omega), Function.update_of_ne (by omega)]
        · rw [if_neg hin, if_neg (by omega), Function.update_of_ne hp]
    unfold copyDown
    dsimp only
    rw [hd, hs, ih (by omega), hd', hs', hcopy]

/-! ## What `memmove` does -/

/-- Two ranges in the address space. -/
structure Ranges (dst src size : Nat) : Prop where
  dstLt : dst < 2 ^ 32
  srcLt : src < 2 ^ 32
  dstEnd : dst + size ≤ 2 ^ 32
  srcEnd : src + size ≤ 2 ^ 32

/-- What the assertions of `memmove` ask for. -/
def NotNull (dst src size : Nat) : Prop := (dst ≠ 0 ∨ size = 0) ∧ (src ≠ 0 ∨ size = 0)

/-- The bytes are the old ones of the source, whichever way they are copied. -/
theorem memmove_ok (h : Ranges dst src size) (hnull : NotNull dst src size) (m : Memory) :
    memmove dst src size m =
      .ok (m.copy dst src size, if dst < src then (dst + size) % 2 ^ 32 else dst) := by
  unfold memmove
  rw [if_neg (not_not_intro hnull.1), if_neg (not_not_intro hnull.2)]
  by_cases hlt : dst < src
  · have hup := copyUp_eq hlt h.srcEnd m
    rw [Nat.mod_eq_of_lt h.dstLt, Nat.mod_eq_of_lt h.srcLt] at hup
    rw [if_pos hlt, if_pos hlt, hup]
  · rw [if_neg hlt, if_neg hlt, copyDown_eq (by omega) h.dstEnd, Nat.mod_eq_of_lt h.dstLt]

theorem memmove_asserts {m : Memory} {r : Memory × Nat} (hrun : memmove dst src size m = .ok r) :
    NotNull dst src size := by
  unfold memmove at hrun
  obtain ⟨hdst, hrun⟩ := guard_eq_ok.mp hrun
  obtain ⟨hsrc, hrun⟩ := guard_eq_ok.mp hrun
  exact ⟨not_not.mp hdst, not_not.mp hsrc⟩

/-- The bytes that `memmove` moves, and those it leaves. -/
structure Moved (m m' : Memory) (dst src size : Nat) : Prop where
  inside : ∀ i < size, m' (dst + i) = m (src + i)
  outside : ∀ p, p < dst ∨ dst + size ≤ p → m' p = m p

theorem moved_copy (m : Memory) (dst src size : Nat) : Moved m (m.copy dst src size) dst src size where
  inside := fun i hi => by
    unfold copy
    rw [if_pos (by omega), Nat.add_sub_cancel_left]
  outside := fun p hp => if_neg (by omega)

/-- `memmove` copies and returns `dst` if nothing is to be copied, or `dst` is not below `src`. -/
theorem memmove_returns_dst_iff (m : Memory) (h : Ranges dst src size) :
    (∃ m', memmove dst src size m = .ok (m', dst) ∧ Moved m m' dst src size) ↔
      size = 0 ∨ (dst ≠ 0 ∧ src ≠ 0 ∧ src ≤ dst) := by
  constructor
  · rintro ⟨m', hrun, -⟩
    have hnull := memmove_asserts hrun
    rw [memmove_ok h hnull] at hrun
    obtain ⟨-, hret⟩ := Prod.mk.inj (Except.ok.inj hrun)
    unfold NotNull at hnull
    have hdst := h.dstLt
    have hend := h.dstEnd
    have hsrc := h.srcEnd
    by_cases hlt : dst < src
    · rw [if_pos hlt] at hret
      omega
    · omega
  · intro hcase
    have hnull : NotNull dst src size := by
      unfold NotNull
      omega
    have hret : (if dst < src then (dst + size) % 2 ^ 32 else dst) = dst := by
      have hdst := h.dstLt
      split
      · rw [hcase.resolve_right (by omega), Nat.add_zero, Nat.mod_eq_of_lt hdst]
      · rfl
    refine ⟨m.copy dst src size, ?_, moved_copy m dst src size⟩
    rw [memmove_ok h hnull, hret]

/-- Two bytes up by one. -/
theorem memmove_returns_dst_iff_up :
    ∃ m', memmove 1001 1000 2 UInt8.ofNat = .ok (m', 1001) ∧ Moved UInt8.ofNat m' 1001 1000 2 :=
  (memmove_returns_dst_iff UInt8.ofNat ⟨by omega, by omega, by omega, by omega⟩).mpr (.inr (by omega))

/-- One byte down by one: the pointer comes back as 1001. -/
theorem memmove_returns_past : ¬∀ (m : Memory) (dst src size : Nat), Ranges dst src size →
    dst ≠ 0 → src ≠ 0 → ∃ m', memmove dst src size m = .ok (m', dst) ∧ Moved m m' dst src size := by
  intro h
  obtain ⟨m', hrun, -⟩ := h (fun _ => 0) 1000 1001 1 ⟨by omega, by omega, by omega, by omega⟩
    (by omega) (by omega)
  have hret := congrArg (Except.map Prod.snd) hrun
  simp [memmove, copyUp, Except.map] at hret

end Pintos.Libc
