import Mathlib.Data.List.Nodup
import Pintos.Lib.Exclusive
import Pintos.Lib.Run
import Pintos.Memory.Palloc

/-!
# No page is handed out twice

Every bit that is set belongs to a group that is handed out or to a thread in the middle of a call:
one that has flipped it and has not returned, or one that frees it and has not cleared it yet. Bits
are set by the holder of the lock only, so a bit the holder has seen clear is clear when it flips it,
whatever the frees do meanwhile.
-/

namespace Pintos.Memory

open Pintos.Lib

variable {pools : Pools} {s s' : State} {t u : ThreadRef}

/-! ## The pools -/

/-- The two pools, each behind its bitmap, do not meet. -/
structure Pools.Apart (pools : Pools) : Prop where
  start : 0 < (pools .kernel).usedMap
  kernel : (pools .kernel).usedMap ≤ (pools .kernel).base
  between : (pools .kernel).base + (pools .kernel).bitCnt ≤ (pools .user).usedMap
  user : (pools .user).usedMap ≤ (pools .user).base

/-- A pool lies behind its bitmap, and ends where it was told to. -/
theorem initPool_eq_ok {base : Nat} {pageCnt : Nat} {p : Pool} (h : initPool base pageCnt = .ok p) :
    p.usedMap = base ∧ base ≤ p.base ∧ p.base + p.bitCnt = base + pageCnt := by
  unfold initPool at h
  dsimp only at h
  split at h
  next => cases h
  next hle =>
    cases h
    dsimp only
    omega

/-- The two pools are apart. -/
theorem pallocInit_apart {userPageLimit initRamPages : Nat}
    (h : pallocInit userPageLimit initRamPages = .ok pools) : pools.Apart := by
  obtain ⟨k, hk, h⟩ := bind_eq_ok.mp h
  obtain ⟨v, hv, h⟩ := bind_eq_ok.mp h
  cases h
  obtain ⟨hk₁, hk₂, hk₃⟩ := initPool_eq_ok hk
  obtain ⟨hv₁, hv₂, _⟩ := initPool_eq_ok hv
  have hfree : 0 < freeStart := by decide
  constructor
  · show 0 < k.usedMap
    omega
  · show k.usedMap ≤ k.base
    omega
  · show k.base + k.bitCnt ≤ v.usedMap
    omega
  · show v.usedMap ≤ v.base
    omega

/-! ## Who holds a bit -/

/-- The bits of a group. -/
def Group.Holds (pools : Pools) (g : Group) (c : PoolRef × Nat) : Prop :=
  c.1 = g.pool ∧ g.pages ≤ (pools g.pool).base + c.2 ∧
    (pools g.pool).base + c.2 < g.pages + g.pageCnt

/-- The bits a thread holds in the middle of a call. -/
def Place.Holds (c : PoolRef × Nat) : Place → Prop
  | .flip r idx j => c.1 = r.pool ∧ idx ≤ c.2 ∧ c.2 < idx + j
  | .lockRelease r (some idx) => c.1 = r.pool ∧ idx ≤ c.2 ∧ c.2 < idx + r.pageCnt
  | .check f _ => c.1 = f.pool ∧ f.pageIdx ≤ c.2 ∧ c.2 < f.pageIdx + f.pageCnt
  | .clear f j => c.1 = f.pool ∧ f.pageIdx + j ≤ c.2 ∧ c.2 < f.pageIdx + f.pageCnt
  | _ => False

inductive Owner where
  | group (g : Group)
  | thread (t : ThreadRef)

def Owns (pools : Pools) (s : State) : Owner → PoolRef × Nat → Prop
  | .group g, c => g ∈ s.live ∧ g.Holds pools c
  | .thread t, c => (s.place t).Holds c

/-! ## What a thread knows in the middle of a call -/

/-- Unless a free has cleared a bit since the call, there is no room before `i`. -/
def Request.NoRoom (r : Request) (s : State) (i : Nat) : Prop :=
  s.clears r.pool = r.since → ∀ k < i, ∃ j < r.pageCnt, s.used (r.pool, k + j) = true

/-- The call frees its group, in the pool the group is from. -/
structure Freeing.Fits (pools : Pools) (f : Freeing) (j : Nat) : Prop where
  pool : f.pool = f.group.pool
  pages : (pools f.pool).base + f.pageIdx = f.group.pages
  pageCnt : f.pageCnt = f.group.pageCnt
  inside : f.pageIdx + f.pageCnt ≤ (pools f.pool).bitCnt
  lt : j < f.pageCnt

/-- The bits of a group that a free writes, to the `j`th. -/
def Freeing.cleared (f : Freeing) (j : Nat) : List ((PoolRef × Nat) × Bool) :=
  (List.range j).map fun i => ((f.pool, f.pageIdx + i), false)

def Place.Fits (pools : Pools) (s : State) (t : ThreadRef) : Place → Prop
  | .out => True
  | .lockAcquire r => 0 < r.pageCnt ∧ r.since ≤ s.clears r.pool ∧ s.writes t = []
  | .scan r i j => j < r.pageCnt ∧ i + r.pageCnt ≤ (pools r.pool).bitCnt ∧
      s.holder r.pool = some t ∧ r.since ≤ s.clears r.pool ∧ s.writes t = [] ∧
      (∀ k < j, s.used (r.pool, i + k) = false) ∧ r.NoRoom s i
  | .flip r idx j => j < r.pageCnt ∧ idx + r.pageCnt ≤ (pools r.pool).bitCnt ∧
      s.holder r.pool = some t ∧ ∀ k, j ≤ k → k < r.pageCnt → s.used (r.pool, idx + k) = false
  | .lockRelease r (some idx) => 0 < r.pageCnt ∧ idx + r.pageCnt ≤ (pools r.pool).bitCnt ∧
      s.holder r.pool = some t
  | .lockRelease r none => 0 < r.pageCnt ∧ s.holder r.pool = some t ∧
      r.since ≤ s.clears r.pool ∧ s.writes t = [] ∧
      r.NoRoom s ((pools r.pool).bitCnt + 1 - r.pageCnt)
  | .check f j => f.Fits pools j ∧ s.writes t = []
  | .clear f j => f.Fits pools j ∧ s.writes t = f.cleared j

/-- A group lies in the pages of its pool. -/
structure Group.Inside (pools : Pools) (g : Group) : Prop where
  pos : 0 < g.pageCnt
  base : (pools g.pool).base ≤ g.pages
  last : g.pages + g.pageCnt ≤ (pools g.pool).base + (pools g.pool).bitCnt

/-- What holds between two steps. -/
structure Sound (pools : Pools) (s : State) : Prop where
  exclusive : Exclusive (Owns pools s) fun c => s.used c = true
  fits : ∀ t, (s.place t).Fits pools s t
  inside : ∀ g ∈ s.live, g.Inside pools
  nodup : s.live.Nodup

/-- What a step of another thread may do to what `u` knows. -/
structure Undisturbed (u : ThreadRef) (s s' : State) : Prop where
  writes : s'.writes u = s.writes u
  holder : ∀ p, s.holder p = some u → s'.holder p = some u
  clears : ∀ p, s.clears p ≤ s'.clears p
  set : ∀ p, s.holder p = some u → ∀ b, s'.used (p, b) = true → s.used (p, b) = true
  kept : ∀ p, s'.clears p = s.clears p → ∀ b, s.used (p, b) = true → s'.used (p, b) = true

/-- Where there was no room there is none while nobody frees. -/
theorem Request.NoRoom.mono {r : Request} {i : Nat} (hu : Undisturbed u s s')
    (hsince : r.since ≤ s.clears r.pool) (h : r.NoRoom s i) : r.NoRoom s' i := by
  intro heq k hk
  have hsame : s'.clears r.pool = s.clears r.pool := by
    have := hu.clears r.pool
    omega
  obtain ⟨j, hj, hused⟩ := h (hsame.symm.trans heq) k hk
  exact ⟨j, hj, hu.kept r.pool hsame _ hused⟩

/-- A page that is free is free until the holder of the lock takes it. -/
theorem Undisturbed.clear {p : PoolRef} {b : Nat} (hu : Undisturbed u s s')
    (hp : s.holder p = some u) (hb : s.used (p, b) = false) : s'.used (p, b) = false := by
  cases h : s'.used (p, b) with
  | false => rfl
  | true =>
    rw [hu.set p hp b h] at hb
    cases hb

/-- What a thread knows at its place it knows while others do their steps. -/
theorem Place.Fits.mono {x : Place} (hu : Undisturbed u s s') (h : x.Fits pools s u) :
    x.Fits pools s' u := by
  cases x with
  | out => trivial
  | lockAcquire r =>
    obtain ⟨hpos, hsince, hw⟩ := h
    exact ⟨hpos, hsince.trans (hu.clears r.pool), hu.writes.trans hw⟩
  | scan r i j =>
    obtain ⟨hj, hi, hh, hsince, hw, hfree, hroom⟩ := h
    exact ⟨hj, hi, hu.holder _ hh, hsince.trans (hu.clears r.pool), hu.writes.trans hw,
      fun k hk => hu.clear hh (hfree k hk), hroom.mono hu hsince⟩
  | flip r idx j =>
    obtain ⟨hj, hi, hh, hfree⟩ := h
    exact ⟨hj, hi, hu.holder _ hh, fun k hk hk' => hu.clear hh (hfree k hk hk')⟩
  | lockRelease r result =>
    cases result with
    | some idx =>
      obtain ⟨hpos, hi, hh⟩ := h
      exact ⟨hpos, hi, hu.holder _ hh⟩
    | none =>
      obtain ⟨hpos, hh, hsince, hw, hroom⟩ := h
      exact ⟨hpos, hu.holder _ hh, hsince.trans (hu.clears r.pool), hu.writes.trans hw,
        hroom.mono hu hsince⟩
  | check f j => exact ⟨h.1, hu.writes.trans h.2⟩
  | clear f j => exact ⟨h.1, hu.writes.trans h.2⟩

/-- A step of `t`, to the place `x`. -/
theorem Sound.of_step {x : Place} (hs : Sound pools s)
    (hplace : s'.place = Function.update s.place t x) (hx : x.Fits pools s' t)
    (hother : ∀ u, u ≠ t → Undisturbed u s s')
    (hexcl : Exclusive (Owns pools s') fun c => s'.used c = true)
    (hinside : ∀ g ∈ s'.live, g.Inside pools) (hnodup : s'.live.Nodup) : Sound pools s' where
  exclusive := hexcl
  fits := by
    intro u
    rw [hplace]
    by_cases hut : u = t
    · subst hut
      rw [Function.update_self]
      exact hx
    · rw [Function.update_of_ne hut]
      exact (hs.fits u).mono (hother u hut)
  inside := hinside
  nodup := hnodup

/-- The holdings of the other threads and of the groups are as they were. -/
theorem owns_of_place {x : Place} {o : Owner} {c : PoolRef × Nat} (ho : Owns pools s' o c)
    (hplace : s'.place = Function.update s.place t x) (hlive : s'.live = s.live) :
    (o ≠ .thread t ∧ Owns pools s o c) ∨ (o = .thread t ∧ x.Holds c) := by
  cases o with
  | group g =>
    left
    refine ⟨nofun, ?_⟩
    unfold Owns at ho ⊢
    rw [hlive] at ho
    exact ho
  | thread u =>
    replace ho : (s'.place u).Holds c := ho
    rw [hplace] at ho
    by_cases hut : u = t
    · subst hut
      rw [Function.update_self] at ho
      exact .inr ⟨rfl, ho⟩
    · rw [Function.update_of_ne hut] at ho
      exact .inl ⟨fun h => hut (Owner.thread.inj h), ho⟩

/-! ## Steps -/

/-- A step of another pool disturbs nobody. -/
theorem undisturbed_of_eq (hw : s'.writes u = s.writes u) (hh : s'.holder = s.holder)
    (hc : s'.clears = s.clears) (hused : s'.used = s.used) : Undisturbed u s s' where
  writes := hw
  holder := fun p hp => by rw [hh]; exact hp
  clears := fun p => by rw [hc]
  set := fun p _ b hb => by rw [hused] at hb; exact hb
  kept := fun p _ b hb => by rw [hused]; exact hb

/-- A thread that holds no bits goes where it holds none. -/
theorem Sound.exclusive_goto {x : Place} (hs : Sound pools s)
    (hplace : s'.place = Function.update s.place t x) (hlive : s'.live = s.live)
    (hused : s'.used = s.used) (hx : ∀ c, x.Holds c → (s.place t).Holds c) :
    Exclusive (Owns pools s') fun c => s'.used c = true := by
  refine hs.exclusive.sub (fun o c ho => ?_) (fun c hc => by rw [hused]; exact hc)
  rcases owns_of_place ho hplace hlive with ⟨_, hold⟩ | ⟨rfl, hnew⟩
  · exact hold
  · exact hx c hnew

/-- A thread may enter a place that fits. -/
theorem Sound.of_enter {x : Place} (hs : Sound pools s) (hx : x.Fits pools (s.enter t x) t)
    (hno : ∀ c, ¬ x.Holds c) : Sound pools (s.enter t x) :=
  hs.of_step rfl hx
    (fun _ hut => undisturbed_of_eq (Function.update_of_ne hut _ _) rfl rfl rfl)
    (hs.exclusive_goto rfl rfl rfl fun c hc => absurd hc (hno c)) hs.inside hs.nodup

/-- `palloc_get_multiple` is called. -/
theorem Sound.of_getMultiple {p : PoolRef} {pageCnt : Nat} {palAssert : Bool} (hs : Sound pools s) :
    Sound pools (pallocGetMultiple t p pageCnt palAssert s) := by
  unfold pallocGetMultiple
  split
  next => exact hs.of_enter trivial fun _ => id
  next hpos =>
    refine hs.of_enter ⟨Nat.pos_of_ne_zero hpos, Nat.le_refl _, ?_⟩ fun _ => id
    exact Function.update_self _ _ _

/-- A step inside a call that writes nothing and keeps the lock. -/
theorem Sound.of_goto {x : Place} (hs : Sound pools s) (hx : x.Fits pools s t)
    (hholds : ∀ c, x.Holds c → (s.place t).Holds c) : Sound pools (s.goto t x) := by
  refine hs.of_step rfl (hx.mono (undisturbed_of_eq rfl rfl rfl rfl))
    (fun _ _ => undisturbed_of_eq rfl rfl rfl rfl)
    (hs.exclusive_goto rfl rfl rfl hholds) hs.inside hs.nodup

/-- `bitmap_scan` begins. -/
theorem fits_bitmapScan {r : Request} (hpos : 0 < r.pageCnt) (hh : s.holder r.pool = some t)
    (hsince : r.since ≤ s.clears r.pool) (hw : s.writes t = []) :
    (bitmapScan pools r).Fits pools s t := by
  unfold bitmapScan
  split
  next hle => exact ⟨hpos, by omega, hh, hsince, hw, nofun, fun _ _ hk => absurd hk (Nat.not_lt_zero _)⟩
  next hgt =>
    refine ⟨hpos, hh, hsince, hw, fun _ k hk => ?_⟩
    omega

/-- A scan holds no page yet. -/
theorem holds_bitmapScan {r : Request} (c : PoolRef × Nat) : ¬ (bitmapScan pools r).Holds c := by
  unfold bitmapScan
  split <;> exact id

/-- The lock is free and is taken. -/
theorem Sound.of_lockAcquire {r : Request} (hs : Sound pools s) (ht : s.place t = .lockAcquire r)
    (hfree : s.holder r.pool = none) :
    Sound pools ((s.setHolder r.pool (some t)).goto t (bitmapScan pools r)) := by
  obtain ⟨hpos, hsince, hw⟩ : (Place.lockAcquire r).Fits pools s t := ht ▸ hs.fits t
  refine hs.of_step rfl (fits_bitmapScan hpos (Function.update_self _ _ _) hsince hw) ?_
    (hs.exclusive_goto rfl rfl rfl fun c hc => absurd hc (holds_bitmapScan c)) hs.inside hs.nodup
  intro u hut
  refine ⟨rfl, fun p hp => ?_, fun _ => Nat.le_refl _, fun _ _ _ => id, fun _ _ _ => id⟩
  have hne : p ≠ r.pool := by
    rintro rfl
    rw [hfree] at hp
    cases hp
  exact (Function.update_of_ne hne _ _).trans hp

/-- The bit is set: the next start. -/
theorem Sound.of_scanUsed {r : Request} {i j : Nat} (hs : Sound pools s)
    (ht : s.place t = .scan r i j) (hused : s.used (r.pool, i + j) = true) :
    Sound pools (s.goto t (scanNext pools r i)) := by
  obtain ⟨hj, hi, hh, hsince, hw, _, hroom⟩ : (Place.scan r i j).Fits pools s t := ht ▸ hs.fits t
  have hmore : r.NoRoom s (i + 1) := by
    intro heq k hk
    by_cases hki : k = i
    · exact ⟨j, hj, hki ▸ hused⟩
    · exact hroom heq k (by omega)
  apply hs.of_goto
  · unfold scanNext
    split
    next hle => exact ⟨by omega, by omega, hh, hsince, hw, nofun, hmore⟩
    next hgt =>
      have hend : (pools r.pool).bitCnt + 1 - r.pageCnt = i + 1 := by omega
      exact ⟨by omega, hh, hsince, hw, hend ▸ hmore⟩
  · intro c hc
    unfold scanNext at hc
    split at hc <;> exact hc.elim

/-- The bit is clear: the next bit, or all of them are. -/
theorem Sound.of_scanFree {r : Request} {i j : Nat} (hs : Sound pools s)
    (ht : s.place t = .scan r i j) (hfree : s.used (r.pool, i + j) = false) :
    Sound pools (s.goto t (if j + 1 < r.pageCnt then .scan r i (j + 1) else .flip r i 0)) := by
  obtain ⟨hj, hi, hh, hsince, hw, hbits, hroom⟩ : (Place.scan r i j).Fits pools s t := ht ▸ hs.fits t
  have hmore : ∀ k < j + 1, s.used (r.pool, i + k) = false := by
    intro k hk
    by_cases hkj : k = j
    · exact hkj ▸ hfree
    · exact hbits k (by omega)
  split
  next hlt => exact hs.of_goto ⟨hlt, hi, hh, hsince, hw, hmore, hroom⟩ fun _ hc => hc.elim
  next hge =>
    refine hs.of_goto ⟨by omega, hi, hh, fun k _ hk => hmore k (by omega)⟩ fun c hc => ?_
    obtain ⟨_, _, _⟩ := hc
    omega

/-- Who sets a bit holds the lock, so it disturbs nobody. -/
theorem undisturbed_write {p : PoolRef} {b : Nat} {x : Place} (hh : s.holder p = some t)
    (hut : u ≠ t) : Undisturbed u s ((s.write t (p, b) true).goto t x) := by
  refine ⟨Function.update_of_ne hut _ _, fun _ => id, fun _ => Nat.le_refl _, ?_, ?_⟩
  · intro q hq b' hb'
    have hne : q ≠ p := by
      rintro rfl
      rw [hh] at hq
      exact hut (Option.some.inj hq).symm
    exact (Function.update_of_ne (fun h => hne (congrArg Prod.fst h)) _ _).symm.trans hb'
  · intro q _ b' hb'
    show Function.update s.used (p, b) true (q, b') = true
    by_cases heq : (q, b') = (p, b)
    · rw [heq, Function.update_self]
    · rw [Function.update_of_ne heq]
      exact hb'

/-- A bit is flipped that nobody holds. -/
theorem Sound.of_flip {r : Request} {idx j : Nat} (hs : Sound pools s)
    (ht : s.place t = .flip r idx j) :
    Sound pools ((s.write t (r.pool, idx + j) true).goto t
      (if j + 1 < r.pageCnt then .flip r idx (j + 1) else .lockRelease r (some idx))) := by
  obtain ⟨hj, hi, hh, hbits⟩ : (Place.flip r idx j).Fits pools s t := ht ▸ hs.fits t
  refine hs.of_step rfl ?_ (fun u hut => undisturbed_write hh hut) ?_ hs.inside hs.nodup
  · split
    next hlt =>
      refine ⟨hlt, hi, hh, fun k hk hk' => ?_⟩
      have hne : (r.pool, idx + k) ≠ (r.pool, idx + j) := by
        intro h
        have := (Prod.mk.inj h).2
        omega
      exact (Function.update_of_ne hne _ _).trans (hbits k (by omega) hk')
    next => exact ⟨by omega, hi, hh⟩
  · refine hs.exclusive.claim (S := {(r.pool, idx + j)}) (o := .thread t) ?_ ?_ ?_
    · rintro c rfl hc
      rw [hbits j (Nat.le_refl _) hj] at hc
      cases hc
    · intro o c ho
      rcases owns_of_place (s := s) (t := t) ho rfl rfl with ⟨_, hold⟩ | ⟨rfl, hnew⟩
      · exact .inl hold
      · have hc : c.1 = r.pool ∧ idx ≤ c.2 ∧ c.2 < idx + (j + 1) := by
          split at hnew
          next => exact hnew
          next =>
            obtain ⟨h₁, h₂, h₃⟩ := hnew
            exact ⟨h₁, h₂, by omega⟩
        obtain ⟨h₁, h₂, h₃⟩ := hc
        by_cases heq : c.2 = idx + j
        · exact .inr ⟨rfl, Prod.ext h₁ heq⟩
        · left
          show (s.place t).Holds c
          rw [ht]
          exact ⟨h₁, h₂, by omega⟩
    · intro c hc
      show Function.update s.used (r.pool, idx + j) true c = true
      by_cases heq : c = (r.pool, idx + j)
      · rw [heq, Function.update_self]
      · rw [Function.update_of_ne heq]
        rcases hc with hc | hc
        · exact hc
        · exact absurd hc heq

/-- Only the holder of the lock gives it up. -/
theorem undisturbed_release {p : PoolRef} (hh : s.holder p = some t) (hut : u ≠ t)
    (hs' : s'.holder = (s.setHolder p none).holder) (hw : s'.writes = s.writes)
    (hc : s'.clears = s.clears) (hused : s'.used = s.used) : Undisturbed u s s' := by
  refine ⟨congrFun hw u, fun q hq => ?_, fun q => by rw [hc], fun q _ b hb => by rwa [hused] at hb,
    fun q _ b hb => by rwa [hused]⟩
  have hne : q ≠ p := by
    rintro rfl
    rw [hh] at hq
    exact hut (Option.some.inj hq).symm
  rw [hs']
  exact (Function.update_of_ne hne _ _).trans hq

/-- The lock is released and null is returned. -/
theorem Sound.of_returnNull {r : Request} (hs : Sound pools s)
    (ht : s.place t = .lockRelease r none) :
    Sound pools ((s.setHolder r.pool none).goto t .out) := by
  obtain ⟨_, hh, _⟩ : (Place.lockRelease r none).Fits pools s t := ht ▸ hs.fits t
  exact hs.of_step rfl trivial (fun u hut => undisturbed_release hh hut rfl rfl rfl rfl)
    (hs.exclusive_goto rfl rfl rfl fun _ hc => hc.elim) hs.inside hs.nodup

/-- The lock is released and the group is handed out. -/
theorem Sound.of_returnGroup {r : Request} {idx : Nat} {g : Group} (hs : Sound pools s)
    (ht : s.place t = .lockRelease r (some idx))
    (hg : g = { pool := r.pool, pages := (pools r.pool).base + idx, pageCnt := r.pageCnt }) :
    Sound pools { (s.setHolder r.pool none).goto t .out with live := g :: s.live } := by
  obtain ⟨hpos, hi, hh⟩ : (Place.lockRelease r (some idx)).Fits pools s t := ht ▸ hs.fits t
  -- the bits of the group are the bits the thread has held
  have hsame : ∀ c, g.Holds pools c ↔ (s.place t).Holds c := by
    intro c
    rw [ht, hg]
    show c.1 = r.pool ∧ (pools r.pool).base + idx ≤ (pools r.pool).base + c.2 ∧
      (pools r.pool).base + c.2 < (pools r.pool).base + idx + r.pageCnt ↔
      c.1 = r.pool ∧ idx ≤ c.2 ∧ c.2 < idx + r.pageCnt
    rw [Nat.add_le_add_iff_left, Nat.add_assoc, Nat.add_lt_add_iff_left]
  have hnew : g ∉ s.live := by
    intro hmem
    have hfirst : (s.place t).Holds (r.pool, idx) := by
      rw [ht]
      exact ⟨rfl, Nat.le_refl _, by dsimp only; omega⟩
    have hgroup : Owns pools s (.group g) (r.pool, idx) := ⟨hmem, (hsame _).mpr hfirst⟩
    cases hs.exclusive.unique _ (.thread t) _ hgroup hfirst
  refine hs.of_step rfl trivial (fun u hut => undisturbed_release hh hut rfl rfl rfl rfl) ?_ ?_
    (List.nodup_cons.mpr ⟨hnew, hs.nodup⟩)
  · refine hs.exclusive.pass (.thread t) (.group g) fun o c ho => ?_
    cases o with
    | group g' =>
      obtain ⟨hmem, hc⟩ := ho
      rcases List.mem_cons.mp hmem with rfl | hmem
      · exact .inr ⟨rfl, (hsame c).mp hc⟩
      · refine .inl ⟨fun h => ?_, nofun, hmem, hc⟩
        cases h
        exact hnew hmem
    | thread u =>
      left
      by_cases hut : u = t
      · subst hut
        replace ho : (Function.update s.place u Place.out u).Holds c := ho
        rw [Function.update_self] at ho
        exact ho.elim
      · replace ho : (Function.update s.place t Place.out u).Holds c := ho
        rw [Function.update_of_ne hut] at ho
        exact ⟨nofun, fun h => hut (Owner.thread.inj h), ho⟩
  · intro g' hg'
    rcases List.mem_cons.mp hg' with rfl | hg'
    · rw [hg]
      exact ⟨hpos, Nat.le_add_right _ _, by dsimp only; omega⟩
    · exact hs.inside g' hg'

/-- `bitmap_all` looks at one more bit. -/
theorem Sound.of_check {f : Freeing} {j : Nat} (hs : Sound pools s) (ht : s.place t = .check f j) :
    Sound pools (s.goto t (if j + 1 < f.pageCnt then .check f (j + 1) else .clear f 0)) := by
  obtain ⟨hf, hw⟩ : (Place.check f j).Fits pools s t := ht ▸ hs.fits t
  have hlt := hf.lt
  split
  next hmore =>
    refine hs.of_goto ⟨{ hf with lt := hmore }, hw⟩ fun c hc => ?_
    rw [ht]
    exact hc
  next hend =>
    refine hs.of_goto ⟨{ hf with lt := by omega }, hw⟩ fun c hc => ?_
    rw [ht]
    exact hc

/-- A free clears a bit: what a scan has seen clear stays clear, and that there was no room
is not known any more. -/
theorem undisturbed_clear {p : PoolRef} {b : Nat} {x : Place} (hut : u ≠ t) :
    Undisturbed u s ({ s.write t (p, b) false with
      clears := Function.update s.clears p (s.clears p + 1) }.goto t x) := by
  refine ⟨Function.update_of_ne hut _ _, fun _ => id, fun q => ?_, fun q _ b' hb' => ?_,
    fun q hq b' hb' => ?_⟩
  · show s.clears q ≤ Function.update s.clears p (s.clears p + 1) q
    by_cases hqp : q = p
    · subst hqp
      rw [Function.update_self]
      exact Nat.le_succ _
    · rw [Function.update_of_ne hqp]
  · replace hb' : Function.update s.used (p, b) false (q, b') = true := hb'
    by_cases heq : (q, b') = (p, b)
    · rw [heq, Function.update_self] at hb'
      cases hb'
    · rwa [Function.update_of_ne heq] at hb'
  · replace hq : Function.update s.clears p (s.clears p + 1) q = s.clears q := hq
    show Function.update s.used (p, b) false (q, b') = true
    have hqp : q ≠ p := by
      rintro rfl
      rw [Function.update_self] at hq
      omega
    rw [Function.update_of_ne fun h => hqp (congrArg Prod.fst h)]
    exact hb'

/-- A free gives up a bit of its group. -/
theorem Sound.of_clear {f : Freeing} {j : Nat} (hs : Sound pools s) (ht : s.place t = .clear f j) :
    Sound pools ({ s.write t (f.pool, f.pageIdx + j) false with
      clears := Function.update s.clears f.pool (s.clears f.pool + 1) }.goto t
      (if j + 1 < f.pageCnt then .clear f (j + 1) else .out)) := by
  obtain ⟨hf, hw⟩ : (Place.clear f j).Fits pools s t := ht ▸ hs.fits t
  refine hs.of_step rfl ?_ (fun u hut => undisturbed_clear hut) ?_ hs.inside hs.nodup
  · split
    next hmore =>
      refine ⟨{ hf with lt := hmore }, ?_⟩
      show Function.update s.writes t _ t = _
      rw [Function.update_self, hw]
      unfold Freeing.cleared
      rw [List.range_succ, List.map_append, List.map_singleton]
    next => trivial
  · refine hs.exclusive.drop (S := {(f.pool, f.pageIdx + j)}) (fun o c ho => ?_) fun c hc hne => ?_
    · have hheld : Owns pools s (.thread t) (f.pool, f.pageIdx + j) := by
        show (s.place t).Holds _
        rw [ht]
        have := hf.lt
        exact ⟨rfl, Nat.le_refl _, by dsimp only; omega⟩
      rcases owns_of_place (s := s) (t := t) ho rfl rfl with ⟨hot, hold⟩ | ⟨rfl, hnew⟩
      · refine ⟨hold, ?_⟩
        rintro rfl
        exact hot (hs.exclusive.unique o (.thread t) _ hold hheld)
      · split at hnew
        next =>
          obtain ⟨h₁, h₂, h₃⟩ := hnew
          refine ⟨?_, fun h => ?_⟩
          · show (s.place t).Holds c
            rw [ht]
            exact ⟨h₁, by omega, h₃⟩
          · rw [h] at h₂
            dsimp only at h₂
            omega
        next => exact hnew.elim
    · show Function.update s.used (f.pool, f.pageIdx + j) false c = true
      rw [Function.update_of_ne hne]
      exact hc

/-- The pool `palloc_free_multiple` finds is the one the group is from. -/
theorem pallocFreeMultiple_ok {g : Group} (ha : pools.Apart) (hg : g.Inside pools) (s : State) :
    pallocFreeMultiple pools t g s = .ok (s.enter t (.check { group := g, pool := g.pool
                                                              pageIdx := g.pages - (pools g.pool).base
                                                              pageCnt := g.pageCnt } 0)) := by
  obtain ⟨hstart, hkernel, hbetween, huser⟩ := ha
  obtain ⟨hpos, hbase, hlast⟩ := hg
  obtain ⟨p, pages, pageCnt⟩ := g
  dsimp only at hpos hbase hlast
  unfold pallocFreeMultiple pageFromPool
  cases p with
  | kernel =>
    rw [if_neg (by dsimp only; omega)]
    dsimp only
    rw [if_pos (by rw [Bool.and_eq_true, decide_eq_true_eq, decide_eq_true_eq]; omega)]
  | user =>
    rw [if_neg (by dsimp only; omega)]
    dsimp only
    rw [if_neg (by rw [Bool.and_eq_true, decide_eq_true_eq, decide_eq_true_eq]; omega),
      if_pos (by rw [Bool.and_eq_true, decide_eq_true_eq, decide_eq_true_eq]; omega)]

/-- `palloc_free_multiple` is called on a group that is handed out. -/
theorem Sound.of_freeMultiple {g : Group} (hs : Sound pools s) (ht : s.place t = .out)
    (hg : g ∈ s.live) :
    Sound pools ({ s with live := s.live.erase g }.enter t (.check
      { group := g, pool := g.pool, pageIdx := g.pages - (pools g.pool).base
        pageCnt := g.pageCnt } 0)) := by
  obtain ⟨hpos, hbase, hlast⟩ := hs.inside g hg
  refine hs.of_step rfl ⟨⟨rfl, by dsimp only; omega, rfl, by dsimp only; omega, hpos⟩, Function.update_self _ _ _⟩
    (fun u hut => undisturbed_of_eq (Function.update_of_ne hut _ _) rfl rfl rfl) ?_
    (fun g' hg' => hs.inside g' (List.mem_of_mem_erase hg')) (hs.nodup.erase g)
  refine hs.exclusive.pass (.group g) (.thread t) fun o c ho => ?_
  cases o with
  | group g' =>
    obtain ⟨hmem, hc⟩ := ho
    obtain ⟨hne, hmem⟩ := (List.Nodup.mem_erase_iff hs.nodup).mp hmem
    exact .inl ⟨nofun, fun h => hne (Owner.group.inj h), hmem, hc⟩
  | thread u =>
    by_cases hut : u = t
    · subst hut
      replace ho : (Function.update s.place u _ u).Holds c := ho
      rw [Function.update_self] at ho
      obtain ⟨h₁, h₂, h₃⟩ := ho
      dsimp only at h₁ h₂ h₃
      exact .inr ⟨rfl, hg, h₁, by omega, by omega⟩
    · replace ho : (Function.update s.place t _ u).Holds c := ho
      rw [Function.update_of_ne hut] at ho
      exact .inl ⟨fun h => hut (Owner.thread.inj h), nofun, ho⟩

theorem assert_ok {a : Assertion} {c : Prop} [Decidable c] (hc : c) : assert a c = .ok () := if_pos hc

/-- A thread goes on in its call. -/
theorem Sound.run_ok (hs : Sound pools s) (t : ThreadRef) :
    (∃ s', run pools t s = .ok s' ∧ Sound pools s') ∨ run pools t s = .error .notEnabled ∨
      run pools t s = .error (.panic .outOfPages) := by
  have hfits := hs.fits t
  unfold run
  cases ht : s.place t with
  | out => exact .inr (.inl rfl)
  | lockAcquire r =>
    dsimp only
    split
    next => exact .inr (.inl rfl)
    next hfree => exact .inl ⟨_, rfl, hs.of_lockAcquire ht (by simpa using hfree)⟩
  | scan r i j =>
    rw [ht] at hfits
    obtain ⟨hj, hi, _⟩ := hfits
    dsimp only
    unfold checkRange
    rw [assert_ok (by omega), bind_ok]
    left
    split
    next hused => exact ⟨_, rfl, hs.of_scanUsed ht hused⟩
    next hfree => exact ⟨_, rfl, hs.of_scanFree ht (by simpa using hfree)⟩
  | flip r idx j =>
    rw [ht] at hfits
    obtain ⟨hj, hi, _⟩ := hfits
    dsimp only
    unfold checkRange
    rw [assert_ok (by omega), bind_ok]
    exact .inl ⟨_, rfl, hs.of_flip ht⟩
  | lockRelease r result =>
    rw [ht] at hfits
    cases result with
    | none =>
      dsimp only
      rw [assert_ok hfits.2.1, bind_ok]
      split
      next => exact .inr (.inr rfl)
      next => exact .inl ⟨_, rfl, hs.of_returnNull ht⟩
    | some idx =>
      dsimp only
      rw [assert_ok hfits.2.2, bind_ok]
      exact .inl ⟨_, rfl, hs.of_returnGroup ht rfl⟩
  | check f j =>
    rw [ht] at hfits
    have hf := hfits.1
    have hlt := hf.lt
    have hin := hf.inside
    have hheld : Owns pools s (.thread t) (f.pool, f.pageIdx + j) := by
      show (s.place t).Holds _
      rw [ht]
      exact ⟨rfl, by dsimp only; omega, by dsimp only; omega⟩
    dsimp only
    unfold checkRange
    rw [assert_ok (by omega), bind_ok, assert_ok (hs.exclusive.used _ _ hheld), bind_ok]
    exact .inl ⟨_, rfl, hs.of_check ht⟩
  | clear f j =>
    rw [ht] at hfits
    have hlt := hfits.1.lt
    have hin := hfits.1.inside
    dsimp only
    unfold checkRange
    rw [assert_ok (by omega), bind_ok]
    exact .inl ⟨_, rfl, hs.of_clear ht⟩

/-- Every event keeps the pools sound, or fails for want of pages. -/
theorem Sound.step_ok (ha : pools.Apart) (hs : Sound pools s) (e : Event) :
    (∃ s', step pools e s = .ok s' ∧ Sound pools s') ∨ step pools e s = .error .notEnabled ∨
      step pools e s = .error (.panic .outOfPages) := by
  cases e with
  | getMultiple t p pageCnt palAssert =>
    unfold step
    dsimp only
    split
    next => exact .inl ⟨_, rfl, hs.of_getMultiple⟩
    next => exact .inr (.inl rfl)
  | freeMultiple t g =>
    unfold step
    dsimp only
    split
    next hc =>
      rw [pallocFreeMultiple_ok ha (hs.inside g hc.2)]
      exact .inl ⟨_, rfl, hs.of_freeMultiple hc.1 hc.2⟩
    next => exact .inr (.inl rfl)
  | run t => exact hs.run_ok t

/-- At first every page is free. -/
theorem sound_initial : Sound pools initial where
  exclusive := by
    constructor
    · intro o o' c ho
      cases o with
      | group g => cases ho.1
      | thread t => exact ho.elim
    · intro o c ho
      cases o with
      | group g => cases ho.1
      | thread t => exact ho.elim
  fits := fun _ => trivial
  inside := nofun
  nodup := List.nodup_nil

/-- Every reachable state is sound. -/
theorem reach_sound (ha : pools.Apart) (h : Reach (Steps (step pools)) initial s) : Sound pools s :=
  h.invariant sound_initial fun s e s' hs hx => by
    obtain ⟨s₁, h₁, hs₁⟩ | h₁ | h₁ := hs.step_ok ha e
    · rw [Steps, h₁] at hx
      cases hx
      exact hs₁
    · rw [Steps, h₁] at hx
      cases hx
    · rw [Steps, h₁] at hx
      cases hx

/-! ## Pages -/

/-- Two groups have no page in common. -/
def Group.Disjoint (g g' : Group) : Prop :=
  g.pages + g.pageCnt ≤ g'.pages ∨ g'.pages + g'.pageCnt ≤ g.pages

/-- The `i`th bit of a group. -/
def Group.bit (pools : Pools) (g : Group) (i : Nat) : PoolRef × Nat :=
  (g.pool, g.pages - (pools g.pool).base + i)

/-- Groups that are in use share no page. -/
theorem Sound.disjoint (ha : pools.Apart) (hs : Sound pools s) {g g' : Group} (hg : g ∈ s.live)
    (hg' : g' ∈ s.live) (hne : g ≠ g') : g.Disjoint g' := by
  obtain ⟨hpos, hbase, hlast⟩ := hs.inside g hg
  obtain ⟨hpos', hbase', hlast'⟩ := hs.inside g' hg'
  by_contra hmeet
  unfold Group.Disjoint at hmeet
  by_cases hp : g.pool = g'.pool
  · -- the later of the two first pages is in both
    have hpools : pools g'.pool = pools g.pool := by rw [hp]
    rw [hpools] at hbase' hlast'
    have hheld : Owns pools s (.group g)
        (g.pool, max g.pages g'.pages - (pools g.pool).base) :=
      ⟨hg, rfl, by dsimp only; omega, by dsimp only; omega⟩
    have hheld' : Owns pools s (.group g')
        (g.pool, max g.pages g'.pages - (pools g.pool).base) :=
      ⟨hg', hp, by dsimp only; rw [hpools]; omega, by dsimp only; rw [hpools]; omega⟩
    exact hne (Owner.group.inj (hs.exclusive.unique _ _ _ hheld hheld'))
  · obtain ⟨_, hkernel, hbetween, huser⟩ := ha
    cases h : g.pool <;> cases h' : g'.pool <;> rw [h] at hbase hlast hp <;>
      rw [h'] at hbase' hlast' hp <;> first | exact hp rfl | omega

/-- No group touches a bitmap. -/
theorem Sound.off_bitmaps (ha : pools.Apart) (hs : Sound pools s) {g : Group} (hg : g ∈ s.live)
    (p : PoolRef) : g.pages + g.pageCnt ≤ (pools p).usedMap ∨ (pools p).base ≤ g.pages := by
  obtain ⟨hpos, hbase, hlast⟩ := hs.inside g hg
  obtain ⟨_, hkernel, hbetween, huser⟩ := ha
  cases h : g.pool <;> cases p <;> rw [h] at hbase hlast <;> omega

/-- A free clears one bit after the other. -/
theorem run_clear {f : Freeing} {j : Nat} (ht : s.place t = .clear f j) (hf : f.Fits pools j) :
    run pools t s = .ok ({ s.write t (f.pool, f.pageIdx + j) false with
      clears := Function.update s.clears f.pool (s.clears f.pool + 1) }.goto t
      (if j + 1 < f.pageCnt then .clear f (j + 1) else .out)) := by
  have hlt := hf.lt
  have hin := hf.inside
  unfold run
  rw [ht]
  dsimp only
  unfold checkRange
  rw [assert_ok (by omega)]
  rfl

/-- One step of a free: it clears the next bit of the group it was given. -/
theorem Sound.clears (hs : Sound pools s) {f : Freeing} {j : Nat} (ht : s.place t = .clear f j) :
    s.used (f.group.bit pools j) = true ∧ ∃ s', run pools t s = .ok s' ∧
      s'.used = Function.update s.used (f.group.bit pools j) false ∧
      s'.writes t = (List.range (j + 1)).map (fun i => (f.group.bit pools i, false)) ∧
      (s'.place t = .out ↔ j + 1 = f.group.pageCnt) := by
  obtain ⟨hf, hw⟩ : (Place.clear f j).Fits pools s t := ht ▸ hs.fits t
  have hlt := hf.lt
  have hidx : f.pageIdx = f.group.pages - (pools f.group.pool).base := by
    have := hf.pages
    rw [hf.pool] at this
    omega
  have hbit : ∀ i, (f.pool, f.pageIdx + i) = f.group.bit pools i := by
    intro i
    unfold Group.bit
    rw [← hidx, hf.pool]
  have hheld : Owns pools s (.thread t) (f.pool, f.pageIdx + j) := by
    show (s.place t).Holds _
    rw [ht]
    exact ⟨rfl, Nat.le_refl _, by dsimp only; omega⟩
  refine ⟨hbit j ▸ hs.exclusive.used _ _ hheld, _, run_clear ht hf, ?_, ?_, ?_⟩
  · rw [← hbit j]
    rfl
  · show Function.update s.writes t _ t = _
    rw [Function.update_self, hw, List.range_succ, List.map_append, List.map_singleton, hbit j]
    congr 1
    exact List.map_congr_left fun i _ => by rw [hbit i]
  · show Function.update s.place t _ t = .out ↔ _
    rw [Function.update_self, ← hf.pageCnt]
    split
    next hmore => exact ⟨nofun, fun h => by omega⟩
    next hend => exact ⟨fun _ => by omega, fun _ => rfl⟩

/-- So many pages in a row are free. -/
def Request.HasRoom (pools : Pools) (r : Request) (s : State) : Prop :=
  ∃ i, i + r.pageCnt ≤ (pools r.pool).bitCnt ∧ ∀ j < r.pageCnt, s.used (r.pool, i + j) = false

/-- In every reachable state the groups that are handed out have no page in common, lie in the pool
they were asked from and touch no bitmap; a free clears the bits of its group, one by one, and no
other; nothing fails but a request with `PAL_ASSERT` for which there is no room; and a request that
is about to return null has written nothing, and unless a free has cleared a bit of the pool since it
was called, there is no room for it. A request for no pages returns null at once. -/
theorem pages_handed_out_once {userPageLimit initRamPages : Nat}
    (hp : pallocInit userPageLimit initRamPages = .ok pools)
    (h : Reach (Steps (step pools)) initial s) :
    s.live.Pairwise Group.Disjoint ∧
    (∀ g ∈ s.live, (pools g.pool).base ≤ g.pages ∧
      g.pages + g.pageCnt ≤ (pools g.pool).base + (pools g.pool).bitCnt ∧
      ∀ p, g.pages + g.pageCnt ≤ (pools p).usedMap ∨ (pools p).base ≤ g.pages) ∧
    (∀ t f j, s.place t = .clear f j → s.used (f.group.bit pools j) = true ∧
      ∃ s', run pools t s = .ok s' ∧ s'.used = Function.update s.used (f.group.bit pools j) false ∧
        s'.writes t = (List.range (j + 1)).map (fun i => (f.group.bit pools i, false)) ∧
        (s'.place t = .out ↔ j + 1 = f.group.pageCnt)) ∧
    (∀ e a, step pools e s = .error (.panic a) → a = .outOfPages) ∧
    (∀ t r, s.place t = .lockRelease r none → s.writes t = [] ∧
      (s.clears r.pool = r.since → ¬ r.HasRoom pools s)) ∧
    ∀ t p palAssert, (pallocGetMultiple t p 0 palAssert s).used = s.used := by
  have ha := pallocInit_apart hp
  have hs := reach_sound ha h
  refine ⟨?_, fun g hg => ?_, fun t f j ht => hs.clears ht, fun e a hx => ?_, fun t r ht => ?_,
    fun _ _ _ => rfl⟩
  · exact hs.nodup.pairwise_of_forall_ne fun g hg g' hg' hne => hs.disjoint ha hg hg' hne
  · have hi := hs.inside g hg
    exact ⟨hi.base, hi.last, hs.off_bitmaps ha hg⟩
  · obtain ⟨s', h', _⟩ | h' | h' := hs.step_ok ha e
    · rw [h'] at hx
      cases hx
    · rw [h'] at hx
      cases hx
    · rw [h'] at hx
      cases hx
      rfl
  · obtain ⟨hpos, _, _, hw, hroom⟩ : (Place.lockRelease r none).Fits pools s t := ht ▸ hs.fits t
    refine ⟨hw, fun heq => ?_⟩
    rintro ⟨i, hi, hfree⟩
    obtain ⟨j, hj, hused⟩ := hroom heq i (by omega)
    rw [hfree j hj] at hused
    cases hused

/-- The pools of four megabytes, of which 64 pages are for users. -/
def fourMegabytes : Pools
  | .kernel => { usedMap := 786688, base := 786689, bitCnt := 703 }
  | .user => { usedMap := 787392, base := 787393, bitCnt := 63 }

/-- A machine of four megabytes. -/
theorem pallocInit_fourMegabytes : pallocInit 64 1024 = .ok fourMegabytes := by
  refine congrArg Except.ok (funext fun p => ?_)
  cases p <;> rfl

/-- Two threads ask the kernel pool for pages. -/
theorem pages_handed_out_once_twice : ∃ s, Reach (Steps (step fourMegabytes)) initial s ∧
    s.live.length = 2 ∧ s.live.Pairwise Group.Disjoint := by
  obtain ⟨s, hs, hlen⟩ := exists_of_replay (step fourMegabytes) (fun _ _ => true)
    [.getMultiple 0 .kernel 2 false, .getMultiple 1 .kernel 1 false, .run 0, .run 0, .run 0, .run 0,
      .run 0, .run 0, .run 1, .run 1, .run 1, .run 1, .run 1, .run 1] initial
    (fun s => s.live.length == 2) (by decide +kernel)
  exact ⟨s, hs.reach, by simpa using hlen,
    (pages_handed_out_once pallocInit_fourMegabytes hs.reach).1⟩

/-- A request for no pages returns null, and there is always room for it. -/
theorem null_for_no_pages :
    ¬ ∀ s, Reach (Steps (step fourMegabytes)) initial s → ∀ t p pageCnt palAssert,
      (pallocGetMultiple t p pageCnt palAssert s).place t = .out →
      ¬ Request.HasRoom fourMegabytes
        { pool := p, pageCnt := pageCnt, palAssert := palAssert, since := s.clears p } s := by
  intro hno
  refine hno initial .start 0 .kernel 0 false rfl ⟨0, Nat.zero_le _, fun j hj => ?_⟩
  exact absurd hj (Nat.not_lt_zero j)

end Pintos.Memory
