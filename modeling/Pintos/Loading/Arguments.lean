import Pintos.Loading.ArgumentLayout

/-!
# The arguments of a program

`Laid` is what a program may expect to find on its stack. It does if its command line neither begins
nor ends with a space, and `setup_stack` had a page for its copy of the command line. With a space
at either end `argc` is too large by one, and without the page `setup_stack` answers `TID_ERROR`,
which `load` takes for success.
-/

namespace Pintos.Loading

open Pintos.Lib Pintos.Vm

variable {faults : Faults} {m m' : UserSpace} {a : Nat} {cs cmd : List UInt8}

/-- The stack of a program that starts with the command line `cmd`: at `esp` a return address, `argc`
and `argv`; at `argv` the addresses of copies of the tokens, and a null pointer; the copies apart
from each other and from these. -/
structure Laid (cmd : List UInt8) (esp argv : Nat) (addr : Nat → Nat) (m : UserSpace) : Prop where
  aligned : esp % 4 = 0
  retWord : m.Holds esp (leBytes 4 0)
  argcWord : m.Holds (esp + 4) (leBytes 4 (tokens cmd).length)
  argvWord : m.Holds (esp + 8) (leBytes 4 argv)
  address : ∀ i < (tokens cmd).length, m.Holds (argv + 4 * i) (leBytes 4 (addr i))
  null : m.Holds (argv + 4 * (tokens cmd).length) (leBytes 4 0)
  copy : ∀ i (h : i < (tokens cmd).length), m.Holds (addr i) ((tokens cmd)[i] ++ [0])
  inUser : ∀ i (h : i < (tokens cmd).length), addr i + (tokens cmd)[i].length + 1 ≤ physBaseAddr
  apart : ∀ i j (hi : i < (tokens cmd).length) (hj : j < (tokens cmd).length), i ≠ j →
    addr i + (tokens cmd)[i].length + 1 ≤ addr j ∨ addr j + (tokens cmd)[j].length + 1 ≤ addr i
  clear : ∀ i < (tokens cmd).length, argv + 4 * ((tokens cmd).length + 1) ≤ addr i

/-- Where the count is right the layout is the claim's. -/
theorem laid_of_laidOut (htok : tokens cmd ≠ []) (hlen : cmd.length < 4096)
    (hcount : argCount cmd = (tokens cmd).length) (h : LaidOut cmd m) :
    Laid cmd (espAt cmd) (addressesAt cmd) (fun i => argsAt cmd + offset (tokens cmd) i) m := by
  have hcmd : cmd ≠ [] := fun hnil => htok (by rw [hnil]; exact words_nil)
  obtain ⟨_, _, _, hroom, htop, hnull, haddr, _, _, haligned⟩ := lies hcmd hlen
  have hzero : leBytes 4 0 = List.replicate 4 0 := by decide
  rw [hcount] at haddr
  constructor
  case aligned => exact haligned
  case retWord => exact hzero ▸ h.ret
  case argcWord => exact hcount ▸ h.argc
  case argvWord => exact h.argv
  case address => exact h.address
  case null =>
    rw [haddr, hzero]
    exact h.null
  case copy => exact h.copy
  case inUser =>
    intro i hi
    have := offset_add_le (tokens cmd) hi
    omega
  case apart =>
    intro i j hi hj hne
    rcases Nat.lt_or_gt_of_ne hne with hij | hji
    · have := offset_succ_le (tokens cmd) hi hij
      omega
    · have := offset_succ_le (tokens cmd) hj hji
      omega
  case clear =>
    intro i hi
    omega

/-- The pages of the process are user pages, and not the first. -/
def UserSpace.OnlyUser (m : UserSpace) : Prop := ∀ u, m u ≠ none → 1 ≤ u ∧ u < physBase

/-- Nothing can be read outside the pages of the process. -/
theorem UserSpace.Holds.mapped (h : m.Holds a cs) (hcs : 0 < cs.length) : m (a / 4096) ≠ none := by
  intro hnone
  have hbyte := h 0 hcs
  unfold UserSpace.byte at hbyte
  rw [Nat.add_zero, hnone] at hbyte
  cases hbyte

/-- What is read twice is the same. -/
theorem UserSpace.Holds.eq {bs cs : List UInt8} (h : m.Holds a bs) (h' : m.Holds a cs)
    (hlen : bs.length = cs.length) : bs = cs := by
  apply List.ext_getElem hlen
  intro i hi hi'
  exact Option.some.inj ((h i hi).symm.trans (h' i hi'))

theorem Laid.not_zero {argv : Nat} {addr : Nat → Nat} (hm : m.OnlyUser) :
    ¬ Laid cmd 0 argv addr m := by
  intro h
  have := (hm _ (h.retWord.mapped (by simp))).1
  exact absurd this (by decide)

theorem Laid.not_top {argv : Nat} {addr : Nat → Nat} (hm : m.OnlyUser) :
    ¬ Laid cmd physBaseAddr argv addr m := by
  intro h
  have := (hm _ (h.retWord.mapped (by simp))).2
  exact absurd this (by decide)

/-- The page of the stack is a user page. -/
theorem onlyUser_withStack (hm : m.OnlyUser) : m.withStack.OnlyUser := by
  intro u hu
  by_cases htop : u = physBase - 1
  · rw [htop]
    decide
  · unfold UserSpace.withStack at hu
    rw [Function.update_of_ne htop] at hu
    exact hm u hu

/-- The page of the stack can be written. -/
theorem storable_withStack (u : Nat) : m.withStack.Storable faults u ↔
    u = 0xBFFFF ∨ m.Storable faults u ∧ u ≠ 0xBFFFF := by
  unfold UserSpace.Storable UserSpace.withStack
  by_cases htop : u = physBase - 1
  · rw [htop, Function.update_self]
    exact iff_of_true ⟨by decide, .inl ⟨_, rfl, rfl⟩⟩ (.inl rfl)
  · have hne : u ≠ 0xBFFFF := htop
    rw [Function.update_of_ne htop]
    simp [hne]

/-! ## Every command line -/

/-- With its pages to be had, `setup_stack` returns with the layout. -/
theorem setupStack_granted (env : StackEnv) (hstack : env.stackPage = .granted)
    (hcopy : env.copyPage = .granted) (hfree : m (physBase - 1) = none) (htable : env.table = true) :
    setupStack env cmd 0 m = (do
      let (esp, m) ← layoutArgs env.faults cmd physBaseAddr m.withStack
      .ok (true, esp, m)) := by
  simp only [setupStack, hstack, hcopy, hfree, htable, Option.isNone_none, Bool.and_true, if_true]

/-- When `setup_stack` returns true: it had a stack page, and either no page for its copy or the
whole layout. -/
theorem setupStack_eq_true {env : StackEnv} {esp : Nat}
    (h : setupStack env cmd 0 m = .ok (true, esp, m')) : env.stackPage = .granted ∧
      (env.copyPage = .notEvicted ∨ env.copyPage = .granted ∧ m (physBase - 1) = none ∧
        env.table = true ∧ layoutArgs env.faults cmd physBaseAddr m.withStack = .ok (esp, m')) := by
  unfold setupStack at h
  split at h
  next => cases h
  next => cases h
  next hstack =>
    refine ⟨hstack, ?_⟩
    dsimp only at h
    cases hcopy : env.copyPage with
    | notEvicted => exact .inl rfl
    | stillNone =>
      rw [hcopy] at h
      cases h
    | granted =>
      rw [hcopy] at h
      obtain ⟨⟨esp', m₁⟩, h₁, h⟩ := bind_eq_ok.mp h
      simp only [Except.ok.injEq, Prod.mk.injEq, Bool.and_eq_true, Option.isNone_iff_eq_none] at h
      obtain ⟨⟨hfree, htable⟩, rfl, rfl⟩ := h
      simp only [hfree, htable, Option.isNone_none, Bool.and_true, if_true] at h₁
      exact .inr ⟨rfl, hfree, htable, h₁⟩

/-- Without a page for its copy of the command line `setup_stack` returns true, and the arguments are
not on the stack. -/
theorem setupStack_notEvicted (env : StackEnv) (cmd : List UInt8) (hm : m.OnlyUser)
    (hstack : env.stackPage = .granted) (hcopy : env.copyPage = .notEvicted) :
    ∃ esp m', setupStack env cmd 0 m = .ok (true, esp, m') ∧
      ∀ argv addr, ¬ Laid cmd esp argv addr m' := by
  unfold setupStack
  simp only [hstack, hcopy]
  cases hsuccess : (m (physBase - 1)).isNone && env.table with
  | false => exact ⟨0, m, rfl, fun _ _ => Laid.not_zero hm⟩
  | true => exact ⟨physBaseAddr, m.withStack, rfl, fun _ _ => Laid.not_top (onlyUser_withStack hm)⟩

/-- The bytes that a command line takes on the stack: its characters with a zero, filled up to words
by at least one byte, a pointer for each argument as `setup_stack` counts them, and four more words. -/
def stackNeed (cmd : List UInt8) : Nat :=
  4 * ((cmd.length + 1) / 4 + 1 +
    ((tokens cmd).length + beginsWithSpace cmd + endsWithSpace cmd) + 4)

/-- The stack needs what is between its pointer and `PHYS_BASE`. -/
theorem espAt_add_stackNeed (hcmd : cmd ≠ []) (hlen : cmd.length < 4096) :
    espAt cmd + stackNeed cmd = physBaseAddr := by
  obtain ⟨_, _, _, _, htop, hnull, haddr, hesp, _, _⟩ := lies hcmd hlen
  have hcount : argCount cmd = _ := scanArgs_fst hcmd
  unfold stackNeed
  rw [← hcount]
  unfold alignment at hnull
  omega

/-- The pages that the arguments need can be written: all but the last before the stack page is
mapped, and all of them then. -/
theorem storable_stackNeed (hcmd : cmd ≠ []) (hlen : cmd.length < 4096) :
    (∀ u : Nat, physBaseAddr < 4096 * (u + 1) + stackNeed cmd → u < 0xBFFFF → m.Storable faults u) ↔
      ∀ u : Nat, espAt cmd / 4096 ≤ u → u < 0xC0000 → m.withStack.Storable faults u := by
  have hneed := espAt_add_stackNeed hcmd hlen
  constructor
  · intro h u hlow hu
    rw [storable_withStack]
    by_cases htop : u = 0xBFFFF
    · exact .inl htop
    · exact .inr ⟨h u (by omega) (by omega), htop⟩
  · intro h u hlow hu
    exact (((storable_withStack u).mp (h u (by omega) (by omega))).resolve_left (by omega)).1

/-- The count is right if no space is at either end. -/
theorem argCount_eq_iff (hcmd : cmd ≠ []) : argCount cmd = (tokens cmd).length ↔
    cmd.head? ≠ some space ∧ cmd.getLast? ≠ some space := by
  have h : argCount cmd = _ := scanArgs_fst hcmd
  unfold beginsWithSpace endsWithSpace at h
  rw [h]
  split <;> split <;> simp_all
  omega

/-- On the stack of a program `argc` is the number of its arguments, so that `setup_stack` has
counted them right. -/
theorem Laid.argCount {argv : Nat} {addr : Nat → Nat} (h : Laid cmd (espAt cmd) argv addr m)
    (hcmd : cmd ≠ []) (hlen : cmd.length < 4096) (hout : LaidOut cmd m) :
    argCount cmd = (tokens cmd).length := by
  obtain ⟨hle, _, hlt, _, _, _, _, _, _, _⟩ := lies hcmd hlen
  have hword := congrArg ofLe (hout.argc.eq h.argcWord (by simp))
  rwa [ofLe_leBytes_of_lt (by omega), ofLe_leBytes_of_lt (by omega)] at hword

/-- Whenever `setup_stack` returns true the arguments are on the stack as they should be: exactly
when, if there is a stack page, there is a page for the copy of the command line or `setup_stack`
does not return, and the command line neither begins nor ends with a space or the stack page is taken
or the pages below it cannot be written. -/
theorem arguments_laid (env : StackEnv) (cmd : List UInt8) (m : UserSpace)
    (hchar : ∃ c ∈ cmd, c ≠ space) (hlen : cmd.length < 4096) (hm : m.OnlyUser) :
    (∀ esp m', setupStack env cmd 0 m = .ok (true, esp, m') →
      ∃ argv addr, Laid cmd esp argv addr m') ↔
    (env.stackPage = .granted → env.copyPage ≠ .notEvicted ∧
      (env.copyPage = .granted → m (physBase - 1) = none → env.table = true →
        (∀ u : Nat, physBaseAddr < 4096 * (u + 1) + stackNeed cmd → u < 0xBFFFF →
          m.Storable env.faults u) →
          cmd.head? ≠ some space ∧ cmd.getLast? ≠ some space)) := by
  have htok : tokens cmd ≠ [] := by
    obtain ⟨c, hc, hne⟩ := hchar
    exact words_ne_nil ⟨c, hc, by simpa [isSpace] using hne⟩
  have hcmd : cmd ≠ [] := fun hnil => htok (by rw [hnil]; exact words_nil)
  rw [← argCount_eq_iff hcmd, storable_stackNeed hcmd hlen]
  constructor
  · intro hlaid hstack
    have hcopy : env.copyPage ≠ .notEvicted := by
      intro hcopy
      obtain ⟨esp, m', hret, hbad⟩ := setupStack_notEvicted env cmd hm hstack hcopy
      obtain ⟨argv, addr, hl⟩ := hlaid esp m' hret
      exact hbad argv addr hl
    refine ⟨hcopy, fun hcopy hfree htable hbelow => ?_⟩
    obtain ⟨esp, m', hlay⟩ := (layoutArgs_ok_iff htok hlen).mpr hbelow
    obtain ⟨rfl, hout, _⟩ := layoutArgs_eq_ok htok hlen hlay
    obtain ⟨argv, addr, hl⟩ := hlaid _ m' (by
      rw [setupStack_granted env hstack hcopy hfree htable, hlay]
      rfl)
    exact hl.argCount hcmd hlen hout
  · intro hcond esp m' h
    obtain ⟨hstack, hor⟩ := setupStack_eq_true h
    obtain ⟨hnot, hcount⟩ := hcond hstack
    obtain ⟨hcopy, hfree, htable, hlay⟩ := hor.resolve_left hnot
    have hbelow := (layoutArgs_ok_iff htok hlen).mp ⟨esp, m', hlay⟩
    obtain ⟨rfl, hout, _⟩ := layoutArgs_eq_ok htok hlen hlay
    exact ⟨_, _, laid_of_laidOut htok hlen (hcount hcopy hfree htable hbelow) hout⟩

/-- There are pages, and no fault can be served. -/
def plentyEnv : StackEnv :=
  { faults := fun _ => none, stackPage := .granted, table := true, copyPage := .granted }

/-- A command line that needs no more than the stack page is put on it. -/
theorem setupStack_plenty (htok : tokens cmd ≠ []) (hlen : cmd.length < 4096)
    (hneed : stackNeed cmd ≤ 4096) : ∃ m', setupStack plentyEnv cmd 0 (fun _ => none) =
      .ok (true, espAt cmd, m') ∧ LaidOut cmd m' := by
  have hcmd : cmd ≠ [] := fun hnil => htok (by rw [hnil]; exact words_nil)
  have hstore : ∀ u : Nat, espAt cmd / 4096 ≤ u → u < 0xC0000 →
      (UserSpace.withStack fun _ => none).Storable plentyEnv.faults u :=
    (storable_stackNeed hcmd hlen).mp fun u hu hlt => by
      unfold physBaseAddr at hu
      omega
  obtain ⟨esp, m', hlay⟩ := (layoutArgs_ok_iff htok hlen).mpr hstore
  obtain ⟨rfl, hout, _⟩ := layoutArgs_eq_ok htok hlen hlay
  refine ⟨m', ?_, hout⟩
  rw [setupStack_granted plentyEnv rfl rfl rfl rfl, hlay]
  rfl

/-- `echo x` -/
def echoLine : List UInt8 := [0x65, 0x63, 0x68, 0x6f, 0x20, 0x78]

/-- A command with its arguments. -/
theorem arguments_laid_echo : ∃ esp m', setupStack plentyEnv echoLine 0 (fun _ => none) =
    .ok (true, esp, m') ∧ ∃ argv addr, Laid echoLine esp argv addr m' := by
  have hlaid := (arguments_laid plentyEnv echoLine (fun _ => none) ⟨0x65, by decide, by decide⟩
    (by decide) (fun _ h => absurd rfl h)).mpr fun _ =>
      ⟨by decide, fun _ _ _ _ => ⟨by decide, by decide⟩⟩
  obtain ⟨m', h, _⟩ := setupStack_plenty (show tokens echoLine ≠ [] by decide) (by decide) (by decide)
  exact ⟨_, m', h, hlaid _ m' h⟩

/-- The command line of a child of `multi-oom`: `multi-oom 3 `, with a space at its end. -/
def multiOomLine : List UInt8 :=
  [0x6d, 0x75, 0x6c, 0x74, 0x69, 0x2d, 0x6f, 0x6f, 0x6d, 0x20, 0x33, 0x20]

/-- A command with a space at its end. -/
theorem tokens_multiOomLine : tokens multiOomLine =
    [[0x6d, 0x75, 0x6c, 0x74, 0x69, 0x2d, 0x6f, 0x6f, 0x6d], [0x33]] := by
  decide

/-- `multi-oom 3 ` has two tokens, and its program is given an `argc` of 3. -/
theorem multiOomLine_not_laid : ¬ ∀ (env : StackEnv) (cmd : List UInt8) (m : UserSpace),
    (∃ c ∈ cmd, c ≠ space) → cmd.length < 4096 → m.OnlyUser →
      ∀ esp m', setupStack env cmd 0 m = .ok (true, esp, m') →
        ∃ argv addr, Laid cmd esp argv addr m' := by
  intro hall
  have htok : tokens multiOomLine ≠ [] := by rw [tokens_multiOomLine]; decide
  have hlen : multiOomLine.length < 4096 := by decide
  have hneed : stackNeed multiOomLine ≤ 4096 := by
    unfold stackNeed
    rw [tokens_multiOomLine]
    decide
  obtain ⟨m', h, hout⟩ := setupStack_plenty htok hlen hneed
  obtain ⟨argv, addr, hl⟩ := hall plentyEnv multiOomLine (fun _ => none) ⟨0x33, by decide, by decide⟩
    hlen (fun _ h => absurd rfl h) _ m' h
  have := hl.argCount (List.cons_ne_nil _ _) hlen hout
  rw [tokens_multiOomLine] at this
  exact absurd this (by decide)

end Pintos.Loading
