import Mathlib.Data.Set.BooleanAlgebra
import Mathlib.Order.CompletePartialOrder
import Mathlib.Data.Set.Disjoint
import Pintos.Lib.Exclusive
import Pintos.Filesys.FreeMap

/-!
# Who has which sector

The inodes on the device share its sectors out: each has the sector it is in and those of its data.
`Laid` says of a set of inodes, given by their sectors, that no sector is had twice and that all are
marked in the free map. Writing to the data of one leaves the inodes themselves where they are; an
inode is added with sectors that were free, and its sectors may be freed once it is dropped.
-/

namespace Pintos.Filesys

open Pintos.Lib

variable {device device' : SectorNo → Sector} {m m' : List Bool} {live live' : Set SectorNo}
  {c c' x : SectorNo} {a cnt : Nat}

/-- What an inode has sectors for. -/
inductive Part where
  | inode
  | data
  deriving DecidableEq, Repr

/-- The inodes in `live` have their own sectors, and those of their data. -/
def Owns (device : SectorNo → Sector) (live : Set SectorNo) : SectorNo × Part → SectorNo → Prop
  | (c, .inode), x => c ∈ live ∧ x = c
  | (c, .data), x => c ∈ live ∧ (loaded device c).HasSector x

/-- The sectors of an inode. -/
def sectorsOf (device : SectorNo → Sector) (c : SectorNo) : Set SectorNo :=
  {x | x = c ∨ (loaded device c).HasSector x}

/-- The inodes in `live` share out sectors that are in use. -/
structure Laid (device : SectorNo → Sector) (m : List Bool) (live : Set SectorNo) : Prop where
  exclusive : Exclusive (Owns device live) (Marked m)
  small : m.length < 2 ^ 32
  length : ∀ c ∈ live, 0 ≤ (loaded device c).length
  inside : ∀ c ∈ live, (loaded device c).start + bytesToSectors (loaded device c).length ≤ m.length

theorem owns_of_mem (hc : c ∈ live) (hx : x ∈ sectorsOf device c) :
    ∃ p, Owns device live (c, p) x := by
  rcases hx with rfl | hx
  · exact ⟨.inode, hc, rfl⟩
  · exact ⟨.data, hc, hx⟩

theorem mem_of_owns {p : Part} (h : Owns device live (c, p) x) : c ∈ live ∧ x ∈ sectorsOf device c := by
  cases p with
  | inode => exact ⟨h.1, .inl h.2⟩
  | data => exact ⟨h.1, .inr h.2⟩

/-- The sectors of an inode are in use. -/
theorem Laid.marked (h : Laid device m live) (hc : c ∈ live) (hx : x ∈ sectorsOf device c) :
    Marked m x := by
  obtain ⟨p, hp⟩ := owns_of_mem hc hx
  exact h.exclusive.used _ _ hp

/-- Two inodes have no sector in common. -/
theorem Laid.apart (h : Laid device m live) (hc : c ∈ live) (hc' : c' ∈ live) (hne : c ≠ c') :
    Disjoint (sectorsOf device c) (sectorsOf device c') := by
  rw [Set.disjoint_left]
  intro x hx hx'
  obtain ⟨p, hp⟩ := owns_of_mem hc hx
  obtain ⟨p', hp'⟩ := owns_of_mem hc' hx'
  exact hne (congrArg Prod.fst (h.exclusive.unique _ _ x hp hp'))

/-- No inode is where there is data. -/
theorem Laid.not_data (h : Laid device m live) (hc : c ∈ live) (hc' : c' ∈ live) :
    ¬ (loaded device c').HasSector c := by
  intro hin
  have heq := h.exclusive.unique (c, .inode) (c', .data) c ⟨hc, rfl⟩ ⟨hc', hin⟩
  exact Part.noConfusion (congrArg Prod.snd heq)

theorem sectorsOf_congr (h : device' c = device c) : sectorsOf device' c = sectorsOf device c := by
  unfold sectorsOf
  rw [loaded_congr h]

/-! ## Writing -/

theorem owns_congr (h : ∀ c ∈ live, device' c = device c) {o : SectorNo × Part} :
    Owns device' live o x ↔ Owns device live o x := by
  obtain ⟨c, p⟩ := o
  cases p with
  | inode => rfl
  | data =>
    unfold Owns
    constructor
    · rintro ⟨hc, hx⟩
      exact ⟨hc, loaded_congr (h c hc) ▸ hx⟩
    · rintro ⟨hc, hx⟩
      exact ⟨hc, (loaded_congr (h c hc)).symm ▸ hx⟩

/-- The inodes are as they were, and what they have is in use. -/
theorem Laid.of_same (h : Laid device m live) (hd : ∀ c ∈ live, device' c = device c)
    (hlen : m'.length = m.length) (hm : ∀ x, Marked m x → Marked m' x) : Laid device' m' live where
  exclusive := h.exclusive.sub (fun _ _ ho => (owns_congr hd).mp ho) hm
  small := by
    rw [hlen]
    exact h.small
  length := by
    intro c hc
    rw [loaded_congr (hd c hc)]
    exact h.length c hc
  inside := by
    intro c hc
    rw [loaded_congr (hd c hc), hlen]
    exact h.inside c hc

/-- Only the data of `c` differs. -/
def DataOnly (device device' : SectorNo → Sector) (c : SectorNo) : Prop :=
  ∀ x, ¬ (loaded device c).HasSector x → device' x = device x

/-- Writing data leaves the inodes alone. -/
theorem Laid.inode_eq (h : Laid device m live) (hc : c ∈ live) (hd : DataOnly device device' c)
    (hc' : c' ∈ live) : device' c' = device c' := hd c' (h.not_data hc' hc)

/-- And the data of the others. -/
theorem Laid.data_eq (h : Laid device m live) (hc : c ∈ live) (hd : DataOnly device device' c)
    (hc' : c' ∈ live) (hne : c' ≠ c) (hx : (loaded device c').HasSector x) : device' x = device x := by
  refine hd x fun hin => ?_
  exact Set.disjoint_left.mp (h.apart hc' hc hne) (.inr hx) (.inr hin)

theorem Laid.of_write (h : Laid device m live) (hc : c ∈ live) (hd : DataOnly device device' c) :
    Laid device' m live := h.of_same (fun _ hc' => h.inode_eq hc hd hc') rfl fun _ hx => hx

/-! ## Fewer inodes -/

/-- Inodes are dropped, and what the others have stays in use. -/
theorem Laid.drop (h : Laid device m live) (m' : List Bool) (hsub : live' ⊆ live) (hlen : m'.length = m.length)
    (hm : ∀ c ∈ live', ∀ x ∈ sectorsOf device c, Marked m' x) : Laid device m' live' where
  exclusive := by
    have hown : ∀ o x, Owns device live' o x → Owns device live o x := by
      rintro ⟨c, p⟩ x ho
      cases p with
      | inode => exact ⟨hsub ho.1, ho.2⟩
      | data => exact ⟨hsub ho.1, ho.2⟩
    refine ⟨fun o o' x ho ho' => h.exclusive.unique o o' x (hown o x ho) (hown o' x ho'), ?_⟩
    rintro ⟨c, p⟩ x ho
    obtain ⟨hc, hx⟩ := mem_of_owns ho
    exact hm c hc x hx
  small := by
    rw [hlen]
    exact h.small
  length := fun c hc => h.length c (hsub hc)
  inside := by
    intro c hc
    rw [hlen]
    exact h.inside c (hsub hc)

/-! ## A new inode -/

/-- The sector is in use, and no inode has it. -/
def Reserved (device : SectorNo → Sector) (m : List Bool) (live : Set SectorNo) (c : SectorNo) : Prop :=
  Marked m c ∧ ∀ c' ∈ live, c ∉ sectorsOf device c'

theorem Reserved.not_live (h : Reserved device m live c) : c ∉ live := fun hc => h.2 c hc (.inl rfl)

/-- An inode is written to a reserved sector, with data in sectors that were free. -/
theorem Laid.create (h : Laid device m live) (ino : Inode) (hr : Reserved device m live c)
    (hvac : Vacant m ino.start (bytesToSectors ino.length)) (hlength : 0 ≤ ino.length)
    (hd : ∀ c' ∈ live, device' c' = device c') (hstart : (loaded device' c).start = ino.start)
    (hlen : (loaded device' c).length = ino.length) :
    Laid device' (setMultiple m ino.start (bytesToSectors ino.length) true) (insert c live) := by
  have hhas : ∀ x, (loaded device' c).HasSector x ↔ ino.HasSector x := fun x =>
    hasSector_of_eq hstart hlen
  constructor
  case exclusive =>
    have hkeep : Exclusive (Owns device live) fun x => Marked m x ∧ x ≠ c := by
      refine ⟨h.exclusive.unique, ?_⟩
      rintro ⟨c', p⟩ x ho
      obtain ⟨hc', hx⟩ := mem_of_owns ho
      exact ⟨h.exclusive.used _ x ho, fun heq => hr.2 c' hc' (heq ▸ hx)⟩
    have hinode : Exclusive (fun o x => Owns device live o x ∨ (o = (c, .inode) ∧ x ∈ ({c} : Set SectorNo)))
        (Marked m) := by
      refine hkeep.claim (o := (c, .inode)) (S := {c}) ?_ (fun _ _ ho => ho) ?_
      · rintro x rfl ⟨-, hne⟩
        exact hne rfl
      · rintro x (⟨hx, -⟩ | rfl)
        · exact hx
        · exact hr.1
    refine hinode.claim (o := (c, .data)) (S := {x | ino.HasSector x}) ?_ ?_ ?_
    · rintro x ⟨hlo, hhi⟩
      exact hvac.2 x hlo hhi
    · rintro ⟨c', p⟩ x ho
      obtain ⟨hc', -⟩ := mem_of_owns ho
      rcases hc' with rfl | hc'
      · cases p with
        | inode => exact .inl (.inr ⟨rfl, ho.2⟩)
        | data => exact .inr ⟨rfl, (hhas x).mp ho.2⟩
      · refine .inl (.inl ?_)
        cases p with
        | inode => exact ⟨hc', ho.2⟩
        | data => exact ⟨hc', loaded_congr (hd c' hc') ▸ ho.2⟩
    · exact fun x hx => (marked_set_true hvac.1).mpr hx
  case small =>
    rw [length_setMultiple]
    exact h.small
  case length =>
    rintro c' (rfl | hc')
    · rw [hlen]
      exact hlength
    · rw [loaded_congr (hd c' hc')]
      exact h.length c' hc'
  case inside =>
    rw [length_setMultiple]
    rintro c' (rfl | hc')
    · rw [hstart, hlen]
      exact hvac.1
    · rw [loaded_congr (hd c' hc')]
      exact h.inside c' hc'

/-! ## `inode_create` -/

/-- What is read of an inode that has been written. -/
theorem loaded_inodeDisk {start : SectorNo} {length : Int} (hd : device c = inodeDisk start length)
    (hs : start < 2 ^ 32) (hl : 0 ≤ length) (hl' : length < 2 ^ 31) :
    (loaded device c).start = start ∧ (loaded device c).length = length := by
  have hbyte : ∀ i < 512, (inodeDisk start length).byte i =
      (wordBytes start ++ (wordBytes (length % 2 ^ 32).toNat ++ wordBytes 0x494e4f44)).getD i 0 := by
    intro i hi
    unfold Sector.byte
    rw [dif_pos hi, ← List.append_assoc]
    rfl
  have hstart : word (inodeDisk start length).byte 0 = start % 2 ^ 32 := by
    refine Eq.trans ?_ (word_wordBytes start
      (wordBytes (length % 2 ^ 32).toNat ++ wordBytes 0x494e4f44))
    unfold word
    rw [hbyte 0 (by omega), hbyte 1 (by omega), hbyte 2 (by omega), hbyte 3 (by omega)]
  have hlength : word (inodeDisk start length).byte 4 = (length % 2 ^ 32).toNat % 2 ^ 32 := by
    refine Eq.trans ?_ (word_wordBytes _ (wordBytes 0x494e4f44))
    have hskip : ∀ i < 4, (inodeDisk start length).byte (4 + i) =
        (wordBytes (length % 2 ^ 32).toNat ++ wordBytes 0x494e4f44).getD i 0 := by
      intro i hi
      rw [hbyte (4 + i) (by omega), List.getD_eq_getElem?_getD, List.getD_eq_getElem?_getD,
        List.getElem?_append_right (by rw [length_wordBytes]; omega), length_wordBytes,
        Nat.add_sub_cancel_left]
    unfold word
    rw [hskip 0 (by omega), hskip 1 (by omega), hskip 2 (by omega), hskip 3 (by omega)]
  unfold loaded
  rw [hd, hstart, hlength]
  refine ⟨Nat.mod_eq_of_lt hs, ?_⟩
  have hnum : (((length % 2 ^ 32).toNat % 2 ^ 32 : Nat) : Int) = length := by omega
  rw [hnum]
  apply Int.bmod_eq_of_le <;> omega

/-- The free map has a file, which is one of the inodes, or there is no inode yet. -/
def MapHeld (s : Files) (live : Set SectorNo) : Prop :=
  freeMapSector ∈ live ∨ (s.freeMapFile = none ∧ live = ∅)

/-- No inode is in the data of the free map. -/
theorem Laid.not_map {s : Files} (h : Laid s.device s.freeMap live) (hmap : MapHeld s live)
    (hc : c ∈ live) : ¬ (loaded s.device freeMapSector).HasSector c := by
  rcases hmap with hmap | ⟨-, rfl⟩
  · exact h.not_data hc hmap
  · exact absurd hc (Set.notMem_empty c)

/-- There is a new inode in the sector `c`, with data that is all zeros. -/
structure Created (s s' : Files) (live : Set SectorNo) (c : SectorNo) (length : Int) : Prop where
  eq : s' = { s with freeMap := s'.freeMap, device := s'.device }
  laid : Laid s'.device s'.freeMap (insert c live)
  others : ∀ x, Marked s.freeMap x → x ≠ c → ¬ (loaded s.device freeMapSector).HasSector x →
    s'.device x = s.device x
  length : (loaded s'.device c).length = length
  zero : ∀ x, (loaded s'.device c).HasSector x → s'.device x = fun _ => 0
  size : s'.freeMap.length = s.freeMap.length
  marks : ∀ x, Marked s.freeMap x → Marked s'.freeMap x
  synced : s.freeMapFile.isSome = true → Synced s'

/-- `inode_create` in a reserved sector adds an inode, or changes nothing. -/
theorem inodeCreate_ok {s s' : Files} {length : Int} {ok : Bool} (hready : MapReady s)
    (h : Laid s.device s.freeMap live) (hmap : MapHeld s live)
    (hr : Reserved s.device s.freeMap live c) (hlen : length < 2 ^ 31)
    (hx : inodeCreate c length s = .ok (ok, s')) :
    (ok = false ∧ s' = s) ∨ (ok = true ∧ Created s s' live c length) := by
  unfold inodeCreate at hx
  split at hx
  · cases hx
  next hneg =>
    have hnonneg : 0 ≤ length := Int.not_lt.mp hneg
    dsimp only at hx
    split at hx
    next hnone =>
      cases hx
      exact .inl ⟨rfl, freeMapAllocate_none hready hnone⟩
    next start s₁ hsome =>
      obtain ⟨hvac, hre⟩ := freeMapAllocate_some hready hsome
      have hout : ∀ x, Marked s.freeMap x →
          ¬ (start ≤ x ∧ x < start + bytesToSectors length) :=
        fun x hx hin => hvac.2 x hin.1 hin.2 hx
      have hc := hout c hr.1
      cases hx
      -- `device` is what is on the device in the end.
      generalize hdev : (fun i => if start ≤ i ∧ i < start + bytesToSectors length then fun _ => 0
        else Function.update s₁.device c (inodeDisk start length) i : SectorNo → Sector) = device
      have hat : device c = inodeDisk start length := by
        rw [← hdev]
        dsimp only
        rw [if_neg hc, Function.update_self]
      have hkeep : ∀ x, Marked s.freeMap x → x ≠ c → device x = s₁.device x := by
        intro x hx hne
        rw [← hdev]
        dsimp only
        rw [if_neg (hout x hx), Function.update_of_ne hne]
      have hothers : ∀ x, Marked s.freeMap x → x ≠ c →
          ¬ (loaded s.device freeMapSector).HasSector x → device x = s.device x :=
        fun x hx hne hmapx => (hkeep x hx hne).trans (hre.mapOnly x hmapx)
      have hlive : ∀ c' ∈ live, device c' = s.device c' := fun c' hc' =>
        hothers c' (h.marked hc' (.inl rfl)) (fun heq => hr.not_live (heq ▸ hc')) (h.not_map hmap hc')
      have hstart : start < 2 ^ 32 :=
        Nat.lt_of_le_of_lt (Nat.le_trans (Nat.le_add_right _ _) hvac.1) h.small
      obtain ⟨hs, hl⟩ := loaded_inodeDisk hat hstart hnonneg hlen
      have hfree : s₁.freeMap = setMultiple s.freeMap start (bytesToSectors length) true := by
        rw [hre.eq]
      refine .inr ⟨rfl, ?_⟩
      constructor
      case eq =>
        rw [hre.eq]
      case laid =>
        show Laid device s₁.freeMap _
        rw [hfree]
        exact h.create { loaded device c with start := start, length := length } hr hvac
          hnonneg hlive hs hl
      case others => exact hothers
      case length => exact hl
      case zero =>
        intro x hx
        have hin : start ≤ x ∧ x < start + bytesToSectors length := by
          have hx' := hx
          unfold Inode.HasSector at hx'
          rw [hs, hl] at hx'
          exact hx'
        show device x = _
        rw [← hdev]
        exact if_pos hin
      case size =>
        show s₁.freeMap.length = _
        rw [hfree, length_setMultiple]
      case marks =>
        intro x hx
        show Marked s₁.freeMap x
        rw [hfree]
        exact (marked_set_true hvac.1).mpr (.inl hx)
      case synced =>
        intro hsome'
        rcases hmap with hmap | ⟨hnone, -⟩
        · have hsync := hre.synced hsome'
          have hne : freeMapSector ≠ c := fun heq => hr.not_live (heq ▸ hmap)
          have hmark := h.marked hmap (.inl rfl)
          have hzero : s₁.device freeMapSector = s.device freeMapSector :=
            hre.mapOnly _ (h.not_data hmap hmap)
          have hsame : device freeMapSector = s₁.device freeMapSector := hkeep _ hmark hne
          intro i hi
          refine Eq.trans ?_ (hsync i hi)
          rw [byteAt_of_start (congrArg Inode.start (loaded_congr hsame))]
          refine byteAt_congr (loaded_length_lt _ _) (fun x hx => ?_) (Int.natCast_nonneg i) ?_
          · rw [loaded_congr hzero] at hx
            exact hkeep x (h.marked hmap (.inr hx)) fun heq => hr.2 _ hmap (.inr (heq ▸ hx))
          · obtain ⟨f, hf⟩ := Option.isSome_iff_exists.mp hsome'
            obtain ⟨r, hm⟩ := hready f hf
            have hlength := hm.agrees.2
            rw [hm.sector, hm.length] at hlength
            rw [loaded_congr hzero, ← hlength]
            unfold Files.mapBytes at hi ⊢
            rw [length_bitmapBytes, List.length_append] at hi ⊢
            have hsize : s₁.freeMap.length = s.freeMap.length := by rw [hfree, length_setMultiple]
            have hpad : s₁.pad = s.pad := by rw [hre.eq]
            simp only [hsize, hpad] at hi
            omega
        · rw [hnone] at hsome'
          exact absurd hsome' Bool.false_ne_true

end Pintos.Filesys
