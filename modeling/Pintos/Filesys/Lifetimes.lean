import Pintos.Filesys.Operations

/-!
# How long inodes live

An inode lives while it has a name or an opener. A step of an operation keeps the inodes there are
(`Still`), may add one (`Grows`), or ends one: when an inode without a name has its last opener gone,
its sectors are released. `Passes` says for all of them that the sectors which become free are those
of the inodes that have ended.
-/

namespace Pintos.Filesys

open Pintos.Lib

variable {s s₁ s' : Files} {r : InodeRef} {l : List FileRef} {extra : List InodeRef}
  {fresh : List SectorNo} {c x : SectorNo} {a cnt : Nat}

/-- The inodes there are stay, where they are. -/
structure Still (fresh : List SectorNo) (s s' : Files) : Prop where
  live : s'.live fresh = s.live fresh
  freeMap : s'.freeMap = s.freeMap
  pad : s'.pad = s.pad
  inodes : ∀ c ∈ s.live fresh, s'.device c = s.device c

/-- There may be more inodes. -/
structure Grows (fresh : List SectorNo) (s s' : Files) : Prop where
  live : s.live fresh ⊆ s'.live fresh
  marks : ∀ x, Marked s.freeMap x → Marked s'.freeMap x
  size : s'.freeMap.length = s.freeMap.length
  pad : s'.pad = s.pad

/-- The sectors that become free are those of the inodes that are no more. -/
structure Passes (fresh : List SectorNo) (s s' : Files) : Prop where
  freed : ∀ x, Marked s.freeMap x →
    (¬ Marked s'.freeMap x ↔ ∃ c ∈ s.live fresh, c ∉ s'.live fresh ∧ x ∈ sectorsOf s.device c)
  size : s'.freeMap.length = s.freeMap.length
  pad : s'.pad = s.pad

theorem Still.refl (s : Files) : Still fresh s s := ⟨rfl, rfl, rfl, fun _ _ => rfl⟩

/-- What does not move in two steps does not move in both. -/
theorem Still.trans (h : Still fresh s s₁) (h' : Still fresh s₁ s') : Still fresh s s' where
  live := h'.live.trans h.live
  freeMap := h'.freeMap.trans h.freeMap
  pad := h'.pad.trans h.pad
  inodes := fun c hc => (h'.inodes c (h.live.symm ▸ hc)).trans (h.inodes c hc)

/-- Where nothing moves nothing dies. -/
theorem Still.grows (h : Still fresh s s') : Grows fresh s s' where
  live := h.live.symm.subset
  marks := fun x hx => by rw [h.freeMap]; exact hx
  size := by rw [h.freeMap]
  pad := h.pad

theorem Grows.trans (h : Grows fresh s s₁) (h' : Grows fresh s₁ s') : Grows fresh s s' where
  live := h.live.trans h'.live
  marks := fun x hx => h'.marks x (h.marks x hx)
  size := h'.size.trans h.size
  pad := h'.pad.trans h.pad

/-- Nothing becomes free. -/
theorem Grows.passes (h : Grows fresh s s') : Passes fresh s s' where
  freed := fun x hx => iff_of_false (not_not_intro (h.marks x hx)) fun ⟨_, hc, hno, _⟩ =>
    hno (h.live hc)
  size := h.size
  pad := h.pad

/-- A step that moves nothing may come before one that does. -/
theorem Still.passes (h : Still fresh s s₁) (h' : Passes fresh s₁ s') : Passes fresh s s' where
  freed := by
    intro x hx
    have hfreed := h'.freed x (h.freeMap.symm ▸ hx)
    rw [hfreed, h.live]
    refine exists_congr fun c => and_congr_right fun hc => ?_
    rw [sectorsOf_congr (h.inodes c hc)]
  size := by rw [h'.size, h.freeMap]
  pad := h'.pad.trans h.pad

/-- A step that moves nothing may come behind one that does. -/
theorem Passes.still (h : Passes fresh s s₁) (h' : Still fresh s₁ s') : Passes fresh s s' where
  freed := by
    intro x hx
    rw [h'.freeMap, h'.live]
    exact h.freed x hx
  size := by rw [h'.freeMap, h.size]
  pad := h'.pad.trans h.pad

/-! ## Which inodes are open -/

/-- Opening an inode opens no other sector's. -/
theorem isOpen_of_inodeOpen {alloc : Bool} {o : Option InodeRef} (hb : Balanced s l extra)
    (hx : inodeOpen c alloc s = (o, s')) {c' : SectorNo} (hne : c' ≠ c) :
    s'.IsOpen c' ↔ s.IsOpen c' := by
  unfold Files.IsOpen
  unfold inodeOpen at hx
  split at hx
  next r hfind =>
    cases hx
    refine exists_congr fun r' => and_congr_right fun _ => ?_
    have hsame := same_update (s := s) (r := r)
      { s.inode r with openCnt := (s.inode r).openCnt + 1 } ⟨rfl, rfl, rfl, rfl⟩ r'
    exact iff_of_eq (congrArg (· = c') hsame.sector)
  next =>
    split at hx
    · cases hx
      constructor
      · rintro ⟨r, hr, hsector⟩
        rcases List.mem_cons.mp hr with rfl | hr
        · dsimp only at hsector
          rw [Function.update_self] at hsector
          exact absurd hsector.symm hne
        · dsimp only at hsector
          rw [Function.update_of_ne (Nat.ne_of_lt (hb.counted.below r hr))] at hsector
          exact ⟨r, hr, hsector⟩
      · rintro ⟨r, hr, hsector⟩
        refine ⟨r, List.mem_cons_of_mem _ hr, ?_⟩
        dsimp only
        rw [Function.update_of_ne (Nat.ne_of_lt (hb.counted.below r hr))]
        exact hsector
    · cases hx
      rfl

/-- Closing an inode closes no other sector's. -/
theorem isOpen_of_inodeClose (hx : inodeClose (some r) s = .ok s') {c' : SectorNo}
    (hne : c' ≠ (s.inode r).sector) : s'.IsOpen c' ↔ s.IsOpen c' := by
  obtain ⟨hino, hopen, -⟩ := inodeClose_eq_ok hx
  have hsector : ∀ r', (s'.inode r').sector = (s.inode r').sector := fun r' => by
    rw [hino]
    exact (same_update (s := s) (r := r) { s.inode r with openCnt := (s.inode r).openCnt - 1 }
      ⟨rfl, rfl, rfl, rfl⟩ r').sector
  unfold Files.IsOpen
  simp only [hsector]
  constructor
  · exact fun ⟨r', hr', hs⟩ => ⟨r', openInodes_of_inodeClose hx hr', hs⟩
  · rintro ⟨r', hr', hs⟩
    refine ⟨r', ?_, hs⟩
    rw [hopen]
    split
    · exact (List.mem_erase_of_ne fun heq => hne (by rw [← hs, heq])).mpr hr'
    · exact hr'

/-- What is open matters of those inodes that are not to stay. -/
theorem SameDisk.live_eq (hd : SameDisk s s')
    (hopen : ∀ c, ¬ Placed s.device fresh c → (s'.IsOpen c ↔ s.IsOpen c)) :
    s'.live fresh = s.live fresh := by
  ext c
  show Placed s'.device fresh c ∨ s'.IsOpen c ↔ Placed s.device fresh c ∨ s.IsOpen c
  rw [hd.device]
  by_cases hc : Placed s.device fresh c
  · exact iff_of_true (.inl hc) (.inl hc)
  · exact or_congr Iff.rfl (hopen c hc)

/-- With the disk as it was, only what has no place could move. -/
theorem SameDisk.still (hd : SameDisk s s')
    (hopen : ∀ c, ¬ Placed s.device fresh c → (s'.IsOpen c ↔ s.IsOpen c)) : Still fresh s s' where
  live := hd.live_eq hopen
  freeMap := hd.freeMap
  pad := hd.pad
  inodes := fun c _ => by rw [hd.device]

/-- Opening an inode with a place moves nothing. -/
theorem Sound.still_inodeOpen {alloc : Bool} {o : Option InodeRef} (h : Sound s l extra fresh)
    (hc : Placed s.device fresh c) (hx : inodeOpen c alloc s = (o, s')) : Still fresh s s' := by
  obtain ⟨-, hd, -⟩ := h.of_inodeOpen hc hx
  refine hd.still fun c' hc' => isOpen_of_inodeOpen h.balanced hx ?_
  rintro rfl
  exact hc' hc

/-- `close_placed`, with what it does to the inodes. -/
theorem Sound.still_close (h : Sound s l (r :: extra) fresh)
    (hplaced : Placed s.device fresh (s.inode r).sector) :
    ∃ s', inodeClose (some r) s = .ok s' ∧ Sound s' l extra fresh ∧ SameDisk s s' ∧ Still fresh s s' := by
  obtain ⟨s', hx, hs', hd⟩ := h.close_placed hplaced
  refine ⟨s', hx, hs', hd, hd.still fun c' hc' => isOpen_of_inodeClose hx ?_⟩
  rintro rfl
  exact hc' hplaced

/-- Opening the root directory moves nothing. -/
theorem Sound.still_dirOpenRoot {m : Mallocs} {o : Option InodeRef} (h : Sound s l extra fresh)
    (hx : dirOpenRoot m s = .ok (o, s')) : Still fresh s s' := by
  have hroot : Placed s.device fresh rootDirSector := .inr (.inl rfl)
  unfold dirOpenRoot at hx
  split at hx
  next r s₁ h₁ =>
    have hstill := h.still_inodeOpen hroot h₁
    obtain ⟨hs₁, hd₁, hr⟩ := h.of_inodeOpen hroot h₁
    split at hx
    · cases hx
      exact hstill
    · obtain ⟨s₂, h₂, hx⟩ := bind_eq_ok.mp hx
      cases hx
      have hplaced : Placed s₁.device fresh (s₁.inode r).sector := by
        rw [hd₁.device, (hr r rfl).2]
        exact hroot
      obtain ⟨s₃, h₃, -, -, hstill'⟩ := Sound.still_close hs₁ hplaced
      rw [h₂] at h₃
      cases h₃
      exact hstill.trans hstill'
  next s₁ h₁ =>
    cases hx
    exact h.still_inodeOpen hroot h₁

/-! ## The end of an inode -/

/-- Sectors that no inode has are given back. -/
theorem Sound.of_releaseRange (h : Sound s l extra fresh) (a cnt : Nat)
    (hle : a + cnt ≤ s.freeMap.length)
    (hmark : ∀ x, a ≤ x → x < a + cnt → Marked s.freeMap x)
    (hfree : ∀ c ∈ s.live fresh, ∀ x ∈ sectorsOf s.device c, ¬ (a ≤ x ∧ x < a + cnt)) :
    ∃ s', freeMapRelease a cnt s = .ok s' ∧ Sound s' l extra fresh ∧ s'.live fresh = s.live fresh ∧
      Remapped s s' (setMultiple s.freeMap a cnt false) := by
  obtain ⟨s', hx, hre⟩ := freeMapRelease_ok h.ready hle hmark
  obtain ⟨hs, hlive⟩ := h.of_remapped hre fun c hc x hx' =>
    marked_set_false.mpr ⟨h.laid.marked hc hx', hfree c hc x hx'⟩
  exact ⟨s', hx, hs, hlive, hre⟩

/-- An inode that nobody has open may be dropped. -/
theorem Balanced.of_dropInode (h : Balanced s l (r :: extra)) (hlast : (s.inode r).openCnt - 1 = 0) :
    Balanced (s.dropInode r) l extra := by
  have hsame : ∀ r', ((s.dropInode r).inode r').sector = (s.inode r').sector ∧
      ((s.dropInode r).inode r').denyWriteCnt = (s.inode r').denyWriteCnt ∧
      ((s.dropInode r).inode r').openCnt =
        if r' = r then (s.inode r).openCnt - 1 else (s.inode r').openCnt := by
    intro r'
    show (Function.update s.inode r _ r').sector = _ ∧
      (Function.update s.inode r _ r').denyWriteCnt = _ ∧
      (Function.update s.inode r _ r').openCnt = _
    by_cases heq : r' = r
    · rw [heq, Function.update_self, if_pos rfl]
      exact ⟨rfl, rfl, rfl⟩
    · rw [Function.update_of_ne heq, if_neg heq]
      exact ⟨rfl, rfl, rfl⟩
  refine ⟨h.nodup, h.opened, h.below, ?_, fun r' hr' => ?_⟩
  · have hlisted : (s.dropInode r).openInodes =
        if (s.inode r).openCnt - 1 = 0 then s.openInodes.erase r else s.openInodes := by
      rw [if_pos hlast]
      rfl
    have hclosed := h.counted.of_close List.mem_cons_self
      (fun r' _ => ⟨(hsame r').2.2, (hsame r').1⟩) hlisted rfl
    rw [List.cons_append, List.erase_cons_head] at hclosed
    exact hclosed
  · rw [(hsame r').2.1]
    exact h.denied r' (List.mem_of_mem_erase hr')

/-- The last opener of an inode without a name gives it back: its sectors are released. -/
theorem Sound.of_lastClose (h : Sound s l (r :: extra) fresh) (hlast : (s.inode r).openCnt - 1 = 0)
    (hremoved : (s.inode r).removed = true) :
    ∃ s', inodeClose (some r) s = .ok s' ∧ Sound s' l extra fresh ∧ Passes fresh s s' ∧
      MapOnly s.device s'.device := by
  have hr : r ∈ s.openInodes := (h.balanced.counted.listed r).mpr List.mem_cons_self
  have hplaced := (h.removed r hr).mp hremoved
  obtain ⟨hstart, hlength⟩ := h.agrees r hr
  have hc : (s.inode r).sector ∈ s.live fresh := .inr ⟨r, hr, rfl⟩
  generalize hsector : (s.inode r).sector = c at hplaced hstart hlength hc
  have hinside := h.laid.inside c hc
  have hhas : ∀ x, (loaded s.device c).HasSector x ↔
      (s.inode r).start ≤ x ∧ x < (s.inode r).start + bytesToSectors (s.inode r).length := by
    intro x
    rw [hstart, hlength]
    rfl
  -- the inode goes
  have hdisk : SameDisk s (s.dropInode r) := ⟨rfl, rfl, rfl, rfl⟩
  have h₁ : Sound (s.dropInode r) l extra fresh := by
    refine h.of_inodes (h.balanced.of_dropInode hlast) ⟨.of_update rfl rfl rfl rfl rfl, rfl, rfl, rfl⟩
      hdisk (fun r' _ => ?_) (fun r' hr' => .inl (List.mem_of_mem_erase hr'))
    exact same_update (s := s) (r := r)
      { s.inode r with openCnt := (s.inode r).openCnt - 1 } ⟨rfl, rfl, rfl, rfl⟩ r'
  have hlive₁ : ∀ c', c' ∈ (s.dropInode r).live fresh ↔ c' ∈ s.live fresh ∧ c' ≠ c := by
    intro c'
    have hsame : ∀ r', ((s.dropInode r).inode r').sector = (s.inode r').sector := fun r' =>
      (same_update (s := s) (r := r) { s.inode r with openCnt := (s.inode r).openCnt - 1 }
        ⟨rfl, rfl, rfl, rfl⟩ r').sector
    constructor
    · rintro (hp | ⟨r', hr', hs⟩)
      · exact ⟨.inl hp, fun heq => hplaced (heq ▸ hp)⟩
      · rw [hsame] at hs
        have hmem := (List.Nodup.mem_erase_iff h.balanced.counted.nodup).mp hr'
        refine ⟨.inr ⟨r', hmem.2, hs⟩, fun heq => hmem.1 ?_⟩
        exact h.balanced.counted.sectors r' hmem.2 r hr (by rw [hs, hsector, heq])
    · rintro ⟨hp | ⟨r', hr', hs⟩, hne⟩
      · exact .inl hp
      · refine .inr ⟨r', ?_, (hsame r').trans hs⟩
        exact (List.mem_erase_of_ne fun heq => hne (by rw [← hs, heq, hsector])).mpr hr'
  -- nothing that is left has its sectors
  have hout : ∀ c' ∈ (s.dropInode r).live fresh, ∀ x ∈ sectorsOf s.device c', x ∉ sectorsOf s.device c := by
    intro c' hc' x hx hx'
    obtain ⟨hc', hne⟩ := (hlive₁ c').mp hc'
    exact Set.disjoint_left.mp (h.laid.apart hc' hc hne) hx hx'
  obtain ⟨s₂, hx₂, h₂, hlive₂, hre₂⟩ := h₁.of_releaseRange c 1
    (h.laid.marked hc (.inl rfl)).lt
    (fun x hlo (hhi : x < c + 1) => by
      have : x = c := by omega
      exact this ▸ h.laid.marked hc (.inl rfl))
    (fun c' hc' x hx hin => hout c' hc' x hx (.inl (Nat.le_antisymm (Nat.le_of_lt_succ hin.2) hin.1)))
  have hmap₂ : s₂.freeMap = setMultiple s.freeMap c 1 false := by
    rw [hre₂.eq]
    rfl
  obtain ⟨s', hx', h', hlive', hre'⟩ := h₂.of_releaseRange (s.inode r).start
    (bytesToSectors (s.inode r).length)
    (by rw [hmap₂, length_setMultiple, hstart, hlength]; exact hinside)
    (fun x hlo hhi => by
      have hin := (hhas x).mpr ⟨hlo, hhi⟩
      rw [hmap₂]
      refine marked_set_false.mpr ⟨h.laid.marked hc (.inr hin), fun heq => ?_⟩
      have : x = c := by omega
      exact h.laid.not_data hc hc (this ▸ hin))
    (fun c' hc' x hx hin => by
      rw [hlive₂] at hc'
      rw [sectorsOf_congr (h₁.mapOnly_eq hre₂.mapOnly hc' (.inl rfl) (.inr rfl))] at hx
      exact hout c' hc' x hx (.inr ((hhas x).mpr hin)))
  have hmap' : s'.freeMap = setMultiple s₂.freeMap (s.inode r).start
      (bytesToSectors (s.inode r).length) false := by rw [hre'.eq]
  have hmarked : ∀ x, Marked s'.freeMap x ↔ Marked s.freeMap x ∧ x ∉ sectorsOf s.device c := by
    intro x
    rw [hmap', marked_set_false, hmap₂, marked_set_false, and_assoc]
    refine and_congr_right fun _ => ?_
    rw [← hhas x, ← not_or]
    refine not_congr (or_congr ⟨fun hin => ?_, fun heq => ?_⟩ Iff.rfl)
    · exact Nat.le_antisymm (Nat.le_of_lt_succ hin.2) hin.1
    · exact ⟨Nat.le_of_eq heq.symm, Nat.lt_succ_of_le (Nat.le_of_eq heq)⟩
  refine ⟨s', ?_, h', ⟨fun x hx => ?_, ?_, ?_⟩, ?_⟩
  · rw [inodeClose_last hlast, if_pos hremoved, hsector, hx₂, bind_ok]
    exact hx'
  · rw [hmarked, not_and, not_not, hlive', hlive₂]
    constructor
    · exact fun hin => ⟨c, hc, fun hc' => ((hlive₁ c).mp hc').2 rfl, hin hx⟩
    · rintro ⟨c', hc', hno, hin⟩ -
      by_cases heq : c' = c
      · exact heq ▸ hin
      · exact absurd ((hlive₁ c').mpr ⟨hc', heq⟩) hno
  · rw [hmap', hmap₂, length_setMultiple, length_setMultiple]
  · rw [hre'.eq, hre₂.eq]
    rfl
  · intro x hx
    have hinode : s₂.device freeMapSector = s.device freeMapSector :=
      h₁.mapOnly_eq hre₂.mapOnly map_live (.inl rfl) (.inr rfl)
    refine (hre'.mapOnly x ?_).trans (hre₂.mapOnly x hx)
    rw [loaded_congr hinode]
    exact hx

/-- A reference to an inode is given back. -/
theorem Sound.of_inodeClose (h : Sound s l (r :: extra) fresh) :
    ∃ s', inodeClose (some r) s = .ok s' ∧ Sound s' l extra fresh ∧ Passes fresh s s' ∧
      MapOnly s.device s'.device := by
  have hr : r ∈ s.openInodes := (h.balanced.counted.listed r).mpr List.mem_cons_self
  cases hremoved : (s.inode r).removed with
  | false =>
    have hplaced : Placed s.device fresh (s.inode r).sector := by
      by_contra hno
      rw [(h.removed r hr).mpr hno] at hremoved
      exact Bool.noConfusion hremoved
    obtain ⟨s', hx, h', hd, hstill⟩ := h.still_close hplaced
    refine ⟨s', hx, h', hstill.grows.passes, ?_⟩
    rw [hd.device]
    exact .refl _
  | true =>
    by_cases hlast : (s.inode r).openCnt - 1 = 0
    · exact h.of_lastClose hlast hremoved
    · obtain ⟨s', hx, hd⟩ : ∃ s', inodeClose (some r) s = .ok s' ∧ SameDisk s s' := by
        unfold inodeClose
        dsimp only
        rw [if_neg hlast]
        exact ⟨_, rfl, rfl, rfl, rfl, rfl⟩
      obtain ⟨hb, hk⟩ := h.balanced.of_inodeClose hx
      obtain ⟨hino, hopen, -⟩ := inodeClose_eq_ok hx
      rw [if_neg hlast] at hopen
      have hsame : ∀ r', (s.inode r').Same (s'.inode r') := fun r' => by
        rw [hino]
        exact same_update (s := s) (r := r)
          { s.inode r with openCnt := (s.inode r).openCnt - 1 } ⟨rfl, rfl, rfl, rfl⟩ r'
      have hstill : Still fresh s s' := hd.still fun c _ => by
        unfold Files.IsOpen
        rw [hopen]
        exact exists_congr fun r' => and_congr_right fun _ => by rw [(hsame r').sector]
      refine ⟨s', hx, h.of_inodes hb hk hd (fun r' _ => hsame r') (fun r' hr' => .inl ?_),
        hstill.grows.passes, ?_⟩
      · rw [← hopen]
        exact hr'
      · rw [hd.device]
        exact .refl _

end Pintos.Filesys
