import Pintos.Lib.Slots
import Pintos.Filesys.Contents
import Pintos.Filesys.References

/-!
# The slots of a directory

A directory is an inode read in records of 20 bytes. `slots` is these records, of an inode and what
is on the device; the functions of `filesys/directory.c` are searches in that list and writes to one
element of it.
-/

namespace Pintos.Filesys

open Pintos.Lib

variable {ino : Inode} {s : Files} {d : InodeRef} {p : DirEntry → Bool}

/-! ## Records -/

/-- An entry whose name is a string that fits and whose sector is a `block_sector_t`. -/
structure DirEntry.WellFormed (e : DirEntry) : Prop where
  sector : e.inodeSector < 2 ^ 32
  string : 0 ∉ e.name
  fits : e.name.length ≤ 14

/-- An entry is twenty bytes. -/
theorem DirEntry.length_bytes {e : DirEntry} (h : e.name.length ≤ 15) : e.bytes.length = 20 := by
  unfold bytes
  simp only [List.length_append, length_wordBytes, List.length_replicate, List.length_cons,
    List.length_nil]
  omega

/-- The name ends where the zeros begin. -/
theorem takeWhile_name {name : List UInt8} (h : 0 ∉ name) (n : Nat) :
    (name ++ List.replicate n 0).takeWhile (· != 0) = name := by
  rw [List.takeWhile_append_of_pos]
  · cases n with
    | zero => rw [List.replicate_zero, List.takeWhile_nil, List.append_nil]
    | succ n =>
      rw [List.replicate_succ, List.takeWhile_cons_of_neg (by decide), List.append_nil]
  · intro b hb
    rw [bne_iff_ne]
    exact fun heq => h (heq ▸ hb)

/-- A well-formed entry is read back. -/
theorem DirEntry.WellFormed.ofBytes_bytes {e : DirEntry} (h : e.WellFormed) :
    DirEntry.ofBytes e.bytes = e := by
  have hfits := h.fits
  have hname : (e.name ++ List.replicate (15 - e.name.length) 0).length = 15 := by
    rw [List.length_append, List.length_replicate]
    omega
  have hbytes : e.bytes = wordBytes e.inodeSector ++
      ((e.name ++ List.replicate (15 - e.name.length) 0) ++ [if e.inUse then 1 else 0]) := by
    unfold bytes
    rw [List.append_assoc, List.append_assoc, List.append_assoc]
  have hsector : word (fun i => e.bytes.getD i 0) 0 = e.inodeSector := by
    rw [hbytes, word_wordBytes, Nat.mod_eq_of_lt h.sector]
  have hread : ((e.bytes.drop 4).take 15).takeWhile (· != 0) = e.name := by
    rw [hbytes, List.drop_left' (length_wordBytes _), List.take_left' hname,
      takeWhile_name h.string]
  have huse : (e.bytes.getD 19 0 != 0) = e.inUse := by
    rw [hbytes, List.getD_eq_getElem?_getD,
      List.getElem?_append_right (by rw [length_wordBytes]; omega), length_wordBytes,
      List.getElem?_append_right (Nat.le_of_eq hname), hname]
    cases e.inUse <;> rfl
  unfold ofBytes
  rw [hsector, hread, huse]

/-- Clearing `in_use` in the bytes clears it in the entry. -/
theorem DirEntry.ofBytes_set {b : List UInt8} (h : b.length = 20) :
    DirEntry.ofBytes (b.set 19 0) = { DirEntry.ofBytes b with inUse := false } := by
  have hword : word (fun i => (b.set 19 0).getD i 0) 0 = word (fun i => b.getD i 0) 0 := by
    unfold word
    beta_reduce
    rw [List.getD_eq_getElem?_getD, List.getD_eq_getElem?_getD, List.getD_eq_getElem?_getD,
      List.getD_eq_getElem?_getD, List.getElem?_set_ne (by omega), List.getElem?_set_ne (by omega),
      List.getElem?_set_ne (by omega), List.getElem?_set_ne (by omega),
      ← List.getD_eq_getElem?_getD, ← List.getD_eq_getElem?_getD, ← List.getD_eq_getElem?_getD,
      ← List.getD_eq_getElem?_getD]
  have hname : ((b.set 19 0).drop 4).take 15 = (b.drop 4).take 15 := by
    rw [List.drop_set, if_neg (by omega), List.take_set_of_le (by omega)]
  have huse : ((b.set 19 0).getD 19 0 != 0) = false := by
    rw [List.getD_eq_getElem?_getD, List.getElem?_set_self (by omega)]
    rfl
  unfold ofBytes
  rw [hword, hname, huse]

/-! ## Slots -/

/-- The bytes of the record `i`. -/
def slotBytes (ino : Inode) (device : SectorNo → Sector) (i : Nat) : List UInt8 :=
  (List.range 20).map fun j : Nat => byteAt ino device (20 * i + j)

/-- The whole records of an inode. -/
def slots (ino : Inode) (device : SectorNo → Sector) : List DirEntry :=
  (List.range (ino.length.toNat / 20)).map fun i => DirEntry.ofBytes (slotBytes ino device i)

/-- Which slots are in use, and for which name and sector. -/
def dirView : View DirEntry (List UInt8) SectorNo where
  used := DirEntry.inUse
  key := DirEntry.name
  val := DirEntry.inodeSector

/-- A directory has as many slots as have room in it. -/
theorem length_slots (ino : Inode) (device : SectorNo → Sector) :
    (slots ino device).length = ino.length.toNat / 20 := by
  unfold slots
  rw [List.length_map, List.length_range]

/-- A slot is what its bytes say. -/
theorem slots_getElem? {device : SectorNo → Sector} {i : Nat} (h : i < ino.length.toNat / 20) :
    (slots ino device)[i]? = some (DirEntry.ofBytes (slotBytes ino device i)) := by
  unfold slots
  rw [List.getElem?_map, List.getElem?_range h]
  rfl

/-- The bytes of a record are inside the inode. -/
theorem slot_lt {i : Nat} (h : i < ino.length.toNat / 20) : 20 * (i : Int) + 20 ≤ ino.length := by
  omega

/-- Slots in sectors that are as they were. -/
theorem slots_congr {device device' : SectorNo → Sector} (hlen : ino.length < 2 ^ 31)
    (h : ∀ x, ino.HasSector x → device' x = device x) : slots ino device' = slots ino device := by
  apply List.map_congr_left
  intro i hi
  have hslot := slot_lt (List.mem_range.mp hi)
  congr 1
  apply List.map_congr_left
  intro j hj
  have hj' := List.mem_range.mp hj
  exact byteAt_congr hlen h (by omega) (by omega)

/-- Reading at its offset gives its bytes. -/
theorem inodeReadAt_slot {i : Nat} (h : i < (s.inode d).length.toNat / 20) :
    inodeReadAt d 20 (20 * i) s = slotBytes (s.inode d) s.device i := by
  have hreach : (reach (s.inode d) 20 (20 * i)).toNat = 20 := by
    have hslot := slot_lt h
    unfold reach
    omega
  rw [inodeReadAt_eq (by omega), hreach]
  rfl

theorem length_slotBytes (ino : Inode) (device : SectorNo → Sector) (i : Nat) :
    (slotBytes ino device i).length = 20 := by
  unfold slotBytes
  rw [List.length_map, List.length_range]

theorem getElem_slotBytes {device : SectorNo → Sector} {i j : Nat}
    (h : j < (slotBytes ino device i).length) :
    (slotBytes ino device i)[j] = byteAt ino device (20 * i + j) := by
  simp only [slotBytes, List.getElem_map, List.getElem_range]

/-- An entry is read at its offset, or the end is met. -/
theorem readEntry_eq (i : Nat) : readEntry d (20 * i) s = (slots (s.inode d) s.device)[i]? := by
  unfold readEntry
  by_cases h : i < (s.inode d).length.toNat / 20
  · rw [inodeReadAt_slot h, if_pos (length_slotBytes _ _ _), slots_getElem? h]
  · have hreach : (reach (s.inode d) 20 (20 * i)).toNat < 20 := by
      unfold reach
      omega
    rw [List.getElem?_eq_none (by rw [length_slots]; omega), inodeReadAt_eq (by omega)]
    dsimp only
    rw [List.length_map, List.length_range, if_neg (by omega)]

/-! ## Searches -/

/-- A scan finds the first slot that passes the test, or the end. -/
theorem scanDir_eq (d : InodeRef) (s : Files) (p : DirEntry → Bool) (n : Nat) : ∀ i : Nat,
    (slots (s.inode d) s.device).length < i + n →
    scanDir d s p n (20 * i) = (((slots (s.inode d) s.device).drop i).find? p,
      20 * ((i + ((slots (s.inode d) s.device).drop i).findIdx p : Nat) : Int)) := by
  induction n with
  | zero =>
    intro i hn
    rw [List.drop_of_length_le (by omega)]
    rfl
  | succ n ih =>
    intro i hn
    unfold scanDir
    rw [readEntry_eq]
    split
    next hnone =>
      rw [List.drop_of_length_le (List.getElem?_eq_none_iff.mp hnone)]
      rfl
    next e hsome =>
      obtain ⟨hi, he⟩ := List.getElem?_eq_some_iff.mp hsome
      rw [List.drop_eq_getElem_cons hi, he, List.find?_cons, List.findIdx_cons]
      cases hp : p e with
      | true => rfl
      | false =>
        have hnext := ih (i + 1) (by omega)
        have hofs : 20 * (i : Int) + 20 = 20 * ((i + 1 : Nat) : Int) := by omega
        rw [if_neg Bool.false_ne_true, hofs, hnext]
        simp only [cond_false]
        congr 2
        omega

/-- A search from the front. -/
theorem scanDir_zero (d : InodeRef) (s : Files) (p : DirEntry → Bool) :
    scanDir d s p (entryCount d s) 0 = ((slots (s.inode d) s.device).find? p,
      20 * ((slots (s.inode d) s.device).findIdx p : Int)) := by
  have h := scanDir_eq d s p (entryCount d s) 0 (by rw [length_slots]; unfold entryCount; omega)
  rw [List.drop_zero, Nat.zero_add] at h
  exact h

/-- What `lookup` searches for. -/
def hasName (name : List UInt8) (e : DirEntry) : Bool := e.inUse && e.name == name

/-- The test of `lookup` is on name and use. -/
theorem hasName_iff (name : List UInt8) (e : DirEntry) :
    hasName name e = true ↔ dirView.used e = true ∧ dirView.key e = name := by
  unfold hasName
  rw [Bool.and_eq_true, beq_iff_eq]
  rfl

/-- `lookup` finds the first slot with the name. -/
theorem lookup_eq (d : InodeRef) (name : List UInt8) (s : Files) :
    lookup d name s = ((slots (s.inode d) s.device).find? (hasName name)).map fun e =>
      (e, 20 * ((slots (s.inode d) s.device).findIdx (hasName name) : Int)) := by
  unfold lookup
  have hscan := scanDir_zero d s (hasName name)
  unfold hasName at hscan ⊢
  rw [hscan]
  cases (slots (s.inode d) s.device).find? _ <;> rfl

/-- `lookup` finds a name when the map has it. -/
theorem lookup_isSome (d : InodeRef) (name : List UInt8) (s : Files) :
    (lookup d name s).isSome = true ↔ name ∈ dirView.map (slots (s.inode d) s.device) := by
  rw [lookup_eq, Option.isSome_map]
  exact (View.mem_map_iff_find (hasName_iff name)).symm

/-! ## Writes -/

/-- Writing a record changes one slot, if it is there. -/
theorem slots_inodeWriteAt {b : List UInt8} (h : (s.inode d).denyWriteCnt = 0) (hb : b.length = 20)
    (k : Nat) : slots (s.inode d) (inodeWriteAt d (fun j => b.getD j 0) 20 (20 * k) s).2.device =
      (slots (s.inode d) s.device).set k (DirEntry.ofBytes b) := by
  apply List.ext_getElem?
  intro i
  by_cases hi : i < (s.inode d).length.toNat / 20
  · rw [slots_getElem? hi]
    have hslot := slot_lt hi
    by_cases heq : k = i
    · rw [heq, List.getElem?_set_self (by rw [length_slots]; exact hi)]
      congr 2
      apply List.ext_getElem
      · rw [length_slotBytes, hb]
      · intro j hj hj'
        have hidx : (20 * (i : Int) + j - 20 * i).toNat = j := by omega
        rw [getElem_slotBytes, inodeWriteAt_byteAt h (by omega) (by omega),
          if_pos (by unfold reach; omega), hidx,
          List.getD_eq_getElem?_getD, List.getElem?_eq_getElem hj', Option.getD_some]
    · rw [List.getElem?_set_ne heq, slots_getElem? hi]
      congr 2
      apply List.map_congr_left
      intro j hj
      have hj' := List.mem_range.mp hj
      rw [inodeWriteAt_byteAt h (by omega) (by omega), if_neg]
      unfold reach
      omega
  · rw [List.getElem?_eq_none (by rw [length_slots]; omega),
      List.getElem?_eq_none (by rw [List.length_set, length_slots]; omega)]

/-- A record that is there is written whole, and no other. -/
theorem inodeWriteAt_slot (buffer : Nat → UInt8) (h : (s.inode d).denyWriteCnt = 0) (k : Nat) :
    (inodeWriteAt d buffer 20 (20 * k) s).1 = 20 ↔ k < (slots (s.inode d) s.device).length := by
  rw [inodeWriteAt_count h (by omega), length_slots]
  unfold reach
  omega

/-! ## `dir_add` -/

/-- A string. -/
abbrev CString := { b : List UInt8 // 0 ∉ b }

/-- Sectors by name. -/
abbrev NameMap := Finmap fun _ : List UInt8 => SectorNo

/-- What `dir_add` writes. -/
def newEntry (name : List UInt8) (sector : SectorNo) : DirEntry :=
  { inodeSector := sector, name := name, inUse := true }

/-- The names that `dir_add` takes. -/
def ValidName (name : List UInt8) : Prop := name ≠ [] ∧ name.length ≤ 14

/-- Whether `dir_add` succeeds, by the slots. -/
def CanAdd (es : List DirEntry) (name : List UInt8) : Prop :=
  ValidName name ∧ name ∉ dirView.map es ∧ es.findIdx (fun e => !e.inUse) < es.length

/-- `dir_add` fills the first free slot, or none. -/
theorem dirAdd_eq {name : List UInt8} {sector : SectorNo} {ok : Bool} {s' : Files}
    (h : (s.inode d).denyWriteCnt = 0) (hs : sector < 2 ^ 32) (hname : 0 ∉ name)
    (hx : dirAdd d name sector s = (ok, s')) :
    (ok = true ↔ CanAdd (slots (s.inode d) s.device) name) ∧
    s' = { s with device := s'.device } ∧
    (∀ x, (s.inode d).length < 2 ^ 31 → ¬ (s.inode d).HasSector x → s'.device x = s.device x) ∧
    slots (s.inode d) s'.device = if ok then
      (slots (s.inode d) s.device).set
        ((slots (s.inode d) s.device).findIdx fun e => !e.inUse) (newEntry name sector)
    else slots (s.inode d) s.device := by
  unfold dirAdd at hx
  split at hx
  next hbad =>
    cases hx
    refine ⟨⟨fun hf => absurd hf Bool.false_ne_true, ?_⟩, rfl, fun _ _ _ => rfl, rfl⟩
    rintro ⟨⟨hne, hlen⟩, -⟩
    rcases hbad with hnil | hlong
    · exact absurd hnil hne
    · omega
  next hgood =>
    have hvalid : ValidName name :=
      ⟨fun hnil => hgood (.inl hnil), Nat.le_of_not_lt fun hlong => hgood (.inr hlong)⟩
    split at hx
    next hfound =>
      cases hx
      refine ⟨⟨fun hf => absurd hf Bool.false_ne_true, ?_⟩, rfl, fun _ _ _ => rfl, rfl⟩
      exact fun hcan => absurd ((lookup_isSome d name s).mp hfound) hcan.2.1
    next hfree =>
      have hentry : ({ inodeSector := sector, name := name, inUse := true } : DirEntry) =
          newEntry name sector := rfl
      rw [scanDir_zero, hentry] at hx
      dsimp only at hx
      have hlength : (newEntry name sector).bytes.length = 20 :=
        DirEntry.length_bytes (Nat.le_succ_of_le hvalid.2)
      have hwrite := inodeWriteAt_slot (fun j => (newEntry name sector).bytes.getD j 0) h
        ((slots (s.inode d) s.device).findIdx fun e => !e.inUse)
      have hslots := slots_inodeWriteAt h hlength
        ((slots (s.inode d) s.device).findIdx fun e => !e.inUse)
      rw [DirEntry.WellFormed.ofBytes_bytes ⟨hs, hname, hvalid.2⟩] at hslots
      cases hx
      refine ⟨?_, inodeWriteAt_eq .., fun x hlen hx => inodeWriteAt_other hlen (by omega) hx, ?_⟩
      · rw [beq_iff_eq, hwrite]
        exact ⟨fun hlt => ⟨hvalid, fun hmem => hfree ((lookup_isSome d name s).mpr hmem), hlt⟩,
          fun hcan => hcan.2.2⟩
      · rw [hslots]
        split
        · rfl
        next hfail =>
          rw [beq_iff_eq, hwrite] at hfail
          exact List.set_eq_of_length_le (by omega)

/-! ## `dir_remove` -/

/-- The slots of an inode depend on where its data is. -/
theorem slots_of_eq {ino' : Inode} (hstart : ino'.start = ino.start)
    (hlength : ino'.length = ino.length) (device : SectorNo → Sector) :
    slots ino' device = slots ino device := by
  unfold slots slotBytes byteAt byteToSector
  rw [hstart, hlength]

/-- The slot that `lookup` finds. -/
theorem lookup_eq_some {name : List UInt8} {e : DirEntry} {ofs : Int}
    (h : lookup d name s = some (e, ofs)) :
    (slots (s.inode d) s.device)[(slots (s.inode d) s.device).findIdx (hasName name)]? = some e ∧
    ofs = 20 * ((slots (s.inode d) s.device).findIdx (hasName name) : Int) ∧
    e.inUse = true ∧ e.name = name := by
  rw [lookup_eq] at h
  obtain ⟨e', hfind, heq⟩ := Option.map_eq_some_iff.mp h
  cases heq
  have hp := List.find?_some hfind
  rw [hasName_iff] at hp
  have hlt := List.findIdx_lt_length_of_exists ⟨e, List.mem_of_find?_eq_some hfind,
    (hasName_iff name e).mpr hp⟩
  refine ⟨?_, rfl, hp⟩
  rw [List.getElem?_eq_getElem hlt, ← hfind, List.find?_eq_getElem?_findIdx,
    List.getElem?_eq_getElem hlt]

/-- The write of `dir_remove`, to the slot that `lookup` has found. -/
theorem dirRemove_write {name : List UInt8} {e : DirEntry} {ofs : Int} {s₁ : Files}
    (h : lookup d name s = some (e, ofs)) (hdeny : (s₁.inode d).denyWriteCnt = 0)
    (hstart : (s₁.inode d).start = (s.inode d).start)
    (hlength : (s₁.inode d).length = (s.inode d).length) (hdevice : s₁.device = s.device) :
    (inodeWriteAt d (fun j => ((inodeReadAt d 20 ofs s).set 19 0).getD j 0) 20 ofs s₁).1 = 20 ∧
    slots (s.inode d) (inodeWriteAt d (fun j => ((inodeReadAt d 20 ofs s).set 19 0).getD j 0) 20
      ofs s₁).2.device = (slots (s.inode d) s.device).set
        ((slots (s.inode d) s.device).findIdx (hasName name)) { e with inUse := false } := by
  obtain ⟨hk, rfl, -, -⟩ := lookup_eq_some h
  have hlt := (List.getElem?_eq_some_iff.mp hk).1
  have hlt' := hlt
  rw [length_slots] at hlt'
  have hsame : slots (s₁.inode d) s₁.device = slots (s.inode d) s.device := by
    rw [slots_of_eq hstart hlength, hdevice]
  have hbytes := hk
  rw [slots_getElem? hlt', Option.some.injEq] at hbytes
  rw [inodeReadAt_slot hlt']
  refine ⟨(inodeWriteAt_slot _ hdeny _).mpr (hsame ▸ hlt), ?_⟩
  rw [← slots_of_eq hstart hlength, slots_inodeWriteAt hdeny
    (by rw [List.length_set, length_slotBytes]), hsame,
    DirEntry.ofBytes_set (length_slotBytes _ _ _), hbytes]

/-! ## `dir_readdir` -/

/-- `dir_readdir` of a directory at a position: the name, and the position it leaves. -/
def dirReaddir (dir : InodeRef) (pos : Int) (s : Files) : Option (List UInt8) × Int :=
  match scanDir dir s (·.inUse) (entryCount dir s) pos with
  | (some e, ofs) => (some e.name, ofs + 20)
  | (none, ofs) => (none, ofs)

/-- Calls of `dir_readdir` until one returns false. -/
def readdirAll (dir : InodeRef) (s : Files) : Nat → Int → List (List UInt8)
  | 0, _ => []
  | n + 1, pos =>
    match dirReaddir dir pos s with
    | (some name, pos) => name :: readdirAll dir s n pos
    | (none, _) => []

/-- The element that a search finds comes first of those that pass. -/
theorem filter_eq_find {α : Type} (p : α → Bool) (l : List α) : l.filter p =
    match l.find? p with
    | some x => x :: (l.drop (l.findIdx p + 1)).filter p
    | none => [] := by
  induction l with
  | nil => rfl
  | cons x xs ih =>
    cases hp : p x with
    | true => rw [List.filter_cons_of_pos hp, List.find?_cons_of_pos hp, List.findIdx_cons, hp]; rfl
    | false =>
      have hno : ¬ p x = true := by rw [hp]; exact Bool.false_ne_true
      rw [List.filter_cons_of_neg hno, List.find?_cons_of_neg hno, List.findIdx_cons, hp, ih]
      rfl

/-- `dir_readdir` lists the names in use. -/
theorem readdirAll_eq (d : InodeRef) (s : Files) (n : Nat) : ∀ i : Nat,
    (slots (s.inode d) s.device).length < i + n →
    readdirAll d s n (20 * i) = dirView.keys ((slots (s.inode d) s.device).drop i) := by
  have hkeys : ∀ es, dirView.keys es = (es.filter (·.inUse)).map (·.name) := fun _ => rfl
  induction n with
  | zero =>
    intro i hn
    rw [List.drop_of_length_le (by omega)]
    rfl
  | succ n ih =>
    intro i hn
    have hscan := scanDir_eq d s (·.inUse) (entryCount d s) i
      (by rw [length_slots]; unfold entryCount; omega)
    unfold readdirAll dirReaddir
    rw [hscan, hkeys, filter_eq_find]
    cases hfind : ((slots (s.inode d) s.device).drop i).find? (·.inUse) with
    | none => rfl
    | some e =>
      have hnext := ih (i + ((slots (s.inode d) s.device).drop i).findIdx (·.inUse) + 1) (by omega)
      have hofs : 20 * ((i + ((slots (s.inode d) s.device).drop i).findIdx (·.inUse) : Nat) : Int) +
          20 = 20 * ((i + ((slots (s.inode d) s.device).drop i).findIdx (·.inUse) + 1 : Nat) : Int)
          := by omega
      dsimp only
      rw [hofs, hnext, List.map_cons, hkeys, List.drop_drop]
      congr 4

/-- A scan from the start returns the names in use. -/
theorem readdirAll_zero (d : InodeRef) (s : Files) :
    readdirAll d s (entryCount d s) 0 = dirView.keys (slots (s.inode d) s.device) := by
  have h := readdirAll_eq d s (entryCount d s) 0 (by rw [length_slots]; unfold entryCount; omega)
  rw [List.drop_zero] at h
  exact h

end Pintos.Filesys
