import Mathlib.Data.List.TakeWhile
import Mathlib.Data.List.GetD
import Pintos.Archive.Ustar

/-!
# The fields of a header

What `parse_octal_field` accepts (`parseOctalField_iff`), what `strip_antisocial_prefixes` leaves of a
name, and that a header is read back field by field with a checksum that does not depend on its own
field.
-/

namespace Pintos.Archive

open Pintos.Lib

/-! ## Octal fields -/

/-- A field of octal digits, at least one, with a space or a zero behind them. -/
def OctalField (s : Bytes) (v : Nat) : Prop :=
  ∃ ds c rest, s = ds ++ c :: rest ∧ ds ≠ [] ∧ (∀ d ∈ ds, isOctalDigit d = true) ∧
    (c = 0x20 ∨ c = 0) ∧ octalValue ds = v ∧ v < 2 ^ 32

/-- The value goes on without a wrap after the check for overflow. -/
theorem octal_step {c : UInt8} {value : Nat} (hc : isOctalDigit c = true)
    (h : ¬ value > (2 ^ 32 - 1) / 8) :
    (c.toNat - 0x30 + value * 8) % 2 ^ 32 = value * 8 + (c.toNat - 0x30) ∧
      value * 8 + (c.toNat - 0x30) < 2 ^ 32 := by
  have := (isOctalDigit_iff c).mp hc
  omega

/-- What is parsed is digits and an end. -/
theorem parseOctalLoop_some {s p : Bytes} {v : Nat} (hp : octalValue p < 2 ^ 32)
    (h : parseOctalLoop s p.length (octalValue p) = some v) :
    ∃ ds c rest, s = ds ++ c :: rest ∧ (∀ d ∈ ds, isOctalDigit d = true) ∧ (c = 0x20 ∨ c = 0) ∧
      p ++ ds ≠ [] ∧ octalValue (p ++ ds) = v ∧ v < 2 ^ 32 := by
  induction s generalizing p with
  | nil => cases h
  | cons c cs ih =>
    unfold parseOctalLoop at h
    split at h
    next hc =>
      split at h
      next => cases h
      next hover =>
        obtain ⟨heq, hlt⟩ := octal_step hc hover
        rw [heq, ← octalValue_concat] at h
        rw [← octalValue_concat] at hlt
        obtain ⟨ds, e, rest, rfl, hds, he, hne, hv, hv'⟩ := ih hlt (by simpa using h)
        refine ⟨c :: ds, e, rest, rfl, ?_, he, ?_, ?_, hv'⟩
        · intro d hd
          rcases List.mem_cons.mp hd with rfl | hd
          · exact hc
          · exact hds d hd
        · simp
        · rwa [List.append_assoc] at hv
    next =>
      split at h
      next hend =>
        split at h
        next hpos =>
          cases h
          refine ⟨[], c, cs, rfl, fun d hd => by simp at hd, hend, ?_, by rw [List.append_nil], hp⟩
          rw [List.append_nil]
          exact List.ne_nil_of_length_pos hpos
        next => cases h
      next => cases h

/-- Digits with an end behind them are parsed. -/
theorem parseOctalLoop_of {ds rest p : Bytes} {c : UInt8}
    (hds : ∀ d ∈ ds, isOctalDigit d = true) (hc : c = 0x20 ∨ c = 0) (hne : p ++ ds ≠ [])
    (hlt : octalValue (p ++ ds) < 2 ^ 32) :
    parseOctalLoop (ds ++ c :: rest) p.length (octalValue p) =
      some (octalValue (p ++ ds)) := by
  induction ds generalizing p with
  | nil =>
    rw [List.append_nil] at hne
    have hnot : isOctalDigit c = false := by
      rcases hc with rfl | rfl <;> decide
    rw [List.nil_append, List.append_nil, parseOctalLoop, hnot, if_neg Bool.false_ne_true, if_pos hc,
      if_pos (List.length_pos_iff.mpr hne)]
  | cons d ds ih =>
    have hd := hds d List.mem_cons_self
    have happend : p ++ d :: ds = p ++ [d] ++ ds := List.append_cons _ _ _
    rw [happend] at hlt ⊢
    have hstep := octalValue_le_append (p ++ [d]) ds
    rw [octalValue_concat] at hstep
    have hover : ¬ octalValue p > (2 ^ 32 - 1) / 8 := by omega
    rw [List.cons_append, parseOctalLoop, if_pos hd, if_neg hover, (octal_step hd hover).1,
      ← octalValue_concat]
    have := ih (p := p ++ [d]) (fun e he => hds e (List.mem_cons_of_mem _ he)) (by simp) hlt
    rwa [List.length_append] at this

/-- `parse_octal_field` accepts the fields of octal digits whose number fits, with that number. -/
theorem parseOctalField_iff (s : Bytes) (v : Nat) : parseOctalField s = some v ↔ OctalField s v := by
  constructor
  · intro h
    obtain ⟨ds, c, rest, hs, hds, hc, hne, hv, hlt⟩ :=
      parseOctalLoop_some (p := []) (by decide) h
    exact ⟨ds, c, rest, hs, hne, hds, hc, hv, hlt⟩
  · rintro ⟨ds, c, rest, rfl, hne, hds, hc, rfl, hlt⟩
    exact parseOctalLoop_of (p := []) hds hc hne hlt

/-- A number that `snprintf` has written is read back. -/
theorem parseOctalField_snprintf {w v : Nat} (hw : 0 < w) (hv : v < 8 ^ w) (hv' : v < 2 ^ 32) :
    parseOctalField (snprintfField (w + 1) (octalText w v)) = some v := by
  have hlen : (octalText w v).length = w := length_octalText hv
  have hfield : snprintfField (w + 1) (octalText w v) = octalText w v ++ [0] := by
    unfold snprintfField
    rw [Nat.add_sub_cancel, List.take_of_length_le (le_of_eq hlen), padTo_of_le (by omega), hlen,
      Nat.add_sub_cancel_left]
    rfl
  rw [parseOctalField_iff, hfield]
  refine ⟨octalText w v, 0, [], rfl, ?_, octalText_digits w v, .inr rfl, octalValue_octalText w v, hv'⟩
  exact List.ne_nil_of_length_pos (by omega)

/-! ## Names -/

/-- A harmless name is left alone. -/
theorem dropPrefixes_of_not {s : Bytes} (h : startsAntisocial s = false) : dropPrefixes s = s := by
  rw [dropPrefixes, dif_neg (by rw [h]; decide)]

/-- What is left is harmless, and an end of the name. -/
theorem dropPrefixes_spec (s : Bytes) :
    startsAntisocial (dropPrefixes s) = false ∧ dropPrefixes s <:+ s := by
  induction hn : s.length using Nat.strongRecOn generalizing s with
  | _ n ih =>
    by_cases h : startsAntisocial s = true
    · rw [dropPrefixes, dif_pos h]
      obtain ⟨hnot, hsuffix⟩ := ih _ (hn ▸ length_afterSlash h) (afterSlash s) rfl
      exact ⟨hnot, hsuffix.trans ((List.tail_suffix _).trans (List.dropWhile_suffix _))⟩
    · rw [Bool.not_eq_true] at h
      rw [dropPrefixes_of_not h]
      exact ⟨h, List.suffix_refl s⟩

/-- A name without a dangerous prefix. -/
structure Harmless (s : Bytes) : Prop where
  ne_nil : s ≠ []
  ne_dotDot : s ≠ [dot, dot]
  prefixes : startsAntisocial s = false

/-- A stripped name is harmless, or a dot. -/
theorem strip_harmless (s : Bytes) : Harmless (stripAntisocialPrefixes s) := by
  unfold stripAntisocialPrefixes
  dsimp only
  split
  next => exact ⟨by decide, by decide, by decide⟩
  next h =>
    rw [not_or] at h
    exact ⟨h.1, h.2, (dropPrefixes_spec s).1⟩

/-- A harmless name stays. -/
theorem strip_of_harmless {s : Bytes} (h : Harmless s) : stripAntisocialPrefixes s = s := by
  unfold stripAntisocialPrefixes
  rw [dropPrefixes_of_not h.prefixes]
  exact if_neg (not_or.mpr ⟨h.ne_nil, h.ne_dotDot⟩)

/-- Stripping has characters of the name, or is `.`. -/
theorem strip_cases (s : Bytes) :
    stripAntisocialPrefixes s = [dot] ∨ stripAntisocialPrefixes s <:+ s := by
  unfold stripAntisocialPrefixes
  dsimp only
  split
  next => exact .inl rfl
  next => exact .inr (dropPrefixes_spec s).2

/-- Stripping adds no null byte. -/
theorem strip_no_zero {s : Bytes} (h : (0 : UInt8) ∉ s) : (0 : UInt8) ∉ stripAntisocialPrefixes s := by
  rcases strip_cases s with hdot | hsuffix
  · rw [hdot]
    decide
  · exact fun hmem => h (hsuffix.mem hmem)

/-- A name in its field is read back. -/
theorem fieldString_strlcpy {s : Bytes} {n : Nat} (hn : s.length < n) (h : (0 : UInt8) ∉ s) :
    fieldString (strlcpyField n s) = s := by
  obtain ⟨k, hk⟩ : ∃ k, n - s.length = k + 1 := ⟨n - s.length - 1, by omega⟩
  unfold fieldString strlcpyField
  rw [List.take_of_length_le (by omega), padTo_of_le (by omega), hk, List.replicate_succ,
    List.takeWhile_append_of_pos]
  · simp
  · intro c hc
    simpa using ne_of_mem_of_not_mem hc h

/-- What is in a field whose last byte is zero. -/
theorem fieldString_spec {field : Bytes} (h : field.length = 100) (hlast : field.getD 99 0 = 0) :
    (0 : UInt8) ∉ fieldString field ∧ (fieldString field).length ≤ 99 := by
  unfold fieldString
  constructor
  · intro hmem
    have := List.mem_takeWhile_imp hmem
    simp at this
  · by_contra hlong
    have hpre : field.takeWhile (· != 0) = field :=
      (List.takeWhile_prefix _).eq_of_length_le (by omega)
    have hmem : field[99] ∈ field.takeWhile (· != 0) := by
      rw [hpre]
      exact List.getElem_mem _
    have := List.mem_takeWhile_imp hmem
    rw [List.getD_eq_getElem _ _ (by omega)] at hlast
    simp [hlast] at this

/-! ## The bytes of a header -/

/-- The fields have their sizes. -/
structure UstarHeader.Sized (h : UstarHeader) : Prop where
  name : h.name.length = 100
  mode : h.mode.length = 8
  uid : h.uid.length = 8
  gid : h.gid.length = 8
  size : h.size.length = 12
  mtime : h.mtime.length = 12
  chksum : h.chksum.length = 8
  linkname : h.linkname.length = 100
  magic : h.magic.length = 6
  version : h.version.length = 2
  uname : h.uname.length = 32
  gname : h.gname.length = 32
  devmajor : h.devmajor.length = 8
  devminor : h.devminor.length = 8
  pathPrefix : h.pathPrefix.length = 155
  padding : h.padding.length = 12

/-- A header is 512 bytes. -/
theorem UstarHeader.Sized.length {h : UstarHeader} (hs : h.Sized) : h.bytes.length = 512 := by
  obtain ⟨_, _, _, _, _, _, _, _, _, _, _, _, _, _, _, _⟩ := hs
  simp only [UstarHeader.bytes, List.length_append, List.length_cons]
  omega

/-- A field at the front. -/
theorem slice_append_head {bs cs : Bytes} {ofs n : Nat} (hofs : ofs = 0) (hn : bs.length = n) :
    slice (bs ++ cs) ofs n = bs := by
  rw [hofs, ← hn, slice_append_self]

theorem getD_append_skip {bs cs : Bytes} {i : Nat} (h : bs.length ≤ i) :
    (bs ++ cs).getD i 0 = cs.getD (i - bs.length) 0 := List.getD_append_right _ _ _ _ h

theorem getD_append_head {c : UInt8} {cs : Bytes} {i : Nat} (h : i = 0) :
    ([c] ++ cs).getD i 0 = c := by
  rw [h]
  rfl

/-- A header is read back. -/
theorem UstarHeader.Sized.ofBytes {h : UstarHeader} (hs : h.Sized) :
    UstarHeader.ofBytes h.bytes = h := by
  obtain ⟨name, mode, uid, gid, size, mtime, chksum, linkname, magic, version, uname, gname,
    devmajor, devminor, pathPrefix, padding⟩ := hs
  -- the one byte of the type, and the end, as fields like the others
  have hone : ([h.typeflag] : Bytes).length = 1 := rfl
  have hbytes : h.bytes = h.name ++ (h.mode ++ (h.uid ++ (h.gid ++ (h.size ++ (h.mtime ++
      (h.chksum ++ ([h.typeflag] ++ (h.linkname ++ (h.magic ++ (h.version ++ (h.uname ++ (h.gname ++
        (h.devmajor ++ (h.devminor ++ (h.pathPrefix ++ (h.padding ++ [])))))))))))))))) := by
    rw [List.append_nil]
    rfl
  unfold UstarHeader.ofBytes
  rw [hbytes]
  congr 1
  all_goals
    simp (disch := omega) only [slice_append_right, slice_append_head, getD_append_skip,
      getD_append_head]

/-! ## The checksum -/

/-- The checksum counts its own field as spaces, whatever is in it. -/
theorem calculateChksum_append {front field back : Bytes} (hfront : front.length = 148)
    (hfield : field.length = 8) : calculateChksum (front ++ (field ++ back)) =
      (front.map UInt8.toNat).sum + 256 + (back.map UInt8.toNat).sum := by
  have hmap : ∀ (bs : Bytes) (k : Nat), (∀ i < bs.length, ¬ (148 ≤ i + k ∧ i + k < 156)) →
      bs.mapIdx (fun i c => if 148 ≤ i + k ∧ i + k < 156 then 0x20 else c.toNat) =
        bs.map UInt8.toNat := by
    intro bs k hk
    apply List.ext_getElem
    · simp
    · intro i hi _
      rw [List.length_mapIdx] at hi
      rw [List.getElem_mapIdx, List.getElem_map, if_neg (hk i hi)]
  have hspaces : field.mapIdx (fun i c => if 148 ≤ i + 148 ∧ i + 148 < 156 then 0x20 else c.toNat) =
      List.replicate 8 0x20 := by
    apply List.ext_getElem
    · simp [hfield]
    · intro i hi _
      rw [List.length_mapIdx] at hi
      rw [List.getElem_mapIdx, List.getElem_replicate, if_pos (by omega)]
  have hzero := hmap front 0 (by omega)
  simp only [Nat.add_zero] at hzero
  unfold calculateChksum
  rw [List.mapIdx_append, List.mapIdx_append, List.sum_append, List.sum_append, hzero, hfront, hspaces]
  simp only [Nat.add_assoc]
  rw [hfield, hmap back (8 + 148) (by omega)]
  rfl

/-- The sum of the bytes is small. -/
theorem sum_toNat_le (bs : Bytes) : (bs.map UInt8.toNat).sum ≤ 255 * bs.length := by
  induction bs with
  | nil => exact Nat.le_refl 0
  | cons b bs ih =>
    have hb := b.toNat_lt
    rw [List.map_cons, List.sum_cons, List.length_cons]
    omega

/-- The header up to its checksum, and from there on. -/
theorem UstarHeader.Sized.split {h : UstarHeader} (hs : h.Sized) : ∃ front back : Bytes,
    front.length = 148 ∧ back.length = 356 ∧
      ∀ field, (h.setChksum field).bytes = front ++ (field ++ back) := by
  obtain ⟨_, _, _, _, _, _, _, _, _, _, _, _, _, _, _, _⟩ := hs
  refine ⟨h.name ++ (h.mode ++ (h.uid ++ (h.gid ++ (h.size ++ h.mtime)))),
    h.typeflag :: (h.linkname ++ (h.magic ++ (h.version ++ (h.uname ++ (h.gname ++ (h.devmajor ++
      (h.devminor ++ (h.pathPrefix ++ h.padding)))))))), ?_, ?_, ?_⟩
  · simp only [List.length_append]
    omega
  · simp only [List.length_append, List.length_cons]
    omega
  · intro field
    simp only [UstarHeader.bytes, UstarHeader.setChksum, List.append_assoc]

/-- The checksum has its place. -/
theorem UstarHeader.Sized.setChksum {h : UstarHeader} (hs : h.Sized) {field : Bytes}
    (hfield : field.length = 8) : (h.setChksum field).Sized :=
  { hs with chksum := hfield }

/-- Filling in the checksum does not change it, and it has at most six digits. -/
theorem UstarHeader.Sized.chksum_eq {h : UstarHeader} (hs : h.Sized) {field : Bytes}
    (hfield : field.length = 8) :
    calculateChksum (h.setChksum field).bytes = calculateChksum h.bytes ∧
      calculateChksum h.bytes < 8 ^ 6 := by
  obtain ⟨front, back, hfront, hback, hbytes⟩ := hs.split
  have hself : h.bytes = front ++ (h.chksum ++ back) := hbytes h.chksum
  have hle := sum_toNat_le front
  have hle' := sum_toNat_le back
  rw [hbytes, hself, calculateChksum_append hfront hfield, calculateChksum_append hfront hs.chksum]
  exact ⟨rfl, by omega⟩

end Pintos.Archive
