import Pintos.Archive.Fields

/-!
# Headers made and parsed

A header that `ustar_make_header` has made is parsed to what it was made of (`header_roundTrip`), and
of 512 bytes of any kind `ustar_parse_header` accepts only those with a harmless name, a size and a
right checksum (`header_accepted`). It does not look at the size field of a directory.
-/

namespace Pintos.Archive

open Pintos.Lib

variable {fileName header name : Bytes} {type : UstarType} {size : Int}

/-! ## Made headers -/

theorem ustarFields_sized (fileName : Bytes) (type : UstarType) (size : Int) :
    (ustarFields fileName type size).Sized := by
  constructor
  all_goals simp [ustarFields, strlcpyField, snprintfField]

/-- A header with a magic is not all zeros. -/
theorem not_allZeros (h : (UstarHeader.ofBytes header).magic = [0x75, 0x73, 0x74, 0x61, 0x72, 0]) :
    isAllZeros header = false := by
  rw [← Bool.not_eq_true]
  intro hzeros
  have hmem : (0x75 : UInt8) ∈ slice header 257 6 := by
    show (0x75 : UInt8) ∈ (UstarHeader.ofBytes header).magic
    rw [h]
    decide
  have := List.all_eq_true.mp hzeros _ (List.mem_of_mem_drop (List.mem_of_mem_take hmem))
  exact absurd this (by decide)

/-- `ustar_parse_header` of a header whose checks all pass. -/
theorem parse_of_fields {h : UstarHeader} {chksum : Nat} (hh : UstarHeader.ofBytes header = h)
    (hmagic : h.magic = [0x75, 0x73, 0x74, 0x61, 0x72, 0]) (hversion : h.version = [0x30, 0x30])
    (hfield : parseOctalField h.chksum = some chksum) (hsum : chksum = calculateChksum header)
    (hlast : h.name.getD 99 0 = 0) (hpre : h.pathPrefix.getD 0 0 = 0) :
    (h.typeflag = UstarType.regular.flag → ∀ n, parseOctalField h.size = some n → n ≤ 2 ^ 31 - 1 →
      ustarParseHeader header =
        .ok ⟨some (stripAntisocialPrefixes (fieldString h.name)), .regular, n⟩) ∧
    (h.typeflag = UstarType.directory.flag → ustarParseHeader header =
      .ok ⟨some (stripAntisocialPrefixes (fieldString h.name)), .directory, 0⟩) := by
  have hzeros : isAllZeros header = false := not_allZeros (by rw [hh, hmagic])
  have hname : ¬ (h.name.getD 99 0 ≠ 0 ∨ h.pathPrefix.getD 0 0 ≠ 0) := by
    rw [hlast, hpre]
    decide
  unfold ustarParseHeader
  dsimp only
  rw [hh, hzeros, if_neg Bool.false_ne_true, if_neg (not_not.mpr hmagic),
    if_neg (not_not.mpr hversion), hfield]
  dsimp only
  rw [if_neg (not_not.mpr hsum), if_neg hname]
  constructor
  · intro hflag n hsize hn
    rw [if_neg fun hne => hne.1 hflag, if_pos hflag, hsize]
    exact if_neg (by omega)
  · intro hflag
    rw [if_neg fun hne => hne.2 hflag, if_neg]
    rw [hflag]
    decide

theorem make_eq_some (h : ustarMakeHeader fileName type size = some header) :
    (stripAntisocialPrefixes fileName).length ≤ 99 ∧ header =
      ((ustarFields (stripAntisocialPrefixes fileName) type size).setChksum
        (snprintfField 8 (octalText 7 (calculateChksum
          (ustarFields (stripAntisocialPrefixes fileName) type size).bytes)))).bytes := by
  unfold ustarMakeHeader at h
  dsimp only at h
  split at h
  next => cases h
  next hlen =>
    cases h
    exact ⟨Nat.le_of_not_lt hlen, rfl⟩

/-- A made header has 512 bytes, and the fields that it was made of. -/
theorem make_fields (h : ustarMakeHeader fileName type size = some header) :
    header.length = 512 ∧ UstarHeader.ofBytes header =
      (ustarFields (stripAntisocialPrefixes fileName) type size).setChksum
        (snprintfField 8 (octalText 7 (calculateChksum header))) ∧
      calculateChksum header < 8 ^ 6 := by
  obtain ⟨_, hbytes⟩ := make_eq_some h
  have hs := ustarFields_sized (stripAntisocialPrefixes fileName) type size
  have hfield : ∀ n, (snprintfField 8 (octalText 7 n)).length = 8 := fun _ => length_padTo _ _
  obtain ⟨hsum, hsmall⟩ := hs.chksum_eq (hfield (calculateChksum
    (ustarFields (stripAntisocialPrefixes fileName) type size).bytes))
  rw [← hbytes] at hsum
  rw [← hsum] at hbytes hsmall
  have hs' := hs.setChksum (hfield (calculateChksum header))
  refine ⟨?_, ?_, hsmall⟩
  · rw [hbytes]
    exact hs'.length
  · conv_lhs => rw [hbytes]
    exact hs'.ofBytes

theorem size_field (fileName : Bytes) (type : UstarType) (hsize : 0 ≤ size)
    (hmax : size ≤ 2 ^ 31 - 1) :
    parseOctalField (ustarFields fileName type size).size = some size.toNat := by
  have hword : (size % 2 ^ 32).toNat = size.toNat := by omega
  unfold ustarFields
  dsimp only
  rw [hword]
  exact parseOctalField_snprintf (by decide) (by omega) (by omega)

/-- A made header is parsed. -/
theorem make_parse (hname : (0 : UInt8) ∉ fileName) (htype : type = .regular ∨ type = .directory)
    (hsize : 0 ≤ size) (hmax : size ≤ 2 ^ 31 - 1)
    (h : ustarMakeHeader fileName type size = some header) :
    ustarParseHeader header = .ok ⟨some (stripAntisocialPrefixes fileName), type,
      if type = .directory then 0 else size⟩ := by
  have hlen := (make_eq_some h).1
  obtain ⟨_, hfields, hsmall⟩ := make_fields h
  have hread : fieldString (strlcpyField 100 (stripAntisocialPrefixes fileName)) =
      stripAntisocialPrefixes fileName := fieldString_strlcpy (by omega) (strip_no_zero hname)
  have hlast : (strlcpyField 100 (stripAntisocialPrefixes fileName)).getD 99 0 = 0 := by
    unfold strlcpyField
    rw [List.take_of_length_le (by omega), padTo_of_le (by omega), getD_append_skip (by omega)]
    simp
  have hentry : stripAntisocialPrefixes (fieldString
      ((ustarFields (stripAntisocialPrefixes fileName) type size).setChksum
        (snprintfField 8 (octalText 7 (calculateChksum header)))).name) =
        stripAntisocialPrefixes fileName :=
    (congrArg _ hread).trans (strip_of_harmless (strip_harmless fileName))
  obtain ⟨hregular, hdirectory⟩ := parse_of_fields hfields rfl rfl
    (parseOctalField_snprintf (by decide) (by omega) (by omega)) rfl hlast rfl
  rcases htype with rfl | rfl
  · rw [hregular rfl size.toNat (size_field (stripAntisocialPrefixes fileName) .regular hsize hmax)
      (by omega)]
    rw [hentry, if_neg (by decide), Int.toNat_of_nonneg hsize]
  · rw [hdirectory rfl, hentry, if_pos rfl]

/-- A header is parsed to what it was made of. -/
theorem header_roundTrip (fileName : Bytes) (type : UstarType) (size : Int)
    (hname : (0 : UInt8) ∉ fileName) (htype : type = .regular ∨ type = .directory)
    (hsize : 0 ≤ size) (hmax : size ≤ 2 ^ 31 - 1) :
    ((∃ header, ustarMakeHeader fileName type size = some header) ↔
      (stripAntisocialPrefixes fileName).length ≤ 99) ∧
    (∀ header, ustarMakeHeader fileName type size = some header → header.length = 512 ∧
      ustarParseHeader header = .ok ⟨some (stripAntisocialPrefixes fileName), type,
        if type = .directory then 0 else size⟩) ∧
    stripAntisocialPrefixes (stripAntisocialPrefixes fileName) =
      stripAntisocialPrefixes fileName := by
  refine ⟨⟨fun ⟨header, h⟩ => (make_eq_some h).1, fun h => ⟨_, if_neg (by omega)⟩⟩, fun header h => ?_,
    strip_of_harmless (strip_harmless fileName)⟩
  exact ⟨(make_fields h).1, make_parse hname htype hsize hmax h⟩

/-- `../a/b`, with its size. -/
theorem header_roundTrip_up : ∃ header,
    ustarMakeHeader [0x2e, 0x2e, 0x2f, 0x61, 0x2f, 0x62] .regular 7 = some header ∧
      ustarParseHeader header =
        .ok ⟨some (stripAntisocialPrefixes [0x2e, 0x2e, 0x2f, 0x61, 0x2f, 0x62]), .regular, 7⟩ := by
  obtain ⟨hmake, hparse, _⟩ := header_roundTrip [0x2e, 0x2e, 0x2f, 0x61, 0x2f, 0x62] .regular 7
    (by decide) (.inl rfl) (by decide) (by decide)
  have hlen : (stripAntisocialPrefixes [0x2e, 0x2e, 0x2f, 0x61, 0x2f, 0x62]).length ≤ 99 := by
    rcases strip_cases [0x2e, 0x2e, 0x2f, 0x61, 0x2f, 0x62] with hdot | hsuffix
    · rw [hdot]
      decide
    · exact hsuffix.length_le.trans (by decide)
  obtain ⟨header, h⟩ := hmake.mpr hlen
  exact ⟨header, h, (hparse header h).2⟩

/-! ## Headers of any kind -/

/-- What is accepted besides the end of an archive. -/
structure Accepted (header : Bytes) (x : UstarEntry) : Prop where
  type : x.type = .regular ∨ x.type = .directory
  size : 0 ≤ x.size ∧ x.size ≤ 2 ^ 31 - 1
  regular : x.type = .regular → ∃ n : Nat, x.size = n ∧ OctalField (UstarHeader.ofBytes header).size n
  directory : x.type = .directory → x.size = 0
  name : ∃ name, x.fileName = some name ∧ Harmless name ∧ (0 : UInt8) ∉ name ∧ name.length ≤ 99
  chksum : OctalField (UstarHeader.ofBytes header).chksum (calculateChksum header)

/-- A name from a header is harmless and short. -/
theorem name_accepted (hlen : header.length = 512)
    (hlast : (UstarHeader.ofBytes header).name.getD 99 0 = 0) :
    ∃ name, some (stripAntisocialPrefixes (fieldString (UstarHeader.ofBytes header).name)) =
      some name ∧ Harmless name ∧ (0 : UInt8) ∉ name ∧ name.length ≤ 99 := by
  have hfield : (UstarHeader.ofBytes header).name.length = 100 := length_slice (by omega)
  obtain ⟨hzero, hshort⟩ := fieldString_spec hfield hlast
  refine ⟨_, rfl, strip_harmless _, strip_no_zero hzero, ?_⟩
  rcases strip_cases (fieldString (UstarHeader.ofBytes header).name) with hdot | hsuffix
  · rw [hdot]
    decide
  · exact hsuffix.length_le.trans hshort

/-- What a header has that is parsed to an entry. -/
theorem parse_eq_ok {x : UstarEntry} (hzeros : isAllZeros header = false)
    (h : ustarParseHeader header = .ok x) :
    OctalField (UstarHeader.ofBytes header).chksum (calculateChksum header) ∧
      (UstarHeader.ofBytes header).name.getD 99 0 = 0 ∧
      x.fileName =
        some (stripAntisocialPrefixes (fieldString (UstarHeader.ofBytes header).name)) ∧
      ((x.type = .directory ∧ x.size = 0) ∨ (x.type = .regular ∧ ∃ n : Nat, x.size = n ∧
        n ≤ 2 ^ 31 - 1 ∧ OctalField (UstarHeader.ofBytes header).size n)) := by
  unfold ustarParseHeader at h
  dsimp only at h
  rw [hzeros, if_neg Bool.false_ne_true] at h
  obtain ⟨_, h⟩ := guard_eq_ok.mp h
  obtain ⟨_, h⟩ := guard_eq_ok.mp h
  cases hchksum : parseOctalField (UstarHeader.ofBytes header).chksum with
  | none =>
    rw [hchksum] at h
    cases h
  | some chksum =>
    rw [hchksum] at h
    dsimp only at h
    obtain ⟨hsum, h⟩ := guard_eq_ok.mp h
    obtain ⟨hname, h⟩ := guard_eq_ok.mp h
    obtain ⟨_, h⟩ := guard_eq_ok.mp h
    rw [not_or, not_not] at hname
    rw [not_not] at hsum
    have hfield := (parseOctalField_iff _ _).mp hchksum
    rw [hsum] at hfield
    refine ⟨hfield, hname.1, ?_⟩
    split at h
    next =>
      cases hsize : parseOctalField (UstarHeader.ofBytes header).size with
      | none =>
        rw [hsize] at h
        cases h
      | some n =>
        rw [hsize] at h
        dsimp only at h
        obtain ⟨hmax, h⟩ := guard_eq_ok.mp h
        cases h
        exact ⟨rfl, .inr ⟨rfl, n, rfl, Nat.le_of_not_lt hmax, (parseOctalField_iff _ _).mp hsize⟩⟩
    next =>
      cases h
      exact ⟨rfl, .inl ⟨rfl, rfl⟩⟩

/-- Of 512 bytes the parser reports an error, or the end of the archive exactly when all are zero,
or an entry whose fields are as they should be. -/
theorem header_accepted (header : Bytes) (hlen : header.length = 512) :
    (isAllZeros header = true → ustarParseHeader header = .ok ⟨none, .eof, 0⟩) ∧
    ∀ x, ustarParseHeader header = .ok x →
      (x.type = .eof ↔ isAllZeros header = true) ∧
        (isAllZeros header = false → Accepted header x) := by
  have heof : isAllZeros header = true → ustarParseHeader header = .ok ⟨none, .eof, 0⟩ := by
    intro hzeros
    unfold ustarParseHeader
    exact if_pos hzeros
  refine ⟨heof, fun x h => ?_⟩
  cases hzeros : isAllZeros header with
  | true =>
    rw [heof hzeros] at h
    cases h
    exact ⟨iff_of_true rfl rfl, fun hnot => absurd hnot (by decide)⟩
  | false =>
    obtain ⟨hchksum, hlast, hname, hkind⟩ := parse_eq_ok hzeros h
    have hacc := name_accepted hlen hlast
    rw [← hname] at hacc
    obtain ⟨htype, hsize⟩ | ⟨htype, n, hsize, hmax, hoctal⟩ := hkind
    · refine ⟨iff_of_false (by rw [htype]; decide) (by decide), fun _ => ?_⟩
      exact ⟨.inr htype, by rw [hsize]; decide, fun h => absurd (htype.symm.trans h) (by decide),
        fun _ => hsize, hacc, hchksum⟩
    · refine ⟨iff_of_false (by rw [htype]; decide) (by decide), fun _ => ?_⟩
      exact ⟨.inl htype, by rw [hsize]; omega, fun _ => ⟨n, hsize, hoctal⟩,
        fun h => absurd (htype.symm.trans h) (by decide), hacc, hchksum⟩

/-- A block of zeros is the end, and the header made for the file `a` of seven bytes is accepted. -/
theorem header_accepted_made :
    ustarParseHeader (List.replicate 512 0) = .ok ⟨none, .eof, 0⟩ ∧
      ∃ header, ustarMakeHeader [0x61] .regular 7 = some header ∧
        ustarParseHeader header = .ok ⟨some [0x61], .regular, 7⟩ ∧
        Accepted header ⟨some [0x61], .regular, 7⟩ := by
  refine ⟨(header_accepted (List.replicate 512 0) List.length_replicate).1
    (by rw [isAllZeros, List.all_replicate]; decide), ?_⟩
  have hstrip : stripAntisocialPrefixes [0x61] = [0x61] :=
    strip_of_harmless ⟨by decide, by decide, by decide⟩
  obtain ⟨header, h⟩ : ∃ header, ustarMakeHeader [0x61] .regular 7 = some header := by
    refine ⟨_, if_neg ?_⟩
    rw [hstrip]
    decide
  obtain ⟨hlen, hfields, _⟩ := make_fields h
  have hparse := make_parse (by decide) (.inl rfl) (by decide) (by decide) h
  rw [hstrip] at hparse
  have hmagic : (UstarHeader.ofBytes header).magic = [0x75, 0x73, 0x74, 0x61, 0x72, 0] := by
    rw [hfields]
    rfl
  obtain ⟨-, haccepted⟩ := header_accepted header hlen
  exact ⟨header, h, hparse, (haccepted _ hparse).2 (not_allZeros hmagic)⟩

/-- The header of a directory with 1 in its size field is parsed to size 0. -/
theorem directory_size : ¬ ∀ header : Bytes, header.length = 512 → ∀ x,
    ustarParseHeader header = .ok x → isAllZeros header = false →
      ∃ n : Nat, x.size = n ∧ OctalField (UstarHeader.ofBytes header).size n := by
  intro hall
  obtain ⟨header, h⟩ : ∃ header, ustarMakeHeader [0x61] .directory 1 = some header := by
    refine ⟨_, if_neg ?_⟩
    rw [strip_of_harmless ⟨by decide, by decide, by decide⟩]
    decide
  obtain ⟨hlen, hfields, _⟩ := make_fields h
  have hparse := make_parse (by decide) (.inr rfl) (by decide) (by decide) h
  have hmagic : (UstarHeader.ofBytes header).magic = [0x75, 0x73, 0x74, 0x61, 0x72, 0] := by
    rw [hfields]
    rfl
  obtain ⟨n, hn, hoctal⟩ := hall header hlen _ hparse (not_allZeros hmagic)
  rw [← parseOctalField_iff, hfields] at hoctal
  have hone := hoctal.symm.trans
    (size_field (stripAntisocialPrefixes [0x61]) .directory (by decide) (by decide))
  have hzero : (0 : Int) = n := hn
  have : n = 1 := Option.some.inj hone
  omega

end Pintos.Archive
