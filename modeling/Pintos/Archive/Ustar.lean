import Pintos.Lib.Fallible
import Pintos.Lib.Octal

/-!
# ustar headers

`lib/ustar.c`. A file name is the list of its characters, without the zero at its end. A header is
512 bytes.
-/

namespace Pintos.Archive

open Pintos.Lib

abbrev Bytes := List UInt8

/-- `enum ustar_type`. -/
inductive UstarType where
  | regular
  | directory
  | eof
  deriving DecidableEq, Repr

/-- The `char` of a type. -/
def UstarType.flag : UstarType → UInt8
  | .regular => 0x30
  | .directory => 0x35
  | .eof => 0xff

/-- `struct ustar_header`. -/
structure UstarHeader where
  name : Bytes
  mode : Bytes
  uid : Bytes
  gid : Bytes
  size : Bytes
  mtime : Bytes
  chksum : Bytes
  typeflag : UInt8
  linkname : Bytes
  magic : Bytes
  version : Bytes
  uname : Bytes
  gname : Bytes
  devmajor : Bytes
  devminor : Bytes
  pathPrefix : Bytes
  padding : Bytes
  deriving DecidableEq, Repr

/-- The bytes of a header, with its fields in their order. -/
def UstarHeader.bytes (h : UstarHeader) : Bytes :=
  h.name ++ (h.mode ++ (h.uid ++ (h.gid ++ (h.size ++ (h.mtime ++ (h.chksum ++ (h.typeflag ::
    (h.linkname ++ (h.magic ++ (h.version ++ (h.uname ++ (h.gname ++ (h.devmajor ++ (h.devminor ++
      (h.pathPrefix ++ h.padding)))))))))))))))

def UstarHeader.setChksum (h : UstarHeader) (field : Bytes) : UstarHeader := { h with chksum := field }

/-- 512 bytes as a header. -/
def UstarHeader.ofBytes (b : Bytes) : UstarHeader where
  name := slice b 0 100
  mode := slice b 100 8
  uid := slice b 108 8
  gid := slice b 116 8
  size := slice b 124 12
  mtime := slice b 136 12
  chksum := slice b 148 8
  typeflag := b.getD 156 0
  linkname := slice b 157 100
  magic := slice b 257 6
  version := slice b 263 2
  uname := slice b 265 32
  gname := slice b 297 32
  devmajor := slice b 329 8
  devminor := slice b 337 8
  pathPrefix := slice b 345 155
  padding := slice b 500 12

/-- `calculate_chksum`. The sum stays far below 2^32. -/
def calculateChksum (header : Bytes) : Nat :=
  (header.mapIdx fun i c => if 148 ≤ i ∧ i < 156 then 0x20 else c.toNat).sum

/-! ## File names -/

def slash : UInt8 := 0x2f

def dot : UInt8 := 0x2e

/-- A name that starts with `/`, `./` or `../`. -/
def startsAntisocial (s : Bytes) : Bool :=
  [slash].isPrefixOf s || [dot, slash].isPrefixOf s || [dot, dot, slash].isPrefixOf s

/-- `strchr (s, '/') + 1`, of a name with a slash. -/
def afterSlash (s : Bytes) : Bytes := (s.dropWhile (· != slash)).tail

/-- What is dropped is the prefix. -/
theorem startsAntisocial_iff (s : Bytes) : startsAntisocial s = true ↔
    s = slash :: afterSlash s ∨ s = dot :: slash :: afterSlash s ∨
      s = dot :: dot :: slash :: afterSlash s := by
  have hdot : (dot != slash) = true := by decide
  unfold startsAntisocial
  simp only [Bool.or_eq_true, List.isPrefixOf_iff_prefix, or_assoc]
  constructor
  · rintro (⟨t, rfl⟩ | ⟨t, rfl⟩ | ⟨t, rfl⟩)
    all_goals simp [afterSlash, hdot]
  · rintro (h | h | h)
    · exact .inl ⟨_, h.symm⟩
    · exact .inr (.inl ⟨_, h.symm⟩)
    · exact .inr (.inr ⟨_, h.symm⟩)

theorem length_afterSlash {s : Bytes} (h : startsAntisocial s = true) :
    (afterSlash s).length < s.length := by
  have hlen : ∀ {t : Bytes}, s = t → s.length = t.length := congrArg List.length
  rcases (startsAntisocial_iff s).mp h with h | h | h
  all_goals
    have := hlen h
    simp only [List.length_cons] at this
    omega

/-- The loop of `strip_antisocial_prefixes`. -/
def dropPrefixes (s : Bytes) : Bytes :=
  if _h : startsAntisocial s = true then dropPrefixes (afterSlash s) else s
termination_by s.length
decreasing_by exact length_afterSlash _h

/-- `strip_antisocial_prefixes`. -/
def stripAntisocialPrefixes (fileName : Bytes) : Bytes :=
  let fileName := dropPrefixes fileName
  if fileName = [] ∨ fileName = [dot, dot] then [dot] else fileName

/-! ## Making a header -/

/-- `strlcpy` to a field of `n` bytes that are zero. -/
def strlcpyField (n : Nat) (s : Bytes) : Bytes := padTo n (s.take (n - 1))

/-- `snprintf`, with `n` as the size, to a field of zeros: it cuts its text in the same way. -/
def snprintfField (n : Nat) (text : Bytes) : Bytes := padTo n (text.take (n - 1))

/-- The header that `ustar_make_header` fills in, except for the final checksum. -/
def ustarFields (fileName : Bytes) (type : UstarType) (size : Int) : UstarHeader where
  name := strlcpyField 100 fileName
  mode := snprintfField 8 (octalText 7 (if type = .regular then 0o644 else 0o755))
  uid := strlcpyField 8 [0x30, 0x30, 0x30, 0x30, 0x30, 0x30, 0x30]
  gid := strlcpyField 8 [0x30, 0x30, 0x30, 0x30, 0x30, 0x30, 0x30]
  size := snprintfField 12 (octalText 11 (size % 2 ^ 32).toNat)
  mtime := snprintfField 12 (octalText 11 1136102400)
  chksum := List.replicate 8 0
  typeflag := type.flag
  linkname := List.replicate 100 0
  magic := strlcpyField 6 [0x75, 0x73, 0x74, 0x61, 0x72]
  version := [0x30, 0x30]
  gname := strlcpyField 32 [0x72, 0x6f, 0x6f, 0x74]
  uname := strlcpyField 32 [0x72, 0x6f, 0x6f, 0x74]
  devmajor := List.replicate 8 0
  devminor := List.replicate 8 0
  pathPrefix := List.replicate 155 0
  padding := List.replicate 12 0

/-- `ustar_make_header`: the header, unless the name is too long. The assertion is that the type is
one of a file. -/
def ustarMakeHeader (fileName : Bytes) (type : UstarType) (size : Int) : Option Bytes :=
  let fileName := stripAntisocialPrefixes fileName
  if fileName.length > 99 then none
  else
    let h := ustarFields fileName type size
    some (h.setChksum (snprintfField 8 (octalText 7 (calculateChksum h.bytes)))).bytes

/-! ## Parsing a header -/

/-- The loop of `parse_octal_field`, over the rest of the field. -/
def parseOctalLoop : Bytes → Nat → Nat → Option Nat
  | [], _, _ => none
  | c :: cs, ofs, value =>
    if isOctalDigit c then
      if value > (2 ^ 32 - 1) / 8 then none
      else parseOctalLoop cs (ofs + 1) ((c.toNat - 0x30 + value * 8) % 2 ^ 32)
    else if c = 0x20 ∨ c = 0 then
      if ofs > 0 then some value else none
    else none

/-- `parse_octal_field`. -/
def parseOctalField (s : Bytes) : Option Nat := parseOctalLoop s 0 0

/-- `is_all_zeros`. -/
def isAllZeros (block : Bytes) : Bool := block.all (· == 0)

/-- What `ustar_parse_header` stores; the name is null at the end of the archive. -/
structure UstarEntry where
  fileName : Option Bytes
  type : UstarType
  size : Int
  deriving DecidableEq, Repr

/-- The C string in a field. -/
def fieldString (field : Bytes) : Bytes := field.takeWhile (· != 0)

/-- `ustar_parse_header`, with its messages. -/
def ustarParseHeader (header : Bytes) : Except String UstarEntry :=
  let h := UstarHeader.ofBytes header
  if isAllZeros header then .ok ⟨none, .eof, 0⟩
  else if h.magic ≠ [0x75, 0x73, 0x74, 0x61, 0x72, 0] then .error "not a ustar archive"
  else if h.version ≠ [0x30, 0x30] then .error "invalid ustar version"
  else match parseOctalField h.chksum with
    | none => .error "corrupt chksum field"
    | some chksum =>
      if chksum ≠ calculateChksum header then .error "checksum mismatch"
      else if h.name.getD 99 0 ≠ 0 ∨ h.pathPrefix.getD 0 0 ≠ 0 then .error "file name too long"
      else if h.typeflag ≠ UstarType.regular.flag ∧ h.typeflag ≠ UstarType.directory.flag then
        .error "unimplemented file type"
      else if h.typeflag = UstarType.regular.flag then
        match parseOctalField h.size with
        | none => .error "corrupt file size field"
        | some size =>
          if size > 2 ^ 31 - 1 then .error "file too large"
          else .ok ⟨some (stripAntisocialPrefixes (fieldString h.name)), .regular, size⟩
      else .ok ⟨some (stripAntisocialPrefixes (fieldString h.name)), .directory, 0⟩

end Pintos.Archive
