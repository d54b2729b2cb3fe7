import IsbnHyphenate.IsbnTable
import IsbnHyphenate.Library.CopyScript

/-!
# Hyphenating one ISBN

`hyphenate_isbn` with `parse_number_slice` and `place_hyphens`. The prefix
lookup stops at the NUL of its argument; everything after it reads `isbn_str`
at fixed offsets, whatever its length is. Next to the return code the model
keeps which parts of `isbn_str` were read in this way and which parts of `hbuf`
were written. Sizes are 64-bit words, because their subtractions wrap.
-/

namespace IsbnHyphenate
open CopyScript

/-- A string where it stands in memory: `rest` are the bytes behind its NUL. -/
structure ZStr where
  str : CStr
  rest : ℕ → UInt8

def ZStr.byte (z : ZStr) (i : ℕ) : UInt8 :=
  match z.str[i]? with
  | some c => c.1
  | none => if i = z.str.length then 0 else z.rest (i - z.str.length - 1)

/-- A `char` in `uint32_t` arithmetic; it is sign-extended first. -/
def charWord (b : UInt8) : UInt32 := if b < 128 then b.toUInt32 else b.toUInt32 - 256

def parseNumberSlice (s : ℕ → UInt8) : ℕ → ℕ → UInt32 → UInt32
  | _, 0, n => n
  | i, len + 1, n => parseNumberSlice s (i + 1) len (n * 10 + (charWord (s i) - charWord 48))

inductive Source where
  | isbn
  | pfx
  deriving DecidableEq

def hyphen : UInt8 := 45

/-- The copies of `place_hyphens`. The third field starts behind the prefix and
the fourth one fills it up to 8 digits. -/
def placeHyphens (len pfxlen : UInt64) : List (Step Source UInt8) :=
  let l1 := pfxlen - 3
  -- `lbuf` at the start of the second, third, fourth and fifth field
  let lGroup : UInt64 := 3 + 1
  let lRegistrant := lGroup + l1 + 1
  let lPublication := lRegistrant + len + 1
  let lCheck := lPublication + (8 - len) + 1
  [.copy 0 .isbn 0 3,
    .put 3 hyphen,
    .copy lGroup.toNat .pfx 3 l1.toNat,
    .put (lGroup + l1).toNat hyphen,
    .copy lRegistrant.toNat .isbn (3 + l1).toNat len.toNat,
    .put (lRegistrant + len).toNat hyphen,
    .copy lPublication.toNat .isbn (3 + l1 + len).toNat (8 - len).toNat,
    .put (lPublication + (8 - len)).toNat hyphen,
    .copy lCheck.toNat .isbn 12 1,
    .put (lCheck + 1).toNat 0]

structure RangeTable where
  fst : Option FstView
  prefixVec : Vec IsbnPrefix
  rangesVec : Vec IsbnRange

/-- What a call of `hyphenate_isbn` did: the parts of `isbn_str` it read and of
`hbuf` it wrote as (offset, length), the arguments `len` and `pfxlen` of its
call of `place_hyphens`, the contents of `hbuf` and the return code. A copy that
leaves either of them is judged by these parts; here it comes back like any other. -/
structure Hyphenation where
  reads : List (ℕ × ℕ)
  writes : List (ℕ × ℕ)
  placed : Option (UInt64 × UInt64)
  hbuf : ℕ → Option UInt8
  ret : Run ℕ

def Hyphenation.quit (reads : List (ℕ × ℕ)) (ret : Run ℕ) : Hyphenation :=
  ⟨reads, [], none, fun _ => none, ret⟩

def findPrefix (isbn : Option RangeTable) (bsz : ℕ) (isbnStr : CStr) :
    Run (ℕ ⊕ (IsbnPrefix × CStr × Vec IsbnRange)) :=
  match isbn with
  | none => .ok (.inl ENODATA)
  | some tab =>
    match tab.fst with
    | none => .ok (.inl ENODATA)
    | some fst =>
      if bsz < 18 then .ok (.inl ENOSPC)
      else do
        let ret ← fstLookupPrefix fst isbnStr
        if ret.rc ≠ 0 then .ok (.inl ret.rc)
        else
          match ret.val.bind tab.prefixVec.read with
          | none => .error .badRead
          | some row =>
            match row.pfx with
            | none => .error .badRead
            | some pfx => .ok (.inr (row, pfx, tab.rangesVec))

def IsbnRange.Contains (r : IsbnRange) (registrant : UInt32) : Prop :=
  r.rngLbound ≤ registrant ∧ registrant ≤ r.rngUbound

instance (r : IsbnRange) (registrant : UInt32) : Decidable (r.Contains registrant) :=
  inferInstanceAs (Decidable (r.rngLbound ≤ registrant ∧ registrant ≤ r.rngUbound))

def findRange (ranges : Vec IsbnRange) (row : IsbnPrefix) (registrant : UInt32) :
    ℕ → ℕ → Run (Option UInt64)
  | _, 0 => .ok none
  | i, k + 1 =>
    match row.ruleIdx.bind fun idx => ranges.read (idx + i) with
    | none => .error .badRead
    | some r =>
      if r.Contains registrant then .ok (some r.rngLen)
      else findRange ranges row registrant (i + 1) k

def placed (bsz : ℕ) (z : ZStr) (len : UInt64) (pfx : CStr) : Hyphenation :=
  let pfxlen := UInt64.ofNat pfx.length
  if bsz < 18 then .quit [(4, 7)] (.error .abort)
  else
    let script := placeHyphens len pfxlen
    let mem : Source → ℕ → UInt8 := fun src => match src with
      | .isbn => z.byte
      | .pfx => ZStr.byte ⟨pfx, fun _ => 0⟩
    { reads := (4, 7) :: CopyScript.reads .isbn script
      writes := CopyScript.writes script
      placed := some (len, pfxlen)
      hbuf := run mem script fun _ => none
      ret := .ok 0 }

def hyphenateIsbn (isbn : Option RangeTable) (bsz : ℕ) (z : ZStr) : Hyphenation :=
  match findPrefix isbn bsz z.str with
  | .error e => .quit [] (.error e)
  | .ok (.inl rc) => .quit [] (.ok rc)
  | .ok (.inr (row, pfx, ranges)) =>
    match findRange ranges row (parseNumberSlice z.byte 4 7 0) 0 row.nrules with
    | .error e => .quit [(4, 7)] (.error e)
    | .ok none => .quit [(4, 7)] (.ok ENOENT)
    | .ok (some len) => placed bsz z len pfx

end IsbnHyphenate
