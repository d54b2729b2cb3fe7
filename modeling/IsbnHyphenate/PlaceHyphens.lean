import IsbnHyphenate.HyphenateSpec

/-!
# What the five copies touch

The copies of `place_hyphens` in plain arithmetic, for a prefix of at least
three digits and a third field of at most eight. Outside these bounds one of
the counts wraps around.
-/

namespace IsbnHyphenate
open Slices CopyScript

/-- `place_hyphens` without the wrap-around of `size_t`. -/
def plainScript (len pfxlen : ℕ) : List (Step Source UInt8) :=
  [.copy 0 .isbn 0 3, .put 3 hyphen,
    .copy 4 .pfx 3 (pfxlen - 3), .put (pfxlen + 1) hyphen,
    .copy (pfxlen + 2) .isbn pfxlen len, .put (pfxlen + 2 + len) hyphen,
    .copy (pfxlen + 3 + len) .isbn (pfxlen + len) (8 - len), .put (pfxlen + 11) hyphen,
    .copy (pfxlen + 12) .isbn 12 1, .put (pfxlen + 13) 0]

section Script
variable {len pfxlen : UInt64}

theorem placeHyphens_eq (h3 : 3 ≤ pfxlen.toNat) (h15 : pfxlen.toNat ≤ 15) (h8 : len.toNat ≤ 8) :
    placeHyphens len pfxlen = plainScript len.toNat pfxlen.toNat := by
  simp only [placeHyphens, plainScript, UInt64.toNat_add, UInt64.toNat_sub, UInt64.reduceToNat,
    List.cons.injEq, Step.copy.injEq, Step.put.injEq, true_and, and_true]
  omega

theorem plainScript_tiles (L p : ℕ) (h3 : 3 ≤ p) (h8 : L ≤ 8) :
    Tiles 0 (writes (plainScript L p)) (p + 14) := by
  simp only [plainScript, writes_copy, writes_put, writes_nil, Tiles, true_and]
  and_intros <;> omega

theorem plainScript_reads (L p : ℕ) :
    reads .isbn (plainScript L p) = [(0, 3), (p, L), (p + L, 8 - L), (12, 1)] := by
  simp [plainScript]

/-- The offsets in the ISBN do not depend on whether `pfxlen - 3` wraps around. -/
theorem placeHyphens_reads (len pfxlen : UInt64) :
    reads .isbn (placeHyphens len pfxlen) =
      [(0, 3), (pfxlen.toNat, len.toNat), ((pfxlen + len).toNat, (8 - len).toNat), (12, 1)] := by
  have hback : 3 + (pfxlen - 3) = pfxlen := by
    rw [UInt64.add_comm, UInt64.sub_add_cancel]
  simp [placeHyphens, hback]

end Script

theorem toNat_strlen {pfx : CStr} (h : pfx.length < 16) :
    (UInt64.ofNat pfx.length).toNat = pfx.length := by
  rw [UInt64.toNat_ofNat']
  omega

def sourceBytes (z : ZStr) (pfx : CStr) : Source → ℕ → UInt8
  | .isbn => z.byte
  | .pfx => ZStr.byte ⟨pfx, fun _ => 0⟩

theorem placed_eq {bsz : ℕ} {z : ZStr} {len : UInt64} {pfx : CStr} (hb : 18 ≤ bsz)
    (h3 : 3 ≤ pfx.length) (h16 : pfx.length < 16) (h8 : len.toNat ≤ 8) :
    placed bsz z len pfx =
      { reads := (4, 7) :: reads .isbn (plainScript len.toNat pfx.length)
        writes := writes (plainScript len.toNat pfx.length)
        placed := some (len, UInt64.ofNat pfx.length)
        hbuf := run (sourceBytes z pfx) (plainScript len.toNat pfx.length) fun _ => none
        ret := .ok 0 } := by
  have hlen := toNat_strlen h16
  have hscript : placeHyphens len (UInt64.ofNat pfx.length) =
      plainScript len.toNat pfx.length := by
    rw [placeHyphens_eq (by omega) (by omega) h8, hlen]
  simp only [placed, Nat.not_lt.mpr hb, if_false, hscript]
  rfl

end IsbnHyphenate
