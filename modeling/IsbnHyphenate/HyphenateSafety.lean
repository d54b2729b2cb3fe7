import IsbnHyphenate.PlaceHyphens
import IsbnHyphenate.IsbnInvariant
import IsbnHyphenate.FstPackSim

/-!
# Which inputs are safe

For every table that the builder can make, with its own transducer and with the
packed copy: on which strings `hyphenate_isbn` stays inside its argument and
refuses what is not an ISBN-13, and for which prefixes and lengths the copies
stay inside `hbuf`.
-/

namespace IsbnHyphenate
open Slices CopyScript

def Isbn13 (s : CStr) : Prop := s.length = 13 ∧ ∀ c ∈ s, isDigit c

instance (s : CStr) : Decidable (Isbn13 s) :=
  inferInstanceAs (Decidable (s.length = 13 ∧ ∀ c ∈ s, isDigit c))

def StaysInside (z : ZStr) (parts : List (ℕ × ℕ)) : Prop :=
  ∀ r ∈ parts, r.2 = 0 ∨ r.1 + r.2 ≤ z.str.length + 1

structure Guarded (z : ZStr) (h : Hyphenation) : Prop where
  inside : StaysInside z h.reads
  accepted : h.ret = .ok 0 → Isbn13 z.str
  refused : ¬ Isbn13 z.str → ∃ rc, h.ret = .ok rc ∧ rc ≠ 0

section Placed
variable {z : ZStr} {bsz : ℕ} {len : UInt64} {pfx : CStr}

theorem placed_reads (hb : 18 ≤ bsz) (h16 : pfx.length < 16) : (placed bsz z len pfx).reads =
    [(4, 7), (0, 3), (pfx.length, len.toNat),
      ((UInt64.ofNat pfx.length + len).toNat, (8 - len).toNat), (12, 1)] := by
  rw [placed, if_neg (Nat.not_lt.mpr hb)]
  simp only [placeHyphens_reads, toNat_strlen h16]

theorem placed_ret {rc : ℕ} (h : (placed bsz z len pfx).ret = .ok rc) : rc = 0 := by
  rw [placed] at h
  split_ifs at h with hb
  · cases h
  · cases h
    rfl

/-- A Length of more than 14 is out of bounds in the third field, and one of 9
to 14 in the fourth, whose length then wraps around. -/
theorem placed_inside_iff (hb : 18 ≤ bsz) (hz : z.str.length = 13) (h16 : pfx.length < 16) :
    StaysInside z (placed bsz z len pfx).reads ↔ len.toNat ≤ 8 ∧ pfx.length ≤ 6 := by
  have hlen := toNat_strlen h16
  rw [StaysInside, hz, placed_reads hb h16]
  simp only [List.forall_mem_cons, List.not_mem_nil, false_implies, implies_true, and_true,
    UInt64.toNat_add, UInt64.toNat_sub, UInt64.reduceToNat, hlen]
  have := len.toNat_lt
  omega

end Placed

theorem guarded_quit {z : ZStr} {parts : List (ℕ × ℕ)} {rc : ℕ} (hrc : rc ≠ 0) :
    Guarded z (.quit parts (.ok rc)) ↔ StaysInside z parts := by
  refine ⟨fun h => h.inside, fun h => ⟨h, fun h0 => ?_, fun _ => ⟨rc, rfl, hrc⟩⟩⟩
  cases h0
  exact (hrc rfl).elim

theorem guarded_stop {z : ZStr} {err : Stop} :
    Guarded z (.quit [] (.error err)) ↔ Isbn13 z.str := by
  constructor
  · intro h
    by_contra hn
    obtain ⟨rc, hrc, -⟩ := h.refused hn
    cases hrc
  · exact fun h => ⟨by simp [StaysInside, Hyphenation.quit], fun _ => h, fun hn => (hn h).elim⟩

/-- An ISBN-13 whose rule places the fields inside it, or another string that
matches no prefix, or matches one and is long enough to show that none of its
rules applies. -/
def Harmless (cat : Catalog) (z : ZStr) : Prop :=
  if Isbn13 z.str then
    ∀ e r, Matched cat z.str e → e.ruleFor (registrantOf z) = some r →
      r.rngLen.toNat ≤ 8 ∧ e.pfx.length ≤ 6
  else (cat.entries = [] → z.str = []) ∧
    ∀ e, Matched cat z.str e → 10 ≤ z.str.length ∧ e.ruleFor (registrantOf z) = none

theorem harmless_unmatched {cat : Catalog} {z : ZStr} (hno : ∀ e, ¬ Matched cat z.str e) :
    Harmless cat z ↔ Isbn13 z.str ∨ (cat.entries = [] → z.str = []) := by
  rw [Harmless]
  split_ifs with h13
  · simp [hno, h13]
  · simp [hno, h13]

section Guarded
variable {isbn : IsbnInfo} {cat : Catalog} {bsz : ℕ}

theorem Refines.guarded_matched (h : Refines isbn cat) (hb : 18 ≤ bsz) (z : ZStr) {e : Entry}
    (hm : Matched cat z.str e) :
    Guarded z (hyphenateIsbn (some (isbn.table isbn.fst.view)) bsz z) ↔ Harmless cat z := by
  have hne : cat.entries ≠ [] := by
    intro hnil
    have := hm.longest.1
    simp [hnil] at this
  rw [h.hyphenate_matched hb hm, Harmless]
  cases hr : e.ruleFor (registrantOf z) with
  | none =>
    have hall : ∀ e', Matched cat z.str e' → e'.ruleFor (registrantOf z) = none :=
      fun e' hm' => hm.unique hm' ▸ hr
    simp only [guarded_quit (show ENOENT ≠ 0 by decide)]
    split_ifs with h13
    · refine iff_of_true ?_ fun e' r hm' hr' => ?_
      · simp [StaysInside, h13.1]
      · rw [hall e' hm'] at hr'
        cases hr'
    · simp only [StaysInside, List.forall_mem_cons, List.not_mem_nil, false_implies, implies_true,
        and_true]
      constructor
      · exact fun hlen => ⟨fun hnil => (hne hnil).elim, fun e' hm' => ⟨by omega, hall e' hm'⟩⟩
      · intro hlen
        have := (hlen.2 e hm).1
        omega
  | some r =>
    split_ifs with h13
    · have hin : StaysInside z (placed bsz z r.rngLen e.pfx).reads ↔
          r.rngLen.toNat ≤ 8 ∧ e.pfx.length ≤ 6 :=
        placed_inside_iff hb h13.1 (h.short e (List.mem_of_find?_eq_some hm.first))
      constructor
      · intro hg e' r' hm' hr'
        obtain rfl := hm.unique hm'
        obtain rfl : r = r' := Option.some_inj.mp (hr.symm.trans hr')
        exact hin.mp hg.inside
      · exact fun hall => ⟨hin.mpr (hall e r hm hr), fun _ => h13, fun hn => (hn h13).elim⟩
    · constructor
      · intro hg
        obtain ⟨rc, hrc, h0⟩ := hg.refused h13
        exact (h0 (placed_ret hrc)).elim
      · intro hall
        rw [(hall.2 e hm).2] at hr
        cases hr

theorem Refines.guarded_iff (h : Refines isbn cat) (z : ZStr) :
    Guarded z (hyphenateIsbn (some (isbn.table isbn.fst.view)) bsz z) ↔
      bsz < 18 ∨ Harmless cat z := by
  by_cases hb : bsz < 18
  · rw [hyphenate_small hb, guarded_quit (by decide)]
    simp [hb, StaysInside]
  · rw [or_iff_right hb]
    have hb' : 18 ≤ bsz := Nat.le_of_not_lt hb
    by_cases hm : ∃ e, Matched cat z.str e
    · obtain ⟨e, hm⟩ := hm
      exact h.guarded_matched hb' z hm
    · have hno : ∀ e, ¬ Matched cat z.str e := fun e he => hm ⟨e, he⟩
      by_cases hne : cat.entries = []
      · rw [h.hyphenate_empty hb' hne, harmless_unmatched hno]
        by_cases hs : z.str = []
        · rw [if_pos hs, guarded_quit (by decide)]
          simp [hs, StaysInside]
        · rw [if_neg hs, guarded_stop]
          simp [hne, hs]
      · rw [h.hyphenate_unmatched hb' hne hno, guarded_quit (by decide), harmless_unmatched hno]
        simp [hne, StaysInside]

theorem Refines.hyphenate_packed (h : Refines isbn cat) :
    ∃ pk, fstCopyAndPack isbn.fst = .ok pk ∧ ∀ bsz z,
      hyphenateIsbn (some (isbn.table pk.view)) bsz z =
        if 18 ≤ bsz ∧ lastNew (cat.entries.map Entry.pfx) <+: z.str then
          .quit [] (.error .badRead)
        else hyphenateIsbn (some (isbn.table isbn.fst.view)) bsz z := by
  obtain ⟨label, hb⟩ := h.dict
  obtain ⟨pk, hpack, -, hlookup⟩ := hb.packed_lookup
  rw [cat.keyed_keys] at hlookup
  refine ⟨pk, hpack, fun bsz z => ?_⟩
  have hl := hlookup z.str true
  by_cases hbsz : 18 ≤ bsz
  · by_cases hlast : lastNew (cat.entries.map Entry.pfx) <+: z.str
    · rw [if_pos ⟨hbsz, hlast⟩, hyphenate_stop hbsz (hl.trans (if_pos hlast))]
    · rw [if_neg fun hand => hlast hand.2]
      exact hyphenate_congr (hl.trans (if_neg hlast))
  · have hsmall : bsz < 18 := by omega
    rw [if_neg fun hand => hbsz hand.1, hyphenate_small hsmall, hyphenate_small hsmall]

end Guarded

/-- For every table: with the transducer as it was built, and with its packed
copy. -/
theorem hyphenate_guarded_iff (ops : List BuildOp) :
    ∃ isbn pk, buildTable ops = .ok isbn ∧ fstCopyAndPack isbn.fst = .ok pk ∧ ∀ bsz z,
      (Guarded z (hyphenateIsbn (some (isbn.table isbn.fst.view)) bsz z) ↔
        bsz < 18 ∨ Harmless (catalogOf ops) z) ∧
      (Guarded z (hyphenateIsbn (some (isbn.table pk.view)) bsz z) ↔
        bsz < 18 ∨ if lastNew ((catalogOf ops).entries.map Entry.pfx) <+: z.str then Isbn13 z.str
          else Harmless (catalogOf ops) z) := by
  obtain ⟨isbn, hok, h⟩ := buildTable_refines ops
  obtain ⟨pk, hpack, hpacked⟩ := h.hyphenate_packed
  refine ⟨isbn, pk, hok, hpack, fun bsz z => ⟨h.guarded_iff z, ?_⟩⟩
  rw [hpacked bsz z]
  by_cases hb : 18 ≤ bsz
  · by_cases hlast : lastNew ((catalogOf ops).entries.map Entry.pfx) <+: z.str
    · rw [if_pos ⟨hb, hlast⟩, if_pos hlast, guarded_stop, or_iff_right (Nat.not_lt.mpr hb)]
    · rw [if_neg fun hand => hlast hand.2, if_neg hlast]
      exact h.guarded_iff z
  · have hsmall : bsz < 18 := by omega
    rw [if_neg fun hand => hb hand.1, h.guarded_iff z]
    exact iff_of_true (Or.inl hsmall) (Or.inl hsmall)

def sampleOps : List BuildOp :=
  [.rule ⟨1, 0, 9999999⟩, .pfx ⟨lit "978-0".toList, by decide⟩ (lit ['A'])]

/-- Eleven digits are accepted, and of the prefix alone bytes 4 to 10 are read. -/
theorem hyphenate_takes_short_strings :
    (buildTable sampleOps >>= fun isbn => (hyphenateIsbn (some (isbn.table isbn.fst.view)) 32
      ⟨lit "97801234567".toList, fun _ => 0⟩).ret) = .ok 0 ∧
    ¬ Isbn13 (lit "97801234567".toList) ∧
    (buildTable sampleOps >>= fun isbn => .ok (hyphenateIsbn (some (isbn.table isbn.fst.view)) 32
      ⟨lit "9780".toList, fun _ => 0⟩).reads.head?) = .ok (some (4, 7)) := by
  decide +kernel

end IsbnHyphenate
