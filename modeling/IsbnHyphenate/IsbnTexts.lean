import IsbnHyphenate.IsbnInvariant
import Mathlib.Data.List.TakeWhile

/-!
# The texts of the range message

`add_rule_str` cuts a `Range` at its first hyphen and gives both parts and the
`Length` to `strtoul` without looking at them; `add_prefix` looks at every
character of a `Prefix` and does not count those it copies. Which texts are read
as they are written, and which stay inside the `char[16]` they are copied to.
-/

namespace IsbnHyphenate

def Digits (s : CStr) : Prop := s ≠ [] ∧ ∀ c ∈ s, isDigit c

instance (s : CStr) : Decidable (Digits s) :=
  inferInstanceAs (Decidable (s ≠ [] ∧ ∀ c ∈ s, isDigit c))

theorem digit_bounds {c : Chr} (h : isDigit c) : 48 ≤ c.1.toNat ∧ c.1.toNat ≤ 57 := by
  simpa [isDigit] using h

theorem leadingNumber_digits (ds : CStr) (h : ∀ c ∈ ds, isDigit c) (n : ℕ) :
    leadingNumber n ds = decimal n ds := by
  induction ds generalizing n with
  | nil => rfl
  | cons c ds ih =>
    have hc := h c List.mem_cons_self
    rw [leadingNumber, if_pos hc, ih (fun d hd => h d (List.mem_cons_of_mem _ hd))]
    rfl

theorem strtoul_digits {s : CStr} (h : Digits s) :
    (strtoul s).toNat = min (decimal 0 s) (sizeMod - 1) := by
  cases s with
  | nil => exact (h.1 rfl).elim
  | cons c t =>
    have hc := digit_bounds (h.2 c List.mem_cons_self)
    have hspace : isSpace c = false := by
      simp only [isSpace, chrIs, Bool.or_eq_false_iff, beq_eq_false_iff_ne, decide_eq_false_iff_not]
      have : ' '.toNat = 32 := rfl
      omega
    have hminus : chrIs '-' c = false := by
      have : '-'.toNat = 45 := rfl
      simp only [chrIs, beq_eq_false_iff_ne]
      omega
    have hplus : chrIs '+' c = false := by
      have : '+'.toNat = 43 := rfl
      simp only [chrIs, beq_eq_false_iff_ne]
      omega
    have hnumber := leadingNumber_digits (c :: t) h.2 0
    simp only [strtoul, List.dropWhile_cons, hspace, hminus, hplus, Bool.or_self,
      Bool.false_eq_true, if_false, hnumber]
    split_ifs with hbig
    · rw [UInt64.toNat_ofNat']
      simp only [sizeMod] at hbig ⊢
      omega
    · rw [UInt64.toNat_ofNat']
      simp only [sizeMod] at hbig ⊢
      omega

def loText (range : CStr) : CStr := range.takeWhile fun c => !chrIs '-' c
def hiText (range : CStr) : CStr := (range.dropWhile fun c => !chrIs '-' c).tail

theorem copyBound_eq (stopAtHyphen : Bool) (s : CStr) {buf : CStr} (hbuf : buf.length ≤ 14) :
    copyBound stopAtHyphen buf s =
      .ok (if (buf ++ s.takeWhile fun c => !(stopAtHyphen && chrIs '-' c)).length ≤ 14 then
        some (buf ++ s.takeWhile fun c => !(stopAtHyphen && chrIs '-' c),
          s.dropWhile fun c => !(stopAtHyphen && chrIs '-' c))
      else none) := by
  have hput : put16 buf = .ok () := by rw [put16, if_pos (by omega)]
  induction s generalizing buf with
  | nil =>
    rw [copyBound, hput, run_ok_bind]
    simp only [List.takeWhile_nil, List.append_nil, List.dropWhile_nil, if_pos hbuf]
  | cons c s ih =>
    rw [copyBound]
    cases hc : stopAtHyphen && chrIs '-' c with
    | true =>
      simp only [if_true, hput, run_ok_bind, List.takeWhile_cons, List.dropWhile_cons, hc,
        Bool.not_true, Bool.false_eq_true, if_false, List.append_nil, if_pos hbuf]
    | false =>
      simp only [Bool.false_eq_true, if_false, List.takeWhile_cons, List.dropWhile_cons, hc,
        Bool.not_false, if_true]
      by_cases hfull : buf.length > 13
      · rw [if_pos hfull, if_neg]
        simp only [List.length_append, List.length_cons]
        omega
      · have hlen : (buf ++ [c]).length ≤ 14 := by
          simp only [List.length_append, List.length_singleton]
          omega
        rw [if_neg hfull, hput, run_ok_bind, ih hlen (by rw [put16, if_pos (by omega)])]
        simp only [List.append_assoc, List.singleton_append]

theorem takeWhile_all (s : CStr) : (s.takeWhile fun c => !(false && chrIs '-' c)) = s :=
  List.takeWhile_eq_self_iff.mpr fun c _ => by rw [Bool.false_and, Bool.not_false]

def Short (range : CStr) : Prop := (loText range).length ≤ 14 ∧ (hiText range).length ≤ 14

instance (range : CStr) : Decidable (Short range) :=
  inferInstanceAs (Decidable ((loText range).length ≤ 14 ∧ (hiText range).length ≤ 14))

theorem ruleOfStr_eq (range len : CStr) :
    ruleOfStr (some range) (some len) = .ok (if Short range then
      some ⟨strtoul len, (strtoul (loText range)).toUInt32, (strtoul (hiText range)).toUInt32⟩
    else none) := by
  have hnil : ([] : CStr).length ≤ 14 := Nat.zero_le 14
  have hlo := copyBound_eq true range hnil
  have hhi := copyBound_eq false (hiText range) hnil
  simp only [List.nil_append, Bool.true_and] at hlo
  simp only [List.nil_append, takeWhile_all] at hhi
  rw [ruleOfStr, hlo, run_ok_bind]
  by_cases h : (loText range).length ≤ 14
  · have h' : (range.takeWhile fun c => !chrIs '-' c).length ≤ 14 := h
    have hrest : (range.dropWhile fun c => !chrIs '-' c).tail = hiText range := rfl
    simp only [if_pos h', hrest, hhi, run_ok_bind]
    by_cases h2 : (hiText range).length ≤ 14
    · have hshort : Short range := ⟨h, h2⟩
      simp only [if_pos h2, if_pos hshort]
      rfl
    · have hlong : ¬ Short range := fun hs => h2 hs.2
      simp only [if_neg h2, if_neg hlong]
  · have h' : ¬ (range.takeWhile fun c => !chrIs '-' c).length ≤ 14 := h
    have hlong : ¬ Short range := fun hs => h hs.1
    simp only [if_neg h', if_neg hlong]

theorem ruleOfStr_returns (rangeStr rangeLen : Option CStr) :
    ∃ rule, ruleOfStr rangeStr rangeLen = .ok rule := by
  cases rangeStr with
  | none => exact ⟨none, rfl⟩
  | some range =>
    cases rangeLen with
    | none => exact ⟨none, rfl⟩
    | some len => exact ⟨_, ruleOfStr_eq range len⟩

structure AppendsRule (isbn isbn' : IsbnInfo) (r : IsbnRange) : Prop where
  ruleNr : isbn'.ruleNr = isbn.ruleNr + 1
  rangesLen : isbn'.rangesVec.len = isbn.rangesVec.len + 1
  old : ∀ i < isbn.ruleNr, isbn'.rangesVec.read i = isbn.rangesVec.read i
  new : isbn'.rangesVec.read isbn.ruleNr = some r

structure Spells (range len : CStr) (r : IsbnRange) : Prop where
  parts : ∃ lo hi c, range = lo ++ c :: hi ∧ chrIs '-' c ∧ Digits lo ∧ Digits hi ∧
    r.rngLbound.toNat = decimal 0 lo ∧ r.rngUbound.toNat = decimal 0 hi
  length : Digits len ∧ r.rngLen.toNat = decimal 0 len

def ExactOrRejected (isbn : IsbnInfo) (rangeStr rangeLen : Option CStr) : Prop :=
  ∃ rc isbn', addRuleStr isbn rangeStr rangeLen = .ok (rc, isbn') ∧
    ((rc = 0 ∧ ∃ range len r, rangeStr = some range ∧ rangeLen = some len ∧ Spells range len r ∧
        AppendsRule isbn isbn' r) ∨
      (rc ≠ 0 ∧ isbn'.ruleNr = isbn.ruleNr ∧ isbn'.rangesVec = isbn.rangesVec ∧
        isbn'.newPrefix = isbn.newPrefix))

/-- Two numbers of 32 bits with a hyphen between them, and one of 64 bits. -/
def Exact (range len : CStr) : Prop :=
  (∃ c ∈ range, chrIs '-' c) ∧ (Digits (loText range) ∧ decimal 0 (loText range) < 2 ^ 32) ∧
    (Digits (hiText range) ∧ decimal 0 (hiText range) < 2 ^ 32) ∧
    Digits len ∧ decimal 0 len < 2 ^ 64

instance (range len : CStr) : Decidable (Exact range len) :=
  inferInstanceAs (Decidable ((∃ c ∈ range, chrIs '-' c) ∧
    (Digits (loText range) ∧ decimal 0 (loText range) < 2 ^ 32) ∧
    (Digits (hiText range) ∧ decimal 0 (hiText range) < 2 ^ 32) ∧
    Digits len ∧ decimal 0 len < 2 ^ 64))

/-- Both texts are there and neither part of the range is too long: the others
are rejected. -/
def Accepted (rangeStr rangeLen : Option CStr) (range len : CStr) : Prop :=
  rangeStr = some range ∧ rangeLen = some len ∧ Short range

theorem split_at_hyphen {lo hi : CStr} {c : Chr} (hlo : Digits lo) (hc : chrIs '-' c) :
    loText (lo ++ c :: hi) = lo ∧ hiText (lo ++ c :: hi) = hi := by
  have hpass : ∀ d ∈ lo, (!chrIs '-' d) = true := by
    intro d hd
    have hb := digit_bounds (hlo.2 d hd)
    have : '-'.toNat = 45 := rfl
    simp only [chrIs, Bool.not_eq_true', beq_eq_false_iff_ne]
    omega
  constructor
  · rw [loText, List.takeWhile_append_of_pos hpass, List.takeWhile_cons, hc, Bool.not_true,
      if_neg Bool.false_ne_true, List.append_nil]
  · rw [hiText, List.dropWhile_append_of_pos hpass, List.dropWhile_cons, hc, Bool.not_true,
      if_neg Bool.false_ne_true, List.tail_cons]

theorem split_parts {range : CStr} (h : ∃ c ∈ range, chrIs '-' c) :
    ∃ c, chrIs '-' c ∧ range = loText range ++ c :: hiText range := by
  have hsplit := List.takeWhile_append_dropWhile (p := fun c => !chrIs '-' c) (l := range)
  cases hrest : range.dropWhile fun c => !chrIs '-' c with
  | nil =>
    obtain ⟨c, hmem, hc⟩ := h
    have hall := List.dropWhile_eq_nil_iff.mp hrest c hmem
    simp [hc] at hall
  | cons c rest =>
    have hhead := List.head?_dropWhile_not (fun c => !chrIs '-' c) range
    rw [hrest] at hhead
    have hc : chrIs '-' c = true := by simpa using hhead
    refine ⟨c, hc, ?_⟩
    rw [hrest] at hsplit
    rw [loText, hiText, hrest, List.tail_cons]
    exact hsplit.symm

theorem spells_iff (range len : CStr) :
    Spells range len
        ⟨strtoul len, (strtoul (loText range)).toUInt32, (strtoul (hiText range)).toUInt32⟩ ↔
      Exact range len := by
  have hword : ∀ s, Digits s → ((strtoul s).toUInt32.toNat = decimal 0 s ↔
      decimal 0 s < 2 ^ 32) := by
    intro s hs
    rw [UInt64.toNat_toUInt32, strtoul_digits hs]
    simp only [sizeMod]
    omega
  have hlong : ∀ s, Digits s → ((strtoul s).toNat = decimal 0 s ↔ decimal 0 s < 2 ^ 64) := by
    intro s hs
    rw [strtoul_digits hs]
    simp only [sizeMod]
    omega
  constructor
  · intro h
    obtain ⟨lo, hi, c, hrange, hc, hlo, hhi, hl, hu⟩ := h.parts
    have hsplit : loText (lo ++ c :: hi) = lo ∧ hiText (lo ++ c :: hi) = hi :=
      split_at_hyphen hlo hc
    rw [← hrange] at hsplit
    rcases hsplit with ⟨hloText, hhiText⟩
    simp only [hloText, hhiText] at hl hu
    refine ⟨⟨c, by simp [hrange], hc⟩, ⟨hloText ▸ hlo, ?_⟩, ⟨hhiText ▸ hhi, ?_⟩, h.length.1, ?_⟩
    · rw [hloText]
      exact (hword lo hlo).mp hl
    · rw [hhiText]
      exact (hword hi hhi).mp hu
    · exact (hlong len h.length.1).mp h.length.2
  · intro h
    rcases h with ⟨hhyphen, ⟨hlo, hl⟩, ⟨hhi, hu⟩, hlen, hn⟩
    obtain ⟨c, hc, hrange⟩ := split_parts hhyphen
    exact ⟨⟨loText range, hiText range, c, hrange, hc, hlo, hhi, (hword _ hlo).mpr hl,
      (hword _ hhi).mpr hu⟩, hlen, (hlong len hlen).mpr hn⟩

section Table
variable {isbn isbn' : IsbnInfo} {cat : Catalog}

theorem Refines.appends {r : IsbnRange} (h : Refines isbn cat)
    (h' : Refines isbn' (cat.addRule r)) : AppendsRule isbn isbn' r := by
  have hrules : (cat.addRule r).rules = cat.rules ++ [r] := by
    simp [Catalog.rules, Catalog.addRule]
  have hread := h'.ranges.2
  rw [hrules, List.length_append, List.length_singleton] at hread
  refine ⟨?_, ?_, fun i hi => ?_, ?_⟩
  · rw [h'.ruleNr, h.ruleNr, hrules, List.length_append, List.length_singleton]
  · rw [h'.rangesLen, h.rangesLen, hrules, List.length_append, List.length_singleton]
  · rw [h.ruleNr] at hi
    rw [hread i (by omega), h.ranges.2 i hi, List.getElem?_append_left hi]
  · rw [h.ruleNr, hread _ (by omega), List.getElem?_concat_length]

theorem Refines.exactOrRejected_iff (h : Refines isbn cat) (rangeStr rangeLen : Option CStr) :
    ExactOrRejected isbn rangeStr rangeLen ↔
      ∀ range len, Accepted rangeStr rangeLen range len → Exact range len := by
  obtain ⟨rule, hrule⟩ := ruleOfStr_returns rangeStr rangeLen
  constructor
  · intro hex range len hacc
    rcases hacc with ⟨hr, hl, hshort⟩
    subst hr
    subst hl
    obtain ⟨rc, isbn₁, hrun, hcases⟩ := hex
    obtain ⟨isbn₂, hok, h₂, -⟩ := h.addRule
      ⟨strtoul len, (strtoul (loText range)).toUInt32, (strtoul (hiText range)).toUInt32⟩
    rw [addRuleStr, ruleOfStr_eq, if_pos hshort, run_ok_bind] at hrun
    simp only at hrun hok
    rw [hok] at hrun
    cases hrun
    rcases hcases with ⟨-, range', len', r, hr, hl, hspell, happ⟩ | ⟨hrc, -⟩
    · cases hr
      cases hl
      have heq := happ.new.symm.trans (h.appends h₂).new
      rw [Option.some_inj.mp heq] at hspell
      exact (spells_iff range len).mp hspell
    · exact (hrc rfl).elim
  · intro hall
    have hreject : ruleOfStr rangeStr rangeLen = .ok none →
        ExactOrRejected isbn rangeStr rangeLen := by
      intro hnone
      refine ⟨2, isbn, ?_, Or.inr ⟨by decide, rfl, rfl, rfl⟩⟩
      rw [addRuleStr, hnone, run_ok_bind]
    cases rangeStr with
    | none => exact hreject rfl
    | some range =>
      cases rangeLen with
      | none => exact hreject rfl
      | some len =>
        by_cases hshort : Short range
        · have hexact := hall range len ⟨rfl, rfl, hshort⟩
          obtain ⟨isbn₂, hok, h₂, -⟩ := h.addRule
            ⟨strtoul len, (strtoul (loText range)).toUInt32, (strtoul (hiText range)).toUInt32⟩
          refine ⟨0, isbn₂, ?_, Or.inl ⟨rfl, range, len, _, rfl, rfl,
            (spells_iff range len).mpr hexact, h.appends h₂⟩⟩
          rw [addRuleStr, ruleOfStr_eq, if_pos hshort, run_ok_bind]
          exact hok
        · exact hreject (by rw [ruleOfStr_eq, if_neg hshort])

end Table

/-- A rule that is not rejected is exact if and only if its texts are numbers
that fit into their words: `add_rule_str` checks nothing but the lengths. -/
theorem rule_exact_or_rejected_iff (ops : List BuildOp) :
    ∃ isbn, buildTable ops = .ok isbn ∧ ∀ rangeStr rangeLen,
      ExactOrRejected isbn rangeStr rangeLen ↔
        ∀ range len, Accepted rangeStr rangeLen range len → Exact range len := by
  obtain ⟨isbn, hok, h⟩ := buildTable_refines ops
  exact ⟨isbn, hok, h.exactOrRejected_iff⟩

theorem rule_wraps_around :
    (∃ isbn, newIsbnInfo = .ok isbn ∧
      ¬ ExactOrRejected isbn (some (lit "0-4294967296".toList)) (some (lit ['1']))) ∧
    (newIsbnInfo >>= fun isbn =>
      addRuleStr isbn (some (lit "0-4294967296".toList)) (some (lit ['1'])) >>= fun ret =>
        .ok (ret.1, ret.2.rangesVec.read 0)) = .ok (0, some ⟨1, 0, 0⟩) := by
  refine ⟨?_, by decide +kernel⟩
  obtain ⟨isbn, hnew, h⟩ := newIsbnInfo_refines
  refine ⟨isbn, hnew, fun hex => ?_⟩
  have hexact := (h.exactOrRejected_iff _ _).mp hex _ _ ⟨rfl, rfl, by decide +kernel⟩
  revert hexact
  decide +kernel

def accepted (c : Chr) : Bool := isDigit c || chrIs '-' c

/-- The digits in front of the first refused character fit into the array, and
so does the NUL when there is no such character. -/
def DigitsFit (pfx : CStr) : Prop :=
  (digitsOf (pfx.takeWhile accepted)).length ≤ if Numeric pfx then 15 else 16

instance (pfx : CStr) : Decidable (DigitsFit pfx) :=
  inferInstanceAs (Decidable ((digitsOf (pfx.takeWhile accepted)).length ≤
    if Numeric pfx then 15 else 16))

theorem copyNumeric_inside_iff (pfx : CStr) {buf : CStr} (hbuf : buf.length ≤ 16) :
    copyNumeric buf pfx ≠ .error .badWrite ↔
      buf.length + (digitsOf (pfx.takeWhile accepted)).length ≤
        if Numeric pfx then 15 else 16 := by
  induction pfx generalizing buf with
  | nil =>
    simp only [copyNumeric, put16, List.takeWhile_nil, digitsOf_nil, List.length_nil, numeric_nil,
      if_true, Nat.add_zero]
    by_cases hlt : buf.length < 16
    · exact iff_of_true (by simp [hlt]) (by omega)
    · exact iff_of_false (by simp [hlt]) (by omega)
  | cons c pfx ih =>
    rw [copyNumeric, put16]
    by_cases hd : isDigit c
    · have hacc : accepted c = true := by rw [accepted, hd, Bool.true_or]
      simp only [hd, if_true, List.takeWhile_cons, hacc, digitsOf_cons, List.length_cons,
        numeric_cons, true_or, true_and]
      by_cases hlt : buf.length < 16
      · have hlen : (buf ++ [c]).length = buf.length + 1 := by simp
        have hrest := ih (hlen ▸ hlt : (buf ++ [c]).length ≤ 16)
        rw [hlen] at hrest
        rw [if_pos hlt, run_ok_bind, hrest]
        split_ifs <;> omega
      · rw [if_neg hlt]
        simp only [run_error_bind, ne_eq, not_true_eq_false, false_iff]
        split_ifs <;> omega
    · cases hh : chrIs '-' c with
      | true =>
        have hacc : accepted c = true := by rw [accepted, hh, Bool.or_true]
        simp only [hd, Bool.false_eq_true, if_false, Bool.not_true, List.takeWhile_cons, hacc,
          if_true, digitsOf_cons, numeric_cons, hh, or_true, true_and]
        exact ih hbuf
      | false =>
        have hacc : accepted c = false := by simp [accepted, hd, hh]
        have hnum : ¬ Numeric (c :: pfx) := by simp [hd, hh]
        simp [hd, hacc, hnum, hbuf]

theorem copyNumeric_inside (pfx : CStr) :
    copyNumeric [] pfx ≠ .error .badWrite ↔ DigitsFit pfx := by
  have hnil : ([] : CStr).length ≤ 16 := Nat.zero_le 16
  have hiff := copyNumeric_inside_iff pfx hnil
  rw [List.length_nil, Nat.zero_add] at hiff
  exact hiff

theorem copyNumeric_error {pfx : CStr} {e : Stop} : ∀ {buf : CStr},
    copyNumeric buf pfx = .error e → e = .badWrite := by
  induction pfx with
  | nil =>
    intro buf h
    rw [copyNumeric, put16] at h
    split_ifs at h <;> cases h
    rfl
  | cons c pfx ih =>
    intro buf h
    rw [copyNumeric, put16] at h
    split_ifs at h with hd hlt hh
    · exact ih h
    · cases h
      rfl
    · exact ih h

theorem Refines.addPrefix_inside_iff {isbn : IsbnInfo} {cat : Catalog} (h : Refines isbn cat)
    (pfx agency : CStr) :
    IsbnHyphenate.addPrefix isbn pfx agency ≠ .error .badWrite ↔ DigitsFit pfx := by
  rw [← copyNumeric_inside]
  cases hr : copyNumeric [] pfx with
  | ok r =>
    obtain ⟨isbn', hok, -⟩ := h.addPrefix hr agency
    rw [hok]
    simp
  | error e =>
    obtain ⟨rows, hrows, hall⟩ := h.prefixes
    have hnr : isbn.prefixNr = rows.length := by
      rw [hall.length_eq, Slices.length_located, h.prefixNr]
    obtain ⟨room, hroom, -⟩ := hrows.makeRoom
    rw [IsbnHyphenate.addPrefix, hnr, hroom, run_ok_bind, hr, run_error_bind]
    simp

theorem Refines.addPrefix_returns {isbn : IsbnInfo} {cat : Catalog} (h : Refines isbn cat)
    {pfx : CStr} (hfit : DigitsFit pfx) (agency : CStr) :
    ∃ rc isbn', IsbnHyphenate.addPrefix isbn pfx agency = .ok (rc, isbn') := by
  cases hr : copyNumeric [] pfx with
  | ok r =>
    obtain ⟨isbn', hok, -⟩ := h.addPrefix hr agency
    exact ⟨_, isbn', hok⟩
  | error e =>
    rw [copyNumeric_error hr] at hr
    exact ((copyNumeric_inside pfx).mpr hfit hr).elim

/-- The loops of `add_rule_str` stop in time for every text, the one of
`add_prefix` for a text that fits. -/
theorem copy_loops_inside_iff (ops : List BuildOp) :
    ∃ isbn, buildTable ops = .ok isbn ∧ ∀ pfx agency rangeStr rangeLen,
      (addPrefix isbn pfx agency ≠ .error .badWrite ∧
        addRuleStr isbn rangeStr rangeLen ≠ .error .badWrite) ↔ DigitsFit pfx := by
  obtain ⟨isbn, hok, h⟩ := buildTable_refines ops
  refine ⟨isbn, hok, fun pfx agency rangeStr rangeLen => ?_⟩
  have hrule : addRuleStr isbn rangeStr rangeLen ≠ .error .badWrite := by
    obtain ⟨rule, hrule⟩ := ruleOfStr_returns rangeStr rangeLen
    rw [addRuleStr, hrule, run_ok_bind]
    cases rule with
    | none => simp
    | some r =>
      obtain ⟨isbn', hadd, -⟩ := h.addRule r
      simp [hadd]
  rw [h.addPrefix_inside_iff]
  exact and_iff_left hrule

theorem prefix_overruns_array :
    (newIsbnInfo >>= fun isbn => addPrefix isbn (lit "9781234567890123".toList) (lit ['A'])) =
      .error .badWrite := by
  decide +kernel

end IsbnHyphenate
