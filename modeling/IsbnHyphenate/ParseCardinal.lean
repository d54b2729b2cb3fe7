import IsbnHyphenate.Getopt
import IsbnHyphenate.IsbnTexts
import IsbnHyphenate.Printf
import Mathlib.Data.Nat.Digits.Defs

/-!
# Cardinal numbers with separators

`parse_cardinal` drops commas and underscores that stand behind a digit and gives
the rest to `strtoul`, which still takes spaces and a sign.
-/

namespace IsbnHyphenate

def plusChr : Chr := ⟨43, by decide⟩

def isSeparator (c : Chr) : Bool := chrIs ',' c || chrIs '_' c

def strtoulEnd (s : CStr) : Option CStr :=
  match s.dropWhile isSpace with
  | [] => none
  | c :: t =>
    let ds := if chrIs '-' c || chrIs '+' c then t else c :: t
    if ds.takeWhile isDigit = [] then none else some (ds.dropWhile isDigit)

abbrev EINVAL : ℕ := 22

structure Cardinal where
  rc : ℕ
  r : Option UInt64
  message : CStr
  deriving DecidableEq

def put64 (buf : CStr) : Run Unit := if buf.length < 64 then .ok () else .error .badWrite

/-- The loop over the argument; `none` is the early return. `prevDigit` says that
`prev_ccl` is a digit, which it is at first, too. -/
def copyCardinal (prevDigit : Bool) (buf : CStr) : CStr → Run (Option CStr)
  | [] => do
    put64 buf
    .ok (some buf)
  | c :: s =>
    if isSeparator c then
      if prevDigit then copyCardinal false buf s else .ok none
    else do
      put64 buf
      copyCardinal (isDigit c) (buf ++ [c]) s

def invalidArgument (s : CStr) : CStr := say "Invalid numeric argument, '" ++ s ++ say "'.\n"

def parseCardinal (str : CStr) : Run Cardinal := do
  let buf ← copyCardinal true [] (str.dropWhile isSpace)
  match buf with
  | none => .ok ⟨EINVAL, none, invalidArgument str⟩
  | some buf =>
    if strtoulEnd buf = some [] then .ok ⟨0, some (strtoul buf), []⟩
    else .ok ⟨EINVAL, some (strtoul buf), invalidArgument buf⟩

def signedValue (minus : Bool) (n : ℕ) : UInt64 :=
  if sizeMod ≤ n then UInt64.ofNat (sizeMod - 1)
  else if minus then 0 - UInt64.ofNat n
  else UInt64.ofNat n

def Numeral (s : CStr) (n : UInt64) : Prop :=
  ∃ spaces sign ds, s = spaces ++ (sign ++ ds) ∧ (∀ c ∈ spaces, isSpace c) ∧
    (sign = [] ∨ sign = [plusChr] ∨ sign = [dash]) ∧ Digits ds ∧
    n = signedValue (sign = [dash]) (decimal 0 ds)

theorem chrIs_iff {ch : Char} {c d : Chr} (hd : d.1.toNat = ch.toNat) :
    chrIs ch c ↔ c = d := by
  rw [chrIs, beq_iff_eq, ← hd, UInt8.toNat_inj, Subtype.ext_iff]

theorem digit_chrIs {c : Chr} (hc : isDigit c) {ch : Char} (hch : ch.toNat < 48) :
    chrIs ch c = false := by
  have hbounds := digit_bounds hc
  rw [chrIs, beq_eq_false_iff_ne]
  omega

theorem digit_isSpace {c : Chr} (hc : isDigit c) : isSpace c = false := by
  have hbounds := digit_bounds hc
  rw [isSpace, digit_chrIs hc (by decide), Bool.false_or, decide_eq_false_iff_not]
  omega

theorem dropWhile_front {α : Type} {p : α → Bool} {front : List α} (h : ∀ a ∈ front, p a)
    (s : List α) : (front ++ s).dropWhile p = s.dropWhile p := by
  rw [List.dropWhile_append, List.dropWhile_eq_nil_iff.mpr h, List.isEmpty_nil, if_pos rfl]

theorem Numeral.read {s : CStr} {n : UInt64} (h : Numeral s n) :
    strtoulEnd s = some [] ∧ strtoul s = n := by
  obtain ⟨spaces, sign, ds, rfl, hspaces, hsign, hds, rfl⟩ := h
  obtain ⟨d, ds, rfl⟩ := List.exists_cons_of_ne_nil hds.1
  have hd := hds.2 d List.mem_cons_self
  have hnumber : leadingNumber 0 (d :: ds) = decimal 0 (d :: ds) :=
    leadingNumber_digits _ hds.2 0
  have htake : (d :: ds).takeWhile isDigit = d :: ds := List.takeWhile_eq_self_iff.mpr hds.2
  have hdrop : (d :: ds).dropWhile isDigit = [] := List.dropWhile_eq_nil_iff.mpr hds.2
  rw [strtoulEnd, strtoul, dropWhile_front hspaces]
  rcases hsign with rfl | rfl | rfl
  · have hspace := digit_isSpace hd
    have hminus : chrIs '-' d = false := digit_chrIs hd (by decide)
    have hplus : chrIs '+' d = false := digit_chrIs hd (by decide)
    simp [hspace, hminus, hplus, htake, hdrop, hnumber, signedValue]
  · have hsign : (plusChr :: d :: ds).dropWhile isSpace = plusChr :: d :: ds := rfl
    have hplus : chrIs '+' plusChr = true := rfl
    have hminus : chrIs '-' plusChr = false := rfl
    have hne : plusChr ≠ dash := by decide
    simp [hsign, hminus, hplus, htake, hdrop, hnumber, signedValue, hne]
  · have hsign : (dash :: d :: ds).dropWhile isSpace = dash :: d :: ds := rfl
    have hminus : chrIs '-' dash = true := rfl
    simp [hsign, hminus, htake, hdrop, hnumber, signedValue]

theorem numeral_of_end {s : CStr} (h : strtoulEnd s = some []) : ∃ n, Numeral s n := by
  have hfront : s = s.takeWhile isSpace ++ s.dropWhile isSpace :=
    List.takeWhile_append_dropWhile.symm
  have hspaces : ∀ c ∈ s.takeWhile isSpace, isSpace c := fun c hc => List.mem_takeWhile_imp hc
  have hdigits : ∀ {ds : CStr}, (if ds.takeWhile isDigit = [] then none
      else some (ds.dropWhile isDigit)) = some [] → Digits ds := by
    intro ds hds
    split_ifs at hds with hnil
    refine ⟨fun h => hnil (by rw [h]; rfl), ?_⟩
    exact List.dropWhile_eq_nil_iff.mp (Option.some.inj hds)
  rw [strtoulEnd] at h
  cases hrest : s.dropWhile isSpace with
  | nil =>
    rw [hrest] at h
    cases h
  | cons c t =>
    rw [hrest] at h hfront
    simp only at h
    by_cases hsign : chrIs '-' c || chrIs '+' c
    · rw [if_pos hsign] at h
      have hds := hdigits h
      rw [Bool.or_eq_true, chrIs_iff (d := dash) rfl, chrIs_iff (d := plusChr) rfl] at hsign
      rcases hsign with rfl | rfl
      · exact ⟨_, _, [dash], t, hfront, hspaces, Or.inr (Or.inr rfl), hds, rfl⟩
      · exact ⟨_, _, [plusChr], t, hfront, hspaces, Or.inr (Or.inl rfl), hds, rfl⟩
    · rw [if_neg hsign] at h
      exact ⟨_, _, [], c :: t, hfront, hspaces, Or.inl rfl, hdigits h, rfl⟩

theorem strtoul_whole (s : CStr) (n : UInt64) :
    strtoulEnd s = some [] ∧ strtoul s = n ↔ Numeral s n := by
  refine ⟨fun h => ?_, fun h => h.read⟩
  obtain ⟨m, hm⟩ := numeral_of_end h.1
  rwa [← h.2, hm.read.2]

def kept (s : CStr) : CStr := s.filter fun c => !isSeparator c

/-- Every separator stands behind a digit, or in front of everything. -/
def Grouped (s : CStr) : Prop :=
  ∀ front c back, s = front ++ c :: back → isSeparator c →
    ∀ d ∈ front.getLast?, isDigit d

/-- The same behind a character that is a digit or is not. -/
def GroupedFrom : Bool → CStr → Prop
  | _, [] => True
  | prev, c :: s => (isSeparator c → prev) ∧ GroupedFrom (isDigit c) s

theorem separator_value {c : Chr} (h : isSeparator c) : c.1.toNat = 44 ∨ c.1.toNat = 95 := by
  simpa [isSeparator, chrIs] using h

theorem separator_not_digit {c : Chr} (h : isSeparator c) : isDigit c = false := by
  have hvalue := separator_value h
  rw [Bool.eq_false_iff]
  intro hdigit
  have hbounds := digit_bounds hdigit
  omega

theorem separator_isSpace {c : Chr} (h : isSeparator c) : isSpace c = false := by
  have hvalue := separator_value h
  have hspace : ' '.toNat = 32 := rfl
  rw [isSpace, chrIs, Bool.or_eq_false_iff, beq_eq_false_iff_ne, decide_eq_false_iff_not]
  omega

theorem groupedFrom_iff (prev : Bool) (s : CStr) : GroupedFrom prev s ↔
    ∀ front c back, s = front ++ c :: back → isSeparator c →
      (front = [] → prev) ∧ ∀ d ∈ front.getLast?, isDigit d := by
  induction s generalizing prev with
  | nil => exact iff_of_true trivial fun front c back h => by cases front <;> cases h
  | cons e s ih =>
    rw [GroupedFrom, ih]
    constructor
    · rintro ⟨hhead, hrest⟩ front c back heq hsep
      cases front with
      | nil =>
        obtain ⟨rfl, -⟩ := List.cons.inj heq
        exact ⟨fun _ => hhead hsep, fun d hd => by cases hd⟩
      | cons e' front =>
        obtain ⟨rfl, rfl⟩ := List.cons.inj heq
        obtain ⟨hfirst, hlast⟩ := hrest front c back rfl hsep
        refine ⟨fun h => (List.cons_ne_nil _ _ h).elim, fun d hd => ?_⟩
        cases front with
        | nil =>
          cases hd
          exact hfirst rfl
        | cons e' front => exact hlast d (by rwa [List.getLast?_cons_cons] at hd)
    · intro h
      refine ⟨fun hsep => (h [] e s rfl hsep).1 rfl, fun front c back heq hsep => ?_⟩
      obtain ⟨-, hlast⟩ := h (e :: front) c back (by rw [heq]; rfl) hsep
      cases front with
      | nil => exact ⟨fun _ => hlast e rfl, fun d hd => by cases hd⟩
      | cons e' front =>
        refine ⟨fun hnil => (List.cons_ne_nil _ _ hnil).elim, fun d hd => hlast d ?_⟩
        rwa [List.getLast?_cons_cons]

theorem grouped_iff (s : CStr) : GroupedFrom true s ↔ Grouped s := by
  rw [groupedFrom_iff]
  exact ⟨fun h front c back heq hsep => (h front c back heq hsep).2,
    fun h front c back heq hsep => ⟨fun _ => rfl, h front c back heq hsep⟩⟩

theorem copyCardinal_iff (prev : Bool) (buf s out : CStr) :
    copyCardinal prev buf s = .ok (some out) ↔
      GroupedFrom prev s ∧ out = buf ++ kept s ∧ out.length < 64 := by
  induction s generalizing prev buf with
  | nil =>
    rw [copyCardinal, put64, kept, List.filter_nil, List.append_nil]
    by_cases hroom : buf.length < 64
    · rw [if_pos hroom, run_ok_bind, Except.ok.injEq, Option.some.injEq]
      exact ⟨fun h => ⟨trivial, h.symm, h ▸ hroom⟩, fun h => h.2.1.symm⟩
    · rw [if_neg hroom]
      refine iff_of_false (fun h => by cases h) fun h => ?_
      rw [h.2.1] at h
      exact hroom h.2.2
  | cons c s ih =>
    rw [copyCardinal, GroupedFrom]
    by_cases hsep : isSeparator c
    · have hkept : kept (c :: s) = kept s := by
        rw [kept, List.filter_cons_of_neg (by simp [hsep]), kept]
      rw [if_pos hsep, hkept, separator_not_digit hsep]
      cases prev with
      | true =>
        rw [if_pos rfl, ih]
        simp [hsep]
      | false =>
        rw [if_neg Bool.false_ne_true]
        refine iff_of_false (fun h => by cases h) fun h => ?_
        exact Bool.false_ne_true (h.1.1 hsep)
    · have hkept : kept (c :: s) = c :: kept s := by
        rw [kept, List.filter_cons_of_pos (by simpa using hsep), kept]
      rw [if_neg hsep, hkept, put64]
      by_cases hroom : buf.length < 64
      · rw [if_pos hroom, run_ok_bind, ih]
        simp [hsep]
      · rw [if_neg hroom]
        refine iff_of_false (fun h => by cases h) fun h => ?_
        obtain ⟨-, rfl, hlen⟩ := h
        rw [List.length_append] at hlen
        omega

theorem parseCardinal_iff (str : CStr) (n : UInt64) :
    parseCardinal str = .ok ⟨0, some n, []⟩ ↔
      Grouped (str.dropWhile isSpace) ∧ (kept (str.dropWhile isSpace)).length < 64 ∧
        Numeral (kept (str.dropWhile isSpace)) n := by
  generalize hs : str.dropWhile isSpace = s
  have hcopy := copyCardinal_iff true [] s (kept s)
  rw [grouped_iff, List.nil_append] at hcopy
  rw [parseCardinal, hs]
  constructor
  · intro h
    obtain ⟨buf, hbuf, hret⟩ := run_bind_ok h
    cases buf with
    | none => cases hret
    | some buf =>
      obtain ⟨hgrouped, rfl, hlen⟩ := (copyCardinal_iff true [] s buf).mp hbuf
      rw [List.nil_append] at hret hlen
      simp only at hret
      split_ifs at hret with hend
      · obtain rfl : strtoul (kept s) = n := by
          simpa using hret
        exact ⟨(grouped_iff s).mp hgrouped, hlen, (strtoul_whole _ _).mp ⟨hend, rfl⟩⟩
      · cases hret
  · rintro ⟨hgrouped, hlen, hnumeral⟩
    obtain ⟨hend, hvalue⟩ := hnumeral.read
    rw [hcopy.mpr ⟨hgrouped, rfl, hlen⟩, run_ok_bind]
    simp only [if_pos hend, hvalue]

theorem length_formatZu {n : ℕ} (hn : n < sizeMod) : (formatZu n).length ≤ 20 := by
  refine le_trans (List.length_filterMap_le _ _) (Nat.toDigits_length 10 n 20 (by decide) ?_)
  have hbound : sizeMod ≤ 10 ^ 20 := by decide
  exact lt_of_lt_of_le hn hbound

theorem numeral_formatZu {n : ℕ} (hn : n < sizeMod) : Numeral (formatZu n) (UInt64.ofNat n) := by
  refine ⟨[], [], formatZu n, rfl, fun _ hc => absurd hc List.not_mem_nil, Or.inl rfl,
    ⟨fun hnil => ?_, formatZu_digits n⟩, ?_⟩
  · have hzero : decimal 0 (formatZu n) = 0 := by rw [hnil]; rfl
    rw [decimal_formatZu] at hzero
    rw [hzero] at hnil
    exact absurd hnil (by decide)
  · rw [decimal_formatZu, signedValue, if_neg (not_le.mpr hn)]
    rfl

/-- What is accepted, and that a number is read back however its digits are grouped. -/
theorem parse_cardinal_reads (str : CStr) :
    (∀ n, parseCardinal str = .ok ⟨0, some n, []⟩ ↔
      Grouped (str.dropWhile isSpace) ∧ (kept (str.dropWhile isSpace)).length < 64 ∧
        Numeral (kept (str.dropWhile isSpace)) n) ∧
    ∀ n < sizeMod, kept str = formatZu n → Grouped str →
      parseCardinal str = .ok ⟨0, some (UInt64.ofNat n), []⟩ := by
  refine ⟨parseCardinal_iff str, fun n hn hkept hgrouped => ?_⟩
  have hspace : str.dropWhile isSpace = str := by
    cases str with
    | nil => rfl
    | cons c s =>
      refine List.dropWhile_cons_of_neg (fun hspace => ?_)
      by_cases hsep : isSeparator c
      · exact absurd hspace (by simp [separator_isSpace hsep])
      · have hmem : c ∈ formatZu n := by
          rw [← hkept, kept, List.mem_filter]
          exact ⟨List.mem_cons_self, by simpa using hsep⟩
        rw [digit_isSpace (formatZu_digits n c hmem)] at hspace
        exact Bool.false_ne_true hspace
  rw [parseCardinal_iff, hspace, hkept]
  exact ⟨hgrouped, lt_of_le_of_lt (length_formatZu hn) (by decide), numeral_formatZu hn⟩

end IsbnHyphenate
