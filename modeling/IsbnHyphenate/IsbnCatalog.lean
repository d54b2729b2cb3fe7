import IsbnHyphenate.IsbnTable
import IsbnHyphenate.FstPrefix
import IsbnHyphenate.Library.Slices

/-!
# What the builder is for

A catalog is a list of prefixes, each with the rules that belong to it, and the
rules read since the last prefix was stored. The table of `isbn_info` refines
it: `add_rule` and `add_prefix` do to the vectors, the counters and the
transducer what the operations below do to the lists.
-/

namespace IsbnHyphenate
open Slices

structure Entry where
  pfx : CStr
  agency : CStr
  rules : List IsbnRange
  deriving DecidableEq, Repr

structure Catalog where
  entries : List Entry
  pending : List IsbnRange
  deriving DecidableEq, Repr

def Numeric (pfx : CStr) : Prop := ∀ c ∈ pfx, isDigit c ∨ chrIs '-' c

instance (pfx : CStr) : Decidable (Numeric pfx) :=
  inferInstanceAs (Decidable (∀ c ∈ pfx, isDigit c ∨ chrIs '-' c))

def digitsOf (pfx : CStr) : CStr := pfx.filter isDigit

@[simp] theorem numeric_nil : Numeric [] := by simp [Numeric]

@[simp] theorem numeric_cons (c : Chr) (pfx : CStr) :
    Numeric (c :: pfx) ↔ (isDigit c ∨ chrIs '-' c) ∧ Numeric pfx := by simp [Numeric]

@[simp] theorem digitsOf_nil : digitsOf [] = [] := rfl

@[simp] theorem digitsOf_cons (c : Chr) (pfx : CStr) :
    digitsOf (c :: pfx) = if isDigit c then c :: digitsOf pfx else digitsOf pfx := by
  simp [digitsOf, List.filter_cons]

namespace Catalog

def empty : Catalog := ⟨[], []⟩

def addRule (cat : Catalog) (r : IsbnRange) : Catalog := { cat with pending := cat.pending ++ [r] }

def addPrefix (cat : Catalog) (pfx agency : CStr) : Catalog :=
  if Numeric pfx then ⟨cat.entries ++ [⟨digitsOf pfx, agency, cat.pending⟩], []⟩ else cat

def prefixRc (cat : Catalog) (pfx : CStr) : ℕ :=
  if Numeric pfx then
    if digitsOf pfx ∈ cat.entries.map Entry.pfx then EEXIST else 0
  else 2

def rules (cat : Catalog) : List IsbnRange := cat.entries.flatMap Entry.rules ++ cat.pending

def settled (cat : Catalog) : ℕ := (cat.entries.map fun e => e.rules.length).sum

def keyed (cat : Catalog) : List (CStr × ℕ) := cat.entries.zipIdx.map fun p => (p.1.pfx, p.2)

theorem length_rules (cat : Catalog) : cat.rules.length = cat.settled + cat.pending.length := by
  rw [rules, List.length_append, List.length_flatMap]
  rfl

theorem keyed_addPrefix {cat : Catalog} {pfx : CStr} (h : Numeric pfx) (agency : CStr) :
    (cat.addPrefix pfx agency).keyed = cat.keyed ++ [(digitsOf pfx, cat.entries.length)] := by
  simp [keyed, addPrefix, h, List.zipIdx_append]

theorem keyed_keys (cat : Catalog) : cat.keyed.map Prod.fst = cat.entries.map Entry.pfx := by
  rw [keyed, List.map_map, ← congrArg (List.map Entry.pfx) (List.zipIdx_map_fst 0 cat.entries),
    List.map_map]
  rfl

theorem entry_of_stored {cat : Catalog} {p : CStr} {v : ℕ} (h : stored cat.keyed p = some v) :
    ∃ e, cat.entries[v]? = some e ∧ e.pfx = p := by
  obtain ⟨q, hq, rfl⟩ := Option.map_eq_some_iff.mp h
  have hp : q.1 = p := by simpa using List.find?_some hq
  obtain ⟨⟨e, i⟩, hmem, rfl⟩ := List.mem_map.mp (List.mem_of_find?_eq_some hq)
  exact ⟨e, by simpa using List.mem_zipIdx_iff_getElem?.mp hmem, hp⟩

end Catalog

theorem copyNumeric_ok {pfx : CStr} :
    ∀ {buf : CStr} {r : Option CStr}, copyNumeric buf pfx = .ok r →
    r = if Numeric pfx then some (buf ++ digitsOf pfx) else none := by
  induction pfx with
  | nil =>
    intro buf r h
    obtain ⟨-, -, h⟩ := run_bind_ok h
    cases h
    simp
  | cons c pfx ih =>
    intro buf r h
    rw [copyNumeric] at h
    by_cases hd : isDigit c
    · rw [if_pos hd] at h
      obtain ⟨-, -, h⟩ := run_bind_ok h
      rw [ih h]
      simp [hd]
    · by_cases hh : chrIs '-' c
      · rw [if_neg hd, hh, Bool.not_true, if_neg Bool.false_ne_true] at h
        rw [ih h]
        simp [hd, hh]
      · rw [if_neg hd, if_pos (by simpa using hh)] at h
        cases h
        simp [hd, hh]

theorem copyNumeric_fits {pfx p : CStr} : ∀ {buf : CStr}, copyNumeric buf pfx = .ok (some p) →
    p.length < 16 := by
  induction pfx with
  | nil =>
    intro buf h
    obtain ⟨_, hput, h⟩ := run_bind_ok h
    cases h
    by_contra hge
    simp [put16, hge] at hput
  | cons c pfx ih =>
    intro buf h
    rw [copyNumeric] at h
    split_ifs at h
    · obtain ⟨-, -, h⟩ := run_bind_ok h
      exact ih h
    · cases h
    · exact ih h

theorem copyNumeric_returns {pfx : CStr} : ∀ {buf : CStr},
    buf.length + (digitsOf pfx).length < 16 → ∃ r, copyNumeric buf pfx = .ok r := by
  induction pfx with
  | nil =>
    intro buf h
    rw [copyNumeric, put16, if_pos (by simpa using h)]
    exact ⟨_, rfl⟩
  | cons c pfx ih =>
    intro buf h
    rw [copyNumeric]
    by_cases hd : isDigit c
    · rw [digitsOf_cons, if_pos hd, List.length_cons] at h
      rw [if_pos hd, put16, if_pos (by omega)]
      exact ih (by rw [List.length_append, List.length_singleton]; omega)
    · rw [if_neg hd]
      split_ifs
      · exact ⟨_, rfl⟩
      · exact ih (by simpa [hd] using h)

/-- The entry spans these rules, which start at this index; with no rules the
index may be `UNDEF_INDEX`. -/
def Spans (row : IsbnPrefix) (start : ℕ) (rules : List IsbnRange) : Prop :=
  row.nrules = rules.length ∧ (row.ruleIdx = some start ∨ row.ruleIdx = none ∧ rules = [])

def Row (row : IsbnPrefix) (p : ℕ × Entry) : Prop :=
  row.pfx = some p.2.pfx ∧ row.agency = some p.2.agency ∧ Spans row p.1 p.2.rules

structure Refines (isbn : IsbnInfo) (cat : Catalog) : Prop where
  prefixes : ∃ rows, isbn.prefixVec.Is rows ∧
    List.Forall₂ Row rows (located (fun e => e.rules.length) 0 cat.entries)
  ranges : isbn.rangesVec.Is cat.rules
  pending : Spans isbn.newPrefix cat.settled cat.pending
  dict : ∃ label, Built isbn.fst label cat.keyed
  curValue : isbn.curValue = cat.entries.length
  prefixNr : isbn.prefixNr = cat.entries.length
  prefixLen : isbn.prefixVec.len = cat.entries.length
  ruleNr : isbn.ruleNr = cat.rules.length
  rangesLen : isbn.rangesVec.len = cat.rules.length
  short : ∀ e ∈ cat.entries, e.pfx.length < 16

theorem newIsbnInfo_refines : ∃ isbn, newIsbnInfo = .ok isbn ∧ Refines isbn Catalog.empty := by
  obtain ⟨fst, hok, hb⟩ := fstNew_built
  refine ⟨_, by rw [newIsbnInfo, hok]; rfl, ⟨⟨[], Vec.is_new, .nil⟩, Vec.is_new, ⟨rfl, Or.inl rfl⟩,
    ⟨_, hb⟩, rfl, rfl, rfl, rfl, rfl, by simp [Catalog.empty]⟩⟩

theorem Spans.countRule {row : IsbnPrefix} {start : ℕ} {rules : List IsbnRange}
    (h : Spans row start rules) (r : IsbnRange) :
    Spans (countRule row (start + rules.length)) start (rules ++ [r]) := by
  obtain ⟨hn, hi | ⟨hi, rfl⟩⟩ := h
  · rw [IsbnHyphenate.countRule, if_neg (by simp [hi])]
    exact ⟨by simp [hn], Or.inl hi⟩
  · rw [IsbnHyphenate.countRule, if_pos hi]
    exact ⟨rfl, Or.inl rfl⟩

variable {isbn : IsbnInfo} {cat : Catalog}

theorem Refines.addRule (h : Refines isbn cat) (r : IsbnRange) :
    ∃ isbn', IsbnHyphenate.addRule isbn r.rngLen r.rngLbound r.rngUbound = .ok (0, isbn') ∧
      Refines isbn' (cat.addRule r) ∧ isbn'.curPrefix = isbn.curPrefix := by
  obtain ⟨room, ranges, hroom, hwrite, his, -, hlen⟩ := h.ranges.push r
  have hrules : (cat.addRule r).rules = cat.rules ++ [r] := by
    simp [Catalog.rules, Catalog.addRule]
  have hrun : IsbnHyphenate.addRule isbn r.rngLen r.rngLbound r.rngUbound = .ok (0, { isbn with
      rangesVec := { ranges with len := ranges.len + 1 }
      newPrefix := countRule isbn.newPrefix isbn.ruleNr
      ruleNr := isbn.ruleNr + 1 }) := by
    rw [IsbnHyphenate.addRule, h.ruleNr, hroom, run_ok_bind, hwrite]
    rfl
  refine ⟨_, hrun,
    ⟨h.prefixes, ?_, ?_, h.dict, h.curValue, h.prefixNr, h.prefixLen, ?_, ?_, h.short⟩, rfl⟩
  · rw [hrules]
    exact his.setLen _
  · have hc := h.pending.countRule r
    rw [← cat.length_rules, ← h.ruleNr] at hc
    exact hc
  · simp [hrules, h.ruleNr]
  · simp [hrules, hlen, h.rangesLen]

theorem Refines.addPrefix (h : Refines isbn cat) {pfx : CStr} {r : Option CStr}
    (hr : copyNumeric [] pfx = .ok r) (agency : CStr) :
    ∃ isbn', IsbnHyphenate.addPrefix isbn pfx agency = .ok (cat.prefixRc pfx, isbn') ∧
      Refines isbn' (cat.addPrefix pfx agency) := by
  obtain ⟨rows, hrows, hall⟩ := h.prefixes
  have hnr : isbn.prefixNr = rows.length := by
    rw [hall.length_eq, length_located, h.prefixNr]
  by_cases hn : Numeric pfx
  · obtain rfl : r = some (digitsOf pfx) := by simpa [hn] using copyNumeric_ok hr
    obtain ⟨room, pfxtbl, hroom, hwrite, his, -, hlen⟩ := hrows.push
      { isbn.newPrefix with pfx := some (digitsOf pfx), agency := some agency }
    obtain ⟨label, hb⟩ := h.dict
    obtain ⟨fst', label', hadd, hb'⟩ := hb.add (digitsOf pfx) isbn.curValue
    have hrc : (if digitsOf pfx ∈ cat.keyed.map Prod.fst then EEXIST else 0) =
        cat.prefixRc pfx := by
      rw [Catalog.prefixRc, if_pos hn, cat.keyed_keys]
    rw [hrc] at hadd
    have hcat : cat.addPrefix pfx agency =
        ⟨cat.entries ++ [⟨digitsOf pfx, agency, cat.pending⟩], []⟩ := if_pos hn
    have hrules : (cat.addPrefix pfx agency).rules = cat.rules := by
      simp [hcat, Catalog.rules]
    have hrun : IsbnHyphenate.addPrefix isbn pfx agency = .ok (cat.prefixRc pfx, { isbn with
        prefixVec := { pfxtbl with len := pfxtbl.len + 1 }
        newPrefix := ⟨some (digitsOf pfx), some agency, none, 0⟩
        fst := fst'
        curValue := isbn.curValue + 1
        prefixNr := isbn.prefixNr + 1 }) := by
      rw [IsbnHyphenate.addPrefix, hnr, hroom, run_ok_bind, hr, run_ok_bind]
      dsimp only
      rw [hwrite, run_ok_bind, hadd]
      rfl
    refine ⟨_, hrun, ⟨⟨_, his.setLen _, ?_⟩, ?_,
      ⟨by rw [hcat]; rfl, Or.inr ⟨rfl, by rw [hcat]⟩⟩, ⟨label', ?_⟩, ?_, ?_, ?_, ?_, ?_, ?_⟩⟩
    · rw [hcat, located_snoc, Nat.zero_add]
      exact List.rel_append hall (.cons ⟨rfl, rfl, h.pending⟩ .nil)
    · rw [hrules]
      exact h.ranges
    · rw [Catalog.keyed_addPrefix hn, ← h.curValue]
      exact hb'
    · simp [hcat, h.curValue]
    · simp [hcat, h.prefixNr]
    · simp [hcat, hlen, h.prefixLen]
    · rw [hrules]
      exact h.ruleNr
    · rw [hrules]
      exact h.rangesLen
    · intro e he
      rw [hcat] at he
      rcases List.mem_append.mp he with he | he
      · exact h.short e he
      · rw [List.mem_singleton.mp he]
        exact copyNumeric_fits hr
  · obtain rfl : r = none := by simpa [hn] using copyNumeric_ok hr
    obtain ⟨room, hroom, his, hlen⟩ := hrows.makeRoom
    have hrun : IsbnHyphenate.addPrefix isbn pfx agency =
        .ok (cat.prefixRc pfx, { isbn with prefixVec := room }) := by
      rw [IsbnHyphenate.addPrefix, hnr, hroom, run_ok_bind, hr, run_ok_bind, Catalog.prefixRc,
        if_neg hn]
    have hcat : cat.addPrefix pfx agency = cat := if_neg hn
    rw [hcat]
    exact ⟨_, hrun, ⟨⟨rows, his, hall⟩, h.ranges, h.pending, h.dict, h.curValue, h.prefixNr,
      hlen.trans h.prefixLen, h.ruleNr, h.rangesLen, h.short⟩⟩

theorem Refines.entry (h : Refines isbn cat) {k : ℕ} {e : Entry} (he : cat.entries[k]? = some e) :
    ∃ row start, isbn.prefixVec.read k = some row ∧ Row row (start, e) ∧
      start + e.rules.length ≤ isbn.ruleNr ∧
      ∀ i < e.rules.length, isbn.rangesVec.read (start + i) = e.rules[i]? := by
  obtain ⟨rows, hrows, hall⟩ := h.prefixes
  obtain ⟨hlen, hget⟩ := List.forall₂_iff_get.mp hall
  obtain ⟨start, hloc⟩ : ∃ start, (located (fun e : Entry => e.rules.length) 0
      cat.entries)[k]? = some (start, e) := ⟨_, by rw [getElem?_located, he]; rfl⟩
  obtain ⟨hk, hloc⟩ := List.getElem?_eq_some_iff.mp hloc
  have hkr : k < rows.length := hlen ▸ hk
  have hrow := hget k hkr hk
  rw [List.get_eq_getElem, List.get_eq_getElem, hloc] at hrow
  have hmem : (start, e) ∈ located (fun e : Entry => e.rules.length) 0 cat.entries :=
    hloc ▸ List.getElem_mem hk
  have hend : start + e.rules.length ≤ cat.settled := by
    simpa only [Nat.zero_add, Catalog.settled] using le_of_mem_located hmem
  have hrn := h.ruleNr.trans cat.length_rules
  refine ⟨rows[k], start, ?_, hrow, by omega, fun i hi => ?_⟩
  · exact hrows.read_eq (List.getElem?_eq_getElem hkr)
  · rw [h.ranges.2 _ (by rw [cat.length_rules]; omega)]
    exact getElem?_flatMap_located hmem hi

end IsbnHyphenate
