import IsbnHyphenate.IsbnCatalog

/-!
# The table invariant

Every sequence of `add_rule` and `add_prefix` calls, failed ones included,
leaves a table that refines the catalog built by the same calls. The counters,
the slices of the rule table and the values in the transducer follow from that.
-/

namespace IsbnHyphenate
open Slices

structure PrefixText where
  text : CStr
  fits : (digitsOf text).length ≤ 15

inductive BuildOp where
  | rule (r : IsbnRange)
  | pfx (text : PrefixText) (agency : CStr)

def BuildOp.apply (isbn : IsbnInfo) : BuildOp → Run (ℕ × IsbnInfo)
  | .rule r => addRule isbn r.rngLen r.rngLbound r.rngUbound
  | .pfx p agency => addPrefix isbn p.text agency

def Catalog.apply (cat : Catalog) : BuildOp → Catalog
  | .rule r => cat.addRule r
  | .pfx p agency => cat.addPrefix p.text agency

def runOps : IsbnInfo → List BuildOp → Run IsbnInfo
  | isbn, [] => .ok isbn
  | isbn, op :: ops => do
    let (_, isbn) ← op.apply isbn
    runOps isbn ops

def buildTable (ops : List BuildOp) : Run IsbnInfo := do
  let isbn ← newIsbnInfo
  runOps isbn ops

def catalogOf (ops : List BuildOp) : Catalog := ops.foldl Catalog.apply Catalog.empty

variable {isbn : IsbnInfo} {cat : Catalog}

theorem apply_refines (h : Refines isbn cat) (op : BuildOp) :
    ∃ rc isbn', op.apply isbn = .ok (rc, isbn') ∧ Refines isbn' (cat.apply op) := by
  cases op with
  | rule r =>
    obtain ⟨isbn', hok, h', -⟩ := h.addRule r
    exact ⟨0, isbn', hok, h'⟩
  | pfx p agency =>
    have hfits := p.fits
    obtain ⟨r, hr⟩ : ∃ r, copyNumeric [] p.text = .ok r :=
      copyNumeric_returns (by rw [List.length_nil]; omega)
    obtain ⟨isbn', hok, h'⟩ := h.addPrefix hr agency
    exact ⟨_, isbn', hok, h'⟩

theorem runOps_refines (ops : List BuildOp) {isbn : IsbnInfo} {cat : Catalog}
    (h : Refines isbn cat) :
    ∃ isbn', runOps isbn ops = .ok isbn' ∧ Refines isbn' (ops.foldl Catalog.apply cat) := by
  induction ops generalizing isbn cat with
  | nil => exact ⟨isbn, rfl, h⟩
  | cons op ops ih =>
    obtain ⟨rc, isbn₁, hop, h₁⟩ := apply_refines h op
    obtain ⟨isbn', hrun, h'⟩ := ih h₁
    exact ⟨isbn', by rw [runOps, hop, run_ok_bind]; exact hrun, h'⟩

theorem buildTable_refines (ops : List BuildOp) :
    ∃ isbn, buildTable ops = .ok isbn ∧ Refines isbn (catalogOf ops) := by
  obtain ⟨isbn₀, hnew, h₀⟩ := newIsbnInfo_refines
  obtain ⟨isbn, hrun, h⟩ := runOps_refines ops h₀
  exact ⟨isbn, by rw [buildTable, hnew, run_ok_bind, hrun], h⟩

def IsbnInfo.rows (isbn : IsbnInfo) : List IsbnPrefix :=
  (List.range isbn.prefixNr).filterMap isbn.prefixVec.read

/-- Where the rules of the stored entries lie, and then those of the entry that
is being built. Entries without rules have no slice. -/
def IsbnInfo.slices (isbn : IsbnInfo) : List (Option ℕ × ℕ) :=
  ((isbn.rows ++ [isbn.newPrefix]).filter fun row => 0 < row.nrules).map
    fun row => (row.ruleIdx, row.nrules)

theorem Spans.slice {row : IsbnPrefix} {start : ℕ} {rules : List IsbnRange}
    (h : Spans row start rules) :
    ([row].filter fun row => 0 < row.nrules).map (fun row => (row.ruleIdx, row.nrules)) =
      ([(start, rules.length)].filter fun s => 0 < s.2).map fun s => (some s.1, s.2) := by
  obtain ⟨hn, hi | ⟨-, rfl⟩⟩ := h
  · by_cases h0 : 0 < rules.length
    · simp [hn, hi, h0]
    · simp [hn, h0]
  · simp [hn]

theorem rows_slices {rows : List IsbnPrefix} {locs : List (ℕ × Entry)}
    (h : List.Forall₂ Row rows locs) :
    (rows.filter fun row => 0 < row.nrules).map (fun row => (row.ruleIdx, row.nrules)) =
      ((locs.map fun p => (p.1, p.2.rules.length)).filter fun s => 0 < s.2).map
        fun s => (some s.1, s.2) := by
  induction h with
  | nil => rfl
  | cons hrow hall ih =>
    rename_i row p rows locs
    rw [← List.singleton_append, List.filter_append, List.map_append, hrow.2.2.slice, ih,
      ← List.map_append, ← List.filter_append, List.singleton_append, List.map_cons]

theorem Refines.rows (h : Refines isbn cat) : isbn.prefixVec.Is isbn.rows ∧
    List.Forall₂ Row isbn.rows (located (fun e => e.rules.length) 0 cat.entries) := by
  obtain ⟨rows, hrows, hall⟩ := h.prefixes
  have hlen : isbn.prefixNr = rows.length := by
    rw [hall.length_eq, length_located, h.prefixNr]
  have heq : isbn.rows = rows := by
    rw [IsbnInfo.rows, hlen, hrows.read_range]
  rw [heq]
  exact ⟨hrows, hall⟩

theorem Refines.tiles (h : Refines isbn cat) :
    ∃ slices, isbn.slices = slices.map (fun s => (some s.1, s.2)) ∧
      Tiles 0 slices isbn.ruleNr := by
  have htiles := (tiles_located (w := fun e : Entry => e.rules.length) 0 cat.entries).snoc
    cat.pending.length
  rw [Nat.zero_add] at htiles
  have hnr : isbn.ruleNr = cat.settled + cat.pending.length := h.ruleNr.trans cat.length_rules
  refine ⟨_, ?_, hnr ▸ htiles.filter⟩
  rw [IsbnInfo.slices, List.filter_append, List.map_append, rows_slices h.rows.2,
    h.pending.slice, ← List.map_append, ← List.filter_append]
  rfl

theorem Refines.lookup_inside (h : Refines isbn cat) (hne : 0 < isbn.prefixNr) {s : CStr} {v : ℕ}
    (hv : fstLookupPrefix isbn.fst.view s = .ok ⟨0, some v⟩) :
    v < isbn.prefixNr ∧ ∃ row p, isbn.prefixVec.read v = some row ∧ row.pfx = some p ∧ p <+: s ∧
      ∀ i < row.nrules, ∃ start, row.ruleIdx = some start ∧ start + i < isbn.ruleNr ∧
        isbn.rangesVec.read (start + i) ≠ none := by
  obtain ⟨label, hb⟩ := h.dict
  have hkeyed : cat.keyed ≠ [] := by
    intro hnil
    have := congrArg (List.length ∘ List.map Prod.fst) hnil
    simp only [Function.comp_apply, Catalog.keyed_keys, List.length_map, List.map_nil,
      List.length_nil] at this
    rw [h.prefixNr] at hne
    omega
  obtain ⟨p, hlong, -, hp⟩ := hb.lookupPrefix_inv hkeyed hv
  obtain ⟨e, he, rfl⟩ := Catalog.entry_of_stored hp
  obtain ⟨row, start, hread, ⟨hpfx, -, hn, hidx⟩, hend, hcells⟩ := h.entry he
  have hlt : v < cat.entries.length := (List.getElem?_eq_some_iff.mp he).1
  refine ⟨h.prefixNr ▸ hlt, row, e.pfx, hread, hpfx, hlong.2.1, fun i hi => ?_⟩
  have hi' : i < e.rules.length := hn ▸ hi
  rcases hidx with hidx | ⟨-, hnil⟩
  · refine ⟨start, hidx, by omega, ?_⟩
    rw [hcells i hi', List.getElem?_eq_getElem hi']
    exact Option.some_ne_none _
  · have hnil' : e.rules = [] := hnil
    rw [hnil'] at hi'
    exact absurd hi' (Nat.not_lt_zero i)

theorem table_invariant (ops : List BuildOp) :
    ∃ isbn, buildTable ops = .ok isbn ∧
      (isbn.curValue = isbn.prefixNr ∧ isbn.prefixNr = isbn.prefixVec.len ∧
        isbn.ruleNr = isbn.rangesVec.len) ∧
      (∃ slices, isbn.slices = slices.map (fun s => (some s.1, s.2)) ∧
        Tiles 0 slices isbn.ruleNr ∧
        slices.Pairwise (fun s t => ∀ i, ¬ (Covers s i ∧ Covers t i)) ∧
        ∀ i, (∃ s ∈ slices, Covers s i) ↔ i < isbn.ruleNr) ∧
      (0 < isbn.prefixNr → ∀ s v, fstLookupPrefix isbn.fst.view s = .ok ⟨0, some v⟩ →
        v < isbn.prefixNr ∧ ∃ row p, isbn.prefixVec.read v = some row ∧ row.pfx = some p ∧
          p <+: s ∧ ∀ i < row.nrules, ∃ start, row.ruleIdx = some start ∧
            start + i < isbn.ruleNr ∧ isbn.rangesVec.read (start + i) ≠ none) := by
  obtain ⟨isbn, hok, h⟩ := buildTable_refines ops
  obtain ⟨slices, hslices, htiles⟩ := h.tiles
  refine ⟨isbn, hok, ⟨?_, ?_, ?_⟩, ⟨slices, hslices, htiles, htiles.disjoint, fun i => ?_⟩,
    fun hne s v hv => h.lookup_inside hne hv⟩
  · rw [h.curValue, h.prefixNr]
  · rw [h.prefixNr, h.prefixLen]
  · rw [h.ruleNr, h.rangesLen]
  · rw [htiles.covers i]
    omega

end IsbnHyphenate
