import IsbnHyphenate.HyphenateFields

/-!
# Tables of registration groups

A range table as the agency publishes it: prefixes of which none starts another
one, each with rules that do not overlap. For such a table the rule that should
place the hyphens is the one for the digits behind the prefix; the code looks
up the digits from position 4 on. Both are the same for groups of one digit.
-/

namespace IsbnHyphenate

structure GroupSpec where
  text : CStr
  agency : CStr
  rules : List IsbnRange
  numeric : Numeric text
  digits : 4 ≤ (digitsOf text).length ∧ (digitsOf text).length ≤ 8
  lengths : ∀ r ∈ rules, r.rngLen.toNat ≤ 7 ∧ (digitsOf text).length - 3 + r.rngLen.toNat ≤ 8
  bounds : ∀ r ∈ rules, r.rngLbound.toNat < 10 ^ 7 ∧ r.rngUbound.toNat < 10 ^ 7
  disjoint : rules.Pairwise fun r r' => ∀ n, ¬ (r.Contains n ∧ r'.Contains n)

namespace GroupSpec

def key (g : GroupSpec) : CStr := digitsOf g.text

def entry (g : GroupSpec) : Entry := ⟨g.key, g.agency, g.rules⟩

def ops (g : GroupSpec) : List BuildOp :=
  g.rules.map .rule ++ [.pfx ⟨g.text, g.digits.2.trans (by decide)⟩ g.agency]

def lengthFor (g : GroupSpec) (n : UInt32) : ℕ :=
  ((g.entry.ruleFor n).map fun r => r.rngLen.toNat).getD 0

theorem ruleFor_eq (g : GroupSpec) {n : UInt32} {r : IsbnRange} (hr : r ∈ g.rules)
    (hn : r.Contains n) : g.entry.ruleFor n = some r := by
  have hdis := g.disjoint
  rw [Entry.ruleFor, show g.entry.rules = g.rules from rfl]
  generalize g.rules = rules at hr hdis
  induction rules with
  | nil => exact absurd hr List.not_mem_nil
  | cons r' rules ih =>
    have hhead := (List.pairwise_cons.mp hdis).1
    by_cases hc : r'.Contains n
    · rcases List.mem_cons.mp hr with rfl | hmem
      · rw [List.find?_cons_of_pos (by simpa using hn)]
      · exact absurd ⟨hc, hn⟩ (hhead r hmem n)
    · rw [List.find?_cons_of_neg (by simpa using hc)]
      rcases List.mem_cons.mp hr with rfl | hmem
      · exact absurd hn hc
      · exact ih hmem (List.pairwise_cons.mp hdis).2

theorem ruleFor_some (g : GroupSpec) {n : UInt32} {r : IsbnRange}
    (h : g.entry.ruleFor n = some r) : r ∈ g.rules ∧ r.Contains n :=
  ⟨List.mem_of_find?_eq_some h, by simpa using List.find?_some h⟩

end GroupSpec

structure TableSpec where
  groups : List GroupSpec
  free : (groups.map GroupSpec.key).Pairwise Apart

namespace TableSpec

def ops (spec : TableSpec) : List BuildOp := spec.groups.flatMap GroupSpec.ops

theorem foldl_rules (rules : List IsbnRange) (cat : Catalog) :
    (rules.map BuildOp.rule).foldl Catalog.apply cat =
      { cat with pending := cat.pending ++ rules } := by
  induction rules generalizing cat with
  | nil => simp
  | cons r rules ih =>
    rw [List.map_cons, List.foldl_cons, ih]
    simp [Catalog.apply, Catalog.addRule]

theorem foldl_groups (groups : List GroupSpec) (entries : List Entry) :
    (groups.flatMap GroupSpec.ops).foldl Catalog.apply ⟨entries, []⟩ =
      ⟨entries ++ groups.map GroupSpec.entry, []⟩ := by
  induction groups generalizing entries with
  | nil => simp
  | cons g groups ih =>
    have hgroup : g.ops.foldl Catalog.apply ⟨entries, []⟩ = ⟨entries ++ [g.entry], []⟩ := by
      rw [GroupSpec.ops, List.foldl_append, foldl_rules]
      simp [Catalog.apply, Catalog.addPrefix, g.numeric, GroupSpec.entry, GroupSpec.key]
    rw [List.flatMap_cons, List.foldl_append, hgroup, ih]
    simp

theorem catalog_eq (spec : TableSpec) :
    catalogOf spec.ops = ⟨spec.groups.map GroupSpec.entry, []⟩ := by
  have hfold := foldl_groups spec.groups []
  rwa [List.nil_append] at hfold

theorem entries_eq (spec : TableSpec) :
    (catalogOf spec.ops).entries.map Entry.pfx = spec.groups.map GroupSpec.key := by
  rw [catalog_eq, List.map_map]
  rfl

theorem eq_of_prefixes (spec : TableSpec) {s : CStr} {g g' : GroupSpec} (hg : g ∈ spec.groups)
    (hg' : g' ∈ spec.groups) (hs : g.key <+: s) (hs' : g'.key <+: s) : g = g' := by
  by_contra hne
  have hsymm : Std.Symm fun g g' : GroupSpec => Apart g.key g'.key := ⟨fun _ _ h => ⟨h.2, h.1⟩⟩
  have hapart := (List.pairwise_map.mp spec.free).forall hg hg' hne
  rcases List.prefix_or_prefix_of_prefix hs hs' with hp | hp
  · exact hapart.1 hp
  · exact hapart.2 hp

theorem matched_of_group (spec : TableSpec) {s : CStr} {g : GroupSpec} (hg : g ∈ spec.groups)
    (hs : g.key <+: s) : Matched (catalogOf spec.ops) s g.entry := by
  have hkey : g.key ∈ spec.groups.map GroupSpec.key := List.mem_map_of_mem hg
  have hlong := longestPrefix_findable spec.free hkey hs
  rw [← spec.entries_eq] at hlong
  refine ⟨hlong.1, hlong.2, ?_⟩
  have hentry : g.entry ∈ (catalogOf spec.ops).entries := by
    rw [catalog_eq]
    exact List.mem_map_of_mem hg
  cases hfind : (catalogOf spec.ops).entries.find? fun e' => e'.pfx = g.entry.pfx with
  | none => exact absurd (List.find?_eq_none.mp hfind g.entry hentry) (by simp)
  | some e =>
    have hmem := List.mem_of_find?_eq_some hfind
    rw [catalog_eq] at hmem
    rcases List.mem_map.mp hmem with ⟨g', hg', rfl⟩
    have hpfx : g'.entry.pfx = g.entry.pfx := by simpa using List.find?_some hfind
    have hkey' : g'.key = g.key := hpfx
    rw [spec.eq_of_prefixes hg hg' hs (hkey' ▸ hs)]

theorem matched_group (spec : TableSpec) {s : CStr} {e : Entry}
    (h : Matched (catalogOf spec.ops) s e) : ∃ g ∈ spec.groups, g.key <+: s := by
  have hmem := h.longest.1
  rw [spec.entries_eq] at hmem
  rcases List.mem_map.mp hmem with ⟨g, hg, hkey⟩
  exact ⟨g, hg, hkey ▸ h.longest.2.1⟩

end TableSpec

def Expected (spec : TableSpec) (s : CStr) (g : GroupSpec) (r : IsbnRange) : Prop :=
  g ∈ spec.groups ∧ g.key <+: s ∧ r ∈ g.rules ∧ 0 < r.rngLen.toNat ∧
    r.Contains (numberAt s g.key.length)

structure AsExpected (spec : TableSpec) (bsz : ℕ) (s : CStr) (h : Hyphenation) : Prop where
  accepted : h.ret = .ok 0 ↔ ∃ g r, Expected spec s g r
  field : ∀ g r, Expected spec s g r →
    registrantField h bsz = some ((s.drop g.key.length).take r.rngLen.toNat)
  missing : (¬ ∃ g r, Expected spec s g r) → h.ret = .ok ENOENT

/-- The digits from position 4 on lead to the same length as the digits behind
the prefix, and not to a rule with the length 0. -/
def SameLength (spec : TableSpec) (s : CStr) : Prop :=
  spec.groups ≠ [] ∧ ∀ g ∈ spec.groups, g.key <+: s →
    g.lengthFor (numberAt s 4) = g.lengthFor (numberAt s g.key.length) ∧
      ∀ r ∈ g.rules, r.Contains (numberAt s 4) → 0 < r.rngLen.toNat

section Groups
variable {spec : TableSpec} {s : CStr} {g : GroupSpec} {r : IsbnRange} {bsz : ℕ}

theorem expected_iff (hg : g ∈ spec.groups) (hs : g.key <+: s) {g' : GroupSpec} :
    Expected spec s g' r ↔ g' = g ∧ g.entry.ruleFor (numberAt s g.key.length) = some r ∧
      0 < r.rngLen.toNat := by
  constructor
  · intro hexp
    rcases hexp with ⟨hg', hs', hr, hpos, hc⟩
    obtain rfl := spec.eq_of_prefixes hg hg' hs hs'
    exact ⟨rfl, g.ruleFor_eq hr hc, hpos⟩
  · intro hthe
    rcases hthe with ⟨rfl, hr, hpos⟩
    have hrule := g'.ruleFor_some hr
    exact ⟨hg, hs, hrule.1, hpos, hrule.2⟩

theorem sameLength_iff (hg : g ∈ spec.groups) (hs : g.key <+: s) :
    SameLength spec s ↔ g.lengthFor (numberAt s 4) = g.lengthFor (numberAt s g.key.length) ∧
      ∀ r ∈ g.rules, r.Contains (numberAt s 4) → 0 < r.rngLen.toNat := by
  constructor
  · exact fun h => h.2 g hg hs
  · intro h
    refine ⟨List.ne_nil_of_mem hg, fun g' hg' hs' => ?_⟩
    rwa [← spec.eq_of_prefixes hg hg' hs hs']

theorem missing_iff (hg : g ∈ spec.groups) (hs : g.key <+: s)
    (hr : g.entry.ruleFor (numberAt s 4) = none) :
    AsExpected spec bsz s (.quit [(4, 7)] (.ok ENOENT)) ↔ SameLength spec s := by
  have hzero : g.lengthFor (numberAt s 4) = 0 := by rw [GroupSpec.lengthFor, hr]; rfl
  rw [sameLength_iff hg hs, hzero]
  constructor
  · intro h
    have hno : ¬ ∃ g r, Expected spec s g r := by
      rw [← h.accepted]
      exact fun hret => absurd (Except.ok.inj hret) (by decide)
    refine ⟨?_, fun r hmem hc => ?_⟩
    · rw [GroupSpec.lengthFor]
      cases hr' : g.entry.ruleFor (numberAt s g.key.length) with
      | none => rfl
      | some r =>
        by_contra hpos
        exact hno ⟨g, r, (expected_iff hg hs).mpr ⟨rfl, hr', Nat.pos_of_ne_zero (Ne.symm hpos)⟩⟩
    · rw [g.ruleFor_eq hmem hc] at hr
      cases hr
  · intro h
    have hno : ¬ ∃ g r, Expected spec s g r := by
      intro hexp
      rcases hexp with ⟨g', r, he⟩
      have hexp := (expected_iff hg hs).mp he
      have hlen := h.1
      rw [GroupSpec.lengthFor, hexp.2.1, Option.map_some, Option.getD_some] at hlen
      omega
    refine ⟨iff_of_false (fun hret => absurd (Except.ok.inj hret) (by decide)) hno,
      fun g' r he => absurd ⟨g', r, he⟩ hno, fun _ => rfl⟩

theorem hit_iff (hg : g ∈ spec.groups) (hs : g.key <+: s) (hlen : s.length = 13)
    (hr : g.entry.ruleFor (numberAt s 4) = some r) {h : Hyphenation} (hret : h.ret = .ok 0)
    (hfield : registrantField h bsz = some ((s.drop g.key.length).take r.rngLen.toNat)) :
    AsExpected spec bsz s h ↔ SameLength spec s := by
  have hmem := g.ruleFor_some hr
  have hfour : g.lengthFor (numberAt s 4) = r.rngLen.toNat := by rw [GroupSpec.lengthFor, hr]; rfl
  have hroom : ∀ r' ∈ g.rules, ((s.drop g.key.length).take r'.rngLen.toNat).length =
      r'.rngLen.toNat := by
    intro r' hr'
    have hfit := (g.lengths r' hr').2
    have hdig := g.digits
    rw [List.length_take, List.length_drop, hlen, GroupSpec.key]
    omega
  rw [sameLength_iff hg hs, hfour]
  constructor
  · intro hexp
    rcases hexp.accepted.mp hret with ⟨g', r', he⟩
    have hthe := (expected_iff hg hs).mp he
    obtain rfl := hthe.1
    have heq := hexp.field g' r' he
    rw [hfield, Option.some_inj] at heq
    have hsame : r.rngLen.toNat = r'.rngLen.toNat := by
      rw [← hroom r hmem.1, ← hroom r' (g'.ruleFor_some hthe.2.1).1, heq]
    refine ⟨?_, fun r'' hr'' hc => ?_⟩
    · rw [GroupSpec.lengthFor, hthe.2.1, Option.map_some, Option.getD_some]
      exact hsame
    · rw [g'.ruleFor_eq hr'' hc, Option.some_inj] at hr
      rw [hr, hsame]
      exact hthe.2.2
  · intro hsame
    have hpos := hsame.2 r hmem.1 hmem.2
    cases hr' : g.entry.ruleFor (numberAt s g.key.length) with
    | none =>
      have hzero := hsame.1
      rw [GroupSpec.lengthFor, hr', Option.map_none, Option.getD_none] at hzero
      omega
    | some r' =>
      have hlens := hsame.1
      rw [GroupSpec.lengthFor, hr', Option.map_some, Option.getD_some] at hlens
      have hex : Expected spec s g r' := (expected_iff hg hs).mpr ⟨rfl, hr', hlens ▸ hpos⟩
      refine ⟨iff_of_true hret ⟨g, r', hex⟩, fun g'' r'' he => ?_,
        fun hno => absurd ⟨g, r', hex⟩ hno⟩
      have hthe := (expected_iff hg hs).mp he
      obtain rfl := hthe.1
      obtain rfl : r' = r'' := Option.some_inj.mp (hr'.symm.trans hthe.2.1)
      rw [hfield, hlens]

theorem hyphenate_as_expected_iff (spec : TableSpec) (hb : 32 ≤ bsz) {z : ZStr}
    (hz : Isbn13 z.str) :
    ∃ isbn, buildTable spec.ops = .ok isbn ∧
      (AsExpected spec bsz z.str (hyphenateIsbn (some (isbn.table isbn.fst.view)) bsz z) ↔
        SameLength spec z.str) := by
  obtain ⟨isbn, hok, h⟩ := buildTable_refines spec.ops
  refine ⟨isbn, hok, ?_⟩
  have hb' : 18 ≤ bsz := by omega
  by_cases hg : ∃ g ∈ spec.groups, g.key <+: z.str
  · rcases hg with ⟨g, hg, hs⟩
    have hm := spec.matched_of_group hg hs
    rw [h.hyphenate_matched hb' hm, registrantOf_isbn13 hz]
    cases hr : g.entry.ruleFor (numberAt z.str 4) with
    | none => exact missing_iff hg hs hr
    | some r =>
      have hmem := g.ruleFor_some hr
      have hlen := g.lengths r hmem.1
      have hdig := g.digits
      have hkey : g.entry.pfx.length = (digitsOf g.text).length := rfl
      have hdigits : ∀ c ∈ g.entry.pfx, isDigit c := fun c hc => List.of_mem_filter hc
      exact hit_iff hg hs hz.1 hr (placed_ok hb' (by omega) (by omega) (by omega))
        (placed_registrant hb (by omega) (by omega) (by omega) hz (by omega) hdigits)
  · have hno : ∀ e, ¬ Matched (catalogOf spec.ops) z.str e := fun e he => hg (spec.matched_group he)
    have hnone : ¬ ∃ g r, Expected spec z.str g r := by
      intro hexp
      rcases hexp with ⟨g, r, he⟩
      exact hg ⟨g, he.1, he.2.1⟩
    by_cases hne : spec.groups = []
    · have hentries : (catalogOf spec.ops).entries = [] := by rw [spec.catalog_eq, hne]; rfl
      have hstr : z.str ≠ [] := by
        intro hnil
        have := hz.1
        simp [hnil] at this
      rw [h.hyphenate_empty hb' hentries, if_neg hstr]
      refine iff_of_false (fun hexp => ?_) fun hsame => hsame.1 hne
      cases hexp.missing hnone
    · have hentries : (catalogOf spec.ops).entries ≠ [] := by
        rw [spec.catalog_eq]
        simpa using hne
      rw [h.hyphenate_unmatched hb' hentries hno]
      refine iff_of_true ⟨?_, fun g r he => absurd ⟨g, r, he⟩ hnone, fun _ => rfl⟩
        ⟨hne, fun g hg' hs => absurd ⟨g, hg', hs⟩ hg⟩
      exact iff_of_false (fun hret => absurd (Except.ok.inj hret) (by decide)) hnone

end Groups

theorem contains_disjoint {r r' : IsbnRange} (h : r.rngUbound < r'.rngLbound) (n : UInt32) :
    ¬ (r.Contains n ∧ r'.Contains n) := by
  simp only [IsbnRange.Contains, UInt32.le_iff_toNat_le, UInt32.lt_iff_toNat_lt] at h ⊢
  omega

def indiaRules : List IsbnRange :=
  [⟨2, 0, 1999999⟩, ⟨3, 2000000, 6999999⟩, ⟨4, 7000000, 8499999⟩, ⟨5, 8500000, 8999999⟩,
    ⟨6, 9000000, 9999999⟩]

def india : GroupSpec where
  text := lit "978-81".toList
  agency := lit "India".toList
  rules := indiaRules
  numeric := by decide +kernel
  digits := by decide
  lengths := by decide
  bounds := by decide
  disjoint := by
    have hsorted : indiaRules.Pairwise fun r r' => r.rngUbound < r'.rngLbound := by decide
    exact hsorted.imp fun h n => contains_disjoint h n

def indiaTable : TableSpec := ⟨[india], by simp⟩

/-- The test cases expect 978-81-322-2079-4; the registrant comes out as "32". -/
theorem india_registrant_too_short :
    ∃ isbn, buildTable indiaTable.ops = .ok isbn ∧
      ¬ AsExpected indiaTable 32 (lit "9788132220794".toList)
        (hyphenateIsbn (some (isbn.table isbn.fst.view)) 32
          ⟨lit "9788132220794".toList, fun _ => 0⟩) := by
  have hrun : (buildTable indiaTable.ops >>= fun isbn =>
      .ok (registrantField (hyphenateIsbn (some (isbn.table isbn.fst.view)) 32
        ⟨lit "9788132220794".toList, fun _ => 0⟩) 32)) = .ok (some (lit ['3', '2'])) := by
    decide +kernel
  have hrule : Expected indiaTable (lit "9788132220794".toList) india ⟨3, 2000000, 6999999⟩ :=
    ⟨List.mem_singleton_self _, by decide, by decide, by decide, by decide⟩
  rcases run_bind_ok hrun with ⟨isbn, hok, hfield⟩
  refine ⟨isbn, hok, fun hexp => ?_⟩
  have heq := hexp.field _ _ hrule
  rw [Except.ok.inj hfield] at heq
  exact absurd heq (by decide)

theorem hyphenate_as_expected_sample :
    ∃ isbn, buildTable indiaTable.ops = .ok isbn ∧
      AsExpected indiaTable 32 (lit "9788100000004".toList)
        (hyphenateIsbn (some (isbn.table isbn.fst.view)) 32
          ⟨lit "9788100000004".toList, fun _ => 0⟩) := by
  have hb : 32 ≤ 32 := le_refl 32
  have hz : Isbn13 (⟨lit "9788100000004".toList, fun _ => 0⟩ : ZStr).str := by decide +kernel
  have hsame : SameLength indiaTable (lit "9788100000004".toList) := by
    refine ⟨List.cons_ne_nil _ _, fun g hg _ => ?_⟩
    obtain rfl := List.mem_singleton.mp hg
    decide +kernel
  obtain ⟨isbn, hok, hiff⟩ := hyphenate_as_expected_iff indiaTable hb hz
  exact ⟨isbn, hok, hiff.mpr hsame⟩

end IsbnHyphenate
