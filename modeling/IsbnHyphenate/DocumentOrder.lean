import IsbnHyphenate.IsbnDocument
import IsbnHyphenate.HyphenateSafety
import Mathlib.Data.List.Nodup

/-!
# Changing the list of groups

The same groups in another order, and the groups of a newer document behind
those of the old one. States, values and rule indices all change; what
`hyphenate_isbn` does is compared through the catalogs.
-/

namespace IsbnHyphenate

theorem docGroup_loads (doc : Doc) (cur : XmlNode) :
    (∃ read, docGroup doc cur = .ok read) ↔ cur.halt = none ∧ DigitsFit (prefixText cur) := by
  rw [docGroup]
  cases cur.halt with
  | some c => simp
  | none =>
    simp only [true_and]
    split_ifs with hfit <;> simp [hfit]

theorem groups_load (groups : List XmlNode) (read : Bool × Doc) :
    (∃ read', groups.foldlM docStep read = .ok read') ↔
      ∀ g ∈ groups, g.halt = none ∧ DigitsFit (prefixText g) := by
  induction groups generalizing read with
  | nil => simp [pure, Except.pure]
  | cons g groups ih =>
    rw [List.forall_mem_cons, List.foldlM_cons, docStep, ← docGroup_loads read.2]
    cases hg : docGroup read.2 g with
    | error e => simp
    | ok group =>
      simp only [run_ok_bind, ih]
      simp

theorem document_loads (root : Option XmlNode) :
    (∃ ret, builtTable root = .ok ret) ↔
      ∀ g ∈ groupNodes root, g.halt = none ∧ DigitsFit (prefixText g) := by
  rw [← groups_load (groupNodes root) (false, Doc.empty), ← docRead]
  have hrel := builtTable_related root
  constructor
  · rintro ⟨ret, hok⟩
    rw [hok] at hrel
    obtain ⟨read, hread, -⟩ := hrel.to_ok
    exact ⟨read, hread⟩
  · rintro ⟨read, hread⟩
    rw [hread] at hrel
    obtain ⟨ret, hok, -⟩ := hrel.of_ok
    exact ⟨ret, hok⟩

theorem docGroups_eq (root : Option XmlNode) : docGroups root = (groupNodes root).map groupOf := by
  cases root with
  | none => rfl
  | some cur =>
    rw [docGroups, groupNodes]
    by_cases hn : cur.name = "ISBNRangeMessage"
    · rw [if_neg (not_not.mpr hn), if_pos hn, messageGroups, List.map_flatMap]
      rfl
    · rw [if_pos hn, if_neg hn]
      rfl

def NoStrays (groups : List Group) : Prop := ∀ g ∈ groups, g.key = none → g.rules = []

instance (groups : List Group) : Decidable (NoStrays groups) :=
  inferInstanceAs (Decidable (∀ g ∈ groups, g.key = none → g.rules = []))

theorem NoStrays.kept {groups : List Group} (h : NoStrays groups) :
    groups.Pairwise fun g h => ¬ Leaks g h :=
  List.pairwise_of_forall_mem_list fun g hg _ _ hleak => hleak.2.1 (h g hg hleak.1)

variable {isbn isbn' : IsbnInfo} {cat cat' : Catalog} {rc : ℕ} {root root' : Option XmlNode}

theorem loaded_spans (hrun : builtTable root = .ok (rc, isbn)) (hs : NoStrays (docGroups root)) :
    ∃ cat, Refines isbn cat ∧ cat.attribution.spans = ownSpans (docGroups root) := by
  obtain ⟨cat, h, hattr⟩ := parseDoc_spec hrun
  refine ⟨cat, h, ?_⟩
  have hown := (attribution_eq_own_iff (docGroups root) ⟨[], []⟩).mpr ⟨Or.inl rfl, hs.kept⟩
  rw [hattr, hown, List.nil_append]

theorem spans_keys (cat : Catalog) :
    cat.attribution.spans.map Prod.fst = cat.entries.map Entry.pfx := by
  rw [Catalog.attribution, List.map_map]
  rfl

theorem ownSpans_keys (groups : List Group) :
    (ownSpans groups).map Prod.fst = groups.filterMap Group.key := by
  rw [ownSpans, List.map_filterMap]
  congr 1
  funext g
  cases g.key <;> rfl

theorem LongestPrefix.congr {keys keys' : List CStr} (hmem : ∀ k, k ∈ keys ↔ k ∈ keys')
    {s p : CStr} (h : LongestPrefix keys s p) : LongestPrefix keys' s p :=
  ⟨(hmem p).mp h.1, h.2.1, fun q hq => h.2.2 q ((hmem q).mpr hq)⟩

theorem Findable.congr {keys keys' : List CStr} (hmem : ∀ k, k ∈ keys ↔ k ∈ keys') {s p : CStr}
    (h : Findable keys s p) : Findable keys' s p :=
  h.imp_right fun hall q hq => hall q ((hmem q).mpr hq)

theorem find_of_nodup {entries : List Entry} (hnd : (entries.map Entry.pfx).Nodup) {e : Entry}
    (he : e ∈ entries) : (entries.find? fun e' => e'.pfx = e.pfx) = some e := by
  cases hfind : entries.find? fun e' => e'.pfx = e.pfx with
  | none => exact absurd (decide_eq_true rfl) (List.find?_eq_none.mp hfind e he)
  | some e' =>
    have hpfx : e'.pfx = e.pfx := by simpa using List.find?_some hfind
    rw [List.inj_on_of_nodup_map hnd (List.mem_of_find?_eq_some hfind) he hpfx]

theorem Matched.perm {s : CStr} {e : Entry} (h : Matched cat s e)
    (hperm : cat.attribution.spans.Perm cat'.attribution.spans)
    (hnd : (cat.entries.map Entry.pfx).Nodup) :
    ∃ e', Matched cat' s e' ∧ e'.pfx = e.pfx ∧ e'.rules = e.rules := by
  have hkeys := hperm.map Prod.fst
  rw [spans_keys, spans_keys] at hkeys
  have hspan : (e.pfx, e.rules) ∈ cat'.attribution.spans :=
    hperm.mem_iff.mp (List.mem_map.mpr ⟨e, List.mem_of_find?_eq_some h.first, rfl⟩)
  obtain ⟨e', he', hsame⟩ := List.mem_map.mp hspan
  obtain ⟨hpfx, hrules⟩ := Prod.mk.inj hsame
  refine ⟨e', ⟨?_, ?_, find_of_nodup (hkeys.nodup_iff.mp hnd) he'⟩, hpfx, hrules⟩
  · rw [hpfx]
    exact h.longest.congr fun k => hkeys.mem_iff
  · rw [hpfx]
    exact h.findable.congr fun k => hkeys.mem_iff

theorem hyphenate_same (h : Refines isbn cat) (h' : Refines isbn' cat') {z : ZStr}
    (hto : ∀ e, Matched cat z.str e → ∃ e', Matched cat' z.str e' ∧ e'.pfx = e.pfx ∧
      e'.rules = e.rules)
    (hfrom : (∃ e, Matched cat' z.str e) → ∃ e, Matched cat z.str e)
    (hempty : cat.entries = [] ↔ cat'.entries = []) (bsz : ℕ) :
    hyphenateIsbn (some (isbn'.table isbn'.fst.view)) bsz z =
      hyphenateIsbn (some (isbn.table isbn.fst.view)) bsz z := by
  by_cases hb : bsz < 18
  · rw [hyphenate_small hb, hyphenate_small hb]
  · have hb' : 18 ≤ bsz := Nat.le_of_not_lt hb
    by_cases hm : ∃ e, Matched cat z.str e
    · obtain ⟨e, hm⟩ := hm
      obtain ⟨e', hm', hpfx, hrules⟩ := hto e hm
      have hrule : e'.ruleFor (registrantOf z) = e.ruleFor (registrantOf z) := by
        rw [Entry.ruleFor, Entry.ruleFor, hrules]
      rw [h.hyphenate_matched hb' hm, h'.hyphenate_matched hb' hm', hrule, hpfx]
    · have hno : ∀ e, ¬ Matched cat z.str e := fun e he => hm ⟨e, he⟩
      have hno' : ∀ e, ¬ Matched cat' z.str e := fun e he => hm (hfrom ⟨e, he⟩)
      by_cases hne : cat.entries = []
      · rw [h.hyphenate_empty hb' hne, h'.hyphenate_empty hb' (hempty.mp hne)]
      · rw [h.hyphenate_unmatched hb' hne hno, h'.hyphenate_unmatched hb' (mt hempty.mpr hne) hno']

theorem hyphenate_perm (h : Refines isbn cat) (h' : Refines isbn' cat')
    (hperm : cat.attribution.spans.Perm cat'.attribution.spans)
    (hnd : (cat.entries.map Entry.pfx).Nodup) (bsz : ℕ) (z : ZStr) :
    hyphenateIsbn (some (isbn'.table isbn'.fst.view)) bsz z =
      hyphenateIsbn (some (isbn.table isbn.fst.view)) bsz z := by
  have hkeys := hperm.map Prod.fst
  rw [spans_keys, spans_keys] at hkeys
  refine hyphenate_same h h' (fun e hm => hm.perm hperm hnd) ?_ ?_ bsz
  · rintro ⟨e', hm'⟩
    obtain ⟨e, hm, -⟩ := hm'.perm hperm.symm (hkeys.nodup_iff.mp hnd)
    exact ⟨e, hm⟩
  · rw [← List.length_eq_zero_iff, ← List.length_eq_zero_iff, ← cat.entries.length_map Entry.pfx,
      ← cat'.entries.length_map Entry.pfx, hkeys.length_eq]

def docKeys (root : Option XmlNode) : List CStr := (docGroups root).filterMap Group.key

theorem parsed_built {pk : Packed} (hrun : parseIsbnRangeTable root = .ok (isbn, pk)) :
    ∃ rc, builtTable root = .ok (rc, isbn) ∧ fstCopyAndPack isbn.fst = .ok pk := by
  obtain ⟨⟨rc, isbn₁⟩, hbuilt, hrest⟩ := run_bind_ok hrun
  obtain ⟨pk₁, hpack, hret⟩ := run_bind_ok hrest
  cases hret
  exact ⟨rc, hbuilt, hpack⟩

theorem Refines.hyphenate_packed_far (h : Refines isbn cat) {pk : Packed}
    (hpack : fstCopyAndPack isbn.fst = .ok pk) {z : ZStr}
    (hfar : ¬ lastNew (cat.entries.map Entry.pfx) <+: z.str) (bsz : ℕ) :
    hyphenateIsbn (some (isbn.table pk.view)) bsz z =
      hyphenateIsbn (some (isbn.table isbn.fst.view)) bsz z := by
  obtain ⟨pk₁, hpack₁, hcopy⟩ := h.hyphenate_packed
  rw [hpack] at hpack₁
  cases hpack₁
  rw [hcopy, if_neg fun hand => hfar hand.2]

/-- The order of the groups does not matter for any input, as long as no prefix
comes twice and no group without an entry lists a rule. The packed copies differ in
the state they lack. -/
theorem document_order {pk : Packed} (hrun : parseIsbnRangeTable root = .ok (isbn, pk))
    (hperm : (groupNodes root).Perm (groupNodes root')) (hs : NoStrays (docGroups root))
    (hnd : (docKeys root).Nodup) :
    ∃ isbn' pk', parseIsbnRangeTable root' = .ok (isbn', pk') ∧
      (∀ bsz z, hyphenateIsbn (some (isbn'.table isbn'.fst.view)) bsz z =
        hyphenateIsbn (some (isbn.table isbn.fst.view)) bsz z) ∧
      ∀ bsz z, ¬ lastNew (docKeys root) <+: z.str → ¬ lastNew (docKeys root') <+: z.str →
        hyphenateIsbn (some (isbn'.table pk'.view)) bsz z =
          hyphenateIsbn (some (isbn.table pk.view)) bsz z := by
  obtain ⟨rc, hbuilt, hpack⟩ := parsed_built hrun
  have hloads := (document_loads root).mp ⟨_, hbuilt⟩
  obtain ⟨⟨rc', isbn'⟩, hbuilt'⟩ :=
    (document_loads root').mpr fun g hg => hloads g (hperm.mem_iff.mpr hg)
  have hgroups : (docGroups root).Perm (docGroups root') := by
    rw [docGroups_eq, docGroups_eq]
    exact hperm.map groupOf
  have hs' : NoStrays (docGroups root') := fun g hg => hs g (hgroups.mem_iff.mpr hg)
  obtain ⟨cat, h, hspans⟩ := loaded_spans hbuilt hs
  obtain ⟨cat', h', hspans'⟩ := loaded_spans hbuilt' hs'
  have hkeys : cat.entries.map Entry.pfx = docKeys root := by
    rw [← spans_keys, hspans, ownSpans_keys, docKeys]
  have hkeys' : cat'.entries.map Entry.pfx = docKeys root' := by
    rw [← spans_keys, hspans', ownSpans_keys, docKeys]
  have hsame := hyphenate_perm h h' (by rw [hspans, hspans']; exact hgroups.filterMap _)
    (hkeys ▸ hnd)
  obtain ⟨pk', hpack', -⟩ := h'.hyphenate_packed
  refine ⟨isbn', pk', ?_, hsame, fun bsz z hfar hfar' => ?_⟩
  · rw [parseIsbnRangeTable, hbuilt', run_ok_bind]
    simp only [hpack', run_ok_bind]
  · rw [h.hyphenate_packed_far hpack (hkeys ▸ hfar),
      h'.hyphenate_packed_far hpack' (hkeys' ▸ hfar'), hsame]

theorem groupNodes_sample (gs : List (CStr × CStr)) :
    groupNodes (sampleMessage gs) = gs.map fun g => .mk "Group" none
      [.mk "Prefix" (some g.1) [], .mk "Agency" (some (lit ['A'])) [],
        .mk "Rules" none [.mk "Rule" none [.mk "Range" (some (lit ['0', '-', '9'])) [],
          .mk "Length" (some g.2) []]]] := by
  simp only [groupNodes, sampleMessage, childrenNamed, XmlNode.name, XmlNode.children, if_true,
    List.filter_cons, decide_true, List.filter_nil, List.flatMap_cons, List.flatMap_nil,
    List.append_nil]
  rw [List.filter_eq_self]
  intro cur hcur
  obtain ⟨g, -, rfl⟩ := List.mem_map.mp hcur
  rfl

theorem document_order_sample :
    ∃ isbn pk isbn' pk', parseIsbnRangeTable (sampleMessage [(lit ['9'], lit ['1']),
        (lit ['8'], lit ['2'])]) = .ok (isbn, pk) ∧
      parseIsbnRangeTable (sampleMessage [(lit ['8'], lit ['2']), (lit ['9'], lit ['1'])]) =
        .ok (isbn', pk') ∧
      ∀ bsz z, hyphenateIsbn (some (isbn'.table isbn'.fst.view)) bsz z =
        hyphenateIsbn (some (isbn.table isbn.fst.view)) bsz z := by
  have hok : (parseIsbnRangeTable (sampleMessage [(lit ['9'], lit ['1']),
      (lit ['8'], lit ['2'])]) >>= fun _ => (.ok () : Run Unit)) = .ok () := by decide +kernel
  obtain ⟨⟨isbn, pk⟩, hrun, -⟩ := run_bind_ok hok
  have hperm : (groupNodes (sampleMessage [(lit ['9'], lit ['1']), (lit ['8'], lit ['2'])])).Perm
      (groupNodes (sampleMessage [(lit ['8'], lit ['2']), (lit ['9'], lit ['1'])])) := by
    rw [groupNodes_sample, groupNodes_sample]
    exact List.Perm.swap _ _ _
  obtain ⟨isbn', pk', hrun', hsame, -⟩ :=
    document_order hrun hperm (by decide +kernel) (by decide +kernel)
  exact ⟨isbn, pk, isbn', pk', hrun, hrun', hsame⟩

theorem attribution_keys (groups : List Group) (st : Attribution) :
    (groups.foldl Attribution.group st).spans.map Prod.fst =
      st.spans.map Prod.fst ++ groups.filterMap Group.key := by
  induction groups generalizing st with
  | nil => simp
  | cons g groups ih =>
    rw [List.foldl_cons, ih, Attribution.group]
    cases hk : g.key with
    | none => simp [hk]
    | some key => simp [hk]

theorem find_span (cat : Catalog) (k : CStr) :
    (cat.attribution.spans.find? fun p => p.1 = k) =
      (cat.entries.find? fun e => e.pfx = k).map fun e => (e.pfx, e.rules) := by
  rw [Catalog.attribution, List.find?_map]
  rfl

/-- None of these prefixes begins the string, or extends one of the old ones that
does. -/
def Untouched (keys more : List CStr) (s : CStr) : Prop :=
  ∀ k ∈ more, ¬ k <+: s ∧ ∀ p ∈ keys, p <+: s → ¬ p <+: k

instance (keys more : List CStr) (s : CStr) : Decidable (Untouched keys more s) :=
  inferInstanceAs (Decidable (∀ k ∈ more, ¬ k <+: s ∧ ∀ p ∈ keys, p <+: s → ¬ p <+: k))

theorem Matched.extend {s : CStr} {e : Entry} {more : List CStr} (h : Matched cat s e)
    (hspans : cat.attribution.spans <+: cat'.attribution.spans)
    (hkeys : cat'.entries.map Entry.pfx = cat.entries.map Entry.pfx ++ more)
    (hfree : Untouched (cat.entries.map Entry.pfx) more s) :
    ∃ e', Matched cat' s e' ∧ e'.pfx = e.pfx ∧ e'.rules = e.rules := by
  obtain ⟨extra, hextra⟩ := hspans
  have hfirst : (cat'.entries.find? fun e' => e'.pfx = e.pfx).map (fun e => (e.pfx, e.rules)) =
      some (e.pfx, e.rules) := by
    rw [← find_span, ← hextra, List.find?_append, find_span, h.first]
    rfl
  obtain ⟨e', hfind, hsame⟩ := Option.map_eq_some_iff.mp hfirst
  obtain ⟨hpfx, hrules⟩ := Prod.mk.inj hsame
  refine ⟨e', ⟨?_, ?_, by rw [hpfx, hfind]⟩, hpfx, hrules⟩
  · rw [hkeys, hpfx]
    refine ⟨List.mem_append_left _ h.longest.1, h.longest.2.1, fun q hq hqs => ?_⟩
    rcases List.mem_append.mp hq with hq | hq
    · exact h.longest.2.2 q hq hqs
    · exact ((hfree q hq).1 hqs).elim
  · rw [hkeys, hpfx]
    refine h.findable.imp_right fun hall q hq hpq => ?_
    rcases List.mem_append.mp hq with hq | hq
    · exact hall q hq hpq
    · exact ((hfree q hq).2 e.pfx h.longest.1 h.longest.2.1 hpq).elim

theorem Matched.restrict {s : CStr} {e' : Entry} {more : List CStr} (h : Matched cat' s e')
    (hkeys : cat'.entries.map Entry.pfx = cat.entries.map Entry.pfx ++ more)
    (hfree : Untouched (cat.entries.map Entry.pfx) more s) : ∃ e, Matched cat s e := by
  have hmem : e'.pfx ∈ cat.entries.map Entry.pfx := by
    rcases List.mem_append.mp (hkeys ▸ h.longest.1) with hold | hnew
    · exact hold
    · exact ((hfree _ hnew).1 h.longest.2.1).elim
  have hkeep : ∀ q ∈ cat.entries.map Entry.pfx, q ∈ cat'.entries.map Entry.pfx := by
    intro q hq
    rw [hkeys]
    exact List.mem_append_left _ hq
  cases hfind : cat.entries.find? fun e => e.pfx = e'.pfx with
  | none =>
    obtain ⟨e, he, hpfx⟩ := List.mem_map.mp hmem
    exact absurd (decide_eq_true hpfx) (List.find?_eq_none.mp hfind e he)
  | some e =>
    have hpfx : e.pfx = e'.pfx := by simpa using List.find?_some hfind
    refine ⟨e, ⟨?_, ?_, by rw [hpfx, hfind]⟩⟩
    · rw [hpfx]
      exact ⟨hmem, h.longest.2.1, fun q hq => h.longest.2.2 q (hkeep q hq)⟩
    · rw [hpfx]
      exact h.findable.imp_right fun hall q hq => hall q (hkeep q hq)

/-- A newer document with more groups behind the old ones: nothing changes for a
string that none of the new prefixes touches. -/
theorem document_extension {pk : Packed} {more : List XmlNode}
    (hrun : parseIsbnRangeTable root = .ok (isbn, pk))
    (hmore : groupNodes root' = groupNodes root ++ more)
    (hloads : ∀ g ∈ more, g.halt = none ∧ DigitsFit (prefixText g)) (hne : docKeys root ≠ []) :
    ∃ isbn' pk', parseIsbnRangeTable root' = .ok (isbn', pk') ∧
      ∀ z, Untouched (docKeys root) ((more.map groupOf).filterMap Group.key) z.str →
        (∀ bsz, hyphenateIsbn (some (isbn'.table isbn'.fst.view)) bsz z =
          hyphenateIsbn (some (isbn.table isbn.fst.view)) bsz z) ∧
        ∀ bsz, ¬ lastNew (docKeys root) <+: z.str → ¬ lastNew (docKeys root') <+: z.str →
          hyphenateIsbn (some (isbn'.table pk'.view)) bsz z =
            hyphenateIsbn (some (isbn.table pk.view)) bsz z := by
  obtain ⟨rc, hbuilt, hpack⟩ := parsed_built hrun
  have hold := (document_loads root).mp ⟨_, hbuilt⟩
  obtain ⟨⟨rc', isbn'⟩, hbuilt'⟩ := (document_loads root').mpr fun g hg => by
    rw [hmore] at hg
    exact (List.mem_append.mp hg).elim (hold g) (hloads g)
  obtain ⟨cat, h, hattr⟩ := parseDoc_spec hbuilt
  obtain ⟨cat', h', hattr'⟩ := parseDoc_spec hbuilt'
  have hgroups : docGroups root' = docGroups root ++ more.map groupOf := by
    rw [docGroups_eq, docGroups_eq, hmore, List.map_append]
  rw [hgroups, List.foldl_append, ← hattr] at hattr'
  have hkeys : cat.entries.map Entry.pfx = docKeys root := by
    rw [← spans_keys, hattr, attribution_keys]
    rfl
  have hkeys' : cat'.entries.map Entry.pfx =
      cat.entries.map Entry.pfx ++ (more.map groupOf).filterMap Group.key := by
    rw [← spans_keys, hattr', attribution_keys, spans_keys]
  have hdoc' : cat'.entries.map Entry.pfx = docKeys root' := by
    rw [hkeys', hkeys, docKeys, docKeys, hgroups, List.filterMap_append]
  have hspans : cat.attribution.spans <+: cat'.attribution.spans := by
    rw [hattr']
    exact attribution_spans _ _
  have hempty : cat.entries = [] ↔ cat'.entries = [] := by
    rw [← hkeys] at hne
    rw [← List.map_eq_nil_iff (f := Entry.pfx), ← List.map_eq_nil_iff (f := Entry.pfx), hkeys']
    simp [hne]
  obtain ⟨pk', hpack', -⟩ := h'.hyphenate_packed
  refine ⟨isbn', pk', ?_, fun z hfree => ?_⟩
  · rw [parseIsbnRangeTable, hbuilt', run_ok_bind]
    simp only [hpack', run_ok_bind]
  · rw [← hkeys] at hfree
    have hsame := hyphenate_same h h' (fun e hm => hm.extend hspans hkeys' hfree)
      (fun ⟨e', hm'⟩ => hm'.restrict hkeys' hfree) hempty
    refine ⟨hsame, fun bsz hfar hfar' => ?_⟩
    rw [h.hyphenate_packed_far hpack (hkeys ▸ hfar),
      h'.hyphenate_packed_far hpack' (hdoc' ▸ hfar'), hsame]

theorem document_extension_sample :
    ∃ isbn pk isbn' pk', parseIsbnRangeTable (sampleMessage [(lit ['9'], lit ['1'])]) =
        .ok (isbn, pk) ∧
      parseIsbnRangeTable (sampleMessage [(lit ['9'], lit ['1']), (lit ['8'], lit ['2'])]) =
        .ok (isbn', pk') ∧
      ∀ bsz, hyphenateIsbn (some (isbn'.table isbn'.fst.view)) bsz
          ⟨lit "9780312128470".toList, fun _ => 0⟩ =
        hyphenateIsbn (some (isbn.table isbn.fst.view)) bsz
          ⟨lit "9780312128470".toList, fun _ => 0⟩ := by
  have hok : (parseIsbnRangeTable (sampleMessage [(lit ['9'], lit ['1'])]) >>=
      fun _ => (.ok () : Run Unit)) = .ok () := by decide +kernel
  obtain ⟨⟨isbn, pk⟩, hrun, -⟩ := run_bind_ok hok
  have hmore : groupNodes (sampleMessage [(lit ['9'], lit ['1']), (lit ['8'], lit ['2'])]) =
      groupNodes (sampleMessage [(lit ['9'], lit ['1'])]) ++
        groupNodes (sampleMessage [(lit ['8'], lit ['2'])]) := by
    rw [groupNodes_sample, groupNodes_sample, groupNodes_sample]
    rfl
  obtain ⟨isbn', pk', hrun', hsame⟩ := document_extension hrun hmore (by decide +kernel)
    (by decide +kernel)
  exact ⟨isbn, pk, isbn', pk', hrun, hrun', (hsame _ (by decide +kernel)).1⟩

end IsbnHyphenate
