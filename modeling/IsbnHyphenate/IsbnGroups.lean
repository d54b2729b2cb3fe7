import IsbnHyphenate.IsbnParse
import IsbnHyphenate.IsbnInvariant

/-!
# Whose rules an entry spans

A document is read as a list of groups, each with its prefix text and the rules
listed inside it. A group whose prefix is refused leaves its rules pending, and
the next accepted group gets them in front of its own.
-/

namespace IsbnHyphenate
open Slices

structure Group where
  pfx : Option CStr
  rules : List IsbnRange
  deriving DecidableEq, Repr

def lastText (name : String) : List XmlNode → Option CStr
  | [] => none
  | cur :: next => (lastText name next).or (if cur.name = name then cur.text else none)

def ruleOf (cur : XmlNode) : Option IsbnRange :=
  let keys := ruleKeys none none cur.children
  match ruleOfStr keys.1 keys.2 with
  | .ok r => r
  | .error _ => none

def listedRules (children : List XmlNode) : List IsbnRange :=
  (children.filter fun cur => cur.name = "Rule").filterMap ruleOf

def groupRules (children : List XmlNode) : List IsbnRange :=
  (children.filter fun cur => cur.name = "Rules").flatMap fun cur => listedRules cur.children

def groupOf (cur : XmlNode) : Group := ⟨lastText "Prefix" cur.children, groupRules cur.children⟩

def groupsIn (children : List XmlNode) : List Group :=
  (children.filter fun cur => cur.name = "Group").map groupOf

def messageGroups (children : List XmlNode) : List Group :=
  (children.filter fun cur => cur.name = "RegistrationGroups").flatMap fun cur =>
    groupsIn cur.children

def docGroups : Option XmlNode → List Group
  | none => []
  | some cur => if cur.name ≠ "ISBNRangeMessage" then [] else messageGroups cur.children

def Group.key (g : Group) : Option CStr :=
  g.pfx.bind fun pfx => if Numeric pfx then some (digitsOf pfx) else none

structure Attribution where
  spans : List (CStr × List IsbnRange)
  pending : List IsbnRange

def Attribution.group (st : Attribution) (g : Group) : Attribution :=
  match g.key with
  | none => ⟨st.spans, st.pending ++ g.rules⟩
  | some key => ⟨st.spans ++ [(key, st.pending ++ g.rules)], []⟩

def ownSpans (groups : List Group) : List (CStr × List IsbnRange) :=
  groups.filterMap fun g => g.key.map fun key => (key, g.rules)

def Leaks (g h : Group) : Prop := g.key = none ∧ g.rules ≠ [] ∧ h.key ≠ none

instance (g h : Group) : Decidable (Leaks g h) :=
  inferInstanceAs (Decidable (g.key = none ∧ g.rules ≠ [] ∧ h.key ≠ none))

theorem attribution_spans (groups : List Group) (st : Attribution) :
    st.spans <+: (groups.foldl Attribution.group st).spans := by
  induction groups generalizing st with
  | nil => exact List.prefix_refl _
  | cons g groups ih =>
    refine List.IsPrefix.trans ?_ (ih (st.group g))
    rw [Attribution.group]
    cases g.key with
    | none => exact List.prefix_refl _
    | some key => exact List.prefix_append _ _

theorem attribution_eq_own_iff (groups : List Group) (st : Attribution) :
    (groups.foldl Attribution.group st).spans = st.spans ++ ownSpans groups ↔
      (st.pending = [] ∨ ∀ g ∈ groups, g.key = none) ∧
        groups.Pairwise fun g h => ¬ Leaks g h := by
  induction groups generalizing st with
  | nil => simp [ownSpans]
  | cons g groups ih =>
    rw [List.foldl_cons, List.pairwise_cons]
    cases hk : g.key with
    | none =>
      have hown : ownSpans (g :: groups) = ownSpans groups := by simp [ownSpans, hk]
      have hstep : st.group g = ⟨st.spans, st.pending ++ g.rules⟩ := by
        rw [Attribution.group, hk]
      have hleak : (∀ h ∈ groups, ¬ Leaks g h) ↔ (g.rules = [] ∨ ∀ h ∈ groups, h.key = none) := by
        by_cases hr : g.rules = []
        · simp [Leaks, hr]
        · simp [Leaks, hk, hr]
      rw [hstep, hown, ih, hleak]
      simp only [List.append_eq_nil_iff, List.forall_mem_cons, hk, true_and]
      tauto
    | some key =>
      have hown : ownSpans (g :: groups) = (key, g.rules) :: ownSpans groups := by
        simp [ownSpans, hk]
      have hstep : st.group g = ⟨st.spans ++ [(key, st.pending ++ g.rules)], []⟩ := by
        rw [Attribution.group, hk]
      have hleak : ∀ h ∈ groups, ¬ Leaks g h := by simp [Leaks, hk]
      have hrest := ih ⟨st.spans ++ [(key, st.pending ++ g.rules)], []⟩
      simp only [true_or, true_and] at hrest
      rw [hstep, hown]
      simp only [List.forall_mem_cons, hk, reduceCtorEq, false_and, or_false]
      constructor
      · intro heq
        obtain ⟨more, hmore⟩ := attribution_spans groups
          ⟨st.spans ++ [(key, st.pending ++ g.rules)], []⟩
        have hhead := heq
        rw [← hmore, List.append_assoc, List.append_cancel_left_eq, List.singleton_append,
          List.cons.injEq, Prod.mk.injEq] at hhead
        have hpend : st.pending = [] := List.append_left_eq_self.mp hhead.1.2
        refine ⟨hpend, hleak, hrest.mp ?_⟩
        rw [heq, hpend, List.nil_append, List.append_assoc, List.singleton_append]
      · intro hstate
        rcases hstate with ⟨hpend, -, hpw⟩
        rw [hrest.mpr hpw, hpend, List.nil_append, List.append_assoc, List.singleton_append]

def Catalog.attribution (cat : Catalog) : Attribution :=
  ⟨cat.entries.map fun e => (e.pfx, e.rules), cat.pending⟩

def Catalog.addRules (cat : Catalog) (rs : List IsbnRange) : Catalog :=
  { cat with pending := cat.pending ++ rs }

theorem Catalog.attribution_group (cat : Catalog) (g : Group) (agency : CStr) :
    ((cat.addRules g.rules).addPrefix (g.pfx.getD PREFIX_ERROR) agency).attribution =
      cat.attribution.group g := by
  have herr : ¬ Numeric PREFIX_ERROR := by decide
  obtain ⟨pfx, rules⟩ := g
  cases pfx with
  | none =>
    rw [Option.getD_none, addPrefix, if_neg herr]
    rfl
  | some pfx =>
    rw [Option.getD_some, addPrefix]
    by_cases hn : Numeric pfx
    · simp [hn, Group.key, Attribution.group, attribution, addRules]
    · simp [hn, Group.key, Attribution.group, attribution, addRules]

variable {isbn isbn' : IsbnInfo} {cat : Catalog} {rc : ℕ}

theorem parseRule_spec (h : Refines isbn cat) {cur : XmlNode}
    (hrun : parseRule isbn cur = .ok isbn') :
    ∃ r, ruleOf cur = some r ∧ Refines isbn' (cat.addRule r) ∧
      isbn'.curPrefix = isbn.curPrefix := by
  obtain ⟨⟨rv, isbn₁⟩, hadd, hrest⟩ := run_bind_ok hrun
  obtain ⟨rule, hrule, hadd⟩ := run_bind_ok hadd
  cases rule with
  | none =>
    cases hadd
    cases hrest
  | some r =>
    obtain ⟨isbn₂, hok, h', hcur⟩ := h.addRule r
    simp only [hok] at hadd
    cases hadd
    cases hrest
    exact ⟨r, by rw [ruleOf, hrule], h', hcur⟩

theorem parseRules_spec (children : List XmlNode) {isbn : IsbnInfo} {cat : Catalog}
    (h : Refines isbn cat) (hrun : parseRules isbn children = .ok isbn') :
    Refines isbn' (cat.addRules (listedRules children)) ∧ isbn'.curPrefix = isbn.curPrefix := by
  induction children generalizing isbn cat with
  | nil =>
    cases hrun
    exact ⟨by simpa [Catalog.addRules, listedRules] using h, rfl⟩
  | cons cur next ih =>
    rw [parseRules] at hrun
    by_cases hn : cur.name = "Rule"
    · rw [if_pos hn] at hrun
      obtain ⟨isbn₁, hrule, hrest⟩ := run_bind_ok hrun
      obtain ⟨r, hr, h₁, hcur₁⟩ := parseRule_spec h hrule
      obtain ⟨h', hcur⟩ := ih h₁ hrest
      refine ⟨?_, hcur.trans hcur₁⟩
      simpa [Catalog.addRules, Catalog.addRule, listedRules, hn, hr] using h'
    · rw [if_neg hn] at hrun
      obtain ⟨h', hcur⟩ := ih h hrun
      exact ⟨by simpa [listedRules, hn] using h', hcur⟩

theorem Refines.setCursor (h : Refines isbn cat) (curPrefix curAgency : Option CStr) :
    Refines { isbn with curPrefix := curPrefix, curAgency := curAgency } cat :=
  ⟨h.prefixes, h.ranges, h.pending, h.dict, h.curValue, h.prefixNr, h.prefixLen, h.ruleNr,
    h.rangesLen, h.short⟩

theorem groupChildren_spec (children : List XmlNode) {isbn : IsbnInfo} {cat : Catalog}
    (h : Refines isbn cat) (hrun : groupChildren isbn children = .ok isbn') :
    Refines isbn' (cat.addRules (groupRules children)) ∧
      isbn'.curPrefix = (lastText "Prefix" children).or isbn.curPrefix := by
  induction children generalizing isbn cat with
  | nil =>
    cases hrun
    exact ⟨by simpa [Catalog.addRules, groupRules] using h, rfl⟩
  | cons cur next ih =>
    rw [groupChildren] at hrun
    by_cases hp : cur.name = "Prefix"
    · rw [if_pos hp] at hrun
      obtain ⟨key, hkey, hrest⟩ := run_bind_ok hrun
      obtain ⟨h', hcur⟩ := ih (h.setCursor (some key) isbn.curAgency) hrest
      have htext : cur.text = some key := by
        rw [textOf] at hkey
        cases ht : cur.text with
        | none => simp [ht] at hkey
        | some t => simpa [ht] using hkey
      exact ⟨by simpa [groupRules, hp] using h', by simp [lastText, hp, htext, hcur]⟩
    · rw [if_neg hp] at hrun
      by_cases ha : cur.name = "Agency"
      · rw [if_pos ha] at hrun
        obtain ⟨key, -, hrest⟩ := run_bind_ok hrun
        obtain ⟨h', hcur⟩ := ih (h.setCursor isbn.curPrefix _) hrest
        exact ⟨by simpa [groupRules, ha] using h', by simp [lastText, hp, hcur]⟩
      · rw [if_neg ha] at hrun
        by_cases hr : cur.name = "Rules"
        · rw [if_pos hr] at hrun
          obtain ⟨isbn₁, hrules, hrest⟩ := run_bind_ok hrun
          obtain ⟨h₁, hcur₁⟩ := parseRules_spec cur.children h hrules
          obtain ⟨h', hcur⟩ := ih h₁ hrest
          refine ⟨?_, by simp [lastText, hp, hcur, hcur₁]⟩
          simpa [Catalog.addRules, groupRules, hr] using h'
        · rw [if_neg hr] at hrun
          obtain ⟨h', hcur⟩ := ih h hrun
          exact ⟨by simpa [groupRules, hr] using h', by simp [lastText, hp, hcur]⟩

theorem parseGroup_spec (h : Refines isbn cat) {cur : XmlNode}
    (hrun : parseGroup isbn cur = .ok (rc, isbn')) :
    ∃ cat', Refines isbn' cat' ∧ cat'.attribution = cat.attribution.group (groupOf cur) := by
  obtain ⟨isbn₁, hchildren, hrest⟩ := run_bind_ok hrun
  obtain ⟨⟨rc', isbn₂⟩, hadd, hret⟩ := run_bind_ok hrest
  obtain ⟨h₁, hcur⟩ := groupChildren_spec cur.children (h.setCursor none isbn.curAgency) hchildren
  obtain ⟨room, -, hcopy⟩ := run_bind_ok hadd
  obtain ⟨r, hr, -⟩ := run_bind_ok hcopy
  obtain ⟨isbn₃, hok, h'⟩ := (h₁.setCursor _ _).addPrefix hr _
  rw [hok] at hadd
  cases hadd
  cases hret
  refine ⟨_, h', ?_⟩
  rw [hcur, Option.or_none]
  exact cat.attribution_group (groupOf cur) _

theorem parseRegistrationGroups_spec (children : List XmlNode) {isbn : IsbnInfo} {cat : Catalog}
    {err : ℕ} (h : Refines isbn cat)
    (hrun : parseRegistrationGroups isbn err children = .ok (rc, isbn')) :
    ∃ cat', Refines isbn' cat' ∧
      cat'.attribution = (groupsIn children).foldl Attribution.group cat.attribution := by
  induction children generalizing isbn cat err with
  | nil =>
    cases hrun
    exact ⟨cat, h, rfl⟩
  | cons cur next ih =>
    rw [parseRegistrationGroups] at hrun
    by_cases hn : cur.name = "Group"
    · rw [if_pos hn] at hrun
      obtain ⟨⟨rc₁, isbn₁⟩, hgroup, hrest⟩ := run_bind_ok hrun
      obtain ⟨cat₁, h₁, hattr₁⟩ := parseGroup_spec h hgroup
      obtain ⟨cat', h', hattr⟩ := ih h₁ hrest
      exact ⟨cat', h', by simp [groupsIn, hn, hattr, hattr₁]⟩
    · rw [if_neg hn] at hrun
      obtain ⟨cat', h', hattr⟩ := ih h hrun
      exact ⟨cat', h', by simp [groupsIn, hn, hattr]⟩

theorem parseMessage_spec (children : List XmlNode) {isbn : IsbnInfo} {cat : Catalog} {err : ℕ}
    (h : Refines isbn cat) (hrun : parseMessage isbn err children = .ok (rc, isbn')) :
    ∃ cat', Refines isbn' cat' ∧
      cat'.attribution = (messageGroups children).foldl Attribution.group cat.attribution := by
  induction children generalizing isbn cat err with
  | nil =>
    cases hrun
    exact ⟨cat, h, rfl⟩
  | cons cur next ih =>
    rw [parseMessage] at hrun
    by_cases hn : cur.name = "RegistrationGroups"
    · rw [if_pos hn] at hrun
      obtain ⟨⟨rc₁, isbn₁⟩, hgroups, hrest⟩ := run_bind_ok hrun
      obtain ⟨cat₁, h₁, hattr₁⟩ := parseRegistrationGroups_spec cur.children h hgroups
      obtain ⟨cat', h', hattr⟩ := ih h₁ hrest
      exact ⟨cat', h', by simp [messageGroups, hn, hattr, hattr₁]⟩
    · rw [if_neg hn] at hrun
      obtain ⟨cat', h', hattr⟩ := ih h hrun
      exact ⟨cat', h', by simp [messageGroups, hn, hattr]⟩

theorem parseDoc_spec {root : Option XmlNode}
    (hrun : builtTable root = .ok (rc, isbn')) :
    ∃ cat, Refines isbn' cat ∧
      cat.attribution = (docGroups root).foldl Attribution.group ⟨[], []⟩ := by
  obtain ⟨isbn, hnew, h⟩ := newIsbnInfo_refines
  rw [builtTable, hnew, run_ok_bind] at hrun
  have h₀ : Refines { isbn with curValue := 0 } Catalog.empty :=
    ⟨h.prefixes, h.ranges, h.pending, h.dict, rfl, h.prefixNr, h.prefixLen, h.ruleNr, h.rangesLen,
      h.short⟩
  cases root with
  | none =>
    cases hrun
    exact ⟨_, h₀, rfl⟩
  | some cur =>
    rw [parseDoc] at hrun
    by_cases hn : cur.name ≠ "ISBNRangeMessage"
    · rw [if_pos hn] at hrun
      cases hrun
      exact ⟨_, h₀, by rw [docGroups, if_pos hn]; rfl⟩
    · rw [if_neg hn] at hrun
      obtain ⟨cat, h', hattr⟩ := parseMessage_spec cur.children h₀ hrun
      exact ⟨cat, h', by rw [docGroups, if_neg hn, hattr]; rfl⟩

def IsbnInfo.spanned (isbn : IsbnInfo) : List (Option CStr × List (Option IsbnRange)) :=
  isbn.rows.map fun row => (row.pfx, (List.range row.nrules).map fun i =>
    row.ruleIdx.bind fun idx => isbn.rangesVec.read (idx + i))

def asCells (p : CStr × List IsbnRange) : Option CStr × List (Option IsbnRange) :=
  (some p.1, p.2.map some)

theorem asCells_injective : Function.Injective asCells := by
  rintro ⟨k, rs⟩ ⟨k', rs'⟩ h
  simp only [asCells, Prod.mk.injEq, Option.some_inj] at h
  exact Prod.ext h.1 (List.map_injective_iff.mpr (Option.some_injective _) h.2)

theorem Refines.spanned (h : Refines isbn cat) :
    isbn.spanned = cat.attribution.spans.map asCells := by
  obtain ⟨hrows, hall⟩ := h.rows
  have hlen : isbn.rows.length = cat.entries.length := by rw [hall.length_eq, length_located]
  rw [IsbnInfo.spanned, Catalog.attribution, List.map_map]
  refine List.ext_getElem? fun k => ?_
  rw [List.getElem?_map, List.getElem?_map]
  cases he : cat.entries[k]? with
  | none =>
    rw [List.getElem?_eq_none_iff, ← hlen, ← List.getElem?_eq_none_iff] at he
    rw [he]
    rfl
  | some e =>
    obtain ⟨row, start, hread, ⟨hpfx, -, hn, hidx⟩, -, hcells⟩ := h.entry he
    have hk : k < isbn.rows.length := hlen ▸ (List.getElem?_eq_some_iff.mp he).1
    have hrow : isbn.rows[k]? = some row := by rw [← hrows.2 k hk, hread]
    rw [hrow, Option.map_some, Option.map_some, Option.some_inj]
    refine Prod.ext hpfx (List.ext_getElem? fun i => ?_)
    dsimp only [Function.comp_apply, asCells] at hn hidx ⊢
    rw [List.getElem?_map, List.getElem?_map, hn]
    by_cases hi : i < e.rules.length
    · have hsome : row.ruleIdx = some start := by
        rcases hidx with hidx | ⟨-, hnil⟩
        · exact hidx
        · rw [hnil] at hi
          exact absurd hi (Nat.not_lt_zero i)
      rw [List.getElem?_range hi, hsome, Option.map_some, Option.bind_some, hcells i hi,
        List.getElem?_eq_getElem hi]
      rfl
    · rw [List.getElem?_eq_none (by rw [List.length_range]; omega),
        List.getElem?_eq_none (by omega)]
      rfl

/-- Every entry spans the rules of its own group if and only if no refused group
with rules stands before an accepted one: the early return of `add_prefix` does
not clear the entry that is being built. -/
theorem rules_stay_with_group {root : Option XmlNode}
    (hrun : builtTable root = .ok (rc, isbn)) :
    isbn.spanned = (ownSpans (docGroups root)).map asCells ↔
      (docGroups root).Pairwise fun g h => ¬ Leaks g h := by
  obtain ⟨cat, h, hattr⟩ := parseDoc_spec hrun
  have hiff := attribution_eq_own_iff (docGroups root) ⟨[], []⟩
  simp only [List.nil_append, true_or, true_and] at hiff
  rw [h.spanned, hattr, asCells_injective.list_map.eq_iff, hiff]

def sampleMessage (groups : List (CStr × CStr)) : Option XmlNode :=
  some (.mk "ISBNRangeMessage" none [.mk "RegistrationGroups" none (groups.map fun g =>
    .mk "Group" none [.mk "Prefix" (some g.1) [], .mk "Agency" (some (lit ['A'])) [],
      .mk "Rules" none [.mk "Rule" none [.mk "Range" (some (lit ['0', '-', '9'])) [],
        .mk "Length" (some g.2) []]]])])

theorem refused_group_leaks_rules :
    (builtTable (sampleMessage [(lit ['x'], lit ['1']), (lit ['9'], lit ['2'])]) >>= fun ret =>
        (.ok ret.2.spanned : Run _)) =
      .ok [(some (lit ['9']), [some ⟨1, 0, 9⟩, some ⟨2, 0, 9⟩])] ∧
    (ownSpans (docGroups (sampleMessage [(lit ['x'], lit ['1']), (lit ['9'], lit ['2'])]))).map
      asCells = [(some (lit ['9']), [some ⟨2, 0, 9⟩])] := by
  decide +kernel

theorem rules_stay_with_group_sample :
    ∃ rc isbn, builtTable (sampleMessage [(lit ['9'], lit ['1']), (lit ['x'], lit ['2'])]) =
        .ok (rc, isbn) ∧
      isbn.spanned = (ownSpans (docGroups
        (sampleMessage [(lit ['9'], lit ['1']), (lit ['x'], lit ['2'])]))).map asCells := by
  have hok : (builtTable (sampleMessage [(lit ['9'], lit ['1']), (lit ['x'], lit ['2'])]) >>=
      fun _ => (.ok () : Run Unit)) = .ok () := by decide +kernel
  obtain ⟨⟨rc, isbn⟩, hrun, -⟩ := run_bind_ok hok
  exact ⟨rc, isbn, hrun, (rules_stay_with_group hrun).mpr (by decide +kernel)⟩

end IsbnHyphenate
