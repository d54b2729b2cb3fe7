import IsbnHyphenate.IsbnGroups
import IsbnHyphenate.IsbnTexts

/-!
# Which bad groups are reported

The walk over a group ends at its first empty `Prefix` or `Agency`, whose text
is NULL, and at its first list with a rule that is refused. A walk that comes to
the end of the group reports what is missing: the prefix of this group, or the
agency of all groups so far. The return code of `add_prefix` is lost.
-/

namespace IsbnHyphenate

namespace XmlNode

def NoText (cur : XmlNode) : Prop :=
  (cur.name = "Prefix" ∨ cur.name = "Agency") ∧ cur.text = none

def Unruly (cur : XmlNode) : Prop :=
  cur.name = "Rules" ∧ ∃ r ∈ cur.children, r.name = "Rule" ∧ ruleOf r = none

instance (cur : XmlNode) : Decidable cur.NoText :=
  inferInstanceAs (Decidable ((cur.name = "Prefix" ∨ cur.name = "Agency") ∧ cur.text = none))

instance (cur : XmlNode) : Decidable cur.Unruly :=
  inferInstanceAs (Decidable (cur.name = "Rules" ∧
    ∃ r ∈ cur.children, r.name = "Rule" ∧ ruleOf r = none))

def halt (cur : XmlNode) : Option XmlNode :=
  cur.children.find? fun c => decide (c.NoText ∨ c.Unruly)

def Lacks (cur : XmlNode) (name : String) : Prop := ∀ c ∈ cur.children, c.name ≠ name

instance (cur : XmlNode) (name : String) : Decidable (cur.Lacks name) :=
  inferInstanceAs (Decidable (∀ c ∈ cur.children, c.name ≠ name))

end XmlNode

def keysIn (children : List XmlNode) : List CStr := (groupsIn children).filterMap Group.key

/-- Something is missing, empty or not a number, or the prefix is that of an
earlier group. -/
def BadGroup (earlier : List CStr) (cur : XmlNode) : Prop :=
  cur.Lacks "Prefix" ∨ cur.Lacks "Agency" ∨ (∃ c ∈ cur.children, c.NoText) ∨
    ∃ c ∈ cur.children, c.name = "Prefix" ∧
      ∃ pfx, c.text = some pfx ∧ (¬ Numeric pfx ∨ digitsOf pfx ∈ earlier)

/-- No NULL text is used, and a bad group makes `parseGroup` and then
`parseRegistrationGroups` return an error. -/
structure Reported (isbn : IsbnInfo) (earlier : List CStr) (cur : XmlNode) : Prop where
  texts : parseGroup isbn cur ≠ .error .badRead
  group : BadGroup earlier cur → ∃ rc isbn', parseGroup isbn cur = .ok (rc, isbn') ∧ rc ≠ 0
  groups : BadGroup earlier cur → ∀ err next rc isbn',
    parseRegistrationGroups isbn err (cur :: next) = .ok (rc, isbn') → rc ≠ 0

variable {isbn isbn' : IsbnInfo} {cat : Catalog} {rc : ℕ}

theorem addRule_curAgency {len : UInt64} {lbound ubound : UInt32}
    (hrun : addRule isbn len lbound ubound = .ok (rc, isbn')) :
    isbn'.curAgency = isbn.curAgency := by
  obtain ⟨room, -, hwrite⟩ := run_bind_ok hrun
  obtain ⟨ranges, -, hret⟩ := run_bind_ok hwrite
  cases hret
  rfl

theorem addPrefix_curAgency {pfx agency : CStr}
    (hrun : addPrefix isbn pfx agency = .ok (rc, isbn')) : isbn'.curAgency = isbn.curAgency := by
  obtain ⟨room, -, hcopy⟩ := run_bind_ok hrun
  obtain ⟨numeric, -, hstore⟩ := run_bind_ok hcopy
  cases numeric with
  | none =>
    cases hstore
    rfl
  | some numeric =>
    obtain ⟨pfxtbl, -, hadd⟩ := run_bind_ok hstore
    obtain ⟨ret, -, hret⟩ := run_bind_ok hadd
    cases hret
    rfl

theorem parseRule_run (h : Refines isbn cat) (cur : XmlNode) :
    (ruleOf cur = none ∧ parseRule isbn cur = .error (.exit 2)) ∨
      ∃ r isbn', ruleOf cur = some r ∧ parseRule isbn cur = .ok isbn' ∧
        isbn'.curAgency = isbn.curAgency := by
  obtain ⟨rule, hrule⟩ := ruleOfStr_returns (ruleKeys none none cur.children).1
    (ruleKeys none none cur.children).2
  have hof : ruleOf cur = rule := by simp only [ruleOf, hrule]
  cases rule with
  | none =>
    refine Or.inl ⟨hof, ?_⟩
    simp only [parseRule, addRuleStr, hrule, run_ok_bind]
    rfl
  | some r =>
    obtain ⟨isbn', hadd, -, -⟩ := h.addRule r
    refine Or.inr ⟨r, isbn', hof, ?_, addRule_curAgency hadd⟩
    simp only [parseRule, addRuleStr, hrule, run_ok_bind, hadd]
    rfl

theorem parseRules_run (children : List XmlNode) {isbn : IsbnInfo} {cat : Catalog}
    (h : Refines isbn cat) :
    ((∃ r ∈ children, r.name = "Rule" ∧ ruleOf r = none) ∧
      parseRules isbn children = .error (.exit 2)) ∨
    ((∀ r ∈ children, r.name = "Rule" → ruleOf r ≠ none) ∧
      ∃ isbn', parseRules isbn children = .ok isbn' ∧ isbn'.curAgency = isbn.curAgency) := by
  induction children generalizing isbn cat with
  | nil => exact Or.inr ⟨by simp, isbn, rfl, rfl⟩
  | cons cur next ih =>
    rw [parseRules]
    by_cases hn : cur.name = "Rule"
    · rw [if_pos hn]
      rcases parseRule_run h cur with ⟨hnone, hstop⟩ | ⟨r, isbn₁, hr, hrule, hagency₁⟩
      · exact Or.inl ⟨⟨cur, List.mem_cons_self, hn, hnone⟩, by rw [hstop, run_error_bind]⟩
      · obtain ⟨r₁, -, h₁, -⟩ := parseRule_spec h hrule
        rw [hrule, run_ok_bind]
        rcases ih h₁ with ⟨⟨r', hmem, hbad⟩, hstop⟩ | ⟨hall, isbn', hrun, hagency⟩
        · exact Or.inl ⟨⟨r', List.mem_cons_of_mem _ hmem, hbad⟩, hstop⟩
        · refine Or.inr ⟨?_, isbn', hrun, hagency.trans hagency₁⟩
          intro r' hmem hn'
          rcases List.mem_cons.mp hmem with heq | hmem
          · rw [heq, hr]
            exact Option.some_ne_none r
          · exact hall r' hmem hn'
    · rw [if_neg hn]
      rcases ih h with ⟨⟨r', hmem, hbad⟩, hstop⟩ | ⟨hall, isbn', hrun, hagency⟩
      · exact Or.inl ⟨⟨r', List.mem_cons_of_mem _ hmem, hbad⟩, hstop⟩
      · refine Or.inr ⟨?_, isbn', hrun, hagency⟩
        intro r' hmem hn'
        rcases List.mem_cons.mp hmem with heq | hmem
        · exact (hn (heq ▸ hn')).elim
        · exact hall r' hmem hn'

theorem groupChildren_run (cur : XmlNode) {isbn : IsbnInfo} {cat : Catalog} (h : Refines isbn cat) :
    (∃ c, cur.halt = some c ∧
      groupChildren isbn cur.children = .error (if c.NoText then .badRead else .exit 2)) ∨
    (cur.halt = none ∧ ∃ isbn', groupChildren isbn cur.children = .ok isbn' ∧
      isbn'.curAgency = (lastText "Agency" cur.children).or isbn.curAgency) := by
  rw [XmlNode.halt]
  induction cur.children generalizing isbn cat with
  | nil => exact Or.inr ⟨rfl, isbn, rfl, rfl⟩
  | cons cur next ih =>
    rw [groupChildren, List.find?_cons]
    by_cases hp : cur.name = "Prefix"
    · have hu : ¬ cur.Unruly := fun hu => absurd (hp.symm.trans hu.1) (by decide)
      have ha : ¬ cur.name = "Agency" := by rw [hp]; decide
      rw [if_pos hp, textOf]
      cases htext : cur.text with
      | none =>
        have hno : cur.NoText := ⟨Or.inl hp, htext⟩
        refine Or.inl ⟨cur, by simp [hno], ?_⟩
        rw [if_pos hno]
        rfl
      | some key =>
        have hno : ¬ cur.NoText := fun hno => Option.some_ne_none key (htext.symm.trans hno.2)
        simp only [run_ok_bind, hno, hu, or_self, decide_false, lastText, if_neg ha, Option.or_none]
        exact ih (h.setCursor (some key) isbn.curAgency)
    · rw [if_neg hp]
      by_cases ha : cur.name = "Agency"
      · have hu : ¬ cur.Unruly := fun hu => absurd (ha.symm.trans hu.1) (by decide)
        rw [if_pos ha, textOf]
        cases htext : cur.text with
        | none =>
          have hno : cur.NoText := ⟨Or.inr ha, htext⟩
          refine Or.inl ⟨cur, by simp [hno], ?_⟩
          rw [if_pos hno]
          rfl
        | some key =>
          have hno : ¬ cur.NoText := fun hno => Option.some_ne_none key (htext.symm.trans hno.2)
          simp only [run_ok_bind, hno, hu, or_self, decide_false, lastText, if_pos ha]
          rcases ih (h.setCursor isbn.curPrefix _) with hstop | ⟨hfind, isbn', hrun, hagency⟩
          · exact Or.inl hstop
          · refine Or.inr ⟨hfind, isbn', hrun, ?_⟩
            have hkey : (if isbn.curAgency ≠ some key then none else isbn.curAgency).getD key =
                key := by
              split_ifs with hold
              · rfl
              · rw [not_not.mp hold, Option.getD_some]
            rw [hagency, hkey, Option.or_assoc, htext]
            rfl
      · have hno : ¬ cur.NoText := fun hno => hno.1.elim hp ha
        rw [if_neg ha]
        by_cases hr : cur.name = "Rules"
        · rw [if_pos hr]
          rcases parseRules_run cur.children h with ⟨hbad, hstop⟩ | ⟨hall, isbn₁, hrules, hagency₁⟩
          · have hu : cur.Unruly := ⟨hr, hbad⟩
            refine Or.inl ⟨cur, by simp [hu], ?_⟩
            rw [hstop, run_error_bind, if_neg hno]
          · have hu : ¬ cur.Unruly := by
              intro hu
              obtain ⟨r, hmem, hn, hnone⟩ := hu.2
              exact hall r hmem hn hnone
            have h₁ := (parseRules_spec cur.children h hrules).1
            simp only [hrules, run_ok_bind, hno, hu, or_self, decide_false, lastText, if_neg ha,
              Option.or_none, ← hagency₁]
            exact ih h₁
        · have hu : ¬ cur.Unruly := fun hu => hr hu.1
          simp only [if_neg hr, hno, hu, or_self, decide_false, lastText, if_neg ha,
            Option.or_none]
          exact ih h

def prefixText (cur : XmlNode) : CStr := (lastText "Prefix" cur.children).getD PREFIX_ERROR

theorem parseGroup_halts (h : Refines isbn cat) {cur c : XmlNode} (hc : cur.halt = some c) :
    parseGroup isbn cur = .error (if c.NoText then .badRead else .exit 2) := by
  rcases groupChildren_run cur (h.setCursor none isbn.curAgency) with ⟨c', hc', hstop⟩ | ⟨hnone, -⟩
  · rw [hc] at hc'
    cases hc'
    rw [parseGroup, hstop, run_error_bind]
  · rw [hc] at hnone
    cases hnone

theorem parseGroup_walks (h : Refines isbn cat) {cur : XmlNode} (hc : cur.halt = none) :
    (DigitsFit (prefixText cur) ∧ ∃ isbn', parseGroup isbn cur =
      .ok (if lastText "Prefix" cur.children = none ∨
        lastText "Agency" cur.children = none ∧ isbn.curAgency = none then 1 else 0, isbn')) ∨
    (¬ DigitsFit (prefixText cur) ∧ parseGroup isbn cur = .error .badWrite) := by
  have h₀ := h.setCursor none isbn.curAgency
  rcases groupChildren_run cur h₀ with ⟨c, hsome, -⟩ | ⟨-, isbn₁, hwalk, hagency⟩
  · rw [hc] at hsome
    cases hsome
  · obtain ⟨h₁, hlast⟩ := groupChildren_spec cur.children h₀ hwalk
    rw [Option.or_none] at hlast
    have hcursor := h₁.setCursor (some (isbn₁.curPrefix.getD PREFIX_ERROR))
      (some (isbn₁.curAgency.getD AGENCY_ERROR))
    have hpfx : isbn₁.curPrefix.getD PREFIX_ERROR = prefixText cur := by rw [hlast, prefixText]
    rw [parseGroup, hwalk, run_ok_bind]
    simp only [hlast, hagency, Option.or_eq_none_iff]
    by_cases hfit : DigitsFit (prefixText cur)
    · obtain ⟨rc, isbn', hadd⟩ := hcursor.addPrefix_returns (hpfx ▸ hfit)
        (isbn₁.curAgency.getD AGENCY_ERROR)
      simp only [hlast, hagency] at hadd
      refine Or.inl ⟨hfit, isbn', ?_⟩
      rw [hadd]
      rfl
    · have hover := not_not.mp (mt (hcursor.addPrefix_inside_iff (prefixText cur)
        (isbn₁.curAgency.getD AGENCY_ERROR)).mp hfit)
      rw [← hpfx] at hover
      simp only [hlast, hagency] at hover
      refine Or.inr ⟨hfit, ?_⟩
      rw [hover, run_error_bind]

theorem parseGroup_curAgency {cur : XmlNode} (hrun : parseGroup isbn cur = .ok (rc, isbn')) :
    isbn'.curAgency ≠ none := by
  obtain ⟨isbn₁, -, hadd⟩ := run_bind_ok hrun
  obtain ⟨⟨rc', isbn₂⟩, hadd, hret⟩ := run_bind_ok hadd
  cases hret
  rw [addPrefix_curAgency hadd]
  exact Option.some_ne_none _

theorem groups_curAgency (children : List XmlNode) {isbn : IsbnInfo} {err : ℕ}
    (hrun : parseRegistrationGroups isbn err children = .ok (rc, isbn')) :
    isbn'.curAgency = none ↔ isbn.curAgency = none ∧ groupsIn children = [] := by
  induction children generalizing isbn err with
  | nil =>
    cases hrun
    simp [groupsIn]
  | cons cur next ih =>
    rw [parseRegistrationGroups] at hrun
    by_cases hn : cur.name = "Group"
    · rw [if_pos hn] at hrun
      obtain ⟨⟨rc₁, isbn₁⟩, hgroup, hrest⟩ := run_bind_ok hrun
      have hsome := parseGroup_curAgency hgroup
      rw [ih hrest]
      simp [hsome, groupsIn, hn]
    · rw [if_neg hn] at hrun
      rw [ih hrun]
      simp [groupsIn, hn]

theorem groups_keep_error (children : List XmlNode) {isbn : IsbnInfo} {err : ℕ} (herr : err ≠ 0)
    (hrun : parseRegistrationGroups isbn err children = .ok (rc, isbn')) : rc ≠ 0 := by
  induction children generalizing isbn err with
  | nil =>
    cases hrun
    exact herr
  | cons cur next ih =>
    rw [parseRegistrationGroups] at hrun
    split_ifs at hrun with hn
    · obtain ⟨⟨rc₁, isbn₁⟩, -, hrest⟩ := run_bind_ok hrun
      refine ih ?_ hrest
      split_ifs
      · decide
      · exact herr
    · exact ih herr hrun

theorem lastText_eq_none {name : String} {children : List XmlNode}
    (htext : ∀ c ∈ children, c.name = name → c.text ≠ none) :
    lastText name children = none ↔ ∀ c ∈ children, c.name ≠ name := by
  induction children with
  | nil => simp [lastText]
  | cons cur next ih =>
    have hcur := htext cur List.mem_cons_self
    rw [lastText, Option.or_eq_none_iff, ih fun c hc => htext c (List.mem_cons_of_mem _ hc),
      List.forall_mem_cons]
    by_cases hn : cur.name = name
    · simp [hn, hcur hn]
    · simp [hn]

theorem lastText_lacks {cur : XmlNode} (hc : cur.halt = none) :
    (lastText "Prefix" cur.children = none ↔ cur.Lacks "Prefix") ∧
      (lastText "Agency" cur.children = none ↔ cur.Lacks "Agency") := by
  have hread : ∀ c ∈ cur.children, c.name = "Prefix" ∨ c.name = "Agency" → c.text ≠ none := by
    intro c hmem hname hnone
    have hfind := List.find?_eq_none.mp hc c hmem
    exact hfind (decide_eq_true (Or.inl ⟨hname, hnone⟩))
  exact ⟨lastText_eq_none fun c hmem hn => hread c hmem (Or.inl hn),
    lastText_eq_none fun c hmem hn => hread c hmem (Or.inr hn)⟩

/-- No empty text is met, and a bad group is read to its end, has a prefix that
fits, and lacks the prefix, or the agency as the first group. -/
def Noticed (history : List XmlNode) (cur : XmlNode) : Prop :=
  (∀ c, cur.halt = some c → ¬ c.NoText) ∧
    (BadGroup (keysIn history) cur → cur.halt = none ∧ DigitsFit (prefixText cur) ∧
      (cur.Lacks "Prefix" ∨ cur.Lacks "Agency" ∧ groupsIn history = []))

theorem Refines.reported_iff (h : Refines isbn cat) {history : List XmlNode}
    (hagency : isbn.curAgency = none ↔ groupsIn history = []) {cur : XmlNode}
    (hname : cur.name = "Group") :
    Reported isbn (keysIn history) cur ↔ Noticed history cur := by
  have hmissing : cur.halt = none → ((lastText "Prefix" cur.children = none ∨
      lastText "Agency" cur.children = none ∧ isbn.curAgency = none) ↔
      (cur.Lacks "Prefix" ∨ cur.Lacks "Agency" ∧ groupsIn history = [])) := by
    intro hc
    rw [(lastText_lacks hc).1, (lastText_lacks hc).2, hagency]
  constructor
  · intro hrep
    refine ⟨fun c hc hno => ?_, fun hbad => ?_⟩
    · have hrun := parseGroup_halts h hc
      rw [if_pos hno] at hrun
      exact hrep.texts hrun
    · obtain ⟨rc, isbn', hrun, hrc⟩ := hrep.group hbad
      cases hc : cur.halt with
      | some c =>
        rw [parseGroup_halts h hc] at hrun
        cases hrun
      | none =>
        rcases parseGroup_walks h hc with ⟨hfit, isbn₁, hwalk⟩ | ⟨-, hover⟩
        · rw [hwalk] at hrun
          cases hrun
          refine ⟨rfl, hfit, ?_⟩
          by_contra hnone
          rw [if_neg (fun hm => hnone ((hmissing hc).mp hm))] at hrc
          exact hrc rfl
        · rw [hover] at hrun
          cases hrun
  · intro hnot
    rcases hnot with ⟨hread, hlack⟩
    have hreturn : BadGroup (keysIn history) cur →
        ∃ isbn', parseGroup isbn cur = .ok (1, isbn') := by
      intro hbad
      obtain ⟨hc, hfit, hmiss⟩ := hlack hbad
      rcases parseGroup_walks h hc with ⟨-, isbn', hwalk⟩ | ⟨hover, -⟩
      · rw [if_pos ((hmissing hc).mpr hmiss)] at hwalk
        exact ⟨isbn', hwalk⟩
      · exact (hover hfit).elim
    refine ⟨fun hrun => ?_, fun hbad => ?_, fun hbad err next rc isbn' hrun => ?_⟩
    · cases hc : cur.halt with
      | some c =>
        rw [parseGroup_halts h hc, if_neg (hread c hc)] at hrun
        cases hrun
      | none =>
        rcases parseGroup_walks h hc with ⟨-, isbn', hwalk⟩ | ⟨-, hover⟩
        · rw [hwalk] at hrun
          cases hrun
        · rw [hover] at hrun
          cases hrun
    · obtain ⟨isbn', hrun⟩ := hreturn hbad
      exact ⟨1, isbn', hrun, by decide⟩
    · obtain ⟨isbn₁, hgroup⟩ := hreturn hbad
      rw [parseRegistrationGroups, if_pos hname, hgroup, run_ok_bind] at hrun
      exact groups_keep_error next (by simp) hrun

/-- After any groups, a bad group is reported if and only if it is read to its
end and lacks its prefix, or the agency when no group came before. -/
theorem bad_group_reported_iff {history : List XmlNode}
    (hrun : (newIsbnInfo >>= fun isbn => parseRegistrationGroups isbn 0 history) =
      .ok (rc, isbn)) {cur : XmlNode} (hname : cur.name = "Group") :
    Reported isbn (keysIn history) cur ↔ Noticed history cur := by
  obtain ⟨isbn₀, hnew, hgroups⟩ := run_bind_ok hrun
  obtain ⟨isbn₁, hnew₁, h₁⟩ := newIsbnInfo_refines
  rw [hnew] at hnew₁
  cases hnew₁
  have hnone : isbn₀.curAgency = none := by
    obtain ⟨fst, -, hret⟩ := run_bind_ok hnew
    cases hret
    rfl
  obtain ⟨cat, h, -⟩ := parseRegistrationGroups_spec history h₁ hgroups
  have hagency := groups_curAgency history hgroups
  simp only [hnone, true_and] at hagency
  exact h.reported_iff hagency hname

def sampleGroup (children : List (String × Option CStr)) : XmlNode :=
  .mk "Group" none (children.map fun c => .mk c.1 c.2 [])

def firstGroup : XmlNode :=
  sampleGroup [("Prefix", some (lit "978-0".toList)), ("Agency", some (lit ['A']))]

def secondRc (cur : XmlNode) : Run ℕ := do
  let isbn ← newIsbnInfo
  let (_, isbn) ← parseRegistrationGroups isbn 0 [firstGroup]
  let (rc, _) ← parseGroup isbn cur
  .ok rc

theorem bad_group_reported_prefix :
    ∃ rc isbn, (newIsbnInfo >>= fun isbn => parseRegistrationGroups isbn 0 [firstGroup]) =
        .ok (rc, isbn) ∧
      Reported isbn (keysIn [firstGroup]) (sampleGroup [("Agency", some (lit ['B']))]) := by
  have hok : (newIsbnInfo >>= fun isbn => parseRegistrationGroups isbn 0 [firstGroup] >>=
      fun _ => (.ok () : Run Unit)) = .ok () := by decide +kernel
  obtain ⟨isbn₀, hnew, hrest⟩ := run_bind_ok hok
  obtain ⟨⟨rc, isbn⟩, hgroups, -⟩ := run_bind_ok hrest
  have hrun : (newIsbnInfo >>= fun isbn => parseRegistrationGroups isbn 0 [firstGroup]) =
      .ok (rc, isbn) := by rw [hnew, run_ok_bind, hgroups]
  have hwalk : (sampleGroup [("Agency", some (lit ['B']))]).halt = none := by decide +kernel
  refine ⟨rc, isbn, hrun, (bad_group_reported_iff hrun rfl).mpr ⟨fun c hc => ?_, fun _ => ?_⟩⟩
  · rw [hwalk] at hc
    cases hc
  · exact ⟨hwalk, by decide +kernel, Or.inl (by decide +kernel)⟩

/-- No agency after a group that had one, a prefix for the second time, and an
empty prefix. -/
theorem bad_group_passes :
    BadGroup (keysIn [firstGroup]) (sampleGroup [("Prefix", some (lit "978-1".toList))]) ∧
    secondRc (sampleGroup [("Prefix", some (lit "978-1".toList))]) = .ok 0 ∧
    BadGroup (keysIn [firstGroup])
      (sampleGroup [("Prefix", some (lit "978-0".toList)), ("Agency", some (lit ['B']))]) ∧
    secondRc (sampleGroup [("Prefix", some (lit "978-0".toList)), ("Agency", some (lit ['B']))]) =
      .ok 0 ∧
    secondRc (sampleGroup [("Prefix", none), ("Agency", some (lit ['B']))]) = .error .badRead := by
  have hagain : BadGroup (keysIn [firstGroup])
      (sampleGroup [("Prefix", some (lit "978-0".toList)), ("Agency", some (lit ['B']))]) :=
    Or.inr (Or.inr (Or.inr ⟨_, List.mem_cons_self, rfl, _, rfl, Or.inr (by decide +kernel)⟩))
  exact ⟨Or.inr (Or.inl (by decide)), by decide +kernel, hagain, by decide +kernel,
    by decide +kernel⟩

end IsbnHyphenate
