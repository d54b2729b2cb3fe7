import IsbnHyphenate.IsbnVerbose

/-!
# What a quiet run of the parser writes

Which messages appear on `eprint_fh`, in which order and with which paths, is
read off the document: one report for each group, up to the group that ends the
run. A run that returns is silent if it has nothing to complain of, and a lost
prefix is not among the complaints.
-/

namespace IsbnHyphenate.Traced
open Logged

variable {verbose : Bool} {isbn : IsbnInfo} {path : List CStr}

def refusal (path : List CStr) (r : XmlNode) : CStr :=
  let place := pathText (path ++ [say "Rule"]) ++ newlineText
  match IsbnHyphenate.ruleKeys none none r.children with
  | (none, _) => say "No range for " ++ place ++ say "Error in parseRule().\n"
  | (some _, none) => say "No range lengh for " ++ place ++ say "Error in parseRule().\n"
  | (some _, some _) => say "Error in parseRule().\n"

/-- The first refused rule is the last one. -/
def rulesReport (path : List CStr) (children : List XmlNode) : CStr :=
  match children.find? fun r => decide (r.name = "Rule" ∧ ruleOf r = none) with
  | some r => refusal path r
  | none => []

def lackReport (what : CStr) (path : List CStr) (child : Option CStr) : CStr :=
  if child = none then what ++ pathText path ++ newlineText else []

def endReport (path : List CStr) (agency : Option CStr) (cur : XmlNode) : CStr :=
  lackReport (say "No prefix for Group ") path (lastText "Prefix" cur.children) ++
    lackReport (say "No agency for Group ") path ((lastText "Agency" cur.children).or agency) ++
    if DigitsFit (prefixText cur) ∧ ¬ Numeric (prefixText cur) then
      say "Non-numeric character in prefix.\n"
    else []

def groupReport (path : List CStr) (agency : Option CStr) (cur : XmlNode) : CStr :=
  match cur.halt with
  | some c => if c.NoText then [] else rulesReport (path ++ [say "Rules"]) c.children
  | none => endReport path agency cur

theorem ruleKeys_quiet (path : List CStr) (children : List XmlNode)
    (rangeKey lengthKey : Option CStr) :
    ruleKeys false path rangeKey lengthKey children =
      ⟨[], .ok (IsbnHyphenate.ruleKeys rangeKey lengthKey children)⟩ := by
  induction children generalizing rangeKey lengthKey with
  | nil => rfl
  | cons cur next ih =>
    rw [ruleKeys, IsbnHyphenate.ruleKeys]
    split_ifs
    · rw [ih]
      rfl
    · rw [ih]
      rfl
    · exact ih _ _

theorem parseRule_log {cat : Catalog} (h : Refines isbn cat) (hp : path.length < 877)
    (cur : XmlNode) : (parseRule false ⟨isbn, path⟩ cur).log =
      if ruleOf cur = none then refusal path cur else [] := by
  have hof : ∀ r, IsbnHyphenate.ruleOfStr (IsbnHyphenate.ruleKeys none none cur.children).1
      (IsbnHyphenate.ruleKeys none none cur.children).2 = .ok r → ruleOf cur = r := by
    intro r hr
    simp only [ruleOf, hr]
  rw [parseRule, pushPath_ok hp, bind_ok, ruleKeys_quiet, bind_ok, refusal]
  generalize IsbnHyphenate.ruleKeys none none cur.children = keys at hof ⊢
  obtain ⟨range, len⟩ := keys
  cases range with
  | none =>
    rw [if_pos (hof none rfl)]
    simp [addRuleStr, fprintPath, emit, quit, pure_eq]
  | some range =>
    cases len with
    | none =>
      rw [if_pos (hof none rfl)]
      simp [addRuleStr, fprintPath, emit, quit, pure_eq]
    | some len =>
      obtain ⟨rule, hrule⟩ := ruleOfStr_returns (some range) (some len)
      rw [hof rule hrule]
      cases rule with
      | none => simp [addRuleStr, IsbnHyphenate.addRuleStr, hrule, silent, emit, quit]
      | some r =>
        obtain ⟨isbn', hadd, -⟩ := h.addRule r
        simp [addRuleStr, IsbnHyphenate.addRuleStr, hrule, silent, hadd, pure_eq]

theorem shown_quiet (children : List XmlNode) : Shown false children := fun hv => by cases hv

theorem shownRules_quiet (children : List XmlNode) : ShownRules false children :=
  fun r _ _ => shown_quiet r.children

theorem shownGroup_quiet (children : List XmlNode) : ShownGroup false children :=
  fun c _ _ => shownRules_quiet c.children

theorem shownGroups_quiet (groups : List XmlNode) : ShownGroups false groups :=
  fun g _ => shownGroup_quiet g.children

theorem rulesLoop_log (hp : path.length < 877) (children : List XmlNode) {isbn : IsbnInfo}
    {cat : Catalog} (h : Refines isbn cat) :
    (rulesLoop false ⟨isbn, path⟩ children).log = rulesReport path children := by
  induction children generalizing isbn cat with
  | nil => rfl
  | cons cur next ih =>
    rw [rulesLoop, rulesReport, List.find?_cons]
    by_cases hn : cur.name = "Rule"
    · rw [if_pos hn, bind_log, parseRule_log h hp, parseRule_ret hp (shown_quiet _)]
      rcases parseRule_run h cur with ⟨hnone, hstop⟩ | ⟨r, isbn', hr, hrule, -⟩
      · simp [hn, hnone, hstop, Except.map]
      · obtain ⟨r₁, -, h', -⟩ := parseRule_spec h hrule
        have hnext := ih h'
        rw [rulesReport] at hnext
        simp [hr, hrule, Except.map, hnext]
    · rw [if_neg hn]
      have hnext := ih h
      rw [rulesReport] at hnext
      simpa [hn] using hnext

theorem parseRules_log {cat : Catalog} (h : Refines isbn cat) (hp : path.length < 876)
    (cur : XmlNode) : (parseRules false ⟨isbn, path⟩ cur).log =
      rulesReport (path ++ [say "Rules"]) cur.children := by
  have hlen : (path ++ [say "Rules"]).length < 877 := by
    rw [List.length_append, List.length_singleton]
    omega
  rw [parseRules, pushPath_ok (hp.trans (by decide)), bind_ok, List.nil_append, bind_log,
    rulesLoop_log hlen _ h]
  split <;> simp [pure_eq]

theorem rulesReport_nil {c : XmlNode} (hr : c.name = "Rules") (hu : ¬ c.Unruly) :
    rulesReport path c.children = [] := by
  have hfind : (c.children.find? fun r => decide (r.name = "Rule" ∧ ruleOf r = none)) = none := by
    rw [List.find?_eq_none]
    intro r hmem hbad
    exact hu ⟨hr, r, hmem, of_decide_eq_true hbad⟩
  rw [rulesReport, hfind]

theorem groupChildren_log (hp : path.length < 876) (cur : XmlNode) {isbn : IsbnInfo}
    {cat : Catalog} (h : Refines isbn cat) :
    (groupChildren false ⟨isbn, path⟩ cur.children).log =
      match cur.halt with
      | some c => if c.NoText then [] else rulesReport (path ++ [say "Rules"]) c.children
      | none => [] := by
  rw [XmlNode.halt]
  induction cur.children generalizing isbn cat with
  | nil => rfl
  | cons cur next ih =>
    rw [groupChildren, List.find?_cons]
    by_cases hpfx : cur.name = "Prefix"
    · have hu : ¬ cur.Unruly := fun hu => absurd (hpfx.symm.trans hu.1) (by decide)
      rw [if_pos hpfx, textOf]
      cases htext : cur.text with
      | none => simp [XmlNode.NoText, hpfx, htext, silent]
      | some key =>
        have hno : ¬ cur.NoText := fun hno => Option.some_ne_none key (htext.symm.trans hno.2)
        simpa [hno, hu, silent, vprintlKv, pure_eq] using ih (h.setCursor (some key) isbn.curAgency)
    · rw [if_neg hpfx]
      by_cases ha : cur.name = "Agency"
      · have hu : ¬ cur.Unruly := fun hu => absurd (ha.symm.trans hu.1) (by decide)
        rw [if_pos ha, textOf]
        cases htext : cur.text with
        | none => simp [XmlNode.NoText, ha, htext, silent]
        | some key =>
          have hno : ¬ cur.NoText := fun hno => Option.some_ne_none key (htext.symm.trans hno.2)
          simpa [hno, hu, silent, vprintlKv, pure_eq] using ih (h.setCursor isbn.curPrefix _)
      · have hno : ¬ cur.NoText := fun hno => hno.1.elim hpfx ha
        rw [if_neg ha]
        by_cases hr : cur.name = "Rules"
        · rw [if_pos hr, bind_log, parseRules_log h hp, parseRules_ret hp (shownRules_quiet _)]
          rcases parseRules_run cur.children h with ⟨hbad, hstop⟩ | ⟨hall, isbn', hrules, -⟩
          · have hu : cur.Unruly := ⟨hr, hbad⟩
            simp [hno, hu, hstop, Except.map]
          · have hu : ¬ cur.Unruly := by
              intro hu
              obtain ⟨r, hmem, hn, hnone⟩ := hu.2
              exact hall r hmem hn hnone
            have h' := (parseRules_spec cur.children h hrules).1
            simpa [hno, hu, hrules, Except.map, rulesReport_nil hr hu] using ih h'
        · have hu : ¬ cur.Unruly := fun hu => hr hu.1
          rw [if_neg hr]
          simpa [hno, hu] using ih h

theorem addPrefix_log {cat : Catalog} (h : Refines isbn cat) (pfx agency : CStr) :
    (addPrefix isbn pfx agency).log =
      if DigitsFit pfx ∧ ¬ Numeric pfx then say "Non-numeric character in prefix.\n" else [] := by
  have hinside := copyNumeric_inside pfx
  rw [addPrefix, bind_log, silent]
  by_cases hfit : DigitsFit pfx
  · obtain ⟨rc, isbn', hadd⟩ := h.addPrefix_returns hfit agency
    rw [hadd]
    cases hcopy : copyNumeric [] pfx with
    | error e =>
      rw [copyNumeric_error hcopy] at hcopy
      exact (hinside.mpr hfit hcopy).elim
    | ok r =>
      rw [copyNumeric_ok hcopy]
      by_cases hn : Numeric pfx
      · simp [hn, pure_eq]
      · simp [hn, hfit, emit_bind, pure_eq]
  · rw [not_not.mp (mt (h.addPrefix_inside_iff pfx agency).mp hfit), if_neg fun hand => hfit hand.1]
    rfl

theorem reportMissing_log (what : CStr) (child : Option CStr) :
    (reportMissing what path child).log = lackReport what path child := by
  cases child with
  | none => simp [reportMissing, lackReport, fprintPath, emit]
  | some c => rfl

theorem parseGroup_log {doc : Doc} (h : Follows isbn doc) (hp : path.length < 875)
    (cur : XmlNode) : (parseGroup false ⟨isbn, path⟩ cur).log =
      groupReport (path ++ [say "Group"]) doc.agency cur := by
  have hlen : (path ++ [say "Group"]).length < 876 := by
    rw [List.length_append, List.length_singleton]
    omega
  have h₀ := h.table.setCursor none isbn.curAgency
  rw [parseGroup, pushPath_ok (hp.trans (by decide)), bind_ok, List.nil_append, bind_log,
    groupChildren_log hlen cur h₀, groupChildren_ret hlen _ (shownGroup_quiet _), groupReport]
  rcases groupChildren_run cur h₀ with ⟨c, hc, hstop⟩ | ⟨hc, isbn', hwalk, hagency⟩
  · simp only [hc, hstop, Except.map, List.append_nil]
  · obtain ⟨h₁, hlast⟩ := groupChildren_spec cur.children h₀ hwalk
    rw [Option.or_none] at hlast
    dsimp only at hagency
    rw [h.agency] at hagency
    have hadd := addPrefix_log (h₁.setCursor (some (isbn'.curPrefix.getD PREFIX_ERROR))
      (some (isbn'.curAgency.getD AGENCY_ERROR))) (isbn'.curPrefix.getD PREFIX_ERROR)
      (isbn'.curAgency.getD AGENCY_ERROR)
    have hrest : ∀ x : Noisy (ℕ × IsbnInfo), (x >>= fun ret =>
        (pure (if isbn'.curPrefix = none ∨ isbn'.curAgency = none then 1 else 0,
          State.mk ret.2 (popPath (path ++ [say "Group"]))) : Noisy (ℕ × State))).log = x.log := by
      intro x
      rw [bind_log]
      split <;> simp [pure_eq]
    simp only [hc, hwalk, Except.map, List.nil_append]
    rw [bind_log, reportMissing_log, reportMissing_ret]
    simp only
    rw [bind_log, reportMissing_log, reportMissing_ret]
    simp only
    rw [hrest, hadd, hlast, hagency, endReport, List.append_assoc]
    rfl

def groupsReport (path : List CStr) : Doc → List XmlNode → CStr
  | _, [] => []
  | doc, cur :: next =>
    groupReport path doc.agency cur ++
      match docGroup doc cur with
      | .ok group => groupsReport path group.2 next
      | .error _ => []

def groupPath : List CStr := [say "ISBNRangeMessage", say "RegistrationGroups", say "Group"]

def docReport : Document → CStr
  | none => say "Document not parsed successfully.\n"
  | some none => say "empty document\n"
  | some (some cur) =>
    if cur.name = "ISBNRangeMessage" then groupsReport groupPath Doc.empty (groupNodes (some cur))
    else say "document of the wrong type, root node != ISBNRangeMessage\n"

theorem groupsReport_append (path : List CStr) (groups more : List XmlNode) (doc : Doc) :
    groupsReport path doc (groups ++ more) = groupsReport path doc groups ++
      match groups.foldlM docStep (false, doc) with
      | .ok read => groupsReport path read.2 more
      | .error _ => [] := by
  induction groups generalizing doc with
  | nil => rfl
  | cons cur groups ih =>
    rw [List.cons_append, groupsReport, groupsReport, List.foldlM_cons, docStep, List.append_assoc]
    congr 1
    cases docGroup doc cur with
    | error e => rfl
    | ok group =>
      simp only [run_ok_bind, ih]
      congr 1
      rw [docStep_bad groups (false || group.1)]
      cases groups.foldlM docStep (false, group.2) <;> rfl

theorem groupsLoop_log (hp : path.length < 875) (children : List XmlNode) {isbn : IsbnInfo}
    {doc : Doc} (h : Follows isbn doc) (err : ℕ) :
    (groupsLoop false ⟨isbn, path⟩ err children).log =
      groupsReport (path ++ [say "Group"]) doc (childrenNamed "Group" children) := by
  induction children generalizing isbn doc err with
  | nil => rfl
  | cons cur next ih =>
    rw [groupsLoop, childrenNamed_cons]
    split_ifs with hn
    · have hgroup := h.group cur
      rw [bind_log, parseGroup_log h hp, parseGroup_ret hp (shownGroup_quiet _), groupsReport]
      congr 1
      cases hrun : IsbnHyphenate.parseGroup isbn cur with
      | error e =>
        rw [hrun] at hgroup
        rw [hgroup.error_iff.mp rfl]
        rfl
      | ok ret =>
        rw [hrun] at hgroup
        obtain ⟨group, hdoc, -, h'⟩ := hgroup.to_ok
        rw [hdoc]
        exact ih h' _
    · exact ih h err

theorem parseRegistrationGroups_log {doc : Doc} (h : Follows isbn doc) (hp : path.length < 874)
    (cur : XmlNode) : (parseRegistrationGroups false ⟨isbn, path⟩ cur).log =
      groupsReport (path ++ [say "RegistrationGroups", say "Group"]) doc
        (childrenNamed "Group" cur.children) := by
  have hlen : (path ++ [say "RegistrationGroups"]).length < 875 := by
    rw [List.length_append, List.length_singleton]
    omega
  rw [parseRegistrationGroups, pushPath_ok (hp.trans (by decide)), bind_ok, List.nil_append,
    bind_log, groupsLoop_log hlen _ h, List.append_assoc, List.singleton_append]
  split <;> simp [pure_eq]

theorem messageLoop_log (hp : path.length < 874) (children : List XmlNode) {isbn : IsbnInfo}
    {doc : Doc} (h : Follows isbn doc) (err : ℕ) :
    (messageLoop false ⟨isbn, path⟩ err children).log =
      groupsReport (path ++ [say "RegistrationGroups", say "Group"]) doc
        (messageGroupNodes children) := by
  induction children generalizing isbn doc err with
  | nil => rfl
  | cons cur next ih =>
    rw [messageLoop, messageGroupNodes, childrenNamed_cons]
    split_ifs with hn
    · have hgroups := h.groups cur.children false
      rw [bind_log, parseRegistrationGroups_log h hp,
        parseRegistrationGroups_ret hp (shownGroups_quiet _), List.flatMap_cons,
        groupsReport_append]
      congr 1
      simp only [Bool.false_eq_true, if_false] at hgroups
      cases hrun : IsbnHyphenate.parseRegistrationGroups isbn 0 cur.children with
      | error e =>
        rw [hrun] at hgroups
        rw [hgroups.error_iff.mp rfl]
        rfl
      | ok ret =>
        rw [hrun] at hgroups
        obtain ⟨read, hdoc, -, h'⟩ := hgroups.to_ok
        rw [hdoc]
        exact ih h' _
    · exact ih h err

/-- A quiet run writes the report of the document and ends as the parser without
messages does, with an empty path. -/
theorem quiet_report (doc : Document) :
    (builtTable false doc).log = docReport doc ∧
      (builtTable false doc).ret =
        (IsbnHyphenate.builtTable doc.join).map fun ret => (ret.1, ⟨ret.2, []⟩) := by
  refine ⟨?_, builtTable_ret doc (shownGroups_quiet _)⟩
  obtain ⟨isbn, hnew, h⟩ := newIsbnInfo_follows
  rw [builtTable, hnew, silent, bind_ok, List.nil_append]
  cases doc with
  | none => rfl
  | some root =>
    cases root with
    | none => rfl
    | some cur =>
      rw [docReport, parseDoc]
      by_cases hn : cur.name = "ISBNRangeMessage"
      · rw [if_neg (not_not.mpr hn), if_pos hn, pushPath_ok (by simp), bind_ok,
          List.nil_append, bind_log, messageLoop_log (by simp) _ h, groupNodes_eq hn]
        split <;> simp [pure_eq, groupPath]
      · rw [if_pos hn, if_neg hn]
        rfl

theorem lackReport_eq_nil {what : CStr} {child : Option CStr} :
    lackReport what path child = [] ↔ child.isNone = false := by
  cases child with
  | none => simp [lackReport, pathText, newlineText, lit]
  | some c => simp [lackReport]

theorem groupReport_eq_nil {doc doc' : Doc} {cur : XmlNode} {bad : Bool}
    (hdoc : docGroup doc cur = .ok (bad, doc')) :
    groupReport path doc.agency cur = [] ↔ bad = false ∧ Numeric (prefixText cur) := by
  rw [docGroup] at hdoc
  rw [groupReport]
  cases hc : cur.halt with
  | some c =>
    rw [hc] at hdoc
    cases hdoc
  | none =>
    simp only [hc] at hdoc
    split_ifs at hdoc with hfit
    cases hdoc
    have hsay : say "Non-numeric character in prefix.\n" ≠ [] := List.cons_ne_nil _ _
    simp only [endReport, List.append_eq_nil_iff, lackReport_eq_nil, Bool.or_eq_false_iff, hfit,
      true_and]
    by_cases hn : Numeric (prefixText cur)
    · simp [hn]
    · simp [hn, hsay]

theorem groupsReport_eq_nil (path : List CStr) (groups : List XmlNode) {doc : Doc}
    {read : Bool × Doc}
    (hread : groups.foldlM docStep (false, doc) = .ok read) :
    groupsReport path doc groups = [] ↔
      read.1 = false ∧ ∀ g ∈ groups, Numeric (prefixText g) := by
  induction groups generalizing doc read with
  | nil =>
    cases hread
    simp [groupsReport]
  | cons cur groups ih =>
    rw [List.foldlM_cons, docStep] at hread
    cases hdoc : docGroup doc cur with
    | error e =>
      rw [hdoc] at hread
      cases hread
    | ok group =>
      rw [hdoc, run_ok_bind, run_ok_bind, docStep_bad] at hread
      obtain ⟨read', hrest, hret⟩ := run_bind_ok hread
      cases hret
      simp only [groupsReport, hdoc, List.append_eq_nil_iff, groupReport_eq_nil hdoc, ih hrest,
        List.forall_mem_cons, Bool.or_eq_false_iff, Bool.false_or]
      tauto

/-- A document that loads is loaded in silence if and only if the return code is
0 and every prefix is a number. A prefix that comes twice is never mentioned. -/
theorem quiet_silent_iff {doc : Document} {rc : ℕ} {isbn : IsbnInfo}
    (hrun : IsbnHyphenate.builtTable doc.join = .ok (rc, isbn)) :
    (builtTable false doc).log = [] ↔
      rc = 0 ∧ ∀ g ∈ groupNodes doc.join, Numeric (prefixText g) := by
  have hrel := builtTable_related doc.join
  rw [hrun] at hrel
  obtain ⟨read, hread, hrc, -⟩ := hrel.to_ok
  dsimp only at hrc
  rw [(quiet_report doc).1, hrc, docRc, docReport.eq_def]
  cases doc with
  | none => simp [say, lit]
  | some root =>
    cases root with
    | none => simp [say, lit]
    | some cur =>
      by_cases hn : cur.name = "ISBNRangeMessage"
      · have hreport := groupsReport_eq_nil groupPath _ hread
        simpa [hn] using hreport
      · simp [hn, say, lit]

theorem quiet_silent_sample :
    (builtTable false (some (sampleMessage [(lit ['9'], lit ['1']), (lit ['9'], lit ['2'])]))).log =
      [] := by
  have hok : (IsbnHyphenate.builtTable (sampleMessage [(lit ['9'], lit ['1']),
      (lit ['9'], lit ['2'])]) >>= fun ret => (.ok ret.1 : Run ℕ)) = .ok 0 := by decide +kernel
  obtain ⟨⟨rc, isbn⟩, hrun, hrc⟩ := run_bind_ok hok
  have hsilent := @quiet_silent_iff
    (some (sampleMessage [(lit ['9'], lit ['1']), (lit ['9'], lit ['2'])])) rc isbn hrun
  exact hsilent.mpr ⟨Except.ok.inj hrc, by decide +kernel⟩

end IsbnHyphenate.Traced
