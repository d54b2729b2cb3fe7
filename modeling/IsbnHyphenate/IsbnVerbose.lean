import IsbnHyphenate.IsbnDocument
import IsbnHyphenate.IsbnTrace

/-!
# How a run of the parser with messages ends

The names of the path are always inside the block, and a message changes
nothing in the table: the run ends as the one without messages does. A verbose
run also writes the texts of `Range` and `Length`, and ends at one that is NULL.
-/

namespace IsbnHyphenate.Traced
open Logged

theorem pathInside_iff (depth : ℕ) : PathInside depth ↔ depth < 877 := by
  simp only [PathInside, sizeofPointer, sizeofIsbnInfo, XML_MAX_DEPTH]
  omega

theorem pushPath_ok {path : List CStr} (hp : path.length < 877) (name : CStr) :
    pushPath path name = ⟨[], .ok (path ++ [name])⟩ := by
  rw [pushPath, if_neg (Nat.not_le.mpr (hp.trans (by decide))),
    if_pos ((pathInside_iff _).mpr hp)]
  rfl

theorem popPath_push (path : List CStr) (name : CStr) : popPath (path ++ [name]) = path :=
  List.dropLast_concat

variable {verbose : Bool} {isbn : IsbnInfo} {path : List CStr}

def Shown (verbose : Bool) (children : List XmlNode) : Prop :=
  verbose = true → ∀ c ∈ children, c.name = "Range" ∨ c.name = "Length" → c.text ≠ none

theorem vprintPath_ret : (vprintPath verbose path).ret = .ok () := by
  cases verbose <;> rfl

theorem vprintlKv_ret {k : CStr} {v : Option CStr} (hv : verbose = true → v ≠ none) :
    (vprintlKv verbose k v).ret = .ok () := by
  cases verbose with
  | false => rfl
  | true =>
    cases v with
    | none => exact (hv rfl rfl).elim
    | some v => rfl

theorem ruleKeys_ret {children : List XmlNode} (hs : Shown verbose children)
    (rangeKey lengthKey : Option CStr) :
    (ruleKeys verbose path rangeKey lengthKey children).ret =
      .ok (IsbnHyphenate.ruleKeys rangeKey lengthKey children) := by
  induction children generalizing rangeKey lengthKey with
  | nil => rfl
  | cons cur next ih =>
    have hnext : Shown verbose next := fun hv c hc => hs hv c (List.mem_cons_of_mem _ hc)
    have hcur := fun hv => hs hv cur List.mem_cons_self
    rw [ruleKeys, IsbnHyphenate.ruleKeys]
    by_cases hr : cur.name = "Range"
    · rw [if_pos hr, if_pos hr, bind_ret, vprintPath_ret, run_ok_bind, bind_ret,
        vprintlKv_ret fun hv => hcur hv (Or.inl hr), run_ok_bind, ih hnext]
    · rw [if_neg hr, if_neg hr]
      by_cases hl : cur.name = "Length"
      · rw [if_pos hl, if_pos hl, bind_ret, vprintlKv_ret fun hv => hcur hv (Or.inr hl),
          run_ok_bind, ih hnext]
      · rw [if_neg hl, if_neg hl, ih hnext]

theorem addRuleStr_ret (st : State) (rangeStr rangeLen : Option CStr) :
    (addRuleStr st rangeStr rangeLen).ret =
      IsbnHyphenate.addRuleStr st.isbn rangeStr rangeLen := by
  cases rangeStr with
  | none => rfl
  | some rangeStr => cases rangeLen <;> rfl

theorem parseRule_ret (hp : path.length < 877) {cur : XmlNode}
    (hs : Shown verbose cur.children) :
    (parseRule verbose ⟨isbn, path⟩ cur).ret =
      (IsbnHyphenate.parseRule isbn cur).map fun isbn => ⟨isbn, path⟩ := by
  rw [parseRule, pushPath_ok hp, bind_ret, run_ok_bind, bind_ret, ruleKeys_ret hs, run_ok_bind,
    bind_ret, addRuleStr_ret, IsbnHyphenate.parseRule]
  cases IsbnHyphenate.addRuleStr isbn _ _ with
  | error e => rfl
  | ok ret =>
    obtain ⟨rv, isbn'⟩ := ret
    simp only [run_ok_bind, popPath_push]
    split_ifs <;> rfl

def ShownRules (verbose : Bool) (children : List XmlNode) : Prop :=
  ∀ r ∈ children, r.name = "Rule" → Shown verbose r.children

def ShownGroup (verbose : Bool) (children : List XmlNode) : Prop :=
  ∀ c ∈ children, c.name = "Rules" → ShownRules verbose c.children

theorem rulesLoop_ret (hp : path.length < 877) (children : List XmlNode) {isbn : IsbnInfo}
    (hs : ShownRules verbose children) :
    (rulesLoop verbose ⟨isbn, path⟩ children).ret =
      (IsbnHyphenate.parseRules isbn children).map fun isbn => ⟨isbn, path⟩ := by
  induction children generalizing isbn with
  | nil => rfl
  | cons cur next ih =>
    rw [ShownRules, List.forall_mem_cons] at hs
    rw [rulesLoop, IsbnHyphenate.parseRules]
    by_cases hn : cur.name = "Rule"
    · rw [if_pos hn, if_pos hn, bind_ret, parseRule_ret hp (hs.1 hn)]
      cases IsbnHyphenate.parseRule isbn cur with
      | error e => rfl
      | ok isbn' => exact ih hs.2
    · rw [if_neg hn, if_neg hn, ih hs.2]

theorem parseRules_ret (hp : path.length < 876) {cur : XmlNode}
    (hs : ShownRules verbose cur.children) :
    (parseRules verbose ⟨isbn, path⟩ cur).ret =
      (IsbnHyphenate.parseRules isbn cur.children).map fun isbn => ⟨isbn, path⟩ := by
  have hlen : (path ++ [say "Rules"]).length < 877 := by
    rw [List.length_append, List.length_singleton]
    omega
  rw [parseRules, pushPath_ok (hp.trans (by decide)), bind_ret, run_ok_bind, bind_ret,
    rulesLoop_ret hlen _ hs]
  cases IsbnHyphenate.parseRules isbn cur.children with
  | error e => rfl
  | ok isbn' => exact congrArg (fun p => Except.ok (State.mk isbn' p)) (popPath_push _ _)

theorem groupChildren_ret (hp : path.length < 876) (children : List XmlNode) {isbn : IsbnInfo}
    (hs : ShownGroup verbose children) :
    (groupChildren verbose ⟨isbn, path⟩ children).ret =
      (IsbnHyphenate.groupChildren isbn children).map fun isbn => ⟨isbn, path⟩ := by
  induction children generalizing isbn with
  | nil => rfl
  | cons cur next ih =>
    rw [ShownGroup, List.forall_mem_cons] at hs
    rw [groupChildren, IsbnHyphenate.groupChildren]
    split_ifs with hpfx hagency hrules
    · rw [bind_ret, silent]
      cases textOf cur with
      | error e => rfl
      | ok key =>
        rw [run_ok_bind, bind_ret, vprintlKv_ret fun _ => Option.some_ne_none key, run_ok_bind,
          ih hs.2]
        rfl
    · rw [bind_ret, silent]
      cases textOf cur with
      | error e => rfl
      | ok key =>
        rw [run_ok_bind, bind_ret, vprintlKv_ret fun _ => Option.some_ne_none key, run_ok_bind,
          ih hs.2]
        rfl
    · rw [bind_ret, parseRules_ret hp (hs.1 hrules)]
      cases IsbnHyphenate.parseRules isbn cur.children with
      | error e => rfl
      | ok isbn' => exact ih hs.2
    · exact ih hs.2

theorem addPrefix_ret (isbn : IsbnInfo) (pfx agency : CStr) :
    (addPrefix isbn pfx agency).ret = IsbnHyphenate.addPrefix isbn pfx agency := by
  rw [addPrefix, bind_ret, silent]
  cases IsbnHyphenate.addPrefix isbn pfx agency with
  | error e => rfl
  | ok ret =>
    rw [run_ok_bind]
    split <;> rfl

theorem reportMissing_ret (what : CStr) (child : Option CStr) :
    (reportMissing what path child).ret = .ok () := by
  cases child <;> rfl

theorem parseGroup_ret (hp : path.length < 875) {cur : XmlNode}
    (hs : ShownGroup verbose cur.children) :
    (parseGroup verbose ⟨isbn, path⟩ cur).ret =
      (IsbnHyphenate.parseGroup isbn cur).map fun ret => (ret.1, ⟨ret.2, path⟩) := by
  have hlen : (path ++ [say "Group"]).length < 876 := by
    rw [List.length_append, List.length_singleton]
    omega
  rw [parseGroup, pushPath_ok (hp.trans (by decide)), bind_ret, run_ok_bind, bind_ret,
    groupChildren_ret hlen _ hs, IsbnHyphenate.parseGroup]
  cases IsbnHyphenate.groupChildren { isbn with curPrefix := none } cur.children with
  | error e => rfl
  | ok isbn' =>
    simp only [Except.map, run_ok_bind, bind_ret, reportMissing_ret, addPrefix_ret, popPath_push]
    cases IsbnHyphenate.addPrefix _ _ _ <;> rfl

theorem childrenNamed_cons (name : String) (cur : XmlNode) (next : List XmlNode) :
    childrenNamed name (cur :: next) =
      if cur.name = name then cur :: childrenNamed name next else childrenNamed name next := by
  simp only [childrenNamed, List.filter_cons, decide_eq_true_eq]

def ShownGroups (verbose : Bool) (groups : List XmlNode) : Prop :=
  ∀ g ∈ groups, ShownGroup verbose g.children

theorem groupsLoop_ret (hp : path.length < 875) (children : List XmlNode) {isbn : IsbnInfo}
    (err : ℕ) (hs : ShownGroups verbose (childrenNamed "Group" children)) :
    (groupsLoop verbose ⟨isbn, path⟩ err children).ret =
      (IsbnHyphenate.parseRegistrationGroups isbn err children).map fun ret =>
        (ret.1, ⟨ret.2, path⟩) := by
  induction children generalizing isbn err with
  | nil => rfl
  | cons cur next ih =>
    rw [childrenNamed_cons] at hs
    rw [groupsLoop, IsbnHyphenate.parseRegistrationGroups]
    split_ifs at hs ⊢ with hn
    · rw [ShownGroups, List.forall_mem_cons] at hs
      rw [bind_ret, parseGroup_ret hp hs.1]
      cases IsbnHyphenate.parseGroup isbn cur with
      | error e => rfl
      | ok ret => exact ih _ hs.2
    · exact ih err hs

theorem parseRegistrationGroups_ret (hp : path.length < 874) {cur : XmlNode}
    (hs : ShownGroups verbose (childrenNamed "Group" cur.children)) :
    (parseRegistrationGroups verbose ⟨isbn, path⟩ cur).ret =
      (IsbnHyphenate.parseRegistrationGroups isbn 0 cur.children).map fun ret =>
        (ret.1, ⟨ret.2, path⟩) := by
  have hlen : (path ++ [say "RegistrationGroups"]).length < 875 := by
    rw [List.length_append, List.length_singleton]
    omega
  rw [parseRegistrationGroups, pushPath_ok (hp.trans (by decide)), bind_ret, run_ok_bind,
    bind_ret, groupsLoop_ret hlen _ _ hs]
  cases IsbnHyphenate.parseRegistrationGroups isbn 0 cur.children with
  | error e => rfl
  | ok ret => exact congrArg (fun p => Except.ok (ret.1, State.mk ret.2 p)) (popPath_push _ _)

def messageGroupNodes (children : List XmlNode) : List XmlNode :=
  (childrenNamed "RegistrationGroups" children).flatMap fun cur =>
    childrenNamed "Group" cur.children

theorem messageLoop_ret (hp : path.length < 874) (children : List XmlNode) {isbn : IsbnInfo}
    (err : ℕ) (hs : ShownGroups verbose (messageGroupNodes children)) :
    (messageLoop verbose ⟨isbn, path⟩ err children).ret =
      (IsbnHyphenate.parseMessage isbn err children).map fun ret => (ret.1, ⟨ret.2, path⟩) := by
  induction children generalizing isbn err with
  | nil => rfl
  | cons cur next ih =>
    rw [messageGroupNodes, childrenNamed_cons] at hs
    rw [messageLoop, IsbnHyphenate.parseMessage]
    split_ifs at hs ⊢ with hn
    · rw [List.flatMap_cons, ShownGroups, List.forall_mem_append] at hs
      rw [bind_ret, parseRegistrationGroups_ret hp hs.1]
      cases IsbnHyphenate.parseRegistrationGroups isbn 0 cur.children with
      | error e => rfl
      | ok ret => exact ih _ hs.2
    · exact ih err hs

theorem groupNodes_eq {cur : XmlNode} (hn : cur.name = "ISBNRangeMessage") :
    groupNodes (some cur) = messageGroupNodes cur.children := by
  rw [groupNodes, if_pos hn]
  rfl

theorem builtTable_ret (doc : Document) (hs : ShownGroups verbose (groupNodes doc.join)) :
    (builtTable verbose doc).ret =
      (IsbnHyphenate.builtTable doc.join).map fun ret => (ret.1, ⟨ret.2, []⟩) := by
  rw [builtTable, bind_ret, silent, IsbnHyphenate.builtTable]
  cases newIsbnInfo with
  | error e => rfl
  | ok isbn =>
    rw [run_ok_bind, run_ok_bind]
    cases doc with
    | none => rfl
    | some root =>
      cases root with
      | none => rfl
      | some cur =>
        simp only [parseDoc, parseDoc, IsbnHyphenate.parseDoc, Option.join_some]
        by_cases hn : cur.name = "ISBNRangeMessage"
        · rw [Option.join_some, groupNodes_eq hn] at hs
          rw [if_neg (not_not.mpr hn), if_neg (not_not.mpr hn), pushPath_ok (by decide),
            bind_ret, run_ok_bind, bind_ret, messageLoop_ret (by simp) _ _ hs]
          cases IsbnHyphenate.parseMessage _ 0 cur.children <;> rfl
        · rw [if_pos hn, if_pos hn]
          rfl

theorem vprintlKv_ok {k : CStr} {v : Option CStr} (h : (vprintlKv verbose k v).ret = .ok ()) :
    verbose = true → v ≠ none := by
  rintro rfl rfl
  cases h

theorem ruleKeys_shown {children : List XmlNode} {rangeKey lengthKey : Option CStr}
    {keys : Option CStr × Option CStr}
    (h : (ruleKeys verbose path rangeKey lengthKey children).ret = .ok keys) :
    Shown verbose children := by
  induction children generalizing rangeKey lengthKey with
  | nil => exact fun _ => List.forall_mem_nil _
  | cons cur next ih =>
    intro hv
    rw [List.forall_mem_cons]
    rw [ruleKeys] at h
    split_ifs at h with hr hl
    · obtain ⟨_, -, h⟩ := of_bind_ok h
      obtain ⟨_, hkv, h⟩ := of_bind_ok h
      exact ⟨fun _ => vprintlKv_ok hkv hv, ih h hv⟩
    · obtain ⟨_, hkv, h⟩ := of_bind_ok h
      exact ⟨fun _ => vprintlKv_ok hkv hv, ih h hv⟩
    · exact ⟨fun hname => (hname.elim hr hl).elim, ih h hv⟩

theorem rulesLoop_shown {children : List XmlNode} {st st' : State}
    (h : (rulesLoop verbose st children).ret = .ok st') : ShownRules verbose children := by
  induction children generalizing st with
  | nil => exact List.forall_mem_nil _
  | cons cur next ih =>
    rw [ShownRules, List.forall_mem_cons]
    rw [rulesLoop] at h
    split_ifs at h with hn
    · obtain ⟨st₁, hrule, h⟩ := of_bind_ok h
      obtain ⟨p, -, hrule⟩ := of_bind_ok hrule
      obtain ⟨keys, hkeys, -⟩ := of_bind_ok hrule
      exact ⟨fun _ => ruleKeys_shown hkeys, ih h⟩
    · exact ⟨fun hname => (hn hname).elim, ih h⟩

theorem groupChildren_shown {children : List XmlNode} {st st' : State}
    (h : (groupChildren verbose st children).ret = .ok st') : ShownGroup verbose children := by
  induction children generalizing st with
  | nil => exact List.forall_mem_nil _
  | cons cur next ih =>
    rw [ShownGroup, List.forall_mem_cons]
    rw [groupChildren] at h
    split_ifs at h with hp ha hr
    · obtain ⟨key, -, h⟩ := of_bind_ok h
      obtain ⟨-, -, h⟩ := of_bind_ok h
      exact ⟨fun hname => absurd (hp.symm.trans hname) (by decide), ih h⟩
    · obtain ⟨key, -, h⟩ := of_bind_ok h
      obtain ⟨-, -, h⟩ := of_bind_ok h
      exact ⟨fun hname => absurd (ha.symm.trans hname) (by decide), ih h⟩
    · obtain ⟨st₁, hrules, h⟩ := of_bind_ok h
      obtain ⟨p, -, hrules⟩ := of_bind_ok hrules
      obtain ⟨st₂, hloop, -⟩ := of_bind_ok hrules
      exact ⟨fun _ => rulesLoop_shown hloop, ih h⟩
    · exact ⟨fun hname => (hr hname).elim, ih h⟩

theorem groupsLoop_shown {children : List XmlNode} {st : State} {err : ℕ} {ret : ℕ × State}
    (h : (groupsLoop verbose st err children).ret = .ok ret) :
    ShownGroups verbose (childrenNamed "Group" children) := by
  induction children generalizing st err with
  | nil => exact List.forall_mem_nil _
  | cons cur next ih =>
    rw [childrenNamed_cons]
    rw [groupsLoop] at h
    split_ifs at h ⊢ with hn
    · obtain ⟨⟨rc, st₁⟩, hgroup, h⟩ := of_bind_ok h
      obtain ⟨p, -, hgroup⟩ := of_bind_ok hgroup
      obtain ⟨st₂, hchildren, -⟩ := of_bind_ok hgroup
      rw [ShownGroups, List.forall_mem_cons]
      exact ⟨groupChildren_shown hchildren, ih h⟩
    · exact ih h

theorem messageLoop_shown {children : List XmlNode} {st : State} {err : ℕ} {ret : ℕ × State}
    (h : (messageLoop verbose st err children).ret = .ok ret) :
    ShownGroups verbose (messageGroupNodes children) := by
  induction children generalizing st err with
  | nil => exact List.forall_mem_nil _
  | cons cur next ih =>
    rw [messageGroupNodes, childrenNamed_cons]
    rw [messageLoop] at h
    split_ifs at h ⊢ with hn
    · obtain ⟨⟨rc, st₁⟩, hgroups, h⟩ := of_bind_ok h
      obtain ⟨p, -, hgroups⟩ := of_bind_ok hgroups
      obtain ⟨ret₂, hloop, -⟩ := of_bind_ok hgroups
      rw [List.flatMap_cons, ShownGroups, List.forall_mem_append]
      exact ⟨groupsLoop_shown hloop, ih h⟩
    · exact ih h

theorem builtTable_shown {doc : Document} {ret : ℕ × State}
    (h : (builtTable verbose doc).ret = .ok ret) : ShownGroups verbose (groupNodes doc.join) := by
  obtain ⟨isbn, -, h⟩ := of_bind_ok h
  cases doc with
  | none => exact List.forall_mem_nil _
  | some root =>
    cases root with
    | none => exact List.forall_mem_nil _
    | some cur =>
      rw [Option.join_some]
      by_cases hn : cur.name = "ISBNRangeMessage"
      · rw [parseDoc, if_neg (not_not.mpr hn)] at h
        obtain ⟨p, -, h⟩ := of_bind_ok h
        obtain ⟨ret₂, hloop, -⟩ := of_bind_ok h
        rw [groupNodes_eq hn]
        exact messageLoop_shown hloop
      · rw [groupNodes, if_neg hn]
        exact List.forall_mem_nil _

theorem dumpCells_ret {α : Type} {vp : Vec α} (line : ℕ → α → CStr) {n : ℕ} (h : vp.Holds n) :
    ∀ k ≤ n, (dumpCells vp line k).ret = .ok () := by
  intro k
  induction k with
  | zero => exact fun _ => rfl
  | succ k ih =>
    intro hk
    obtain ⟨x, hx⟩ := Option.ne_none_iff_exists'.mp (h.init k hk)
    rw [dumpCells, bind_ret, ih (by omega), run_ok_bind, hx]
    rfl

theorem dumpTables_ret {cat : Catalog} (h : Refines isbn cat) {fst : Packed}
    (hpack : fstCopyAndPack isbn.fst = .ok fst) : (dumpTables verbose isbn fst).ret = .ok () := by
  obtain ⟨rows, hrows, hlocs⟩ := h.prefixes
  obtain ⟨label, hb⟩ := h.dict
  obtain ⟨pk, hpack', -, hdump⟩ := hb.dump
  rw [hpack] at hpack'
  cases hpack'
  have hlen : isbn.prefixVec.len = rows.length := by
    rw [h.prefixLen, hlocs.length_eq, Slices.length_located]
  cases verbose with
  | false => rfl
  | true =>
    simp only [dumpTables, if_true, bind_ret, fdumpPrefixTable, fdumpRanges, fdumpFst, emit, silent,
      run_ok_bind, hdump, dumpCells_ret _ hrows.1 _ hlen.le,
      dumpCells_ret _ h.ranges.1 _ h.rangesLen.le]

theorem table_ret (doc : Document) (hs : ShownGroups verbose (groupNodes doc.join)) :
    (parseIsbnRangeTable verbose doc).ret = IsbnHyphenate.parseIsbnRangeTable doc.join := by
  rw [parseIsbnRangeTable, bind_ret, builtTable_ret doc hs, IsbnHyphenate.parseIsbnRangeTable]
  cases hb : IsbnHyphenate.builtTable doc.join with
  | error e => rfl
  | ok ret =>
    obtain ⟨rc, isbn⟩ := ret
    obtain ⟨cat, h, -⟩ := parseDoc_spec hb
    simp only [Except.map, run_ok_bind, bind_ret, silent]
    cases hpack : fstCopyAndPack isbn.fst with
    | error e => rfl
    | ok fst =>
      rw [run_ok_bind, dumpTables_ret h hpack]
      rfl

theorem table_plain {doc : Document} {tab : IsbnInfo × Packed}
    (h : (parseIsbnRangeTable verbose doc).ret = .ok tab) :
    IsbnHyphenate.parseIsbnRangeTable doc.join = .ok tab := by
  obtain ⟨ret, hb, -⟩ := of_bind_ok h
  exact (table_ret doc (builtTable_shown hb)).symm.trans h

/-- Verbose or not, the parser returns the same table; a verbose one does if and
only if every `Range` and `Length` in the document has a text. -/
theorem table_returns_iff (verbose : Bool) (doc : Document) (tab : IsbnInfo × Packed) :
    (parseIsbnRangeTable verbose doc).ret = .ok tab ↔
      IsbnHyphenate.parseIsbnRangeTable doc.join = .ok tab ∧
        ShownGroups verbose (groupNodes doc.join) := by
  constructor
  · intro hrun
    obtain ⟨ret, hb, -⟩ := of_bind_ok hrun
    exact ⟨table_plain hrun, builtTable_shown hb⟩
  · intro h
    exact (table_ret doc h.2).trans h.1

end IsbnHyphenate.Traced
