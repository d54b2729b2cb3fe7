import IsbnHyphenate.IsbnReport
import IsbnHyphenate.Library.Lockstep

/-!
# What a document says

The groups of a document one after the other, and for each of them what it adds
to the catalog: the digits of its last `Prefix`, the `Agency` that was named
last in the document, and the rules that are waiting for an entry. Every run of
the parser ends as this reading of the document does, with a table that refines
its catalog, or at the same fault.
-/

namespace IsbnHyphenate
open Lockstep

/-- What has been read so far. The agency stays when a group names none. -/
structure Doc where
  catalog : Catalog
  agency : Option CStr

def Doc.empty : Doc := ⟨Catalog.empty, none⟩

def docGroup (doc : Doc) (cur : XmlNode) : Run (Bool × Doc) :=
  match cur.halt with
  | some c => .error (if c.NoText then .badRead else .exit 2)
  | none =>
    let agency := (lastText "Agency" cur.children).or doc.agency
    let bad := (lastText "Prefix" cur.children).isNone || agency.isNone
    let named := agency.getD AGENCY_ERROR
    if DigitsFit (prefixText cur) then
      .ok (bad, ⟨(doc.catalog.addRules (groupRules cur.children)).addPrefix (prefixText cur) named,
        some named⟩)
    else .error .badWrite

def docStep (read : Bool × Doc) (cur : XmlNode) : Run (Bool × Doc) := do
  let group ← docGroup read.2 cur
  .ok (read.1 || group.1, group.2)

def childrenNamed (name : String) (children : List XmlNode) : List XmlNode :=
  children.filter fun cur => cur.name = name

def groupNodes : Option XmlNode → List XmlNode
  | none => []
  | some cur =>
    if cur.name = "ISBNRangeMessage" then
      (childrenNamed "RegistrationGroups" cur.children).flatMap fun cur =>
        childrenNamed "Group" cur.children
    else []

def docRead (root : Option XmlNode) : Run (Bool × Doc) :=
  (groupNodes root).foldlM docStep (false, Doc.empty)

def docRc (root : Option XmlNode) (bad : Bool) : ℕ :=
  if (root.map XmlNode.name) = some "ISBNRangeMessage" then if bad then 1 else 0 else 2

structure Follows (isbn : IsbnInfo) (doc : Doc) : Prop where
  table : Refines isbn doc.catalog
  agency : isbn.curAgency = doc.agency

variable {isbn : IsbnInfo} {cat : Catalog} {doc : Doc}

theorem Refines.addPrefix_related (h : Refines isbn cat) (pfx agency : CStr) :
    Related (fun p q => p.1 = q.1 ∧ Refines p.2 q.2 ∧ p.2.curAgency = isbn.curAgency)
      (IsbnHyphenate.addPrefix isbn pfx agency)
      (if DigitsFit pfx then .ok (cat.prefixRc pfx, cat.addPrefix pfx agency)
        else .error .badWrite) := by
  have hinside := h.addPrefix_inside_iff pfx agency
  cases hr : copyNumeric [] pfx with
  | ok r =>
    obtain ⟨isbn', hok, h'⟩ := h.addPrefix hr agency
    rw [if_pos (hinside.mp (by simp [hok])), hok]
    exact .ok ⟨rfl, h', addPrefix_curAgency hok⟩
  | error e =>
    have hfit : ¬ DigitsFit pfx := by
      rw [← copyNumeric_inside, hr, copyNumeric_error hr]
      simp
    rw [if_neg hfit, not_not.mp (mt hinside.mp hfit)]
    exact .error _

theorem Follows.group (h : Follows isbn doc) (cur : XmlNode) :
    Related (fun p q => p.1 = (if q.1 then 1 else 0) ∧ Follows p.2 q.2) (parseGroup isbn cur)
      (docGroup doc cur) := by
  rw [docGroup]
  cases hc : cur.halt with
  | some c =>
    rw [parseGroup_halts h.table hc]
    exact .error _
  | none =>
    have h₀ := h.table.setCursor none isbn.curAgency
    rcases groupChildren_run cur h₀ with ⟨c, hsome, -⟩ | ⟨-, isbn₁, hwalk, hagency⟩
    · rw [hc] at hsome
      cases hsome
    · obtain ⟨h₁, hlast⟩ := groupChildren_spec cur.children h₀ hwalk
      rw [Option.or_none] at hlast
      dsimp only at hagency
      rw [h.agency] at hagency
      have hadd := (h₁.setCursor (some (isbn₁.curPrefix.getD PREFIX_ERROR))
        (some (isbn₁.curAgency.getD AGENCY_ERROR))).addPrefix_related (prefixText cur)
        (isbn₁.curAgency.getD AGENCY_ERROR)
      have hpfx : (lastText "Prefix" cur.children).getD PREFIX_ERROR = prefixText cur := rfl
      rw [parseGroup, hwalk, run_ok_bind]
      simp only [hlast, hagency, hpfx] at hadd ⊢
      by_cases hfit : DigitsFit (prefixText cur)
      · rw [if_pos hfit] at hadd ⊢
        obtain ⟨⟨rc, isbn'⟩, hok, -, h', hkept⟩ := hadd.of_ok
        rw [hok]
        refine .ok ⟨?_, h', hkept⟩
        simp only [Bool.or_eq_true, Option.isNone_iff_eq_none]
      · rw [if_neg hfit] at hadd ⊢
        rw [hadd.of_error]
        exact .error _

theorem docStep_bad (groups : List XmlNode) (bad : Bool) (doc : Doc) :
    groups.foldlM docStep (bad, doc) =
      groups.foldlM docStep (false, doc) >>= fun read => .ok (bad || read.1, read.2) := by
  induction groups generalizing bad doc with
  | nil => simp [pure, Except.pure]
  | cons cur groups ih =>
    simp only [List.foldlM_cons, docStep]
    cases docGroup doc cur with
    | error e => rfl
    | ok group =>
      simp only [run_ok_bind, Bool.false_or]
      rw [ih, ih group.1]
      cases groups.foldlM docStep (false, group.2) with
      | error e => rfl
      | ok read => simp [Bool.or_assoc]

theorem Follows.groups (children : List XmlNode) {isbn : IsbnInfo} {doc : Doc}
    (h : Follows isbn doc) (bad : Bool) :
    Related (fun p q => p.1 = (if q.1 then 1 else 0) ∧ Follows p.2 q.2)
      (parseRegistrationGroups isbn (if bad then 1 else 0) children)
      ((childrenNamed "Group" children).foldlM docStep (bad, doc)) := by
  induction children generalizing isbn doc bad with
  | nil => exact .ok ⟨rfl, h⟩
  | cons cur next ih =>
    rw [parseRegistrationGroups, childrenNamed]
    by_cases hn : cur.name = "Group"
    · rw [if_pos hn, List.filter_cons_of_pos (by simpa using hn), List.foldlM_cons, docStep,
        run_bind_assoc]
      refine (h.group cur).bind fun p q hpq => ?_
      have hrc : (if p.1 ≠ 0 then 1 else if bad then 1 else 0) =
          if (bad || q.1) then 1 else 0 := by
        rw [hpq.1]
        cases q.1 <;> cases bad <;> rfl
      have hrest := ih hpq.2 (bad || q.1)
      rw [← hrc] at hrest
      exact hrest
    · rw [if_neg hn, List.filter_cons_of_neg (by simpa using hn)]
      exact ih h bad

theorem Follows.message (children : List XmlNode) {isbn : IsbnInfo} {doc : Doc}
    (h : Follows isbn doc) (bad : Bool) :
    Related (fun p q => p.1 = (if q.1 then 1 else 0) ∧ Follows p.2 q.2)
      (parseMessage isbn (if bad then 1 else 0) children)
      (((childrenNamed "RegistrationGroups" children).flatMap fun cur =>
        childrenNamed "Group" cur.children).foldlM docStep (bad, doc)) := by
  induction children generalizing isbn doc bad with
  | nil => exact .ok ⟨rfl, h⟩
  | cons cur next ih =>
    rw [parseMessage, childrenNamed]
    by_cases hn : cur.name = "RegistrationGroups"
    · rw [if_pos hn, List.filter_cons_of_pos (by simpa using hn), List.flatMap_cons,
        List.foldlM_append, docStep_bad, run_bind_assoc]
      refine (h.groups cur.children false).bind fun p q hpq => ?_
      have hrc : (if p.1 ≠ 0 then 1 else if bad then 1 else 0) =
          if (bad || q.1) then 1 else 0 := by
        rw [hpq.1]
        cases q.1 <;> cases bad <;> rfl
      have hrest := ih hpq.2 (bad || q.1)
      rw [← hrc] at hrest
      exact hrest
    · rw [if_neg hn, List.filter_cons_of_neg (by simpa using hn)]
      exact ih h bad

theorem newIsbnInfo_follows :
    ∃ isbn, newIsbnInfo = .ok isbn ∧ Follows { isbn with curValue := 0 } Doc.empty := by
  obtain ⟨isbn, hnew, h⟩ := newIsbnInfo_refines
  have hnone : isbn.curAgency = none := by
    obtain ⟨fst, -, hret⟩ := run_bind_ok hnew
    cases hret
    rfl
  exact ⟨isbn, hnew, ⟨h.prefixes, h.ranges, h.pending, h.dict, rfl, h.prefixNr, h.prefixLen,
    h.ruleNr, h.rangesLen, h.short⟩, hnone⟩

theorem builtTable_related (root : Option XmlNode) :
    Related (fun p q => p.1 = docRc root q.1 ∧ Follows p.2 q.2) (builtTable root)
      (docRead root) := by
  obtain ⟨isbn, hnew, h₀⟩ := newIsbnInfo_follows
  rw [builtTable, hnew, run_ok_bind, docRead]
  cases root with
  | none => exact .ok ⟨rfl, h₀⟩
  | some cur =>
    rw [parseDoc, groupNodes]
    by_cases hn : cur.name = "ISBNRangeMessage"
    · rw [if_neg (not_not.mpr hn), if_pos hn]
      refine (h₀.message cur.children false).mono fun p q hpq => ⟨?_, hpq.2⟩
      rw [hpq.1, docRc, Option.map_some, hn, if_pos rfl]
    · rw [if_pos hn, if_neg hn]
      exact .ok ⟨by rw [docRc, if_neg (by simpa using hn)], h₀⟩

/-- Every run of the parser ends as the document says. -/
theorem document_refines (root : Option XmlNode) :
    (∀ e, builtTable root = .error e ↔ docRead root = .error e) ∧
    ∀ bad doc, docRead root = .ok (bad, doc) →
      ∃ isbn, builtTable root = .ok (docRc root bad, isbn) ∧ Refines isbn doc.catalog ∧
        isbn.curAgency = doc.agency := by
  have hrel := builtTable_related root
  refine ⟨fun e => hrel.error_iff, fun bad doc hdoc => ?_⟩
  · rw [hdoc] at hrel
    obtain ⟨⟨rc, isbn⟩, hok, hrc, hreads⟩ := hrel.of_ok
    exact ⟨isbn, by rw [hok, ← hrc], hreads.table, hreads.agency⟩

end IsbnHyphenate
