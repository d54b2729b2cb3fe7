import IsbnHyphenate.IsbnVerbose

/-!
# The verbose tables

With `verbose` the parser writes the prefix table, the transducer and the ranges.
Every line is self-delimiting as long as no agency has a newline in its name, and
every section ends in a line that no item begins with.
-/

namespace IsbnHyphenate.Traced
open Logged SelfDelimiting Slices

def lineFeed : Chr := ⟨10, by decide⟩
def bracket : Chr := ⟨93, by decide⟩
def comma : Chr := ⟨44, by decide⟩
def brace : Chr := ⟨123, by decide⟩

structure ShownRow where
  pfx : CStr
  agency : CStr
  ruleIdx : ℕ
  nrules : ℕ
  numeric : ∀ c ∈ pfx, isDigit c
  oneLine : lineFeed ∉ agency

def ShownRow.line (i : ℕ) (r : ShownRow) : CStr :=
  prefixLine i ⟨some r.pfx, some r.agency, some r.ruleIdx, r.nrules⟩

def ShownRow.rules (r : ShownRow) : CStr :=
  say "], rules=" ++ (brace :: (formatZu r.ruleIdx ++ (comma :: formatZu r.nrules)))

def ShownRow.body (r : ShownRow) : CStr :=
  r.pfx ++ (bracket :: (say ", agency=[" ++ (r.agency ++ r.rules ++ say "\x7d" ++ [lineFeed])))

theorem ShownRow.line_eq (i : ℕ) (r : ShownRow) :
    r.line i = (say "[" ++ formatZu3 i ++ say "] pfx=[") ++ r.body := by
  have hbracket : say "], agency=[" = bracket :: say ", agency=[" := by decide
  have hbrace : say "], rules=\x7b" = say "], rules=" ++ [brace] := by decide
  have hcomma : say "," = [comma] := by decide
  have hnewline : newlineText = [lineFeed] := by decide
  simp only [ShownRow.line, prefixLine, formatS, Option.getD_some, hbracket, hbrace, hcomma,
    hnewline, ShownRow.body, ShownRow.rules, List.append_assoc, List.cons_append, List.nil_append]

theorem lacks_rules (r : ShownRow) : lineFeed ∉ r.agency ++ r.rules ++ say "\x7d" := by
  have hfront : lineFeed ∉ say "], rules=" := by decide
  have hback : lineFeed ∉ say "\x7d" := by decide
  have hidx := formatZu_lacks (c := lineFeed) (by decide) r.ruleIdx
  have hn := formatZu_lacks (c := lineFeed) (by decide) r.nrules
  have hbrace : lineFeed ≠ brace := by decide
  have hcomma : lineFeed ≠ comma := by decide
  simp [ShownRow.rules, r.oneLine, hfront, hback, hidx, hn, hbrace, hcomma]

theorem rules_inj {a b : ShownRow} (h : a.agency ++ a.rules = b.agency ++ b.rules) :
    a.agency = b.agency ∧ a.ruleIdx = b.ruleIdx ∧ a.nrules = b.nrules := by
  have hsplit : ∀ r : ShownRow, r.agency ++ r.rules =
      (r.agency ++ (say "], rules=" ++ (brace :: formatZu r.ruleIdx))) ++
        comma :: formatZu r.nrules := by
    intro r
    simp only [ShownRow.rules, List.append_assoc, List.cons_append]
  have hsplit' : ∀ r : ShownRow, r.agency ++ (say "], rules=" ++ (brace :: formatZu r.ruleIdx)) =
      (r.agency ++ say "], rules=") ++ brace :: formatZu r.ruleIdx := by
    intro r
    rw [List.append_assoc]
  rw [hsplit, hsplit] at h
  obtain ⟨hfront, hn⟩ := after_delimiter (formatZu_lacks (by decide) _)
    (formatZu_lacks (by decide) _) h
  rw [hsplit', hsplit'] at hfront
  obtain ⟨hname, hidx⟩ := after_delimiter (formatZu_lacks (by decide) _)
    (formatZu_lacks (by decide) _) hfront
  exact ⟨List.append_cancel_right hname, formatZu_injective hidx, formatZu_injective hn⟩

theorem code_body : Code ShownRow.body := by
  intro a b s t h
  have hnumeric : ∀ r : ShownRow, bracket ∉ r.pfx := by
    intro r hmem
    exact absurd (r.numeric bracket hmem) (by decide)
  simp only [ShownRow.body, List.append_assoc, List.cons_append, List.nil_append] at h
  obtain ⟨hpfx, hrest⟩ := before_delimiter (hnumeric a) (hnumeric b) h
  have hline := List.append_cancel_left hrest
  simp only [← List.append_assoc] at hline
  obtain ⟨hrules, hst⟩ := before_delimiter (lacks_rules a) (lacks_rules b) hline
  obtain ⟨hagency, hidx, hn⟩ := rules_inj (List.append_cancel_right hrules)
  cases a
  cases b
  cases hpfx
  cases hagency
  cases hidx
  cases hn
  exact ⟨rfl, hst⟩

theorem code_row (i : ℕ) : Code (ShownRow.line i) := by
  have hcode := code_body.behind (say "[" ++ formatZu3 i ++ say "] pfx=[")
  rwa [← funext (ShownRow.line_eq i)] at hcode

theorem rangeLine_eq (i : ℕ) (r : IsbnRange) : rangeLine i r =
    (say "[" ++ formatZu3 i ++ say "] len=") ++
      ((formatZu r.rngLen.toNat ++ comma :: say " lbound=") ++
        ((formatZu r.rngLbound.toNat ++ comma :: say " ubound=") ++
          (formatZu r.rngUbound.toNat ++ [lineFeed]))) := by
  have hlbound : say ", lbound=" = comma :: say " lbound=" := by decide
  have hubound : say ", ubound=" = comma :: say " ubound=" := by decide
  have hnewline : newlineText = [lineFeed] := by decide
  simp only [rangeLine, hlbound, hubound, hnewline, List.append_assoc]

theorem code_range (i : ℕ) : Code (rangeLine i) := by
  have hcomma : isDigit comma = false := by decide
  have hfeed : isDigit lineFeed = false := by decide
  have hcode := ((code_nr (say " lbound=") hcomma).pair
    ((code_nr (say " ubound=") hcomma).pair (code_nr [] hfeed))).behind
      (say "[" ++ formatZu3 i ++ say "] len=")
  have hinj : Function.Injective fun r : IsbnRange =>
      (r.rngLen.toNat, r.rngLbound.toNat, r.rngUbound.toNat) := by
    rintro ⟨len, lbound, ubound⟩ ⟨len', lbound', ubound'⟩ h
    simpa [UInt64.toNat_inj, UInt32.toNat_inj] using h
  rw [funext (rangeLine_eq i)]
  exact hcode.comp hinj

theorem dumpCells_log {α : Type} {vp : Vec α} {xs : List α} (h : vp.Is xs)
    (line : ℕ → α → CStr) :
    dumpCells vp line xs.length = ⟨indexed line 0 xs, .ok ()⟩ := by
  have hfirst : ∀ k ≤ xs.length,
      dumpCells vp line k = ⟨indexed line 0 (xs.take k), .ok ()⟩ := by
    intro k
    induction k with
    | zero => exact fun _ => rfl
    | succ k ih =>
      intro hk
      have hread : vp.read k = some xs[k] :=
        h.read_eq (List.getElem?_eq_getElem (Nat.lt_of_succ_le hk))
      rw [dumpCells, ih (by omega), hread, List.take_succ_eq_append_getElem (by omega),
        indexed_append, List.length_take, Nat.min_eq_left (by omega)]
      simp [emit, indexed]
  rw [hfirst xs.length le_rfl, List.take_length]

def atSign : Chr := ⟨64, by decide⟩

/-- The three sections; every one of them ends in front of an `@end`. -/
def tablesText (rows : List ShownRow) (lines : List Line) (ranges : List IsbnRange) : CStr :=
  say "\n@section prefix-table\nPrefix table: " ++ ((formatZu rows.length ++ say " entries.\n") ++
    ((indexed ShownRow.line 0 rows ++
        atSign :: say "end prefix-table\n\n@section fst -- prefix state machine\n") ++
      ((indexed (fun _ => Line.text) 0 lines ++
          atSign :: say "end fst\n\n@section ranges\nRanges\n------\n") ++
        (indexed rangeLine 0 ranges ++ atSign :: say "end ranges\n"))))

theorem tablesText_inj {rows rows' : List ShownRow} {lines lines' : List Line}
    {ranges ranges' : List IsbnRange}
    (h : tablesText rows lines ranges = tablesText rows' lines' ranges') :
    rows = rows' ∧ lines = lines' ∧ ranges = ranges' := by
  have hrow : ∀ i (r : ShownRow), ∃ c v, r.line i = c :: v ∧ c ≠ atSign := by
    intro i r
    rw [ShownRow.line_eq]
    exact ⟨⟨91, by decide⟩, _, rfl, by decide⟩
  have hline : ∀ (_ : ℕ) (l : Line), ∃ c v, l.text = c :: v ∧ c ≠ atSign := by
    intro _ l
    cases l with
    | state nr => exact ⟨⟨83, by decide⟩, _, rfl, by decide⟩
    | value val => exact ⟨⟨32, by decide⟩, _, rfl, by decide⟩
    | edge chr nr => exact ⟨⟨32, by decide⟩, _, rfl, by decide⟩
  have hrange : ∀ i (r : IsbnRange), ∃ c v, rangeLine i r = c :: v ∧ c ≠ atSign := by
    intro i r
    rw [rangeLine_eq]
    exact ⟨⟨91, by decide⟩, _, rfl, by decide⟩
  have hentries : say " entries.\n" = ⟨32, by decide⟩ :: say "entries.\n" := by decide
  simp only [tablesText, hentries] at h
  obtain ⟨-, hrest⟩ := code_nr _ (by decide) _ _ _ _ (List.append_cancel_left h)
  obtain ⟨hrows, hrest⟩ := code_indexed code_row _ hrow 0 _ _ _ _ hrest
  obtain ⟨hlines, hrest⟩ := code_indexed (fun _ => code_line) _ hline 0 _ _ _ _ hrest
  have hend := congrArg (· ++ ([] : CStr)) hrest
  obtain ⟨hranges, -⟩ := code_indexed code_range _ hrange 0 _ _ _ _ hend
  exact ⟨hrows, hlines, hranges⟩

def Shows (r : ShownRow) (e : Entry) : Prop :=
  r.pfx = e.pfx ∧ r.agency = e.agency ∧ r.nrules = e.rules.length

theorem Shows.unique {r : ShownRow} {e e' : Entry} (h : Shows r e) (h' : Shows r e')
    (hrules : e.rules = e'.rules) : e = e' := by
  obtain ⟨hpfx, hagency, -⟩ := h
  obtain ⟨hpfx', hagency', -⟩ := h'
  cases e
  cases e'
  cases hpfx.symm.trans hpfx'
  cases hagency.symm.trans hagency'
  cases hrules
  rfl

def Clean (cat : Catalog) : Prop :=
  ∀ e ∈ cat.entries, (∀ c ∈ e.pfx, isDigit c) ∧ lineFeed ∉ e.agency

theorem exists_shown {rows : List IsbnPrefix} {entries : List Entry} {start : ℕ}
    (h : List.Forall₂ Row rows (located (fun e => e.rules.length) start entries))
    (hclean : ∀ e ∈ entries, (∀ c ∈ e.pfx, isDigit c) ∧ lineFeed ∉ e.agency) :
    ∃ shown, List.Forall₂ Shows shown entries ∧ shown.length = rows.length ∧
      ∀ i, indexed prefixLine i rows = indexed ShownRow.line i shown := by
  induction entries generalizing rows start with
  | nil =>
    rw [located, List.forall₂_nil_right_iff] at h
    subst h
    exact ⟨[], .nil, rfl, fun _ => rfl⟩
  | cons e entries ih =>
    rw [List.forall_mem_cons] at hclean
    cases rows with
    | nil => cases h
    | cons row rows =>
      obtain ⟨⟨hpfx, hagency, hn, -⟩, hrest⟩ := List.forall₂_cons.mp h
      obtain ⟨shown, hshows, hlen, htext⟩ := ih hrest hclean.2
      refine ⟨⟨e.pfx, e.agency, row.ruleIdx.getD (sizeMod - 1), row.nrules, hclean.1.1,
        hclean.1.2⟩ :: shown, .cons ⟨rfl, rfl, hn⟩ hshows, congrArg (· + 1) hlen, fun i => ?_⟩
      rw [indexed, indexed, htext]
      simp only [ShownRow.line, prefixLine, hpfx, hagency, Option.getD_some]

theorem entries_eq {shown : List ShownRow} {entries entries' : List Entry}
    {pending pending' : List IsbnRange} (h : List.Forall₂ Shows shown entries)
    (h' : List.Forall₂ Shows shown entries')
    (hrules : entries.flatMap Entry.rules ++ pending = entries'.flatMap Entry.rules ++ pending') :
    entries = entries' ∧ pending = pending' := by
  induction h generalizing entries' with
  | nil =>
    cases h'
    exact ⟨rfl, hrules⟩
  | cons hshows _ ih =>
    cases h' with
    | cons hshows' hrest =>
      simp only [List.flatMap_cons, List.append_assoc] at hrules
      have hn := hshows.2.2.symm.trans hshows'.2.2
      obtain ⟨hhead, htail⟩ := List.append_inj hrules hn
      obtain ⟨rfl, rfl⟩ := ih hrest htail
      exact ⟨congrArg (· :: _) (hshows.unique hshows' hhead), rfl⟩

theorem dumpTables_log {isbn : IsbnInfo} {cat : Catalog} {fst : Packed} (h : Refines isbn cat)
    (hclean : Clean cat) (hpack : fstCopyAndPack isbn.fst = .ok fst) :
    ∃ rows, List.Forall₂ Shows rows cat.entries ∧ (dumpTables true isbn fst).log =
      tablesText rows (dumpLines isbn.fst.len (Fst.row isbn.fst)) cat.rules := by
  obtain ⟨stored, hstored, hlocs⟩ := h.prefixes
  obtain ⟨label, hb⟩ := h.dict
  obtain ⟨pk, hpack', -, hdump⟩ := hb.dump
  rw [hpack] at hpack'
  cases hpack'
  obtain ⟨rows, hshows, hlen, htext⟩ := exists_shown hlocs hclean
  refine ⟨rows, hshows, ?_⟩
  have hnr : isbn.prefixVec.len = stored.length := by
    rw [h.prefixLen, hlocs.length_eq, Slices.length_located]
  have hrows := dumpCells_log hstored prefixLine
  have hranges := dumpCells_log h.ranges rangeLine
  rw [← hnr, htext] at hrows
  rw [← h.rangesLen] at hranges
  have hhead : say "\n@section prefix-table\nPrefix table: " =
      newlineText ++ (say "@section prefix-table\n" ++ say "Prefix table: ") := by decide
  have hmiddle : atSign :: say "end prefix-table\n\n@section fst -- prefix state machine\n" =
      say "@end prefix-table\n" ++ (newlineText ++
        say "@section fst -- prefix state machine\n") := by decide
  have hback : atSign :: say "end fst\n\n@section ranges\nRanges\n------\n" =
      say "@end fst\n" ++ (newlineText ++ say "@section ranges\nRanges\n------\n") := by decide
  have hend : atSign :: say "end ranges\n" = say "@end ranges\n" := by decide
  rw [tablesText, hhead, hmiddle, hback, hend, hlen, ← hnr, indexed_const]
  simp [dumpTables, fdumpPrefixTable, fdumpRanges, fdumpFst, hrows, hranges, hdump, emit, silent]

theorem docGroup_numeric {doc doc' : Doc} {cur : XmlNode} {bad : Bool}
    (h : docGroup doc cur = .ok (bad, doc'))
    (hnumeric : ∀ e ∈ doc.catalog.entries, ∀ c ∈ e.pfx, isDigit c) :
    ∀ e ∈ doc'.catalog.entries, ∀ c ∈ e.pfx, isDigit c := by
  rw [docGroup] at h
  cases hhalt : cur.halt with
  | some c =>
    rw [hhalt] at h
    cases h
  | none =>
    rw [hhalt] at h
    simp only at h
    split_ifs at h with hfit
    cases h
    intro e he
    rw [Catalog.addPrefix] at he
    split_ifs at he with hnum
    · rcases List.mem_append.mp he with hold | hnew
      · exact hnumeric e hold
      · obtain rfl := List.mem_singleton.mp hnew
        exact fun c hc => (List.mem_filter.mp hc).2
    · exact hnumeric e he

theorem docRead_numeric {root : Option XmlNode} {read : Bool × Doc}
    (h : docRead root = .ok read) : ∀ e ∈ read.2.catalog.entries, ∀ c ∈ e.pfx, isDigit c := by
  have hfold : ∀ (groups : List XmlNode) (before after : Bool × Doc),
      groups.foldlM docStep before = .ok after →
      (∀ e ∈ before.2.catalog.entries, ∀ c ∈ e.pfx, isDigit c) →
      ∀ e ∈ after.2.catalog.entries, ∀ c ∈ e.pfx, isDigit c := by
    intro groups
    induction groups with
    | nil =>
      intro before after hrun hnumeric
      cases hrun
      exact hnumeric
    | cons cur groups ih =>
      intro before after hrun hnumeric
      obtain ⟨next, hstep, hrest⟩ := run_bind_ok hrun
      obtain ⟨⟨bad, doc⟩, hgroup, hret⟩ := run_bind_ok hstep
      cases hret
      exact ih _ _ hrest (docGroup_numeric hgroup hnumeric)
  exact hfold _ _ _ h fun e he => absurd he List.not_mem_nil

/-- The verbose tables can be read back: two documents that load and have them in
common say the same, unless an agency spans lines. -/
theorem tables_read_back {root root' : Option XmlNode} {isbn isbn' : IsbnInfo}
    {fst fst' : Packed} {read read' : Bool × Doc}
    (htab : IsbnHyphenate.parseIsbnRangeTable root = .ok (isbn, fst))
    (htab' : IsbnHyphenate.parseIsbnRangeTable root' = .ok (isbn', fst'))
    (hread : docRead root = .ok read) (hread' : docRead root' = .ok read')
    (hline : ∀ e ∈ read.2.catalog.entries, lineFeed ∉ e.agency)
    (hline' : ∀ e ∈ read'.2.catalog.entries, lineFeed ∉ e.agency)
    (htext : (dumpTables true isbn fst).log = (dumpTables true isbn' fst').log) :
    read.2.catalog = read'.2.catalog ∧ fst = fst' := by
  have hload : ∀ {root isbn fst read}, IsbnHyphenate.parseIsbnRangeTable root = .ok (isbn, fst) →
      docRead root = .ok read → Refines isbn read.2.catalog ∧
        fstCopyAndPack isbn.fst = .ok fst := by
    intro root isbn fst read htab hread
    obtain ⟨⟨rc, built⟩, hbuilt, hrest⟩ := run_bind_ok htab
    obtain ⟨pk, hpack, hret⟩ := run_bind_ok hrest
    cases hret
    have hrel := builtTable_related root
    rw [hbuilt, hread] at hrel
    obtain ⟨_, hok, -, hfollows⟩ := hrel.to_ok
    cases hok
    exact ⟨hfollows.table, hpack⟩
  obtain ⟨hr, hpack⟩ := hload htab hread
  obtain ⟨hr', hpack'⟩ := hload htab' hread'
  obtain ⟨rows, hshows, hlog⟩ := dumpTables_log hr
    (fun e he => ⟨docRead_numeric hread e he, hline e he⟩) hpack
  obtain ⟨rows', hshows', hlog'⟩ := dumpTables_log hr'
    (fun e he => ⟨docRead_numeric hread' e he, hline' e he⟩) hpack'
  rw [hlog, hlog'] at htext
  obtain ⟨rfl, hlines, hranges⟩ := tablesText_inj htext
  obtain ⟨label, hb⟩ := hr.dict
  obtain ⟨label', hb'⟩ := hr'.dict
  refine ⟨?_, hb.copies_eq hb' hpack hpack' hlines⟩
  obtain ⟨hentries, hpending⟩ := entries_eq hshows hshows' hranges
  exact congrArg₂ Catalog.mk hentries hpending

def shownGroup (text agency : CStr) (rules : List (CStr × CStr)) : XmlNode :=
  .mk "Group" none [.mk "Prefix" (some text) [], .mk "Agency" (some agency) [],
    .mk "Rules" none (rules.map fun r => .mk "Rule" none
      [.mk "Range" (some r.1) [], .mk "Length" (some r.2) []])]

def namelessGroup : XmlNode := .mk "Group" none [.mk "Agency" (some (say "Nobody")) []]

def shownMessage (more : List XmlNode) : Option XmlNode :=
  some (.mk "ISBNRangeMessage" none [.mk "RegistrationGroups" none
    ([shownGroup (say "978-0") (say "English language")
        [(say "0000000-1999999", say "2"), (say "2000000-6999999", say "3")],
      shownGroup (say "978-1") (say "English language") [(say "0000000-0999999", say "2")],
      shownGroup (say "979-10") (say "France") [(say "0000000-1999999", say "2")]] ++ more)])

/-- The second document has a group without a prefix: it is reported, and its
agency is the last one that was read. -/
theorem tables_read_back_sample : ∃ read read',
    docRead (shownMessage []) = .ok read ∧
      docRead (shownMessage [namelessGroup]) = .ok read' ∧
      read.1 ≠ read'.1 ∧ read.2.agency ≠ read'.2.agency ∧
      read.2.catalog = read'.2.catalog := by
  have hok : (IsbnHyphenate.parseIsbnRangeTable (shownMessage []) >>= fun tab =>
      IsbnHyphenate.parseIsbnRangeTable (shownMessage [namelessGroup])
        >>= fun tab' => (.ok (decide ((dumpTables true tab.1 tab.2).log =
          (dumpTables true tab'.1 tab'.2).log)) : Run Bool)) = .ok true := by
    decide +kernel
  have hsay : (docRead (shownMessage []) >>= fun read =>
      docRead (shownMessage [namelessGroup]) >>= fun read' =>
        (.ok (decide (read.1 ≠ read'.1 ∧ read.2.agency ≠ read'.2.agency ∧
          (∀ e ∈ read.2.catalog.entries, lineFeed ∉ e.agency) ∧
          ∀ e ∈ read'.2.catalog.entries, lineFeed ∉ e.agency)) : Run Bool)) = .ok true := by
    decide +kernel
  obtain ⟨⟨isbn, fst⟩, htab, hrest⟩ := run_bind_ok hok
  obtain ⟨⟨isbn', fst'⟩, htab', htext⟩ := run_bind_ok hrest
  obtain ⟨read, hread, hrest⟩ := run_bind_ok hsay
  obtain ⟨read', hread', hsame⟩ := run_bind_ok hrest
  obtain ⟨hbad, hagency, hline, hline'⟩ := of_decide_eq_true (Except.ok.inj hsame)
  exact ⟨read, read', hread, hread', hbad, hagency,
    (tables_read_back htab htab' hread hread' hline hline'
      (of_decide_eq_true (Except.ok.inj htext))).1⟩

end IsbnHyphenate.Traced
