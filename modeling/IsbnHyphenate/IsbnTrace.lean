import IsbnHyphenate.FstDump
import IsbnHyphenate.IsbnParse
import IsbnHyphenate.Library.Logged

/-!
# The parser with its element path and its messages

The functions that walk the range message once more, with `isbn->path` and with
what they write to `eprint_fh`. That is one stream, whether `verbose` is set or
not, and what was written before an `exit` has been written.
-/

namespace IsbnHyphenate.Traced

abbrev Noisy (α : Type) := Logged Chr Stop α

open Logged

/-- The record of the parser; `path` are the names below `depth`. -/
structure State where
  isbn : IsbnInfo
  path : List CStr

abbrev sizeofIsbnInfo : ℕ := 168
abbrev sizeofPointer : ℕ := 8
abbrev XML_MAX_DEPTH : ℕ := 1024

/-- `isbn->path[depth]` lies in the block of the record. The array starts
`sizeof (isbn_info_t)` pointers behind the record, and not as many bytes. -/
def PathInside (depth : ℕ) : Prop :=
  sizeofPointer * sizeofIsbnInfo + sizeofPointer * (depth + 1) ≤
    sizeofIsbnInfo + XML_MAX_DEPTH * sizeofPointer

instance (depth : ℕ) : Decidable (PathInside depth) := inferInstanceAs (Decidable (_ ≤ _))

def pushPath (path : List CStr) (name : CStr) : Noisy (List CStr) :=
  if path.length ≥ XML_MAX_DEPTH then do
    emit (say "Max XML path depth exceeded.  depth=" ++ formatZu path.length)
    emit newlineText
    quit (.exit 64)
  else if PathInside path.length then pure (path ++ [name])
  else quit .badWrite

def popPath (path : List CStr) : List CStr := path.dropLast

def pathText (path : List CStr) : CStr := (say "/").intercalate path ++ newlineText

def fprintPath (path : List CStr) : Noisy Unit := emit (pathText path)

def fputs (s : Option CStr) : Noisy Unit :=
  match s with
  | some s => emit s
  | none => quit .badRead

def vprintPath (verbose : Bool) (path : List CStr) : Noisy Unit :=
  if verbose then fprintPath path else pure ()

def vprintlKv (verbose : Bool) (k : CStr) (v : Option CStr) : Noisy Unit :=
  if verbose then do
    emit k
    emit (say ": ")
    fputs v
    emit newlineText
  else pure ()

def addPrefix (isbn : IsbnInfo) (pfx agency : CStr) : Noisy (ℕ × IsbnInfo) := do
  let ret ← silent (IsbnHyphenate.addPrefix isbn pfx agency)
  match copyNumeric [] pfx with
  | .ok none => do
    emit (say "Non-numeric character in prefix.\n")
    pure ret
  | _ => pure ret

def addRuleStr (st : State) (rangeStr rangeLen : Option CStr) : Noisy (ℕ × IsbnInfo) :=
  match rangeStr, rangeLen with
  | none, _ => do
    emit (say "No range for ")
    fprintPath st.path
    emit newlineText
    pure (2, st.isbn)
  | some _, none => do
    emit (say "No range lengh for ")
    fprintPath st.path
    emit newlineText
    pure (2, st.isbn)
  | some rangeStr, some rangeLen =>
    silent (IsbnHyphenate.addRuleStr st.isbn (some rangeStr) (some rangeLen))

def ruleKeys (verbose : Bool) (path : List CStr) (rangeKey lengthKey : Option CStr) :
    List XmlNode → Noisy (Option CStr × Option CStr)
  | [] => pure (rangeKey, lengthKey)
  | cur :: next =>
    if cur.name = "Range" then do
      vprintPath verbose path
      vprintlKv verbose (say "Range") cur.text
      ruleKeys verbose path cur.text lengthKey next
    else if cur.name = "Length" then do
      vprintlKv verbose (say "Length") cur.text
      ruleKeys verbose path rangeKey cur.text next
    else ruleKeys verbose path rangeKey lengthKey next

def parseRule (verbose : Bool) (st : State) (cur : XmlNode) : Noisy State := do
  let path ← pushPath st.path (say "Rule")
  let keys ← ruleKeys verbose path none none cur.children
  let (rv, isbn) ← addRuleStr ⟨st.isbn, path⟩ keys.1 keys.2
  let path := popPath path
  if rv ≠ 0 then do
    emit (say "Error in parseRule().\n")
    quit (.exit 2)
  else pure ⟨isbn, path⟩

def rulesLoop (verbose : Bool) (st : State) : List XmlNode → Noisy State
  | [] => pure st
  | cur :: next =>
    if cur.name = "Rule" then do
      let st ← parseRule verbose st cur
      rulesLoop verbose st next
    else rulesLoop verbose st next

def parseRules (verbose : Bool) (st : State) (cur : XmlNode) : Noisy State := do
  let path ← pushPath st.path (say "Rules")
  let st ← rulesLoop verbose ⟨st.isbn, path⟩ cur.children
  pure ⟨st.isbn, popPath st.path⟩

def groupChildren (verbose : Bool) (st : State) : List XmlNode → Noisy State
  | [] => pure st
  | cur :: next =>
    if cur.name = "Prefix" then do
      let key ← silent (textOf cur)
      vprintlKv verbose (say "Prefix") (some key)
      groupChildren verbose ⟨{ st.isbn with curPrefix := some key }, st.path⟩ next
    else if cur.name = "Agency" then do
      let key ← silent (textOf cur)
      let curAgency := if st.isbn.curAgency ≠ some key then none else st.isbn.curAgency
      vprintlKv verbose (say "Agency") (some key)
      groupChildren verbose
        ⟨{ st.isbn with curAgency := some (curAgency.getD key) }, st.path⟩ next
    else if cur.name = "Rules" then do
      let st ← parseRules verbose st cur
      groupChildren verbose st next
    else groupChildren verbose st next

def reportMissing (what : CStr) (path : List CStr) (child : Option CStr) : Noisy Unit :=
  match child with
  | none => do
    emit what
    fprintPath path
    emit newlineText
  | some _ => pure ()

def parseGroup (verbose : Bool) (st : State) (cur : XmlNode) : Noisy (ℕ × State) := do
  let path ← pushPath st.path (say "Group")
  let st ← groupChildren verbose ⟨{ st.isbn with curPrefix := none }, path⟩ cur.children
  reportMissing (say "No prefix for Group ") st.path st.isbn.curPrefix
  reportMissing (say "No agency for Group ") st.path st.isbn.curAgency
  let groupErr := if st.isbn.curPrefix = none ∨ st.isbn.curAgency = none then 1 else 0
  let curPrefix := st.isbn.curPrefix.getD PREFIX_ERROR
  let curAgency := st.isbn.curAgency.getD AGENCY_ERROR
  let isbn := { st.isbn with curPrefix := some curPrefix, curAgency := some curAgency }
  let (_, isbn) ← addPrefix isbn curPrefix curAgency
  pure (groupErr, ⟨isbn, popPath st.path⟩)

def groupsLoop (verbose : Bool) (st : State) (rgroupErr : ℕ) :
    List XmlNode → Noisy (ℕ × State)
  | [] => pure (rgroupErr, st)
  | cur :: next =>
    if cur.name = "Group" then do
      let (rc, st) ← parseGroup verbose st cur
      groupsLoop verbose st (if rc ≠ 0 then 1 else rgroupErr) next
    else groupsLoop verbose st rgroupErr next

def parseRegistrationGroups (verbose : Bool) (st : State) (cur : XmlNode) :
    Noisy (ℕ × State) := do
  let path ← pushPath st.path (say "RegistrationGroups")
  let (rgroupErr, st) ← groupsLoop verbose ⟨st.isbn, path⟩ 0 cur.children
  pure (rgroupErr, ⟨st.isbn, popPath st.path⟩)

def messageLoop (verbose : Bool) (st : State) (docErr : ℕ) :
    List XmlNode → Noisy (ℕ × State)
  | [] => pure (docErr, st)
  | cur :: next =>
    if cur.name = "RegistrationGroups" then do
      let (rc, st) ← parseRegistrationGroups verbose st cur
      messageLoop verbose st (if rc ≠ 0 then 1 else docErr) next
    else messageLoop verbose st docErr next

/-- What `xmlParseFile` made of the file: NULL, or a document that may lack a
root element. -/
abbrev Document := Option (Option XmlNode)

def parseDoc (verbose : Bool) (st : State) (doc : Document) : Noisy (ℕ × State) :=
  let st : State := ⟨{ st.isbn with curValue := 0 }, st.path⟩
  match doc with
  | none => do
    emit (say "Document not parsed successfully.\n")
    pure (2, st)
  | some none => do
    emit (say "empty document\n")
    pure (2, st)
  | some (some cur) =>
    if cur.name ≠ "ISBNRangeMessage" then do
      emit (say "document of the wrong type, root node != ISBNRangeMessage\n")
      pure (2, st)
    else do
      let path ← pushPath st.path (say "ISBNRangeMessage")
      let (docErr, st) ← messageLoop verbose ⟨st.isbn, path⟩ 0 cur.children
      pure (docErr, ⟨st.isbn, popPath st.path⟩)

def formatS (s : Option CStr) : CStr := s.getD (say "(null)")

def formatZu3 (n : ℕ) : CStr := lit (padLeft 3 ' ' (Nat.toDigits 10 n))

def prefixLine (i : ℕ) (row : IsbnPrefix) : CStr :=
  say "[" ++ formatZu3 i ++ say "] pfx=[" ++ formatS row.pfx ++ say "], agency=[" ++
    formatS row.agency ++ say "], rules=\x7b" ++ formatZu (row.ruleIdx.getD (sizeMod - 1)) ++
    say "," ++ formatZu row.nrules ++ say "\x7d" ++ newlineText

def rangeLine (i : ℕ) (r : IsbnRange) : CStr :=
  say "[" ++ formatZu3 i ++ say "] len=" ++ formatZu r.rngLen.toNat ++ say ", lbound=" ++
    formatZu r.rngLbound.toNat ++ say ", ubound=" ++ formatZu r.rngUbound.toNat ++ newlineText

def dumpCells {α : Type} (vp : Vec α) (line : ℕ → α → CStr) : ℕ → Noisy Unit
  | 0 => pure ()
  | i + 1 => do
    dumpCells vp line i
    match vp.read i with
    | none => quit .badRead
    | some x => emit (line i x)

def fdumpPrefixTable (prefixVp : Vec IsbnPrefix) : Noisy Unit := do
  emit newlineText
  emit (say "@section prefix-table\n")
  emit (say "Prefix table: " ++ formatZu prefixVp.len ++ say " entries.\n")
  dumpCells prefixVp prefixLine prefixVp.len
  emit (say "@end prefix-table\n")

def fdumpRanges (rangesVp : Vec IsbnRange) : Noisy Unit := do
  emit newlineText
  emit (say "@section ranges\nRanges\n------\n")
  dumpCells rangesVp rangeLine rangesVp.len
  emit (say "@end ranges\n")

def fdumpFst (fst : Run CStr) : Noisy Unit := do
  let text ← silent fst
  emit text

def builtTable (verbose : Bool) (doc : Document) : Noisy (ℕ × State) := do
  let isbn ← silent newIsbnInfo
  parseDoc verbose ⟨isbn, []⟩ doc

def dumpTables (verbose : Bool) (isbn : IsbnInfo) (fst : Packed) : Noisy Unit :=
  if verbose then do
    fdumpPrefixTable isbn.prefixVec
    emit newlineText
    emit (say "@section fst -- prefix state machine\n")
    fdumpFst fst.dump
    emit (say "@end fst\n")
    fdumpRanges isbn.rangesVec
  else pure ()

def parseIsbnRangeTable (verbose : Bool) (doc : Document) : Noisy (IsbnInfo × Packed) := do
  let (_, st) ← builtTable verbose doc
  let fst ← silent (fstCopyAndPack st.isbn.fst)
  dumpTables verbose st.isbn fst
  pure (st.isbn, fst)

end IsbnHyphenate.Traced
