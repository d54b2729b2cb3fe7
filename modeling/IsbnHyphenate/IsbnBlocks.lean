import IsbnHyphenate.IsbnDocument
import IsbnHyphenate.Library.Ledger

/-!
# The parser with its strings

The functions that walk the range message once more, with the block of every
string: the keys of `xmlNodeListGetString`, the copies that `strdup` makes, and the
document. A string that is no longer live can neither be read nor freed.
-/

namespace IsbnHyphenate.Owned
open Ledger

abbrev Owning (α : Type) := Held Stop α

abbrev Str := ℕ × CStr

/-- `rows` has the blocks of the two strings of each row of the prefix table. -/
structure IsbnInfo where
  curPrefix : Option Str
  curAgency : Option Str
  rows : List (ℕ × ℕ)
  table : IsbnHyphenate.IsbnInfo

def IsbnInfo.plain (isbn : IsbnInfo) : IsbnHyphenate.IsbnInfo :=
  { isbn.table with
    curPrefix := isbn.curPrefix.map Prod.snd
    curAgency := isbn.curAgency.map Prod.snd }

def newStr (text : CStr) : Owning Str := do
  let b ← malloc
  pure (b, text)

def strdup (s : Str) : Owning Str := do
  touch .badRead s.1
  newStr s.2

def xmlNodeListGetString (cur : XmlNode) : Owning (Option Str) :=
  match cur.text with
  | none => pure none
  | some text => do
    let key ← newStr text
    pure (some key)

def freeKey : Option Str → Owning Unit
  | none => pure ()
  | some key => free .badWrite key.1

def addPrefix (isbn : IsbnInfo) (pfx agency : Str) : Owning (ℕ × IsbnInfo) := do
  let room ← plain (vecMakeRoom isbn.table.prefixVec isbn.table.prefixNr)
  touch .badRead pfx.1
  let numericPrefix ← plain (copyNumeric [] pfx.2)
  match numericPrefix with
  | none => pure (2, { isbn with table := { isbn.table with prefixVec := room } })
  | some numericPrefix => do
    let newPfx ← newStr numericPrefix
    let newAgency ← strdup agency
    let newPrefix :=
      { isbn.table.newPrefix with pfx := some newPfx.2, agency := some newAgency.2 }
    let pfxtbl ← plain (room.write isbn.table.prefixNr newPrefix)
    let ret ← plain (fstAddString isbn.table.fst numericPrefix isbn.table.curValue)
    pure (ret.rc, { isbn with
      rows := isbn.rows ++ [(newPfx.1, newAgency.1)]
      table := { isbn.table with
        prefixVec := { pfxtbl with len := pfxtbl.len + 1 }
        newPrefix := { newPrefix with ruleIdx := none, nrules := 0 }
        fst := ret.fst
        curValue := isbn.table.curValue + 1
        prefixNr := isbn.table.prefixNr + 1 } })

/-- A key that another one takes the place of is forgotten. -/
def ruleKeys (rangeKey lengthKey : Option Str) : List XmlNode → Owning (Option Str × Option Str)
  | [] => pure (rangeKey, lengthKey)
  | cur :: next =>
    if cur.name = "Range" then do
      let key ← xmlNodeListGetString cur
      ruleKeys key lengthKey next
    else if cur.name = "Length" then do
      let key ← xmlNodeListGetString cur
      ruleKeys rangeKey key next
    else ruleKeys rangeKey lengthKey next

def parseRule (isbn : IsbnInfo) (cur : XmlNode) : Owning IsbnInfo := do
  let keys ← ruleKeys none none cur.children
  let ret ← plain (addRuleStr isbn.plain (keys.1.map Prod.snd) (keys.2.map Prod.snd))
  freeKey keys.1
  freeKey keys.2
  if ret.1 ≠ 0 then quit (.exit 2) else pure { isbn with table := ret.2 }

def parseRules (isbn : IsbnInfo) : List XmlNode → Owning IsbnInfo
  | [] => pure isbn
  | cur :: next =>
    if cur.name = "Rule" then do
      let isbn ← parseRule isbn cur
      parseRules isbn next
    else parseRules isbn next

/-- `cur_agency` behind an `Agency`: the old string when it is the same text. -/
def nextAgency (curAgency : Option Str) (key : Str) : Owning Str :=
  match curAgency with
  | none => strdup key
  | some agency => do
    touch .badRead agency.1
    if agency.2 ≠ key.2 then do
      free .badWrite agency.1
      strdup key
    else pure agency

def groupChildren (isbn : IsbnInfo) : List XmlNode → Owning IsbnInfo
  | [] => pure isbn
  | cur :: next =>
    if cur.name = "Prefix" then do
      let key ← xmlNodeListGetString cur
      match key with
      | none => quit .badRead
      | some key => do
        let curPrefix ← strdup key
        free .badWrite key.1
        groupChildren { isbn with curPrefix := some curPrefix } next
    else if cur.name = "Agency" then do
      let key ← xmlNodeListGetString cur
      match key with
      | none => quit .badRead
      | some key => do
        let curAgency ← nextAgency isbn.curAgency key
        free .badWrite key.1
        groupChildren { isbn with curAgency := some curAgency } next
    else if cur.name = "Rules" then do
      let isbn ← parseRules isbn cur.children
      groupChildren isbn next
    else groupChildren isbn next

def orError (s : Option Str) (text : CStr) : Owning Str :=
  match s with
  | none => newStr text
  | some s => pure s

def parseGroup (isbn : IsbnInfo) (cur : XmlNode) : Owning (ℕ × IsbnInfo) := do
  freeKey isbn.curPrefix
  let isbn ← groupChildren { isbn with curPrefix := none } cur.children
  let groupErr := if isbn.curPrefix = none ∨ isbn.curAgency = none then 1 else 0
  let curPrefix ← orError isbn.curPrefix PREFIX_ERROR
  let curAgency ← orError isbn.curAgency AGENCY_ERROR
  let isbn := { isbn with curPrefix := some curPrefix, curAgency := some curAgency }
  let ret ← addPrefix isbn curPrefix curAgency
  pure (groupErr, ret.2)

def parseRegistrationGroups (isbn : IsbnInfo) (rgroupErr : ℕ) :
    List XmlNode → Owning (ℕ × IsbnInfo)
  | [] => pure (rgroupErr, isbn)
  | cur :: next =>
    if cur.name = "Group" then do
      let ret ← parseGroup isbn cur
      parseRegistrationGroups ret.2 (if ret.1 ≠ 0 then 1 else rgroupErr) next
    else parseRegistrationGroups isbn rgroupErr next

def parseMessage (isbn : IsbnInfo) (docErr : ℕ) : List XmlNode → Owning (ℕ × IsbnInfo)
  | [] => pure (docErr, isbn)
  | cur :: next =>
    if cur.name = "RegistrationGroups" then do
      let ret ← parseRegistrationGroups isbn 0 cur.children
      parseMessage ret.2 (if ret.1 ≠ 0 then 1 else docErr) next
    else parseMessage isbn docErr next

def readRoot (isbn : IsbnInfo) : Option XmlNode → Owning (ℕ × IsbnInfo)
  | none => pure (2, isbn)
  | some cur =>
    if cur.name ≠ "ISBNRangeMessage" then pure (2, isbn) else parseMessage isbn 0 cur.children

def parseDoc (isbn : IsbnInfo) (doc : Option (Option XmlNode)) : Owning (ℕ × IsbnInfo) :=
  let isbn := { isbn with table := { isbn.table with curValue := 0 } }
  match doc with
  | none => pure (2, isbn)
  | some root => do
    let block ← malloc
    let ret ← readRoot isbn root
    free .badWrite block
    pure ret

def builtTable (doc : Option (Option XmlNode)) : Owning (ℕ × IsbnInfo) := do
  let table ← plain newIsbnInfo
  parseDoc ⟨none, none, [], table⟩ doc

end IsbnHyphenate.Owned
