import IsbnHyphenate.IsbnTable
import IsbnHyphenate.FstPack

/-!
# Walking the range message

The functions that walk the tree of the XML parser and fill the table. A node
has its name, the string `xmlNodeListGetString` makes of its children (NULL
when there is none) and the list of its children. The depth of the element path
is bounded by the nesting of these functions, so `push_path` never gives up.
-/

namespace IsbnHyphenate

inductive XmlNode where
  | mk (name : String) (text : Option CStr) (children : List XmlNode)

namespace XmlNode

def name : XmlNode → String
  | mk name _ _ => name

def text : XmlNode → Option CStr
  | mk _ text _ => text

def children : XmlNode → List XmlNode
  | mk _ _ children => children

end XmlNode

/-- The loop of `parseRule`: the last `Range` and the last `Length` are used. -/
def ruleKeys (rangeKey lengthKey : Option CStr) : List XmlNode → Option CStr × Option CStr
  | [] => (rangeKey, lengthKey)
  | cur :: next =>
    if cur.name = "Range" then ruleKeys cur.text lengthKey next
    else if cur.name = "Length" then ruleKeys rangeKey cur.text next
    else ruleKeys rangeKey lengthKey next

def parseRule (isbn : IsbnInfo) (cur : XmlNode) : Run IsbnInfo := do
  let keys := ruleKeys none none cur.children
  let (rv, isbn) ← addRuleStr isbn keys.1 keys.2
  if rv ≠ 0 then .error (.exit 2) else .ok isbn

def parseRules (isbn : IsbnInfo) : List XmlNode → Run IsbnInfo
  | [] => .ok isbn
  | cur :: next =>
    if cur.name = "Rule" then do
      let isbn ← parseRule isbn cur
      parseRules isbn next
    else parseRules isbn next

/-- `strdup` and `strcmp` of a NULL text end the run. -/
def textOf (cur : XmlNode) : Run CStr :=
  match cur.text with
  | some key => .ok key
  | none => .error .badRead

def groupChildren (isbn : IsbnInfo) : List XmlNode → Run IsbnInfo
  | [] => .ok isbn
  | cur :: next =>
    if cur.name = "Prefix" then do
      let key ← textOf cur
      groupChildren { isbn with curPrefix := some key } next
    else if cur.name = "Agency" then do
      let key ← textOf cur
      -- the old text is kept when it is the same one
      let curAgency := if isbn.curAgency ≠ some key then none else isbn.curAgency
      groupChildren { isbn with curAgency := some (curAgency.getD key) } next
    else if cur.name = "Rules" then do
      let isbn ← parseRules isbn cur.children
      groupChildren isbn next
    else groupChildren isbn next

def PREFIX_ERROR : CStr := lit "<PREFIX_ERROR>".toList
def AGENCY_ERROR : CStr := lit "<AGENCY_ERROR>".toList

/-- The return code of `add_prefix` is not looked at. -/
def parseGroup (isbn : IsbnInfo) (cur : XmlNode) : Run (ℕ × IsbnInfo) := do
  let isbn ← groupChildren { isbn with curPrefix := none } cur.children
  let groupErr := if isbn.curPrefix = none ∨ isbn.curAgency = none then 1 else 0
  let curPrefix := isbn.curPrefix.getD PREFIX_ERROR
  let curAgency := isbn.curAgency.getD AGENCY_ERROR
  let isbn := { isbn with curPrefix := some curPrefix, curAgency := some curAgency }
  let (_, isbn) ← addPrefix isbn curPrefix curAgency
  .ok (groupErr, isbn)

def parseRegistrationGroups (isbn : IsbnInfo) (rgroupErr : ℕ) :
    List XmlNode → Run (ℕ × IsbnInfo)
  | [] => .ok (rgroupErr, isbn)
  | cur :: next =>
    if cur.name = "Group" then do
      let (rc, isbn) ← parseGroup isbn cur
      parseRegistrationGroups isbn (if rc ≠ 0 then 1 else rgroupErr) next
    else parseRegistrationGroups isbn rgroupErr next

def parseMessage (isbn : IsbnInfo) (docErr : ℕ) : List XmlNode → Run (ℕ × IsbnInfo)
  | [] => .ok (docErr, isbn)
  | cur :: next =>
    if cur.name = "RegistrationGroups" then do
      let (rc, isbn) ← parseRegistrationGroups isbn 0 cur.children
      parseMessage isbn (if rc ≠ 0 then 1 else docErr) next
    else parseMessage isbn docErr next

/-- The argument is the root element, NULL when the document is not well formed
or empty. -/
def parseDoc (isbn : IsbnInfo) (root : Option XmlNode) : Run (ℕ × IsbnInfo) :=
  let isbn := { isbn with curValue := 0 }
  match root with
  | none => .ok (2, isbn)
  | some cur =>
    if cur.name ≠ "ISBNRangeMessage" then .ok (2, isbn)
    else parseMessage isbn 0 cur.children

def builtTable (root : Option XmlNode) : Run (ℕ × IsbnInfo) := do
  let isbn ← newIsbnInfo
  parseDoc isbn root

def parseIsbnRangeTable (root : Option XmlNode) : Run (IsbnInfo × Packed) := do
  let (_, isbn) ← builtTable root
  let fst ← fstCopyAndPack isbn.fst
  .ok (isbn, fst)

end IsbnHyphenate
