import IsbnHyphenate.Fst

/-!
# The range table under construction

`new_isbn_info`, `add_prefix`, `add_rule` and `add_rule_str`. The element path
that is kept for error messages is left out, and `UNDEF_INDEX` is `none`: as
many rules as it would take to reach it do not fit into memory.
-/

namespace IsbnHyphenate

def chrIs (ch : Char) (c : Chr) : Bool := c.1.toNat == ch.toNat

def isDigit (c : Chr) : Bool := decide ('0'.toNat ≤ c.1.toNat ∧ c.1.toNat ≤ '9'.toNat)

def isSpace (c : Chr) : Bool := chrIs ' ' c || decide (9 ≤ c.1.toNat ∧ c.1.toNat ≤ 13)

def digitVal (c : Chr) : ℕ := c.1.toNat - '0'.toNat

def leadingNumber (n : ℕ) : CStr → ℕ
  | [] => n
  | c :: s => if isDigit c then leadingNumber (n * 10 + digitVal c) s else n

def decimal (n : ℕ) (ds : CStr) : ℕ := ds.foldl (fun n c => n * 10 + digitVal c) n

/-- `strtoul(s, NULL, 10)`, which is `strtoull` as well where `long` has 64 bits. -/
def strtoul (s : CStr) : UInt64 :=
  match s.dropWhile isSpace with
  | [] => 0
  | c :: t =>
    let n := leadingNumber 0 (if chrIs '-' c || chrIs '+' c then t else c :: t)
    if sizeMod ≤ n then UInt64.ofNat (sizeMod - 1)
    else if chrIs '-' c then 0 - UInt64.ofNat n
    else UInt64.ofNat n

structure IsbnRange where
  rngLen : UInt64
  rngLbound : UInt32
  rngUbound : UInt32
  deriving DecidableEq, Repr

structure IsbnPrefix where
  pfx : Option CStr
  agency : Option CStr
  ruleIdx : Option ℕ
  nrules : ℕ
  deriving DecidableEq, Repr

structure IsbnInfo where
  curPrefix : Option CStr
  curAgency : Option CStr
  curValue : ℕ
  prefixVec : Vec IsbnPrefix
  rangesVec : Vec IsbnRange
  ruleNr : ℕ
  prefixNr : ℕ
  newPrefix : IsbnPrefix
  fst : Fst
  deriving DecidableEq

/-- The record is cleared with `memset`, so `rule_idx` starts as 0 and not as
`UNDEF_INDEX`. -/
def newIsbnInfo : Run IsbnInfo := do
  let fst ← fstNew
  .ok { curPrefix := none, curAgency := none, curValue := 0, prefixVec := vecNew
        rangesVec := vecNew, ruleNr := 0, prefixNr := 0
        newPrefix := ⟨none, none, some 0, 0⟩, fst := fst }

/-- A store at the end of the text in a `char[16]`; the last one is the NUL. -/
def put16 (buf : CStr) : Run Unit := if buf.length < 16 then .ok () else .error .badWrite

/-- The loop of `add_prefix` over its argument; `none` is the early return. -/
def copyNumeric (numericPrefix : CStr) : CStr → Run (Option CStr)
  | [] => do
    put16 numericPrefix
    .ok (some numericPrefix)
  | c :: pfx =>
    if isDigit c then do
      put16 numericPrefix
      copyNumeric (numericPrefix ++ [c]) pfx
    else if !chrIs '-' c then .ok none
    else copyNumeric numericPrefix pfx

def addPrefix (isbn : IsbnInfo) (pfx agency : CStr) : Run (ℕ × IsbnInfo) := do
  let room ← vecMakeRoom isbn.prefixVec isbn.prefixNr
  let numericPrefix ← copyNumeric [] pfx
  match numericPrefix with
  | none => .ok (2, { isbn with prefixVec := room })
  | some numericPrefix => do
    let newPrefix :=
      { isbn.newPrefix with pfx := some numericPrefix, agency := some agency }
    let pfxtbl ← room.write isbn.prefixNr newPrefix
    let ret ← fstAddString isbn.fst numericPrefix isbn.curValue
    .ok (ret.rc, { isbn with
      prefixVec := { pfxtbl with len := pfxtbl.len + 1 }
      newPrefix := { newPrefix with ruleIdx := none, nrules := 0 }
      fst := ret.fst
      curValue := isbn.curValue + 1
      prefixNr := isbn.prefixNr + 1 })

def countRule (newPrefix : IsbnPrefix) (ruleNr : ℕ) : IsbnPrefix :=
  if newPrefix.ruleIdx = none then { newPrefix with ruleIdx := some ruleNr, nrules := 1 }
  else { newPrefix with nrules := newPrefix.nrules + 1 }

def addRule (isbn : IsbnInfo) (len : UInt64) (lbound ubound : UInt32) : Run (ℕ × IsbnInfo) := do
  let room ← vecMakeRoom isbn.rangesVec isbn.ruleNr
  let ranges ← room.write isbn.ruleNr ⟨len, lbound, ubound⟩
  .ok (0, { isbn with
    rangesVec := { ranges with len := ranges.len + 1 }
    newPrefix := countRule isbn.newPrefix isbn.ruleNr
    ruleNr := isbn.ruleNr + 1 })

/-- A loop of `add_rule_str`: the text up to the end (or to the hyphen) goes to
a `char[16]`. `none` is the early return. -/
def copyBound (stopAtHyphen : Bool) (buf : CStr) : CStr → Run (Option (CStr × CStr))
  | [] => do
    put16 buf
    .ok (some (buf, []))
  | c :: s =>
    if stopAtHyphen && chrIs '-' c then do
      put16 buf
      .ok (some (buf, c :: s))
    else if buf.length > 13 then .ok none
    else do
      put16 buf
      copyBound stopAtHyphen (buf ++ [c]) s

def ruleOfStr (rangeStr rangeLen : Option CStr) : Run (Option IsbnRange) :=
  match rangeStr, rangeLen with
  | some rangeStr, some rangeLen => do
    let lo ← copyBound true [] rangeStr
    match lo with
    | none => .ok none
    | some (loStr, rest) => do
      -- only a hyphen can be left at the front of the rest
      let hi ← copyBound false [] rest.tail
      match hi with
      | none => .ok none
      | some (hiStr, _) =>
        .ok (some ⟨strtoul rangeLen, (strtoul loStr).toUInt32, (strtoul hiStr).toUInt32⟩)
  | _, _ => .ok none

def addRuleStr (isbn : IsbnInfo) (rangeStr rangeLen : Option CStr) : Run (ℕ × IsbnInfo) := do
  let rule ← ruleOfStr rangeStr rangeLen
  match rule with
  | none => .ok (2, isbn)
  | some r => addRule isbn r.rngLen r.rngLbound r.rngUbound

end IsbnHyphenate
