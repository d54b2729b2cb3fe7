import IsbnHyphenate.Vec

/-!
# The finite-state transducer of libfst.c

States are numbered from 0 and `len` is the number of the last one, so a
transducer with `len` 0 still has state 0. A transition on the NUL character
carries a value, every other one the number of a state; both are the same
machine word of `union next`.

The lookups read a transducer through `FstView`, because the same code runs on
the vectors of the builder and on the packed copy. A header or a transition
that is not there reads as `none`, and dereferencing it ends the run.
-/

namespace IsbnHyphenate

abbrev Next := ℕ
def asState (nxt : Next) : ℕ := nxt
def asValue (nxt : Next) : ℕ := nxt

def UNDEF_STATE : ℕ := sizeMod - 1

structure Trans where
  tChr : ℤ
  tNext : Next
  deriving DecidableEq, Repr

structure FstState where
  transv : List Trans
  deriving DecidableEq, Repr

def FstState.ntrans (sv : FstState) : ℕ := sv.transv.length

structure ENext where
  err : ℕ
  nxt : Next
  deriving DecidableEq, Repr

structure FstView where
  len : ℕ
  ntrans : ℕ → Option ℕ
  transv : ℕ → ℕ → Option Trans

namespace FstView

def readNtrans (fst : FstView) (state : ℕ) : Run ℕ :=
  match fst.ntrans state with
  | some n => .ok n
  | none => .error .badRead

def readTrans (fst : FstView) (state i : ℕ) : Run Trans :=
  match fst.transv state i with
  | some t => .ok t
  | none => .error .badRead

end FstView

/-- The inner loop of `fst_validate`: it looks at every transition and checks nothing. -/
def validateTrans (fst : FstView) (state : ℕ) : ℕ → Run Unit
  | 0 => .ok ()
  | n + 1 => do
    validateTrans fst state n
    let _ ← fst.readTrans state n
    .ok ()

def validateStates (fst : FstView) : ℕ → Run Unit
  | 0 => .ok ()
  | n + 1 => do
    validateStates fst n
    let ntrans ← fst.readNtrans n
    validateTrans fst n ntrans

def fstValidate (fst : FstView) : Run Unit := validateStates fst fst.len

def ruleScan (fst : FstView) (state : ℕ) (chr : ℤ) : ℕ → ℕ → Run ENext
  | _, 0 => .ok ⟨ENOENT, UNDEF_STATE⟩
  | i, k + 1 => do
    let t ← fst.readTrans state i
    if t.tChr = chr then .ok ⟨0, t.tNext⟩ else ruleScan fst state chr (i + 1) k

def fstRuleLookup (fst : FstView) (state : ℕ) (chr : ℤ) : Run ENext :=
  if state ≥ fst.len + 1 then .ok ⟨EDOM, UNDEF_STATE⟩
  else do
    let ntrans ← fst.readNtrans state
    ruleScan fst state chr 0 ntrans

def isFinalState (fst : FstView) (state : ℕ) : Run Bool := do
  let ntrans ← fst.readNtrans state
  if ntrans > 1 then .ok false
  else do
    let t ← fst.readTrans state 0
    .ok (t.tChr % 256 == 0)

def pfxFinal (fst : FstView) (pfx : Bool) (state : ℕ) : Run Bool :=
  if pfx then isFinalState fst state else .ok false

structure LookupRet where
  rc : ℕ
  val : Option ℕ
  deriving DecidableEq, Repr

def fstLookupFrom (fst : FstView) (pfx : Bool) : ℕ → CStr → Run LookupRet
  | state, [] => do
    let enext ← fstRuleLookup fst state 0
    if enext.err ≠ 0 ∧ enext.err ≠ ENOENT then .ok ⟨enext.err, none⟩
    else if enext.err = ENOENT then .ok ⟨ENOENT, none⟩
    else .ok ⟨0, some (asValue enext.nxt)⟩
  | state, c :: s => do
    let enext ← fstRuleLookup fst state (chrInt c)
    if enext.err ≠ 0 ∧ enext.err ≠ ENOENT then .ok ⟨enext.err, none⟩
    else do
      let final ← pfxFinal fst pfx state
      if final then do
        let t ← fst.readTrans state 0
        .ok ⟨0, some (asValue t.tNext)⟩
      else if enext.err = ENOENT then .ok ⟨ENOENT, none⟩
      else if asState enext.nxt = 0 then .ok ⟨0, some (asValue enext.nxt)⟩
      else fstLookupFrom fst pfx (asState enext.nxt) s

def fstLookup (fst : FstView) (str : CStr) (pfx : Bool) : Run LookupRet := do
  fstValidate fst
  fstLookupFrom fst pfx 0 str

def fstLookupString (fst : FstView) (str : CStr) : Run LookupRet := fstLookup fst str false
def fstLookupPrefix (fst : FstView) (str : CStr) : Run LookupRet := fstLookup fst str true

abbrev Fst := Vec FstState

def Fst.view (fst : Fst) : FstView where
  len := fst.len
  ntrans := fun i => (fst.read i).map FstState.ntrans
  transv := fun i j => (fst.read i).bind fun sv => sv.transv[j]?

def fstInit (vp : Fst) : Run Fst := do
  let vp ← vecMakeRoom vp 10
  Vec.write { vp with len := 0 } 0 ⟨[]⟩

def fstNew : Run Fst := fstInit vecNew

def fstAddTransition (fst : Fst) (state : ℕ) (chr : ℤ) (next : Next) : Run (ℕ × Fst) :=
  if state ≥ fst.len + 1 then .ok (EDOM, fst)
  else if chr ≠ 0 ∧ asState next ≤ state then .ok (ELOOP, fst)
  else
    match fst.read state with
    | none => .error .badRead
    | some sv => do
      let fst ← fst.write state ⟨sv.transv ++ [⟨chr, next⟩]⟩
      .ok (0, fst)

def fstAddState (fst : Fst) : Run (ℕ × Fst) := do
  let newState := fst.len + 1
  let fst ← vecMakeRoom fst newState
  let fst ← Vec.write { fst with len := fst.len + 1 } newState ⟨[]⟩
  .ok (newState, fst)

/-- The return code of `fst_add_string`, the transducer it leaves, and the codes
of failed `fst_add_transition` calls that it printed. -/
structure AddRet where
  rc : ℕ
  fst : Fst
  printed : List ℕ
  deriving DecidableEq

def AddRet.note (ret : AddRet) (err : ℕ) : AddRet :=
  if err = 0 then ret else { ret with printed := err :: ret.printed }

def fstAddFrom (val : ℕ) : Fst → ℕ → CStr → Run AddRet
  | fst, state, [] => do
    let enext ← fstRuleLookup fst.view state 0
    if enext.err ≠ 0 ∧ enext.err ≠ ENOENT then .ok ⟨enext.err, fst, []⟩
    else if enext.err = ENOENT then do
      let (err, fst) ← fstAddTransition fst state 0 val
      .ok (AddRet.note ⟨err, fst, []⟩ err)
    else .ok ⟨EEXIST, fst, []⟩
  | fst, state, c :: s => do
    let enext ← fstRuleLookup fst.view state (chrInt c)
    if enext.err ≠ 0 ∧ enext.err ≠ ENOENT then .ok ⟨enext.err, fst, []⟩
    else if enext.err = ENOENT then do
      let (newState, fst) ← fstAddState fst
      -- a failure of this call is printed, and the loop goes on all the same
      let (err, fst) ← fstAddTransition fst state (chrInt c) newState
      let ret ← fstAddFrom val fst newState s
      .ok (ret.note err)
    else fstAddFrom val fst (asState enext.nxt) s

def fstAddString (fst : Fst) (str : CStr) (val : ℕ) : Run AddRet := do
  fstValidate fst.view
  fstAddFrom val fst 0 str

/-- Any number of `fst_add_string` calls, their return codes ignored. -/
def fstAddAll : Fst → List (CStr × ℕ) → Run Fst
  | fst, [] => .ok fst
  | fst, (str, val) :: adds => do
    let ret ← fstAddString fst str val
    fstAddAll ret.fst adds

def fstBuild (adds : List (CStr × ℕ)) : Run Fst := do
  let fst ← fstNew
  fstAddAll fst adds

end IsbnHyphenate
