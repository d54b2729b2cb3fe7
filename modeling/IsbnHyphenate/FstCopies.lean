import IsbnHyphenate.FstMeasure
import IsbnHyphenate.Library.Growth
import IsbnHyphenate.Library.Logged
import Mathlib.Algebra.BigOperators.Group.Finset.Piecewise
import Mathlib.Data.Nat.Choose.Basic

/-!
# What the builder copies

`fst_add_string` once more, with a note of every `realloc`: how many elements the
old block had. The states move when their block is full, the transitions of a state
whenever it gets another one.
-/

namespace IsbnHyphenate.Copied
open Logged Growth

inductive Moved where
  | states (n : ℕ)
  | transitions (n : ℕ)

abbrev Copying (α : Type) := Logged Moved Stop α

def vecMakeRoom (fst : Fst) (idx : ℕ) : Copying Fst :=
  if fst.base = none then silent (vecAlloc fst 10)
  else if idx ≥ fst.size then do
    emit [.states fst.size]
    pure (vecGrow fst idx)
  else pure fst

def fstAddTransition (fst : Fst) (state : ℕ) (chr : ℤ) (next : Next) : Copying (ℕ × Fst) :=
  if state ≥ fst.len + 1 then pure (EDOM, fst)
  else if chr ≠ 0 ∧ asState next ≤ state then pure (ELOOP, fst)
  else
    match fst.read state with
    | none => quit .badRead
    | some sv => do
      emit [.transitions sv.ntrans]
      let fst ← silent (fst.write state ⟨sv.transv ++ [⟨chr, next⟩]⟩)
      pure (0, fst)

def fstAddState (fst : Fst) : Copying (ℕ × Fst) := do
  let newState := fst.len + 1
  let fst ← vecMakeRoom fst newState
  let fst ← silent (Vec.write { fst with len := fst.len + 1 } newState ⟨[]⟩)
  pure (newState, fst)

def fstAddFrom (val : ℕ) : Fst → ℕ → CStr → Copying AddRet
  | fst, state, [] => do
    let enext ← silent (fstRuleLookup fst.view state 0)
    if enext.err ≠ 0 ∧ enext.err ≠ ENOENT then pure ⟨enext.err, fst, []⟩
    else if enext.err = ENOENT then do
      let (err, fst) ← fstAddTransition fst state 0 val
      pure (AddRet.note ⟨err, fst, []⟩ err)
    else pure ⟨EEXIST, fst, []⟩
  | fst, state, c :: s => do
    let enext ← silent (fstRuleLookup fst.view state (chrInt c))
    if enext.err ≠ 0 ∧ enext.err ≠ ENOENT then pure ⟨enext.err, fst, []⟩
    else if enext.err = ENOENT then do
      let (newState, fst) ← fstAddState fst
      let (err, fst) ← fstAddTransition fst state (chrInt c) newState
      let ret ← fstAddFrom val fst newState s
      pure (ret.note err)
    else fstAddFrom val fst (asState enext.nxt) s

def fstAddString (fst : Fst) (str : CStr) (val : ℕ) : Copying AddRet := do
  silent (fstValidate fst.view)
  fstAddFrom val fst 0 str

def fstAddAll : Fst → List (CStr × ℕ) → Copying Fst
  | fst, [] => pure fst
  | fst, (str, val) :: adds => do
    let ret ← fstAddString fst str val
    fstAddAll ret.fst adds

def fstBuild (adds : List (CStr × ℕ)) : Copying Fst := do
  let fst ← silent fstNew
  fstAddAll fst adds

theorem makeRoom_ret (fst : Fst) (idx : ℕ) :
    (vecMakeRoom fst idx).ret = IsbnHyphenate.vecMakeRoom fst idx := by
  rw [vecMakeRoom, IsbnHyphenate.vecMakeRoom]
  split_ifs <;> rfl

theorem addTransition_ret (fst : Fst) (state : ℕ) (chr : ℤ) (next : Next) :
    (fstAddTransition fst state chr next).ret =
      IsbnHyphenate.fstAddTransition fst state chr next := by
  rw [fstAddTransition, IsbnHyphenate.fstAddTransition]
  split_ifs
  · rfl
  · rfl
  · cases fst.read state with
    | none => rfl
    | some sv => simp [bind_ret, silent, emit, pure_eq]

theorem addState_ret (fst : Fst) : (fstAddState fst).ret = IsbnHyphenate.fstAddState fst := by
  rw [fstAddState, IsbnHyphenate.fstAddState, bind_ret, makeRoom_ret]
  simp [bind_ret, silent, pure_eq]

theorem addFrom_ret (val : ℕ) (s : CStr) (fst : Fst) (state : ℕ) :
    (fstAddFrom val fst state s).ret = IsbnHyphenate.fstAddFrom val fst state s := by
  induction s generalizing fst state with
  | nil =>
    rw [fstAddFrom, IsbnHyphenate.fstAddFrom, bind_ret]
    refine bind_congr fun enext => ?_
    split_ifs
    · rfl
    · rw [bind_ret, addTransition_ret]
      rfl
    · rfl
  | cons c s ih =>
    rw [fstAddFrom, IsbnHyphenate.fstAddFrom, bind_ret]
    refine bind_congr fun enext => ?_
    split_ifs
    · rfl
    · rw [bind_ret, addState_ret]
      refine bind_congr fun made => ?_
      rw [bind_ret, addTransition_ret]
      refine bind_congr fun added => ?_
      rw [bind_ret, ih]
      rfl
    · exact ih fst _

theorem addAll_ret (adds : List (CStr × ℕ)) (fst : Fst) :
    (fstAddAll fst adds).ret = IsbnHyphenate.fstAddAll fst adds := by
  induction adds generalizing fst with
  | nil => rfl
  | cons add adds ih =>
    rw [fstAddAll, IsbnHyphenate.fstAddAll, bind_ret, fstAddString, bind_ret, addFrom_ret]
    exact bind_congr fun ret => ih ret.fst

theorem build_ret (adds : List (CStr × ℕ)) :
    (fstBuild adds).ret = IsbnHyphenate.fstBuild adds := by
  rw [fstBuild, IsbnHyphenate.fstBuild, bind_ret]
  exact bind_congr fun fst => addAll_ret adds fst

def Moved.ofStates : Moved → ℕ
  | states n => n
  | transitions _ => 0

def Moved.ofTransitions : Moved → ℕ
  | states _ => 0
  | transitions n => n

def statesMoved (log : List Moved) : ℕ := (log.map Moved.ofStates).sum

def transitionsMoved (log : List Moved) : ℕ := (log.map Moved.ofTransitions).sum

theorem statesMoved_append (log more : List Moved) :
    statesMoved (log ++ more) = statesMoved log + statesMoved more := by
  simp [statesMoved]

theorem transitionsMoved_append (log more : List Moved) :
    transitionsMoved (log ++ more) = transitionsMoved log + transitionsMoved more := by
  simp [transitionsMoved]

def grown (size : ℕ) : ℕ := growSize size size

theorem grown_eq (size : ℕ) : grown size = size * 16 / 10 := by
  unfold grown growSize
  dsimp only
  split_ifs <;> omega

theorem grown_pays : Pays grown 10 2 := by
  refine ⟨fun s hs => ?_, fun s hs => ?_⟩
  · rw [grown_eq]
    omega
  · rw [grown_eq]
    omega

/-- Every row of `n` transitions came about by moving 0, 1, ..., `n - 1` of them. -/
structure Weighs (fst : Fst) (log : List Moved) : Prop where
  holds : fst.Holds (fst.len + 1)
  capacity : ∃ k, Reached grown 10 (fst.len + 1) k ∧ fst.size = grown^[k] 10 ∧
    statesMoved log = moved grown 10 k
  transitions : transitionsMoved log =
    ∑ i ∈ Finset.range (fst.len + 1), (Fst.row fst i).length.choose 2

variable {fst fst' : Fst} {log : List Moved}

theorem sum_rows_update {rows : ℕ → List Trans} {n state : ℕ} (hs : state < n) (t : Trans) :
    ∑ i ∈ Finset.range n,
        (Function.update rows state (rows state ++ [t]) i).length.choose 2 =
      ∑ i ∈ Finset.range n, (rows i).length.choose 2 + (rows state).length := by
  have hmem : state ∈ Finset.range n := Finset.mem_range.mpr hs
  have hupdate : ∀ i, (Function.update rows state (rows state ++ [t]) i).length.choose 2 =
      Function.update (fun i => (rows i).length.choose 2) state
        ((rows state ++ [t]).length.choose 2) i :=
    Function.apply_update (fun _ row => row.length.choose 2) rows state _
  have hchoose : (rows state ++ [t]).length.choose 2 =
      (rows state).length.choose 2 + (rows state).length := by
    rw [List.length_append, List.length_singleton, Nat.choose_succ_succ', Nat.choose_one_right,
      Nat.add_comm]
  rw [Finset.sum_congr rfl fun i _ => hupdate i, Finset.sum_update_of_mem hmem, hchoose,
    Finset.sum_eq_add_sum_sdiff_singleton_of_mem hmem fun i => (rows i).length.choose 2]
  omega

theorem Weighs.addTransition (h : Weighs fst log) {state rc : ℕ} {chr : ℤ} {next : Next}
    (hret : (fstAddTransition fst state chr next).ret = .ok (rc, fst')) :
    Weighs fst' (log ++ (fstAddTransition fst state chr next).log) := by
  rw [fstAddTransition] at hret ⊢
  split_ifs at hret ⊢ with hrange hloop
  · cases hret
    simpa [pure_eq] using h
  · cases hret
    simpa [pure_eq] using h
  · have hs : state ≤ fst.len := by omega
    rw [Fst.read_row h.holds hs] at hret ⊢
    obtain ⟨fst₁, hw, hsize, hl, hr, hh, -⟩ := Vec.write_ok h.holds
      (by have := h.holds.fits; omega : state < fst.size)
      (⟨Fst.row fst state ++ [⟨chr, next⟩]⟩ : FstState)
    have hrow := Fst.row_of_read hr
    simp only [hw, emit, silent, bind_ok, pure_eq] at hret ⊢
    cases hret
    obtain ⟨k, hreached, hcap, hmoved⟩ := h.capacity
    refine ⟨by rwa [hl], ⟨k, by rwa [hl], hsize.trans hcap, ?_⟩, ?_⟩
    · rw [statesMoved_append, hmoved]
      rfl
    · rw [transitionsMoved_append, h.transitions, hl, hrow,
        sum_rows_update (Nat.lt_succ_of_le hs)]
      rfl

theorem write_size {vp vp' : Fst} {i : ℕ} {sv : FstState} (h : vp.write i sv = .ok vp') :
    vp'.size = vp.size := by
  simp only [Vec.write] at h
  split_ifs at h
  cases h
  rfl

theorem makeRoom_next (h : fst.Holds (fst.len + 1)) :
    ∃ room, IsbnHyphenate.vecMakeRoom fst (fst.len + 1) = .ok room ∧
      (fst.len + 1 < fst.size ∧ room.size = fst.size ∧
          vecMakeRoom fst (fst.len + 1) = ⟨[], .ok room⟩ ∨
        ¬ fst.len + 1 < fst.size ∧ room.size = grown fst.size ∧
          vecMakeRoom fst (fst.len + 1) = ⟨[.states fst.size], .ok room⟩) := by
  have hfits := h.fits
  have hb : fst.base ≠ none := by
    rcases h.alloc with ⟨-, hs⟩ | ⟨hb, -⟩
    · omega
    · exact hb
  by_cases hroom : fst.len + 1 < fst.size
  · have hkeep : ¬ fst.size ≤ fst.len + 1 := Nat.not_le.mpr hroom
    refine ⟨fst, Vec.makeRoom_keep hb hkeep, Or.inl ⟨hroom, rfl, ?_⟩⟩
    simp [vecMakeRoom, hb, hkeep, pure_eq]
  · have hgrow : fst.size ≤ fst.len + 1 := Nat.not_lt.mp hroom
    refine ⟨vecGrow fst (fst.len + 1), Vec.makeRoom_grow hb hgrow, Or.inr ⟨hroom, ?_, ?_⟩⟩
    · rw [vecGrow, grown, Nat.le_antisymm hgrow hfits]
    · simp [vecMakeRoom, hb, hgrow, emit, pure_eq]

theorem Weighs.addState (h : Weighs fst log) {state : ℕ}
    (hret : (fstAddState fst).ret = .ok (state, fst')) :
    Weighs fst' (log ++ (fstAddState fst).log) := by
  obtain ⟨k, hreached, hcap, hmoved⟩ := h.capacity
  obtain ⟨fst₁, hok, hlen, hholds, hrow⟩ := Fst.addState_ok h.holds
  obtain ⟨room, hroom, hcases⟩ := makeRoom_next h.holds
  have hsame := hret
  rw [addState_ret, hok] at hsame
  cases hsame
  have hwrite := hok
  rw [IsbnHyphenate.fstAddState, hroom, run_ok_bind] at hwrite
  obtain ⟨vp, hw, hvp⟩ := run_bind_ok hwrite
  cases hvp
  have hsize := write_size hw
  have htrans : ∑ i ∈ Finset.range (fst'.len + 1), (Fst.row fst' i).length.choose 2 =
      transitionsMoved log := by
    rw [h.transitions, hlen, Finset.sum_range_succ, hrow, Function.update_self, List.length_nil,
      Nat.choose_zero_succ, Nat.add_zero]
    refine Finset.sum_congr rfl fun i hi => ?_
    rw [Function.update_of_ne (Finset.mem_range.mp hi).ne]
  rcases hcases with ⟨hfit, hsame, hcall⟩ | ⟨hfull, hmore, hcall⟩
  · have hlog : (fstAddState fst).log = [] := by
      rw [fstAddState, hcall, bind_ok, hw]
      rfl
    rw [hlog, List.append_nil]
    refine ⟨hholds, ⟨k, ?_, hsize.trans (hsame.trans hcap), hmoved⟩, htrans.symm⟩
    rw [hlen]
    exact hreached.keep (hcap ▸ hfit)
  · have hlog : (fstAddState fst).log = [.states fst.size] := by
      rw [fstAddState, hcall, bind_ok, hw]
      rfl
    rw [hlog]
    refine ⟨hholds, ⟨k + 1, ?_, ?_, ?_⟩, ?_⟩
    · rw [hlen]
      exact hreached.grow grown_pays (hcap ▸ hfull)
    · rw [hsize, Function.iterate_succ_apply', ← hcap]
      exact hmore
    · rw [statesMoved_append, hmoved, moved_succ, ← hcap]
      rfl
    · rw [transitionsMoved_append, htrans]
      rfl

/-- What `x` notes down is what it adds to the cost of the transducer. -/
def Notes {α : Type} (fst : Fst) (x : Copying α) (out : α → Fst) : Prop :=
  ∀ log, Weighs fst log → ∀ a, x.ret = .ok a → Weighs (out a) (log ++ x.log)

section Notes
variable {α β : Type} {out : α → Fst} {out' : β → Fst}

theorem Notes.silent (x : Run α) : Notes fst (silent x) fun _ => fst := by
  intro log h a _
  rwa [Logged.silent, List.append_nil]

theorem Notes.pure {a : α} (h : out a = fst) : Notes fst (pure a) out := by
  intro log hlog b hb
  cases hb
  rwa [h, pure_eq, List.append_nil]

theorem Notes.bind {x : Copying α} {f : α → Copying β} (hx : Notes fst x out)
    (hf : ∀ a, Notes (out a) (f a) out') : Notes fst (x >>= f) out' := by
  intro log h b hb
  obtain ⟨a, ha, hb'⟩ := of_bind_ok hb
  rw [bind_of_ok ha, ← List.append_assoc]
  exact hf a _ (hx log h a ha) b hb'

end Notes

theorem addFrom_notes (val : ℕ) (s : CStr) (fst : Fst) (state : ℕ) :
    Notes fst (fstAddFrom val fst state s) AddRet.fst := by
  have htrans : ∀ (fst : Fst) state chr next,
      Notes fst (fstAddTransition fst state chr next) Prod.snd :=
    fun fst state chr next log h _ hret => h.addTransition hret
  have hstate : ∀ fst, Notes fst (fstAddState fst) Prod.snd :=
    fun fst log h _ hret => h.addState hret
  have hnote : ∀ (ret : AddRet) err, (ret.note err).fst = ret.fst := by
    intro ret err
    rw [AddRet.note]
    split_ifs <;> rfl
  induction s generalizing fst state with
  | nil =>
    refine (Notes.silent _).bind fun enext => ?_
    split_ifs
    · exact .pure rfl
    · exact (htrans _ _ _ _).bind fun added => .pure (hnote _ _)
    · exact .pure rfl
  | cons c s ih =>
    refine (Notes.silent _).bind fun enext => ?_
    split_ifs
    · exact .pure rfl
    · exact (hstate _).bind fun made => (htrans _ _ _ _).bind fun added =>
        (ih _ _).bind fun ret => .pure (hnote _ _)
    · exact ih _ _

theorem addAll_notes (adds : List (CStr × ℕ)) (fst : Fst) : Notes fst (fstAddAll fst adds) id := by
  induction adds generalizing fst with
  | nil => exact .pure rfl
  | cons add adds ih =>
    exact ((Notes.silent _).bind fun _ => addFrom_notes _ _ _ _).bind fun ret => ih _

theorem weighs_new {fst : Fst} (h : fstNew = .ok fst) : Weighs fst [] := by
  obtain ⟨fst₁, hok, hlen, hinv⟩ := fstNew_ok
  cases h.symm.trans hok
  have hsize : fst.size = 10 := by
    cases h
    rfl
  have hrow : Fst.row fst 0 = [] := by
    cases h
    rfl
  refine ⟨hinv.holds, ⟨0, .start ?_, hsize, rfl⟩, ?_⟩
  · rw [hlen]
    decide
  · rw [hlen, Finset.sum_range_one, hrow]
    rfl

/-- Moving states costs at most 16/5 of their number, whatever is added: the
capacity is the first one in its sequence that holds them. Transitions have been
moved `n * (n - 1) / 2` times, summed over the states with their `n` of them. -/
theorem fst_copies (adds : List (CStr × ℕ)) :
    ∃ fst, IsbnHyphenate.fstBuild adds = .ok fst ∧ (fstBuild adds).ret = .ok fst ∧
      fst.len = (prefixesOf (adds.map Prod.fst)).card ∧
      (∃ k, Reached grown 10 (fst.len + 1) k ∧ fst.size = grown^[k] 10) ∧
      5 * statesMoved (fstBuild adds).log ≤ 16 * fst.len ∧
      transitionsMoved (fstBuild adds).log =
        ∑ i ∈ Finset.range (fst.len + 1), (Fst.row fst i).length.choose 2 := by
  obtain ⟨fst, label, hok, hb⟩ := fstBuild_built adds
  have hret : (fstBuild adds).ret = .ok fst := (build_ret adds).trans hok
  obtain ⟨new, hnew, hall⟩ := of_bind_ok hret
  have hweighs : Weighs fst (fstBuild adds).log := by
    rw [fstBuild, bind_of_ok hnew]
    exact addAll_notes adds new [] (weighs_new hnew) fst hall
  obtain ⟨k, hreached, hcap, hmoved⟩ := hweighs.capacity
  refine ⟨fst, hok, hret, hb.len_eq_card, ⟨k, hreached, hcap⟩, ?_, hweighs.transitions⟩
  have hle := grown_pays.moved_le k
  rcases hreached.last with rfl | ⟨c, hc, hgrown⟩
  · rw [hmoved]
    exact Nat.zero_le _
  · rw [hgrown, grown_eq] at hle
    omega

end IsbnHyphenate.Copied
