import IsbnHyphenate.FstRows

/-!
# The transducer under construction

Every state of the builder is a node of a numbered trie. Between two insertions
the trie is tight; inside `fst_add_string` the chain of new states hangs from
the old trie without a value until the last iteration stores one.
-/

namespace IsbnHyphenate
open NumberedTrie

@[ext] theorem trie_ext {T U : Trie Chr ℕ} (hs : T.size = U.size)
    (hn : ∀ i c, T.next i c = U.next i c) (hv : ∀ i, T.value i = U.value i) : T = U := by
  cases T
  cases U
  simp only at hs
  subst hs
  obtain rfl := funext fun i => funext (hn i)
  obtain rfl := funext hv
  rfl

namespace Fst

def row (fst : Fst) (i : ℕ) : List Trans := ((fst.read i).map FstState.transv).getD []

def trie (fst : Fst) : Trie Chr ℕ := rowTrie (fst.len + 1) (Fst.row fst)

/-- The invariant of the builder: `label i` is the string that leads to state
`i`, and `d` is what has been stored. -/
structure Inv (fst : Fst) (label : ℕ → CStr) (d : CStr → Option ℕ) : Prop where
  holds : fst.Holds (fst.len + 1)
  wf : ∀ i, RowWf (Fst.row fst i)
  rep : Represents (Fst.trie fst) label d

variable {fst fst' : Fst} {label : ℕ → CStr} {d : CStr → Option ℕ}

theorem read_row (h : fst.Holds (fst.len + 1)) {i : ℕ} (hi : i ≤ fst.len) :
    fst.read i = some ⟨Fst.row fst i⟩ := by
  obtain ⟨sv, hsv⟩ := Option.ne_none_iff_exists'.mp (h.init i (Nat.lt_succ_of_le hi))
  simp [Fst.row, hsv]

theorem view_row (h : fst.Holds (fst.len + 1)) {i : ℕ} (hi : i ≤ fst.len) :
    fst.view.Row i (Fst.row fst i) := by
  refine ⟨?_, fun j _ => ?_⟩
  · simp [Fst.view, read_row h hi, FstState.ntrans]
  · simp [Fst.view, read_row h hi]

theorem view_shows (h : fst.Holds (fst.len + 1)) :
    fst.view.Shows (fst.view.len + 1) (Fst.row fst) :=
  fun _ hi => view_row h (Nat.lt_succ_iff.mp hi)

theorem validate_ok (h : fst.Holds (fst.len + 1)) : fstValidate fst.view = .ok () :=
  fstValidate_shows fun i hi => view_shows h i (Nat.lt_succ_of_lt hi)

theorem ruleLookup_ok (h : fst.Holds (fst.len + 1)) {i : ℕ} (hi : i ≤ fst.len) (chr : ℤ) :
    fstRuleLookup fst.view i chr = .ok (enextOf (rowFind (Fst.row fst i) chr)) :=
  fstRuleLookup_row (view_row h hi) hi chr

theorem row_of_read {fst' : Fst} {i : ℕ} {ts : List Trans}
    (h : ∀ j, fst'.read j = if j = i then some ⟨ts⟩ else fst.read j) :
    Fst.row fst' = Function.update (Fst.row fst) i ts := by
  funext j
  by_cases hj : j = i
  · subst hj
    simp [Fst.row, h]
  · simp [Fst.row, h, hj]

theorem addTransition_ok (h : fst.Holds (fst.len + 1)) {state : ℕ} (hs : state ≤ fst.len)
    (chr : ℤ) (nxt : Next) (hc : chr ≠ 0 → state < nxt) :
    ∃ fst', fstAddTransition fst state chr nxt = .ok (0, fst') ∧ fst'.len = fst.len ∧
      fst'.Holds (fst'.len + 1) ∧
      Fst.row fst' = Function.update (Fst.row fst) state (Fst.row fst state ++ [⟨chr, nxt⟩]) := by
  have hrange : ¬ state ≥ fst.len + 1 := by omega
  have hloop : ¬ (chr ≠ 0 ∧ asState nxt ≤ state) := by
    intro hrow
    rcases hrow with ⟨h0, hle⟩
    exact absurd (hc h0) (Nat.not_lt.mpr hle)
  obtain ⟨fst', hw, -, hl, hr, hh, -⟩ := Vec.write_ok h (i := state)
    (by have := h.fits; omega) ⟨Fst.row fst state ++ [⟨chr, nxt⟩]⟩
  refine ⟨fst', ?_, hl, hl ▸ hh, row_of_read hr⟩
  simp only [fstAddTransition, if_neg hrange, if_neg hloop, read_row h hs, hw, run_ok_bind]

theorem addState_ok (h : fst.Holds (fst.len + 1)) :
    ∃ fst', fstAddState fst = .ok (fst.len + 1, fst') ∧ fst'.len = fst.len + 1 ∧
      fst'.Holds (fst'.len + 1) ∧
      Fst.row fst' = Function.update (Fst.row fst) (fst.len + 1) [] := by
  obtain ⟨vp, hm, hh, hn, hl, hr⟩ := Vec.makeRoom h
  have hh' : Vec.Holds (⟨vp.base, vp.len + 1, vp.size⟩ : Fst) (fst.len + 1) :=
    ⟨hh.length_eq, hh.alloc, hh.fits, hh.init⟩
  obtain ⟨fst', hw, -, hl', hr', -, hhn⟩ := Vec.write_ok hh' hn (⟨[]⟩ : FstState)
  have hlen : fst'.len = fst.len + 1 := by
    rw [hl']
    exact congrArg (· + 1) hl
  refine ⟨fst', ?_, hlen, hlen ▸ hhn rfl, row_of_read fun j => ?_⟩
  · simp only [fstAddState, hm, run_ok_bind, hw]
  · rw [hr']
    exact if_congr Iff.rfl rfl (hr j)

theorem inv_of_init (hn : fst.Holds 1) (hl : fst.len = 0) (hr : ∀ i, Fst.row fst i = []) :
    Inv fst (fun _ => []) fun _ => none := by
  refine ⟨by rwa [hl], fun i => ?_, ?_⟩
  · rw [hr i]
    exact rowWf_nil
  · have ht : Fst.trie fst = ⟨1, fun _ _ => none, fun _ => none⟩ := by
      refine trie_ext ?_ (fun i c => ?_) (fun i => ?_)
      · simp [Fst.trie, rowTrie, hl]
      · simp [Fst.trie, rowTrie, hr, rowFind]
      · simp [Fst.trie, rowTrie, hr, rowFind]
    rw [ht]
    exact represents_empty

theorem rowWf_update {rows : ℕ → List Trans} (h : ∀ i, RowWf (rows i)) (state : ℕ)
    {ts : List Trans} (hts : RowWf ts) (i : ℕ) : RowWf (Function.update rows state ts i) := by
  by_cases hi : i = state
  · rw [hi, Function.update_self]
    exact hts
  · rw [Function.update_of_ne hi]
    exact h i

theorem trie_setValue {state val : ℕ} (hl : fst'.len = fst.len)
    (hn : rowFind (Fst.row fst state) 0 = none)
    (hrow : Fst.row fst' =
      Function.update (Fst.row fst) state (Fst.row fst state ++ [⟨0, val⟩])) :
    Fst.trie fst' = (Fst.trie fst).setValue state val := by
  refine trie_ext ?_ (fun i c => ?_) (fun i => ?_)
  · simp [Fst.trie, rowTrie, hl, Trie.setValue]
  · simp only [Fst.trie, rowTrie, hrow, Trie.setValue]
    by_cases hi : i = state
    · subst hi
      rw [Function.update_self, rowFind_append, rowFind_single,
        if_neg (Ne.symm (chrInt_ne_zero c)), Option.or_none]
    · rw [Function.update_of_ne hi]
  · simp only [Fst.trie, rowTrie, hrow, Trie.setValue]
    by_cases hi : i = state
    · subst hi
      rw [Function.update_self, Function.update_self, rowFind_append, hn, rowFind_single,
        if_pos rfl, Option.none_or]
    · rw [Function.update_of_ne hi, Function.update_of_ne hi]

theorem trie_addChild {state : ℕ} {c : Chr} (hs : state ≤ fst.len) (hl : fst'.len = fst.len + 1)
    (hn : rowFind (Fst.row fst state) (chrInt c) = none)
    (hrow : Fst.row fst' = Function.update (Function.update (Fst.row fst) (fst.len + 1) [])
      state (Fst.row fst state ++ [⟨chrInt c, fst.len + 1⟩])) :
    Fst.trie fst' = (Fst.trie fst).addChild state c := by
  have hne : state ≠ fst.len + 1 := by omega
  have hsz : (Fst.trie fst).size = fst.len + 1 := rfl
  refine trie_ext ?_ (fun i e => ?_) (fun i => ?_)
  · simp [Fst.trie, rowTrie, hl, Trie.addChild]
  · have hnext : (Fst.trie fst').next i e = rowFind (Fst.row fst' i) (chrInt e) := rfl
    rw [hnext, hrow]
    by_cases hi : i = state
    · subst hi
      rw [Function.update_self, rowFind_append, rowFind_single]
      by_cases he : e = c
      · subst he
        rw [if_pos rfl, hn, Option.none_or, Trie.addChild_next_self, hsz]
      · rw [if_neg (fun hc => he (chrInt_inj.mp hc).symm), Option.or_none,
          Trie.addChild_next_of_ne _ (fun hc => he hc.2) hne]
        rfl
    · rw [Function.update_of_ne hi]
      by_cases hi' : i = fst.len + 1
      · subst hi'
        rw [Function.update_self, ← hsz, Trie.addChild_next_new _ hne]
        rfl
      · rw [Function.update_of_ne hi', Trie.addChild_next_of_ne _ (fun hc => hi hc.1) hi']
        rfl
  · have hvalue : (Fst.trie fst').value i = rowFind (Fst.row fst' i) 0 := rfl
    have hval : ((Fst.trie fst).addChild state c).value =
        Function.update (Fst.trie fst).value (fst.len + 1) none := rfl
    rw [hvalue, hrow, hval]
    by_cases hi : i = state
    · subst hi
      rw [Function.update_self, Function.update_of_ne hne, rowFind_append, rowFind_single,
        if_neg (chrInt_ne_zero c), Option.or_none]
      rfl
    · rw [Function.update_of_ne hi]
      by_cases hi' : i = fst.len + 1
      · subst hi'
        rw [Function.update_self, Function.update_self]
        rfl
      · rw [Function.update_of_ne hi', Function.update_of_ne hi']
        rfl

theorem Inv.final (h : Inv fst label d) {state : ℕ} (hs : state ≤ fst.len)
    (hn : rowFind (Fst.row fst state) 0 = none) (val : ℕ) :
    ∃ fst', fstAddTransition fst state 0 val = .ok (0, fst') ∧ fst'.len = fst.len ∧
      Inv fst' label (Function.update d (label state) (some val)) := by
  obtain ⟨fst', hok, hl, hh, hrow⟩ := addTransition_ok h.holds hs 0 val (by simp)
  have hwf := rowWf_update h.wf state ((h.wf state).snoc val (Or.inl rfl) hn)
  refine ⟨fst', hok, hl, hh, hrow ▸ hwf, ?_⟩
  rw [trie_setValue hl hn hrow]
  exact h.rep.setValue (Nat.lt_succ_of_le hs) val

theorem Inv.extend (h : Inv fst label d) {state : ℕ} (hs : state ≤ fst.len) {c : Chr}
    (hn : rowFind (Fst.row fst state) (chrInt c) = none) :
    ∃ fst₁ fst₂, fstAddState fst = .ok (fst.len + 1, fst₁) ∧
      fstAddTransition fst₁ state (chrInt c) (fst.len + 1) = .ok (0, fst₂) ∧
      fst₂.len = fst.len + 1 ∧
      Inv fst₂ (Function.update label (fst.len + 1) (label state ++ [c])) d := by
  obtain ⟨fst₁, hok₁, hl₁, hh₁, hrow₁⟩ := addState_ok h.holds
  have hs₁ : state ≤ fst₁.len := by omega
  obtain ⟨fst₂, hok₂, hl₂, hh₂, hrow₂⟩ :=
    addTransition_ok hh₁ hs₁ (chrInt c) (fst.len + 1) (fun _ => by omega)
  have hlen : fst₂.len = fst.len + 1 := hl₂.trans hl₁
  have hrow : Fst.row fst₂ = Function.update (Function.update (Fst.row fst) (fst.len + 1) [])
      state (Fst.row fst state ++ [⟨chrInt c, fst.len + 1⟩]) := by
    have hne : state ≠ fst.len + 1 := by omega
    rw [hrow₂, hrow₁, Function.update_of_ne hne]
  have hwf := rowWf_update (rowWf_update h.wf (fst.len + 1) rowWf_nil) state
    ((h.wf state).snoc (fst.len + 1) (Or.inr ⟨c, rfl⟩) hn)
  refine ⟨fst₁, fst₂, hok₁, hok₂, hlen, hh₂, hrow ▸ hwf, ?_⟩
  rw [trie_addChild hs hlen hn hrow]
  exact h.rep.addChild (Nat.lt_succ_of_le hs) hn

end Fst

theorem fstNew_ok : ∃ fst, fstNew = .ok fst ∧ fst.len = 0 ∧
    Fst.Inv fst (fun _ => []) fun _ => none := by
  refine ⟨⟨some (some ⟨[]⟩ :: List.replicate 9 none), 0, 10⟩, rfl, rfl, Fst.inv_of_init ?_ rfl ?_⟩
  · refine ⟨rfl, Or.inr ⟨by simp, le_rfl⟩, by simp, fun i hi => ?_⟩
    obtain rfl : i = 0 := by omega
    simp [Vec.read]
  · intro i
    cases i with
    | zero => rfl
    | succ i =>
      simp only [Fst.row, Vec.read, Option.getD_some, List.getElem?_cons_succ,
        List.getElem?_replicate]
      split_ifs <;> rfl

end IsbnHyphenate
