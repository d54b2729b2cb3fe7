import IsbnHyphenate.FstBuild

/-!
# Insertion and exact lookup

One call of `fst_add_string` follows the states that exist, hangs a chain of
new ones below the last of them, and stores the value at the end. Whole
sequences of calls therefore build a dictionary in which the first insertion of
a string wins.
-/

namespace IsbnHyphenate
open NumberedTrie

variable {fst : Fst} {label : ℕ → CStr} {d : CStr → Option ℕ}

def stored (adds : List (CStr × ℕ)) (s : CStr) : Option ℕ :=
  (adds.find? fun p => p.1 = s).map Prod.snd

theorem stored_snoc (adds : List (CStr × ℕ)) (s : CStr) (v : ℕ) (u : CStr) :
    stored (adds ++ [(s, v)]) u = (stored adds u).or (if u = s then some v else none) := by
  simp only [stored, List.find?_append, List.find?_cons, List.find?_nil, Option.map_or]
  by_cases h : s = u
  · simp [h]
  · simp [h, Ne.symm h]

theorem stored_snoc_new {adds : List (CStr × ℕ)} {s : CStr} (h : stored adds s = none) (v : ℕ) :
    stored (adds ++ [(s, v)]) = Function.update (stored adds) s (some v) := by
  funext u
  rw [stored_snoc]
  by_cases hu : u = s
  · subst hu
    simp [h]
  · simp [hu]

theorem stored_snoc_old {adds : List (CStr × ℕ)} {s : CStr} (h : stored adds s ≠ none) (v : ℕ) :
    stored (adds ++ [(s, v)]) = stored adds := by
  funext u
  rw [stored_snoc]
  by_cases hu : u = s
  · subst hu
    obtain ⟨w, hw⟩ := Option.ne_none_iff_exists'.mp h
    simp [hw]
  · simp [hu]

theorem stored_ne_none {adds : List (CStr × ℕ)} {s : CStr} :
    stored adds s ≠ none ↔ s ∈ adds.map Prod.fst := by
  simp only [stored, ne_eq, Option.map_eq_none_iff, List.find?_eq_none, List.mem_map]
  constructor
  · intro h
    push Not at h
    obtain ⟨p, hp, hs⟩ := h
    exact ⟨p, hp, by simpa using hs⟩
  · rintro ⟨p, hp, rfl⟩ h
    exact h p hp (by simp)

/-- What one insertion below `state` adds to the labels: the old ones stay, the
new ones lie on the way to the key, and the last new state is the key itself. -/
structure Grows (fst fst' : Fst) (label label' : ℕ → CStr) (key : CStr) : Prop where
  len_le : fst.len ≤ fst'.len
  old : ∀ i ≤ fst.len, label' i = label i
  new : ∀ i ≤ fst'.len, fst.len < i → label' i <+: key
  last : fst.len < fst'.len → label' fst'.len = key

theorem note_zero (x : Run AddRet) : (x >>= fun ret => .ok (ret.note 0)) = x := by
  cases x <;> rfl

theorem addFrom_nil (h : Fst.Inv fst label d) {state : ℕ} (hs : state ≤ fst.len) (val : ℕ) :
    (d (label state) ≠ none → fstAddFrom val fst state [] = .ok ⟨EEXIST, fst, []⟩) ∧
    (d (label state) = none → ∃ fst', fstAddFrom val fst state [] = .ok ⟨0, fst', []⟩ ∧
      fst'.len = fst.len ∧ Fst.Inv fst' label (Function.update d (label state) (some val))) := by
  have hv : rowFind (Fst.row fst state) 0 = d (label state) :=
    h.rep.value_eq state (Nat.lt_succ_of_le hs)
  constructor
  · intro hd
    obtain ⟨v, hv'⟩ := Option.ne_none_iff_exists'.mp hd
    rw [fstAddFrom, Fst.ruleLookup_ok h.holds hs, run_ok_bind, hv, hv']
    simp
  · intro hd
    obtain ⟨fst', hok, hl, hinv⟩ := h.final hs (hv.trans hd) val
    refine ⟨fst', ?_, hl, hinv⟩
    rw [fstAddFrom, Fst.ruleLookup_ok h.holds hs, run_ok_bind, hv, hd]
    simp [hok, AddRet.note]

theorem addFrom_cons (h : Fst.Inv fst label d) {state : ℕ} (hs : state ≤ fst.len) (val : ℕ)
    (c : Chr) (s : CStr) :
    (∃ j ≤ fst.len, label j = label state ++ [c] ∧
      fstAddFrom val fst state (c :: s) = fstAddFrom val fst j s) ∨
    ((∀ j ≤ fst.len, label j ≠ label state ++ [c]) ∧ ∃ fst₂, fst₂.len = fst.len + 1 ∧
      Fst.Inv fst₂ (Function.update label (fst.len + 1) (label state ++ [c])) d ∧
      fstAddFrom val fst state (c :: s) = fstAddFrom val fst₂ (fst.len + 1) s) := by
  have hlt : state < (Fst.trie fst).size := Nat.lt_succ_of_le hs
  cases hn : rowFind (Fst.row fst state) (chrInt c) with
  | some j =>
    obtain ⟨hj, hl⟩ := (h.rep.next_iff state hlt c j).mp hn
    refine Or.inl ⟨j, Nat.lt_succ_iff.mp hj, hl, ?_⟩
    rw [fstAddFrom, Fst.ruleLookup_ok h.holds hs, run_ok_bind, hn]
    simp [asState]
  | none =>
    obtain ⟨fst₁, fst₂, hok₁, hok₂, hl, hinv⟩ := h.extend hs hn
    refine Or.inr ⟨fun j hj => h.rep.label_ne_append hlt hn j (Nat.lt_succ_of_le hj), fst₂, hl,
      hinv, ?_⟩
    rw [fstAddFrom, Fst.ruleLookup_ok h.holds hs, run_ok_bind, hn]
    simpa [hok₁, hok₂] using note_zero (fstAddFrom val fst₂ (fst.len + 1) s)

theorem addFrom_spec (val : ℕ) (s : CStr) {fst : Fst} {label : ℕ → CStr} {state : ℕ}
    (h : Fst.Inv fst label d) (hs : state ≤ fst.len) :
    (d (label state ++ s) ≠ none → fstAddFrom val fst state s = .ok ⟨EEXIST, fst, []⟩) ∧
    (d (label state ++ s) = none → ∃ fst' label', fstAddFrom val fst state s = .ok ⟨0, fst', []⟩ ∧
      Fst.Inv fst' label' (Function.update d (label state ++ s) (some val)) ∧
      Grows fst fst' label label' (label state ++ s)) := by
  induction s generalizing fst label state with
  | nil =>
    rw [List.append_nil]
    obtain ⟨hdup, hnew⟩ := addFrom_nil h hs val
    refine ⟨hdup, fun hd => ?_⟩
    obtain ⟨fst', hok, hl, hinv⟩ := hnew hd
    exact ⟨fst', label, hok, hinv, hl.ge, fun _ _ => rfl, fun i hi hlt => by omega,
      fun hlt => by omega⟩
  | cons c s ih =>
    have hkey : label state ++ c :: s = label state ++ [c] ++ s := by simp
    rcases addFrom_cons h hs val c s with ⟨j, hj, hl, heq⟩ | ⟨hfresh, fst₂, hlen, hinv, heq⟩
    · rw [heq, hkey, ← hl]
      exact ih h hj
    · have hlab : Function.update label (fst.len + 1) (label state ++ [c]) (fst.len + 1) =
          label state ++ [c] := Function.update_self _ _ _
      have hih := ih hinv (hlen ▸ le_rfl : fst.len + 1 ≤ fst₂.len)
      rw [hlab, ← hkey] at hih
      have habsent : ∀ i < (Fst.trie fst).size, ¬ label state ++ [c] <+: label i := by
        intro i hi hpre
        obtain ⟨k, hk, -, hkl⟩ := h.rep.prefix_stored hi hpre
        exact hfresh k (Nat.lt_succ_iff.mp hk) hkl
      have hnone : d (label state ++ c :: s) = none := by
        by_contra hd
        obtain ⟨i, hi, hil⟩ := h.rep.stored _ hd
        apply habsent i hi
        rw [hil, hkey]
        exact List.prefix_append _ _
      rw [heq]
      refine ⟨fun hd => absurd hnone hd, fun hd => ?_⟩
      obtain ⟨fst', label', hok, hinv', hg⟩ := hih.2 hd
      have hold : ∀ i ≤ fst.len, label' i = label i := fun i hi =>
        (hg.old i (by omega)).trans (Function.update_of_ne (by omega) _ _)
      have hle := hg.len_le
      refine ⟨fst', label', hok, hinv', by omega, hold, ?_, ?_⟩
      · intro i hi hlt
        by_cases hin : i = fst.len + 1
        · rw [hin, hg.old _ (by omega), hlab, hkey]
          exact List.prefix_append _ _
        · exact hg.new i hi (by omega)
      · intro hlt
        by_cases hll : fst₂.len < fst'.len
        · exact hg.last hll
        -- the chain ended with the state just made, so no character was left
        · have hend : fst'.len = fst.len + 1 := by omega
          obtain ⟨i, hi, hil⟩ := hinv'.rep.stored (label state ++ c :: s) (by simp)
          have hi' : i ≤ fst.len + 1 := by
            have := Nat.lt_succ_iff.mp hi
            omega
          rcases Nat.le_succ_iff.mp hi' with hi' | hi'
          · have hpre : label state ++ [c] <+: label i := by
              rw [← hold i hi', hil, hkey]
              exact List.prefix_append _ _
            exact (habsent i (Nat.lt_succ_of_le hi') hpre).elim
          · rw [hend, ← hil, hi']

/-- The last string that was not a prefix of a string before it; the newest
comes first in the argument. -/
def lastNewRev : List CStr → CStr
  | [] => []
  | k :: earlier => if ∃ q ∈ earlier, k <+: q then lastNewRev earlier else k

def lastNew (keys : List CStr) : CStr := lastNewRev keys.reverse

theorem lastNew_snoc (keys : List CStr) (k : CStr) :
    lastNew (keys ++ [k]) = if ∃ q ∈ keys, k <+: q then lastNew keys else k := by
  simp only [lastNew, List.reverse_append, List.reverse_singleton, List.singleton_append,
    lastNewRev, List.mem_reverse]

structure Built (fst : Fst) (label : ℕ → CStr) (adds : List (CStr × ℕ)) : Prop where
  inv : Fst.Inv fst label (stored adds)
  tight : Tight (Fst.trie fst) label (stored adds)
  last : label fst.len = lastNew (adds.map Prod.fst)

theorem Built.len_eq_zero {label : ℕ → CStr} (h : Built fst label []) : fst.len = 0 := by
  by_contra h0
  obtain ⟨s, hs, -⟩ := h.tight fst.len (Nat.lt_succ_self _) h0
  exact hs rfl

theorem Built.label_of_prefix {label : ℕ → CStr} {adds : List (CStr × ℕ)}
    (h : Built fst label adds) {s q : CStr} (hq : q ∈ adds.map Prod.fst) (hsq : s <+: q) :
    ∃ i ≤ fst.len, label i = s := by
  obtain ⟨k, hk, hkq⟩ := h.inv.rep.stored q (stored_ne_none.mpr hq)
  obtain ⟨i, hi, -, hl⟩ := h.inv.rep.prefix_stored hk (hkq ▸ hsq)
  exact ⟨i, Nat.lt_succ_iff.mp hi, hl⟩

theorem Built.prefix_iff {label : ℕ → CStr} {adds : List (CStr × ℕ)} (h : Built fst label adds)
    {s : CStr} (hs : s ≠ []) :
    (∃ q ∈ adds.map Prod.fst, s <+: q) ↔ ∃ i ≤ fst.len, label i = s := by
  constructor
  · intro hkey
    rcases hkey with ⟨q, hq, hsq⟩
    exact h.label_of_prefix hq hsq
  · intro hnode
    rcases hnode with ⟨i, hi, hl⟩
    have h0 : i ≠ 0 := by
      intro heq
      subst heq
      exact hs (hl.symm.trans h.inv.rep.root)
    obtain ⟨q, hq, hp⟩ := h.tight i (Nat.lt_succ_of_le hi) h0
    exact ⟨q, stored_ne_none.mp hq, hl ▸ hp⟩

theorem Built.add_old {label : ℕ → CStr} {adds : List (CStr × ℕ)} (h : Built fst label adds)
    {s : CStr} (hs : s ∈ adds.map Prod.fst) (v : ℕ) :
    fstAddString fst s v = .ok ⟨EEXIST, fst, []⟩ ∧ Built fst label (adds ++ [(s, v)]) := by
  have hd := stored_ne_none.mpr hs
  have hspec := (addFrom_spec v s h.inv (Nat.zero_le _)).1
  rw [h.inv.rep.root, List.nil_append] at hspec
  refine ⟨?_, ?_⟩
  · rw [fstAddString, Fst.validate_ok h.inv.holds, run_ok_bind, hspec hd]
  · have hkeep := stored_snoc_old hd v
    refine ⟨hkeep ▸ h.inv, hkeep ▸ h.tight, ?_⟩
    rw [List.map_append, List.map_cons, List.map_nil, lastNew_snoc,
      if_pos ⟨s, hs, List.prefix_refl s⟩, h.last]

theorem Built.add_new {label : ℕ → CStr} {adds : List (CStr × ℕ)} (h : Built fst label adds)
    {s : CStr} (hs : s ∉ adds.map Prod.fst) (v : ℕ) :
    ∃ fst' label', fstAddString fst s v = .ok ⟨0, fst', []⟩ ∧
      Built fst' label' (adds ++ [(s, v)]) ∧ Grows fst fst' label label' s := by
  have hd : stored adds s = none := by
    by_contra hd
    exact hs (stored_ne_none.mp hd)
  have hspec := (addFrom_spec v s h.inv (Nat.zero_le _)).2
  rw [h.inv.rep.root, List.nil_append] at hspec
  obtain ⟨fst', label', hok, hinv, hg⟩ := hspec hd
  rw [← stored_snoc_new hd v] at hinv
  have hself : stored (adds ++ [(s, v)]) s ≠ none := by
    rw [stored_ne_none]
    simp
  refine ⟨fst', label', ?_, ⟨hinv, ?_, ?_⟩, hg⟩
  · rw [fstAddString, Fst.validate_ok h.inv.holds, run_ok_bind, hok]
  · intro i hi h0
    by_cases hold : i ≤ fst.len
    · obtain ⟨q, hq, hp⟩ := h.tight i (Nat.lt_succ_of_le hold) h0
      refine ⟨q, ?_, (hg.old i hold).symm ▸ hp⟩
      rw [stored_ne_none] at hq ⊢
      simp only [List.map_append, List.mem_append]
      exact Or.inl hq
    · exact ⟨s, hself, hg.new i (Nat.lt_succ_iff.mp hi) (by omega)⟩
  · rw [List.map_append, List.map_cons, List.map_nil, lastNew_snoc]
    by_cases hlen : fst.len < fst'.len
    · rw [hg.last hlen, if_neg]
      intro hkey
      rcases hkey with ⟨q, hq, hsq⟩
      -- the last state is new, and `s` had a state before
      obtain ⟨i, hi, hl⟩ := h.label_of_prefix hq hsq
      have heq := hinv.rep.inj i (Nat.lt_succ_of_le (hi.trans hg.len_le)) fst'.len
        (Nat.lt_succ_self _) (by rw [hg.old i hi, hl, hg.last hlen])
      omega
    · have heq : fst'.len = fst.len := by
        have := hg.len_le
        omega
      rw [heq, hg.old _ le_rfl, h.last]
      split_ifs with hp
      · rfl
      · obtain ⟨i, hi, hl⟩ := hinv.rep.stored s hself
        have hi' : i ≤ fst.len := by
          have := Nat.lt_succ_iff.mp hi
          omega
        by_cases hnil : s = []
        · subst hnil
          have hempty : adds = [] := by
            cases adds with
            | nil => rfl
            | cons p adds => exact (hp ⟨p.1, by simp, List.nil_prefix⟩).elim
          subst hempty
          rfl
        · exact (hp ((h.prefix_iff hnil).mpr ⟨i, hi', by rw [← hg.old i hi', hl]⟩)).elim

theorem Built.add {label : ℕ → CStr} {adds : List (CStr × ℕ)} (h : Built fst label adds)
    (s : CStr) (v : ℕ) :
    ∃ fst' label', fstAddString fst s v =
        .ok ⟨if s ∈ adds.map Prod.fst then EEXIST else 0, fst', []⟩ ∧
      Built fst' label' (adds ++ [(s, v)]) := by
  by_cases hs : s ∈ adds.map Prod.fst
  · obtain ⟨hok, hb⟩ := h.add_old hs v
    exact ⟨fst, label, by rw [hok, if_pos hs], hb⟩
  · obtain ⟨fst', label', hok, hb, -⟩ := h.add_new hs v
    exact ⟨fst', label', by rw [hok, if_neg hs], hb⟩

theorem addAll_built (adds : List (CStr × ℕ)) {fst : Fst} {label : ℕ → CStr}
    {before : List (CStr × ℕ)} (h : Built fst label before) :
    ∃ fst' label', fstAddAll fst adds = .ok fst' ∧ Built fst' label' (before ++ adds) := by
  induction adds generalizing fst label before with
  | nil => exact ⟨fst, label, rfl, by rwa [List.append_nil]⟩
  | cons p adds ih =>
    obtain ⟨s, v⟩ := p
    obtain ⟨fst₁, label₁, hok, hb⟩ := h.add s v
    obtain ⟨fst', label', hall, hb'⟩ := ih hb
    refine ⟨fst', label', by rw [fstAddAll, hok, run_ok_bind, hall], ?_⟩
    simpa only [List.append_assoc, List.singleton_append] using hb'

theorem fstNew_built : ∃ fst, fstNew = .ok fst ∧ Built fst (fun _ => []) [] := by
  obtain ⟨fst, hok, hlen, hinv⟩ := fstNew_ok
  refine ⟨fst, hok, hinv, fun i hi h0 => ?_, rfl⟩
  have : i < fst.len + 1 := hi
  omega

theorem fstBuild_built (adds : List (CStr × ℕ)) :
    ∃ fst label, fstBuild adds = .ok fst ∧ Built fst label adds := by
  obtain ⟨fst₀, hnew, hb₀⟩ := fstNew_built
  obtain ⟨fst, label, hall, hb⟩ := addAll_built adds hb₀
  exact ⟨fst, label, by rw [fstBuild, hnew, run_ok_bind, hall], hb⟩

theorem Built.lookupString {label : ℕ → CStr} {adds : List (CStr × ℕ)}
    (h : Built fst label adds) (s : CStr) :
    fstLookupString fst.view s = .ok (retOf (stored adds s)) := by
  have hwalk := fstLookupFrom_walk (Fst.view_shows h.inv.holds) (fun i _ => h.inv.wf i) h.inv.rep
    s (Nat.zero_le _)
  rw [fstLookupString, fstLookup, Fst.validate_ok h.inv.holds, run_ok_bind, hwalk]
  exact congrArg (fun o => Except.ok (retOf o)) (h.inv.rep.find_eq s)

theorem fst_first_insertion_wins (adds : List (CStr × ℕ)) :
    ∃ fst, fstBuild adds = .ok fst ∧
      (∀ s v, ∃ ret, fstAddString fst s v = .ok ret ∧
        ret.rc = (if s ∈ adds.map Prod.fst then EEXIST else 0) ∧ ret.printed = [] ∧
        (s ∈ adds.map Prod.fst → ret.fst = fst)) ∧
      ∀ s, fstLookupString fst.view s = .ok (retOf (stored adds s)) := by
  obtain ⟨fst, label, hok, hb⟩ := fstBuild_built adds
  refine ⟨fst, hok, fun s v => ?_, fun s => hb.lookupString s⟩
  by_cases hs : s ∈ adds.map Prod.fst
  · exact ⟨_, (hb.add_old hs v).1, by rw [if_pos hs], rfl, fun _ => rfl⟩
  · obtain ⟨fst', label', hadd, -, -⟩ := hb.add_new hs v
    exact ⟨_, hadd, by rw [if_neg hs], rfl, fun h => absurd h hs⟩

end IsbnHyphenate
