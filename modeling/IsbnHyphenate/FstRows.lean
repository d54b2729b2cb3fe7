import IsbnHyphenate.Fst
import IsbnHyphenate.Library.NumberedTrie

/-!
# What the lookups see: one row of transitions for each state

A view that shows the rows `row 0, ..., row (n - 1)` behaves as the trie whose
edges are the transitions on characters and whose values are the transitions
on NUL. Both lookups of libfst.c are computed on that trie.
-/

namespace IsbnHyphenate
open NumberedTrie

def rowFind (ts : List Trans) (chr : ℤ) : Option Next :=
  (ts.find? fun t => t.tChr = chr).map Trans.tNext

def enextOf : Option Next → ENext
  | some nxt => ⟨0, nxt⟩
  | none => ⟨ENOENT, UNDEF_STATE⟩

def retOf : Option ℕ → LookupRet
  | some v => ⟨0, some v⟩
  | none => ⟨ENOENT, none⟩

/-- At most one transition for each character, and every character is a byte. -/
structure RowWf (ts : List Trans) : Prop where
  nodup : (ts.map Trans.tChr).Nodup
  byte : ∀ t ∈ ts, t.tChr = 0 ∨ ∃ c, t.tChr = chrInt c

def rowTrie (n : ℕ) (row : ℕ → List Trans) : Trie Chr ℕ where
  size := n
  next := fun i c => rowFind (row i) (chrInt c)
  value := fun i => rowFind (row i) 0

theorem rowFind_append (ts us : List Trans) (chr : ℤ) :
    rowFind (ts ++ us) chr = (rowFind ts chr).or (rowFind us chr) := by
  simp only [rowFind, List.find?_append, Option.map_or]

theorem rowFind_single (chr chr' : ℤ) (nxt : Next) :
    rowFind [⟨chr, nxt⟩] chr' = if chr = chr' then some nxt else none := by
  simp only [rowFind, List.find?_cons, List.find?_nil]
  by_cases h : chr = chr' <;> simp [h]

theorem rowFind_eq_none {ts : List Trans} {chr : ℤ} :
    rowFind ts chr = none ↔ ∀ t ∈ ts, t.tChr ≠ chr := by
  simp [rowFind]

theorem rowWf_nil : RowWf [] := ⟨by simp, by simp⟩

theorem RowWf.snoc {ts : List Trans} (h : RowWf ts) {chr : ℤ} (nxt : Next)
    (hchr : chr = 0 ∨ ∃ c, chr = chrInt c) (hn : rowFind ts chr = none) :
    RowWf (ts ++ [⟨chr, nxt⟩]) := by
  rw [rowFind_eq_none] at hn
  refine ⟨?_, ?_⟩
  · rw [List.map_append, List.nodup_append]
    refine ⟨h.nodup, by simp, ?_⟩
    intro a ha b hb
    obtain ⟨t, ht, rfl⟩ := List.mem_map.mp ha
    simp only [List.map_cons, List.map_nil, List.mem_singleton] at hb
    exact hb ▸ hn t ht
  · intro t ht
    rcases List.mem_append.mp ht with ht | ht
    · exact h.byte t ht
    · rw [List.mem_singleton.mp ht]
      exact hchr

def rowFinal : List Trans → Bool
  | [t] => t.tChr % 256 == 0
  | _ => false

theorem rowFinal_iff {ts : List Trans} (h : RowWf ts) (hne : ts ≠ []) :
    rowFinal ts = true ↔ ∀ c, rowFind ts (chrInt c) = none := by
  constructor
  · intro hf c
    match ts, hf with
    | [t], hf =>
      rw [rowFind_eq_none]
      intro u hu huc
      rw [List.mem_singleton.mp hu] at huc
      have hp := chr_pos c
      have hm := chrInt_emod c
      simp only [rowFinal, huc, beq_iff_eq] at hf
      omega
  · intro hc
    have hzero : ∀ t ∈ ts, t.tChr = 0 := by
      intro t ht
      rcases h.byte t ht with h0 | ⟨c, hcc⟩
      · exact h0
      · exact (rowFind_eq_none.mp (hc c) t ht hcc).elim
    match ts, hne with
    | [t], _ => simp [rowFinal, hzero t (by simp)]
    | t :: u :: _, _ =>
      have hnd := h.nodup
      simp only [List.map_cons, List.nodup_cons, List.mem_cons, not_or] at hnd
      exact (hnd.1.1 (by rw [hzero t (by simp), hzero u (by simp)])).elim

theorem rowFind_of_final {t : Trans} {ts : List Trans} (h : RowWf ts) (hf : rowFinal ts = true)
    (ht : ts[0]? = some t) : rowFind ts 0 = some t.tNext := by
  match ts, hf, ht with
  | [u], hf, ht =>
    obtain rfl : u = t := by simpa using ht
    rcases h.byte u (by simp) with h0 | ⟨c, hc⟩
    · simp [rowFind, h0]
    · have hp := chr_pos c
      have hm := chrInt_emod c
      simp only [rowFinal, hc, beq_iff_eq] at hf
      omega

namespace FstView

structure Row (m : FstView) (i : ℕ) (ts : List Trans) : Prop where
  header : m.ntrans i = some ts.length
  trans : ∀ j < ts.length, m.transv i j = ts[j]?

def Shows (m : FstView) (n : ℕ) (row : ℕ → List Trans) : Prop := ∀ i < n, m.Row i (row i)

variable {m : FstView} {i : ℕ} {ts : List Trans}

theorem Row.readNtrans (h : m.Row i ts) : m.readNtrans i = .ok ts.length := by
  simp [FstView.readNtrans, h.header]

theorem Row.readTrans (h : m.Row i ts) {j : ℕ} (hj : j < ts.length) :
    m.readTrans i j = .ok ts[j] := by
  simp [FstView.readTrans, h.trans j hj, List.getElem?_eq_getElem hj]

end FstView

section Reading
variable {m : FstView} {i : ℕ} {ts : List Trans}

theorem ruleScan_row (h : m.Row i ts) (chr : ℤ) (k : ℕ) :
    ∀ j, j + k = ts.length → ruleScan m i chr j k = .ok (enextOf (rowFind (ts.drop j) chr)) := by
  induction k with
  | zero =>
    intro j hj
    rw [List.drop_eq_nil_of_le (by omega)]
    rfl
  | succ k ih =>
    intro j hj
    have hlt : j < ts.length := by omega
    rw [ruleScan, h.readTrans hlt, run_ok_bind, List.drop_eq_getElem_cons hlt,
      ih (j + 1) (by omega)]
    by_cases hc : ts[j].tChr = chr <;> simp only [rowFind, List.find?_cons, hc, enextOf,
      decide_true, decide_false, ↓reduceIte, Option.map_some]

theorem fstRuleLookup_row (h : m.Row i ts) (hi : i ≤ m.len) (chr : ℤ) :
    fstRuleLookup m i chr = .ok (enextOf (rowFind ts chr)) := by
  have hlt : ¬ i ≥ m.len + 1 := by omega
  rw [fstRuleLookup, if_neg hlt, h.readNtrans, run_ok_bind, ruleScan_row h chr _ 0 (by omega),
    List.drop_zero]

theorem isFinalState_row (h : m.Row i ts) (hne : ts ≠ []) :
    isFinalState m i = .ok (rowFinal ts) := by
  have hpos : 0 < ts.length := List.length_pos_iff.mpr hne
  rw [isFinalState, h.readNtrans, run_ok_bind]
  by_cases hl : ts.length > 1
  · rw [if_pos hl]
    match ts, hl with
    | _ :: _ :: _, _ => rfl
  · rw [if_neg hl, h.readTrans hpos, run_ok_bind]
    match ts, hl, hne with
    | [t], _, _ => rfl
    | _ :: _ :: _, hl, _ => simp at hl

theorem validateTrans_row (h : m.Row i ts) {k : ℕ} (hk : k ≤ ts.length) :
    validateTrans m i k = .ok () := by
  induction k with
  | zero => rfl
  | succ k ih => rw [validateTrans, ih (by omega), run_ok_bind, h.readTrans (by omega), run_ok_bind]

theorem fstValidate_shows {row : ℕ → List Trans} (h : m.Shows m.len row) :
    fstValidate m = .ok () := by
  have hk : ∀ k ≤ m.len, validateStates m k = .ok () := by
    intro k
    induction k with
    | zero => intro _; rfl
    | succ k ih =>
      intro hk
      have hr := h k hk
      rw [validateStates, ih (by omega), run_ok_bind, hr.readNtrans, run_ok_bind,
        validateTrans_row hr le_rfl]
  exact hk m.len le_rfl

end Reading

section Lookup
variable {m : FstView} {row : ℕ → List Trans} {label : ℕ → CStr} {d : CStr → Option ℕ}

@[simp] theorem enextOf_some_err (nxt : Next) : (enextOf (some nxt)).err = 0 := rfl
@[simp] theorem enextOf_none_err : (enextOf none).err = ENOENT := rfl
@[simp] theorem enextOf_some_nxt (nxt : Next) : (enextOf (some nxt)).nxt = nxt := rfl

theorem lookupFrom_nil (h : m.Row i ts) (hi : i ≤ m.len) (pfx : Bool) :
    fstLookupFrom m pfx i [] = .ok (retOf (rowFind ts 0)) := by
  rw [fstLookupFrom, fstRuleLookup_row h hi, run_ok_bind]
  cases rowFind ts 0 <;> simp [retOf, asValue]

theorem lookupFrom_cons (h : m.Row i ts) (hi : i ≤ m.len) (pfx : Bool) (c : Chr) (s : CStr)
    (hne : pfx = true → ts ≠ []) (hwf : RowWf ts) (hpos : rowFind ts (chrInt c) ≠ some 0) :
    fstLookupFrom m pfx i (c :: s) =
      if pfx = true ∧ rowFinal ts = true then .ok (retOf (rowFind ts 0))
      else match rowFind ts (chrInt c) with
        | none => .ok ⟨ENOENT, none⟩
        | some j => fstLookupFrom m pfx j s := by
  have hfin : pfxFinal m pfx i = .ok (pfx && rowFinal ts) := by
    cases pfx with
    | false => rfl
    | true => simpa [pfxFinal] using isFinalState_row h (hne rfl)
  have herr : ¬ ((enextOf (rowFind ts (chrInt c))).err ≠ 0 ∧
      (enextOf (rowFind ts (chrInt c))).err ≠ ENOENT) := by
    cases rowFind ts (chrInt c) <;> simp
  rw [fstLookupFrom, fstRuleLookup_row h hi, run_ok_bind, if_neg herr, hfin, run_ok_bind]
  by_cases hf : pfx = true ∧ rowFinal ts = true
  · have hl : 0 < ts.length := List.length_pos_iff.mpr (hne hf.1)
    have hv := rowFind_of_final hwf hf.2 (List.getElem?_eq_getElem hl)
    simp [hf.1, hf.2, h.readTrans hl, hv, retOf, asValue]
  · have hb : (pfx && rowFinal ts) = false := by simpa using hf
    rw [if_neg hf, hb]
    cases hr : rowFind ts (chrInt c) with
    | none => simp
    | some j =>
      have hj : j ≠ 0 := fun h0 => hpos (by rw [hr, h0])
      simp [asState, hj]

theorem fstLookupFrom_walk (hs : m.Shows (m.len + 1) row) (hwf : ∀ i ≤ m.len, RowWf (row i))
    (hr : Represents (rowTrie (m.len + 1) row) label d) (s : CStr) {i : ℕ} (hi : i ≤ m.len) :
    fstLookupFrom m false i s =
      .ok (retOf (((rowTrie (m.len + 1) row).walk i s).bind (rowTrie (m.len + 1) row).value)) := by
  have hlt : i < (rowTrie (m.len + 1) row).size := Nat.lt_succ_of_le hi
  induction s generalizing i with
  | nil => exact lookupFrom_nil (hs i hlt) hi false
  | cons c s ih =>
    have hpos : rowFind (row i) (chrInt c) ≠ some 0 :=
      fun h0 => absurd (hr.next_lt hlt h0) (Nat.not_lt_zero i)
    rw [lookupFrom_cons (hs i hlt) hi false c s (by simp) (hwf i hi) hpos]
    simp only [Bool.false_eq_true, false_and, ↓reduceIte, Trie.walk]
    cases hn : rowFind (row i) (chrInt c) with
    | none => simp [rowTrie, hn, retOf]
    | some j =>
      have hj := ((hr.next_iff i hlt c j).mp hn).1
      simpa [rowTrie, hn] using ih (Nat.lt_succ_iff.mp hj) hj

theorem fstLookupFrom_descend (hs : m.Shows (m.len + 1) row) (hwf : ∀ i ≤ m.len, RowWf (row i))
    (hne : ∀ i ≤ m.len, row i ≠ []) (hr : Represents (rowTrie (m.len + 1) row) label d)
    (s : CStr) {i : ℕ} (hi : i ≤ m.len) :
    fstLookupFrom m true i s = .ok (retOf ((rowTrie (m.len + 1) row).descend i s)) := by
  have hlt : i < (rowTrie (m.len + 1) row).size := Nat.lt_succ_of_le hi
  induction s generalizing i with
  | nil => exact lookupFrom_nil (hs i hlt) hi true
  | cons c s ih =>
    have hpos : rowFind (row i) (chrInt c) ≠ some 0 :=
      fun h0 => absurd (hr.next_lt hlt h0) (Nat.not_lt_zero i)
    have hfin := rowFinal_iff (hwf i hi) (hne i hi)
    rw [lookupFrom_cons (hs i hlt) hi true c s (fun _ => hne i hi) (hwf i hi) hpos]
    by_cases hf : rowFinal (row i) = true
    · have hcl : (rowTrie (m.len + 1) row).Childless i := hfin.mp hf
      rw [if_pos ⟨rfl, hf⟩, Trie.descend, if_pos hcl]
      rfl
    · have hcl : ¬ (rowTrie (m.len + 1) row).Childless i := fun hc => hf (hfin.mpr hc)
      rw [if_neg (fun h => hf h.2), Trie.descend, if_neg hcl]
      cases hn : rowFind (row i) (chrInt c) with
      | none => simp [rowTrie, hn, retOf]
      | some j =>
        have hj := ((hr.next_iff i hlt c j).mp hn).1
        simpa [rowTrie, hn] using ih (Nat.lt_succ_iff.mp hj) hj

end Lookup

end IsbnHyphenate
