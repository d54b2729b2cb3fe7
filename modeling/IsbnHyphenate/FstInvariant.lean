import IsbnHyphenate.FstPrefix
import Mathlib.Data.Set.Function

/-!
# The shape of the trie and the cells a lookup touches

The states of every transducer are the prefixes of the strings added to it, in
one tree with state 0 at its root. A lookup stays among these states and their
transitions, except that the search for a final state reads a transition of
state 0 even when there is none.
-/

namespace IsbnHyphenate
open NumberedTrie

variable {fst : Fst} {label : ℕ → CStr} {d : CStr → Option ℕ} {adds : List (CStr × ℕ)}

theorem rowFind_of_mem {ts : List Trans} (h : RowWf ts) {t : Trans} (ht : t ∈ ts) :
    rowFind ts t.tChr = some t.tNext := by
  have hnd := h.nodup
  clear h
  induction ts with
  | nil => cases ht
  | cons u ts ih =>
    rw [List.map_cons, List.nodup_cons] at hnd
    rcases List.mem_cons.mp ht with heq | ht
    · simp [rowFind, heq]
    · have hne : ¬ u.tChr = t.tChr :=
        fun heq => hnd.1 (heq ▸ List.mem_map_of_mem ht)
      have hcons : rowFind (u :: ts) t.tChr = rowFind ts t.tChr := by simp [rowFind, hne]
      rw [hcons, ih ht hnd.2]

theorem mem_of_rowFind {ts : List Trans} {chr : ℤ} {nxt : Next} (h : rowFind ts chr = some nxt) :
    ⟨chr, nxt⟩ ∈ ts := by
  simp only [rowFind, Option.map_eq_some_iff] at h
  rcases h with ⟨t, ht, rfl⟩
  have hchr : t.tChr = chr := by simpa using List.find?_some ht
  have hmem := List.mem_of_find?_eq_some ht
  rw [← hchr]
  exact hmem

theorem Fst.Inv.edge (h : Fst.Inv fst label d) {i : ℕ} (hi : i ≤ fst.len) {t : Trans}
    (ht : t ∈ Fst.row fst i) (hchr : t.tChr ≠ 0) :
    ∃ c, t.tChr = chrInt c ∧ i < asState t.tNext ∧ asState t.tNext ≤ fst.len ∧
      label (asState t.tNext) = label i ++ [c] := by
  rcases (h.wf i).byte t ht with h0 | ⟨c, hc⟩
  · exact (hchr h0).elim
  · have hlt : i < (Fst.trie fst).size := Nat.lt_succ_of_le hi
    have hn : (Fst.trie fst).next i c = some t.tNext := by
      have hfind := rowFind_of_mem (h.wf i) ht
      rwa [hc] at hfind
    have hnode := (h.rep.next_iff i hlt c t.tNext).mp hn
    exact ⟨c, hc, h.rep.next_lt hlt hn, Nat.lt_succ_iff.mp hnode.1, hnode.2⟩

/-- Transition `e.2` of state `e.1` is one on a character and leads to state `j`. -/
def Enters (fst : Fst) (e : ℕ × ℕ) (j : ℕ) : Prop :=
  e.1 ≤ fst.len ∧ ∃ t, (Fst.row fst e.1)[e.2]? = some t ∧ t.tChr ≠ 0 ∧ asState t.tNext = j

/-- The states 0, ..., `len` are the nodes of the tree of all prefixes of `keys`. -/
structure PrefixTree (fst : Fst) (label : ℕ → CStr) (keys : List CStr) : Prop where
  room : fst.len < fst.size
  present : ∀ i ≤ fst.len, fst.read i = some ⟨Fst.row fst i⟩
  root : label 0 = []
  names : Set.BijOn label {i | i ≤ fst.len} {s | s = [] ∨ ∃ q ∈ keys, s <+: q}
  reached : ∀ i ≤ fst.len, (Fst.trie fst).walk 0 (label i) = some i
  oneEach : ∀ i ≤ fst.len, ((Fst.row fst i).map Trans.tChr).Nodup
  forward : ∀ i ≤ fst.len, ∀ t ∈ Fst.row fst i, t.tChr ≠ 0 →
    i < asState t.tNext ∧ asState t.tNext ≤ fst.len
  parent : ∀ j ≤ fst.len, j ≠ 0 → ∃! e, Enters fst e j
  leaves : ∀ j ≤ fst.len, j ≠ 0 → Fst.row fst j ≠ []
  childless : ∀ j ≤ fst.len, j ≠ 0 → (∀ t ∈ Fst.row fst j, t.tChr = 0) →
    ∃ v, Fst.row fst j = [⟨0, v⟩]

theorem Built.enters_once (h : Built fst label adds) {j : ℕ} (hj : j ≤ fst.len) (h0 : j ≠ 0) :
    ∃! e, Enters fst e j := by
  obtain ⟨i, hij, c, hl⟩ := h.inv.rep.parent j (Nat.lt_succ_of_le hj) h0
  have hi : i ≤ fst.len := hij.le.trans hj
  have hn : rowFind (Fst.row fst i) (chrInt c) = some j :=
    (h.inv.rep.next_iff i (Nat.lt_succ_of_le hi) c j).mpr ⟨Nat.lt_succ_of_le hj, hl⟩
  obtain ⟨k, hk⟩ := List.mem_iff_getElem?.mp (mem_of_rowFind hn)
  refine ⟨(i, k), ⟨hi, _, hk, chrInt_ne_zero c, rfl⟩, ?_⟩
  intro e he
  obtain ⟨i', k'⟩ := e
  rcases he with ⟨hi', t, hk', hchr, hnext⟩
  obtain ⟨c', hc', -, -, hl'⟩ := h.inv.edge hi' (List.mem_of_getElem? hk') hchr
  rw [hnext, hl] at hl'
  have hsplit := List.append_inj' hl' rfl
  have heq : i = i' := h.inv.rep.inj i (Nat.lt_succ_of_le hi) i' (Nat.lt_succ_of_le hi') hsplit.1
  subst heq
  -- two transitions on one character have one index
  have hchars := (h.inv.wf i).nodup
  have hsame : ((Fst.row fst i).map Trans.tChr)[k']? = ((Fst.row fst i).map Trans.tChr)[k]? := by
    simp only [List.getElem?_map, hk, hk', Option.map_some, hc', List.singleton_inj.mp hsplit.2]
  have hlen : k' < ((Fst.row fst i).map Trans.tChr).length := by
    rw [List.length_map]
    exact (List.getElem?_eq_some_iff.mp hk').1
  rw [(List.getElem?_inj hlen hchars).mp hsame]

theorem Built.childless (h : Built fst label adds) {j : ℕ}
    (hne : Fst.row fst j ≠ []) (hzero : ∀ t ∈ Fst.row fst j, t.tChr = 0) :
    ∃ v, Fst.row fst j = [⟨0, v⟩] := by
  have hnd := (h.inv.wf j).nodup
  cases hrow : Fst.row fst j with
  | nil => exact (hne hrow).elim
  | cons t ts =>
    rw [hrow] at hnd hzero
    cases ts with
    | nil =>
      refine ⟨t.tNext, ?_⟩
      rw [← hzero t (by simp)]
    | cons u ts =>
      simp [hzero t (by simp), hzero u (by simp)] at hnd

theorem Built.prefixTree (h : Built fst label adds) :
    PrefixTree fst label (adds.map Prod.fst) := by
  have hrep := h.inv.rep
  have hsize : ∀ {i}, i ≤ fst.len → i < (Fst.trie fst).size := Nat.lt_succ_of_le
  have hrow : ∀ j ≤ fst.len, j ≠ 0 → Fst.row fst j ≠ [] := by
    intro j hj h0
    refine h.row_ne_nil ?_ hj
    intro heq
    subst heq
    have := h.len_eq_zero
    omega
  refine ⟨?_, fun i hi => Fst.read_row h.inv.holds hi, hrep.root, ⟨?_, ?_, ?_⟩, ?_,
    fun i _ => (h.inv.wf i).nodup, ?_, fun j hj h0 => h.enters_once hj h0, hrow,
    fun j hj h0 hz => h.childless (hrow j hj h0) hz⟩
  · have := h.inv.holds.fits
    omega
  · intro i hi
    by_cases hnil : label i = []
    · exact Or.inl hnil
    · exact Or.inr ((h.prefix_iff hnil).mpr ⟨i, hi, rfl⟩)
  · intro i hi j hj hl
    exact hrep.inj i (hsize hi) j (hsize hj) hl
  · intro s hs
    by_cases hnil : s = []
    · exact ⟨0, Nat.zero_le _, hrep.root.trans hnil.symm⟩
    · exact (h.prefix_iff hnil).mp (hs.resolve_left hnil)
  · intro i hi
    rw [hrep.walk_iff hrep.pos, hrep.root, List.nil_append]
    exact ⟨hsize hi, rfl⟩
  · intro i hi t ht hchr
    obtain ⟨c, -, hlt, hle, -⟩ := h.inv.edge hi ht hchr
    exact ⟨hlt, hle⟩

theorem fst_prefix_tree (adds : List (CStr × ℕ)) :
    ∃ fst label, fstBuild adds = .ok fst ∧ PrefixTree fst label (adds.map Prod.fst) := by
  obtain ⟨fst, label, hok, hb⟩ := fstBuild_built adds
  exact ⟨fst, label, hok, hb.prefixTree⟩

/-- The same transducer with nothing but the states 0, ..., `len` and the
transitions below the `ntrans` of each. A lookup that returns on it has
inspected nothing else. -/
def FstView.confined (m : FstView) : FstView where
  len := m.len
  ntrans := fun i => if i ≤ m.len then m.ntrans i else none
  transv := fun i j => if i ≤ m.len ∧ j < (m.ntrans i).getD 0 then m.transv i j else none

theorem FstView.Shows.confined {m : FstView} {row : ℕ → List Trans} (h : m.Shows (m.len + 1) row) :
    m.confined.Shows (m.confined.len + 1) row := by
  intro i hi
  have hle : i ≤ m.len := Nat.lt_succ_iff.mp hi
  have hr := h i hi
  refine ⟨?_, fun j hj => ?_⟩
  · simp only [FstView.confined, if_pos hle, hr.header]
  · simp only [FstView.confined, hle, hr.header, Option.getD_some, hj, and_self, ↓reduceIte]
    exact hr.trans j hj

noncomputable def Fst.answer (fst : Fst) (s : CStr) (pfx : Bool) : Option ℕ :=
  if pfx = true ∧ s ≠ [] then (Fst.trie fst).descend 0 s else (Fst.trie fst).find s

theorem Built.lookup_shown (h : Built fst label adds) {m : FstView}
    (hm : m.Shows (m.len + 1) (Fst.row fst)) (hlen : m.len = fst.len) {s : CStr} {pfx : Bool}
    (hsafe : adds ≠ [] ∨ pfx = false ∨ s = []) :
    fstLookup m s pfx = .ok (retOf (Fst.answer fst s pfx)) := by
  have htrie : rowTrie (m.len + 1) (Fst.row fst) = Fst.trie fst := by
    rw [hlen]
    rfl
  have hrep : Represents (rowTrie (m.len + 1) (Fst.row fst)) label (stored adds) :=
    htrie.symm ▸ h.inv.rep
  rw [fstLookup, fstValidate_shows fun i hi => hm i (Nat.lt_succ_of_lt hi), run_ok_bind]
  by_cases hp : pfx = true ∧ s ≠ []
  · have hne : adds ≠ [] := by
      rcases hsafe with hne | hf | hs
      · exact hne
      · simp [hf] at hp
      · exact (hp.2 hs).elim
    rw [hp.1, fstLookupFrom_descend hm (fun i _ => h.inv.wf i)
      (fun i hi => h.row_ne_nil hne (hlen ▸ hi)) hrep s (Nat.zero_le _), htrie]
    simp only [Fst.answer, hp.2, ne_eq, not_false_eq_true, and_self, ↓reduceIte]
  · have hwalk : fstLookupFrom m pfx 0 s = fstLookupFrom m false 0 s := by
      cases pfx with
      | false => rfl
      | true =>
        have hs : s = [] := by simpa using hp
        rw [hs, lookupFrom_nil (hm 0 (Nat.succ_pos _)) (Nat.zero_le _),
          lookupFrom_nil (hm 0 (Nat.succ_pos _)) (Nat.zero_le _)]
    rw [hwalk, fstLookupFrom_walk hm (fun i _ => h.inv.wf i) hrep s (Nat.zero_le _), htrie]
    simp only [Fst.answer, if_neg hp]
    rfl

theorem retOf_rc (o : Option ℕ) : (retOf o).rc = 0 ∨ (retOf o).rc = ENOENT := by
  cases o with
  | none => exact Or.inr rfl
  | some v => exact Or.inl rfl

/-- A lookup reads nothing outside of the transducer, except in prefix mode on
a transducer with nothing in it. -/
theorem fst_lookup_safe_iff (adds : List (CStr × ℕ)) :
    ∃ fst, fstBuild adds = .ok fst ∧ ∀ s pfx,
      (∃ ret, fstLookup fst.view.confined s pfx = .ok ret ∧ fstLookup fst.view s pfx = .ok ret ∧
        (ret.rc = 0 ∨ ret.rc = ENOENT)) ↔ adds ≠ [] ∨ pfx = false ∨ s = [] := by
  obtain ⟨fst, label, hok, hb⟩ := fstBuild_built adds
  have hview := Fst.view_shows hb.inv.holds
  refine ⟨fst, hok, fun s pfx => ⟨fun hret => ?_, fun hsafe => ?_⟩⟩
  · rcases hret with ⟨ret, -, hrun, -⟩
    by_contra hun
    push Not at hun
    obtain ⟨hnil, hp, hs⟩ := hun
    subst hnil
    have hp : pfx = true := by simpa using hp
    have hstop := hb.lookupPrefix_empty s
    rw [if_neg hs, fstLookupPrefix, ← hp, hrun] at hstop
    cases hstop
  · exact ⟨_, hb.lookup_shown hview.confined rfl hsafe, hb.lookup_shown hview rfl hsafe,
      retOf_rc _⟩

/-- The transducer that is kept when no document was parsed, and the first
character of an ISBN. -/
theorem fst_lookup_unsafe_empty :
    (fstBuild [] >>= fun fst => fstLookupPrefix fst.view (lit ['9', '7', '8'])) =
      .error .badRead := by
  decide +kernel

end IsbnHyphenate
