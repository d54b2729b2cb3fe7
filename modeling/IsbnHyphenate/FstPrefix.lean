import IsbnHyphenate.FstDictionary
import Mathlib.Data.List.Pairwise

/-!
# Prefix lookup

`fst_lookup_prefix` stops at the first state whose only transition is the NUL
one. It therefore answers with the longest stored prefix of its input, except
that a stored string which another stored string extends is found only when it
is the whole input.
-/

namespace IsbnHyphenate
open NumberedTrie

variable {fst : Fst} {label : ℕ → CStr} {adds : List (CStr × ℕ)}

theorem Built.row_ne_nil (h : Built fst label adds) (hne : adds ≠ []) {i : ℕ} (hi : i ≤ fst.len) :
    Fst.row fst i ≠ [] := by
  have hlt : i < (Fst.trie fst).size := Nat.lt_succ_of_le hi
  obtain ⟨s, hs, hp⟩ : ∃ s, stored adds s ≠ none ∧ label i <+: s := by
    by_cases h0 : i = 0
    · cases adds with
      | nil => exact (hne rfl).elim
      | cons p adds =>
        refine ⟨p.1, stored_ne_none.mpr (by simp), ?_⟩
        rw [h0, h.inv.rep.root]
        exact List.nil_prefix
    · exact h.tight i hlt h0
  intro hnil
  have hcl : (Fst.trie fst).Childless i := by
    intro c
    simp [Fst.trie, rowTrie, hnil, rowFind]
  have hsl := (h.inv.rep.childless_iff h.tight hlt).mp hcl s hs hp
  apply hs
  rw [hsl, ← h.inv.rep.value_eq i hlt]
  simp [Fst.trie, rowTrie, hnil, rowFind]

theorem Built.lookupPrefix (h : Built fst label adds) (hne : adds ≠ []) (s : CStr) :
    fstLookupPrefix fst.view s = .ok (retOf ((Fst.trie fst).descend 0 s)) := by
  rw [fstLookupPrefix, fstLookup, Fst.validate_ok h.inv.holds, run_ok_bind]
  exact fstLookupFrom_descend (Fst.view_shows h.inv.holds) (fun i _ => h.inv.wf i)
    (fun i hi => h.row_ne_nil hne hi) h.inv.rep s (Nat.zero_le _)

def LongestPrefix (keys : List CStr) (s p : CStr) : Prop :=
  p ∈ keys ∧ p <+: s ∧ ∀ q ∈ keys, q <+: s → q.length ≤ p.length

def Findable (keys : List CStr) (s p : CStr) : Prop := p = s ∨ ∀ q ∈ keys, p <+: q → q = p

instance (keys : List CStr) (s p : CStr) : Decidable (LongestPrefix keys s p) :=
  inferInstanceAs (Decidable (p ∈ keys ∧ p <+: s ∧ ∀ q ∈ keys, q <+: s → q.length ≤ p.length))

instance (keys : List CStr) (s p : CStr) : Decidable (Findable keys s p) :=
  inferInstanceAs (Decidable (p = s ∨ ∀ q ∈ keys, p <+: q → q = p))

theorem answers_iff (s p : CStr) :
    Represents.Answers (stored adds) s p ↔
      LongestPrefix (adds.map Prod.fst) s p ∧ Findable (adds.map Prod.fst) s p := by
  simp only [Represents.Answers, stored_ne_none, LongestPrefix, Findable]
  constructor
  · intro hkey
    rcases hkey with ⟨hp, hk, hf⟩
    refine ⟨⟨hk, hp, fun q hq hqs => ?_⟩, hf⟩
    rcases hf with rfl | hmax
    · exact hqs.length_le
    · by_contra hlt
      have hpq := List.prefix_of_prefix_length_le hp hqs (by omega)
      rw [hmax q hq hpq] at hlt
      exact hlt le_rfl
  · intro hkey
    rcases hkey with ⟨⟨hk, hp, -⟩, hf⟩
    exact ⟨hp, hk, hf⟩

theorem Built.lookupPrefix_found (h : Built fst label adds) {s p : CStr}
    (hp : LongestPrefix (adds.map Prod.fst) s p) (hf : Findable (adds.map Prod.fst) s p) :
    ∃ v, stored adds p = some v ∧ fstLookupPrefix fst.view s = .ok ⟨0, some v⟩ := by
  have hne : adds ≠ [] := by
    intro heq
    subst heq
    exact absurd hp.1 (by simp)
  obtain ⟨v, hv⟩ := Option.ne_none_iff_exists'.mp (stored_ne_none.mpr hp.1)
  refine ⟨v, hv, ?_⟩
  rw [h.lookupPrefix hne, (h.inv.rep.descend_root h.tight s v).mpr
    ⟨p, (answers_iff s p).mpr ⟨hp, hf⟩, hv⟩]
  rfl

theorem Built.lookupPrefix_missing (h : Built fst label adds) (hne : adds ≠ []) {s : CStr}
    (hno : ∀ p, LongestPrefix (adds.map Prod.fst) s p → ¬ Findable (adds.map Prod.fst) s p) :
    fstLookupPrefix fst.view s = .ok ⟨ENOENT, none⟩ := by
  rw [h.lookupPrefix hne]
  cases hd : (Fst.trie fst).descend 0 s with
  | none => rfl
  | some v =>
    obtain ⟨p, hp, -⟩ := (h.inv.rep.descend_root h.tight s v).mp hd
    obtain ⟨hl, hf⟩ := (answers_iff s p).mp hp
    exact (hno p hl hf).elim

theorem Built.lookupPrefix_inv (h : Built fst label adds) (hne : adds ≠ []) {s : CStr} {v : ℕ}
    (hv : fstLookupPrefix fst.view s = .ok ⟨0, some v⟩) :
    ∃ p, LongestPrefix (adds.map Prod.fst) s p ∧ Findable (adds.map Prod.fst) s p ∧
      stored adds p = some v := by
  rw [h.lookupPrefix hne] at hv
  cases hd : (Fst.trie fst).descend 0 s with
  | none =>
    rw [hd] at hv
    cases hv
  | some w =>
    rw [hd] at hv
    cases hv
    obtain ⟨p, hp, hs⟩ := (h.inv.rep.descend_root h.tight s v).mp hd
    obtain ⟨hl, hf⟩ := (answers_iff s p).mp hp
    exact ⟨p, hl, hf, hs⟩

theorem Built.lookupPrefix_empty (h : Built fst label []) (s : CStr) :
    fstLookupPrefix fst.view s =
      if s = [] then .ok ⟨ENOENT, none⟩ else .error .badRead := by
  have hlen := h.len_eq_zero
  have hsize : (Fst.trie fst).size = 1 := congrArg (· + 1) hlen
  have hrow : Fst.row fst 0 = [] := by
    cases hr : Fst.row fst 0 with
    | nil => rfl
    | cons t ts =>
      exfalso
      rcases (h.inv.wf 0).byte t (by rw [hr]; simp) with h0 | ⟨c, hc⟩
      · have hv := h.inv.rep.value_eq 0 (by omega)
        simp [Fst.trie, rowTrie, hr, rowFind, h0, stored] at hv
      · have hn : (Fst.trie fst).next 0 c = some t.tNext := by
          simp [Fst.trie, rowTrie, hr, rowFind, hc]
        obtain ⟨hj, hl⟩ := (h.inv.rep.next_iff 0 (by omega) c t.tNext).mp hn
        have hj0 : t.tNext = 0 := Nat.lt_one_iff.mp (hsize ▸ hj)
        rw [hj0] at hl
        simpa using congrArg List.length hl
  have hview := Fst.view_row h.inv.holds (Nat.zero_le fst.len)
  rw [hrow] at hview
  rw [fstLookupPrefix, fstLookup, Fst.validate_ok h.inv.holds, run_ok_bind]
  cases s with
  | nil => rw [lookupFrom_nil hview (Nat.zero_le _), if_pos rfl]; rfl
  | cons c s =>
    have hnone : fst.view.transv 0 0 = none := by
      simp [Fst.view, Fst.read_row h.inv.holds (Nat.zero_le fst.len), hrow]
    rw [fstLookupFrom, fstRuleLookup_row hview (Nat.zero_le _), run_ok_bind,
      if_neg (by simp [rowFind])]
    simp [pfxFinal, isFinalState, hview.readNtrans, FstView.readTrans, hnone]

def Apart (p q : CStr) : Prop := ¬ p <+: q ∧ ¬ q <+: p

instance : Std.Symm Apart := ⟨fun _ _ h => ⟨h.2, h.1⟩⟩

theorem longestPrefix_findable {keys : List CStr} (hfree : keys.Pairwise Apart) {s p : CStr}
    (hp : p ∈ keys) (hps : p <+: s) : LongestPrefix keys s p ∧ Findable keys s p := by
  have hmax : ∀ q ∈ keys, p <+: q → q = p := by
    intro q hq hpq
    by_contra hne
    exact (hfree.forall hp hq (Ne.symm hne)).1 hpq
  refine ⟨⟨hp, hps, fun q hq hqs => ?_⟩, Or.inr hmax⟩
  rcases List.prefix_or_prefix_of_prefix hps hqs with hpq | hqp
  · rw [hmax q hq hpq]
  · exact hqp.length_le

/-- The longest stored prefix is returned when it is the whole input or nothing
stored extends it; every other input has no entry. -/
theorem fst_prefix_lookup_spec (a : CStr × ℕ) (adds : List (CStr × ℕ)) :
    ∃ fst, fstBuild (a :: adds) = .ok fst ∧ ∀ s,
      (∀ p, LongestPrefix ((a :: adds).map Prod.fst) s p →
        Findable ((a :: adds).map Prod.fst) s p →
        ∃ v, stored (a :: adds) p = some v ∧ fstLookupPrefix fst.view s = .ok ⟨0, some v⟩) ∧
      (∀ p, LongestPrefix ((a :: adds).map Prod.fst) s p →
        ¬ Findable ((a :: adds).map Prod.fst) s p →
        fstLookupPrefix fst.view s = .ok ⟨ENOENT, none⟩) ∧
      ((∀ p ∈ (a :: adds).map Prod.fst, ¬ p <+: s) →
        fstLookupPrefix fst.view s = .ok ⟨ENOENT, none⟩) := by
  obtain ⟨fst, label, hok, hb⟩ := fstBuild_built (a :: adds)
  refine ⟨fst, hok, fun s => ⟨fun p hp hf => hb.lookupPrefix_found hp hf, fun p hp hf => ?_,
    fun hno => ?_⟩⟩
  · refine hb.lookupPrefix_missing (by simp) fun q hq hqf => hf ?_
    have hlen : p.length = q.length := le_antisymm (hq.2.2 p hp.1 hp.2.1) (hp.2.2 q hq.1 hq.2.1)
    have hpq := List.prefix_of_prefix_length_le hp.2.1 hq.2.1 hlen.le
    exact (hpq.eq_of_length hlen) ▸ hqf
  · exact hb.lookupPrefix_missing (by simp) fun p hp _ => hno p hp.1 hp.2.1

/-- With "a" and "ab" stored, "a" is the longest stored prefix of "ac", and the
lookup of "ac" still finds nothing. -/
theorem fst_prefix_lookup_misses :
    LongestPrefix [lit ['a'], lit ['a', 'b']] (lit ['a', 'c']) (lit ['a']) ∧
    (fstBuild [(lit ['a'], 1), (lit ['a', 'b'], 2)] >>= fun fst =>
      fstLookupPrefix fst.view (lit ['a', 'c'])) = .ok ⟨ENOENT, none⟩ := by
  decide

theorem stored_eq_some (hkeys : (adds.map Prod.fst).Nodup) {s : CStr} {v : ℕ} :
    stored adds s = some v ↔ (s, v) ∈ adds := by
  induction adds with
  | nil => simp [stored]
  | cons p adds ih =>
    rw [List.map_cons, List.nodup_cons] at hkeys
    have hcons : stored (p :: adds) s = if p.1 = s then some p.2 else stored adds s := by
      by_cases hp : p.1 = s <;> simp [stored, hp]
    rw [hcons, List.mem_cons]
    split_ifs with hp
    · subst hp
      have hfresh : (p.1, v) ∉ adds :=
        fun hmem => hkeys.1 (List.mem_map.mpr ⟨(p.1, v), hmem, rfl⟩)
      simp only [hfresh, or_false, Option.some.injEq, Prod.ext_iff, true_and]
      exact eq_comm
    · have hne : (s, v) ≠ p := fun heq => hp (by rw [← heq])
      simpa only [hne, false_or] using ih hkeys.2

theorem stored_perm {adds' : List (CStr × ℕ)} (hkeys : (adds.map Prod.fst).Nodup)
    (hperm : adds.Perm adds') : stored adds = stored adds' := by
  have hkeys' : (adds'.map Prod.fst).Nodup := (hperm.map Prod.fst).nodup_iff.mp hkeys
  funext s
  apply Option.ext
  intro v
  rw [stored_eq_some hkeys, stored_eq_some hkeys', hperm.mem_iff]

theorem fst_insertion_order {adds adds' : List (CStr × ℕ)} (hne : adds ≠ [])
    (hkeys : (adds.map Prod.fst).Nodup) (hperm : adds.Perm adds') :
    ∃ fst fst', fstBuild adds = .ok fst ∧ fstBuild adds' = .ok fst' ∧ ∀ s,
      (∃ ret, fstLookupString fst.view s = .ok ret ∧ fstLookupString fst'.view s = .ok ret) ∧
      ∃ ret, fstLookupPrefix fst.view s = .ok ret ∧ fstLookupPrefix fst'.view s = .ok ret := by
  have hne' : adds' ≠ [] := fun heq => hne (heq ▸ hperm).eq_nil
  have hd := stored_perm hkeys hperm
  obtain ⟨fst, label, hok, hb⟩ := fstBuild_built adds
  obtain ⟨fst', label', hok', hb'⟩ := fstBuild_built adds'
  refine ⟨fst, fst', hok, hok', fun s => ⟨⟨_, hb.lookupString s, ?_⟩,
    ⟨_, hb.lookupPrefix hne s, ?_⟩⟩⟩
  · rw [hb'.lookupString s, hd]
  · have hsame := hb.inv.rep.descend_unique hb.tight (hd ▸ hb'.inv.rep) (hd ▸ hb'.tight) s
    rw [hb'.lookupPrefix hne' s, hsame]

theorem fst_insertion_order_nested :
    ∃ fst fst', fstBuild [(lit ['a'], 1), (lit ['a', 'b'], 2)] = .ok fst ∧
      fstBuild [(lit ['a', 'b'], 2), (lit ['a'], 1)] = .ok fst' ∧ ∀ s,
      (∃ ret, fstLookupString fst.view s = .ok ret ∧ fstLookupString fst'.view s = .ok ret) ∧
      ∃ ret, fstLookupPrefix fst.view s = .ok ret ∧ fstLookupPrefix fst'.view s = .ok ret :=
  fst_insertion_order (by simp) (by decide) (List.Perm.swap _ _ _)

end IsbnHyphenate
