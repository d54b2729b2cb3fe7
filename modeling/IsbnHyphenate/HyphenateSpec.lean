import IsbnHyphenate.Hyphenate
import IsbnHyphenate.IsbnCatalog

/-!
# Hyphenation over a catalog

What `hyphenate_isbn` does with a table that refines a catalog: the prefix
lookup picks an entry of the catalog, the linear search one of its rules, and
the rest depends on the length of the prefix and on the length in the rule.
-/

namespace IsbnHyphenate
open Slices CopyScript

structure Matched (cat : Catalog) (s : CStr) (e : Entry) : Prop where
  longest : LongestPrefix (cat.entries.map Entry.pfx) s e.pfx
  findable : Findable (cat.entries.map Entry.pfx) s e.pfx
  first : (cat.entries.find? fun e' => e'.pfx = e.pfx) = some e

theorem Matched.unique {cat : Catalog} {s : CStr} {e e' : Entry} (h : Matched cat s e)
    (h' : Matched cat s e') : e = e' := by
  have hlen : e.pfx.length = e'.pfx.length :=
    le_antisymm (h'.longest.2.2 _ h.longest.1 h.longest.2.1)
      (h.longest.2.2 _ h'.longest.1 h'.longest.2.1)
  have hpfx : e.pfx = e'.pfx := (List.prefix_of_prefix_length_le h.longest.2.1 h'.longest.2.1
    hlen.le).eq_of_length hlen
  have hfirst := h.first
  rw [hpfx, h'.first] at hfirst
  exact (Option.some_inj.mp hfirst).symm

def Entry.ruleFor (e : Entry) (n : UInt32) : Option IsbnRange :=
  e.rules.find? fun r => r.Contains n

def registrantOf (z : ZStr) : UInt32 := parseNumberSlice z.byte 4 7 0

def IsbnInfo.table (isbn : IsbnInfo) (fst : FstView) : RangeTable :=
  ⟨some fst, isbn.prefixVec, isbn.rangesVec⟩

theorem find_of_keyed {p : CStr} {q : CStr × ℕ} (xs : List Entry) {n : ℕ}
    (h : (((xs.zipIdx n).map fun q => (q.1.pfx, q.2)).find? fun q => q.1 = p) = some q) :
    n ≤ q.2 ∧ xs[q.2 - n]? = xs.find? fun e => e.pfx = p := by
  induction xs generalizing n with
  | nil => simp at h
  | cons x xs ih =>
    rw [List.zipIdx_cons, List.map_cons, List.find?_cons] at h
    by_cases hx : x.pfx = p
    · simp only [hx, decide_true, Option.some_inj] at h
      subst h
      simp [hx]
    · simp only [hx, decide_false] at h
      obtain ⟨hle, hget⟩ := ih h
      refine ⟨by omega, ?_⟩
      rw [List.find?_cons_of_neg (by simpa using hx), ← hget,
        show q.2 - n = (q.2 - (n + 1)) + 1 by omega, List.getElem?_cons_succ]

section Lookup
variable {isbn : IsbnInfo} {cat : Catalog} {s : CStr} {e : Entry}

theorem Refines.lookup_matched (h : Refines isbn cat) (hm : Matched cat s e) :
    ∃ k, cat.entries[k]? = some e ∧ fstLookupPrefix isbn.fst.view s = .ok ⟨0, some k⟩ := by
  obtain ⟨label, hb⟩ := h.dict
  obtain ⟨k, hk, hl⟩ := hb.lookupPrefix_found (cat.keyed_keys ▸ hm.longest)
    (cat.keyed_keys ▸ hm.findable)
  obtain ⟨q, hq, rfl⟩ := Option.map_eq_some_iff.mp hk
  have hget := (find_of_keyed cat.entries hq).2
  rw [Nat.sub_zero, hm.first] at hget
  exact ⟨q.2, hget, hl⟩

theorem Refines.lookup_unmatched (h : Refines isbn cat) (hne : cat.entries ≠ [])
    (hno : ∀ e, ¬ Matched cat s e) : fstLookupPrefix isbn.fst.view s = .ok ⟨ENOENT, none⟩ := by
  obtain ⟨label, hb⟩ := h.dict
  refine hb.lookupPrefix_missing ?_ fun p hp hf => ?_
  · intro hnil
    have hkeys := cat.keyed_keys
    rw [hnil] at hkeys
    exact hne (List.map_eq_nil_iff.mp hkeys.symm)
  · rw [cat.keyed_keys] at hp hf
    obtain ⟨e', he', hpe'⟩ := List.mem_map.mp hp.1
    cases hfind : cat.entries.find? fun e => e.pfx = p with
    | none => exact List.find?_eq_none.mp hfind e' he' (by simpa using hpe')
    | some e =>
      obtain rfl : e.pfx = p := by simpa using List.find?_some hfind
      exact hno e ⟨hp, hf, hfind⟩

theorem Refines.lookup_empty (h : Refines isbn cat) (he : cat.entries = []) :
    fstLookupPrefix isbn.fst.view s =
      if s = [] then .ok ⟨ENOENT, none⟩ else .error .badRead := by
  obtain ⟨label, hb⟩ := h.dict
  rw [Catalog.keyed, he] at hb
  exact hb.lookupPrefix_empty s

end Lookup

section Hyphenate
variable {isbn : IsbnInfo} {cat : Catalog} {e : Entry} {fst : FstView} {bsz : ℕ} {z : ZStr}

theorem findRange_spec (ranges : Vec IsbnRange) (row : IsbnPrefix) {start : ℕ} (n : UInt32)
    {rules : List IsbnRange} (hidx : rules ≠ [] → row.ruleIdx = some start)
    (hcells : ∀ i < rules.length, ranges.read (start + i) = rules[i]?) (rs : List IsbnRange) :
    ∀ i, rules.drop i = rs → findRange ranges row n i rs.length =
      .ok ((rs.find? fun r => r.Contains n).map IsbnRange.rngLen) := by
  induction rs with
  | nil =>
    intro i _
    rfl
  | cons r rs ih =>
    intro i hdrop
    have hi : i < rules.length := by
      by_contra hge
      rw [List.drop_eq_nil_of_le (by omega)] at hdrop
      cases hdrop
    have hr : rules[i]? = some r := by
      rw [← List.head?_drop, hdrop, List.head?_cons]
    have hidx' := hidx (List.ne_nil_of_length_pos (by omega))
    rw [List.length_cons, findRange, hidx', Option.bind_some, hcells i hi, hr]
    have hrest := ih (i + 1) (by rw [← List.tail_drop, hdrop, List.tail_cons])
    by_cases hc : r.Contains n
    · simp [hc]
    · simp [hc, hrest]

theorem Refines.hyphenate_matched (h : Refines isbn cat) (hb : 18 ≤ bsz)
    (hm : Matched cat z.str e) :
    hyphenateIsbn (some (isbn.table isbn.fst.view)) bsz z =
      match e.ruleFor (registrantOf z) with
      | none => .quit [(4, 7)] (.ok ENOENT)
      | some r => placed bsz z r.rngLen e.pfx := by
  obtain ⟨k, hk, hfound⟩ := h.lookup_matched hm
  obtain ⟨row, start, hread, ⟨hpfx, -, hn, hidx⟩, -, hcells⟩ := h.entry hk
  dsimp only at hpfx hn hidx
  have hprefix : findPrefix (some (isbn.table isbn.fst.view)) bsz z.str =
      .ok (.inr (row, e.pfx, isbn.rangesVec)) := by
    simp [findPrefix, IsbnInfo.table, hfound, Nat.not_lt.mpr hb, hread, hpfx]
  have hrange := findRange_spec isbn.rangesVec row (registrantOf z)
    (fun hne => hidx.resolve_right fun h => hne h.2) hcells e.rules 0 rfl
  rw [hyphenateIsbn, hprefix]
  simp only
  rw [hn, ← registrantOf, hrange, Entry.ruleFor]
  cases e.rules.find? fun r => r.Contains (registrantOf z) <;> rfl

theorem hyphenate_stop (hb : 18 ≤ bsz) {err : Stop} (hl : fstLookupPrefix fst z.str = .error err) :
    hyphenateIsbn (some (isbn.table fst)) bsz z = .quit [] (.error err) := by
  simp [hyphenateIsbn, findPrefix, IsbnInfo.table, hl, Nat.not_lt.mpr hb]

theorem hyphenate_fail (hb : 18 ≤ bsz) (hl : fstLookupPrefix fst z.str = .ok ⟨ENOENT, none⟩) :
    hyphenateIsbn (some (isbn.table fst)) bsz z = .quit [] (.ok ENOENT) := by
  simp [hyphenateIsbn, findPrefix, IsbnInfo.table, hl, Nat.not_lt.mpr hb]

theorem hyphenate_congr {fst' : FstView}
    (hl : fstLookupPrefix fst z.str = fstLookupPrefix fst' z.str) :
    hyphenateIsbn (some (isbn.table fst)) bsz z = hyphenateIsbn (some (isbn.table fst')) bsz z := by
  have hfind : findPrefix (some (isbn.table fst)) bsz z.str =
      findPrefix (some (isbn.table fst')) bsz z.str := by
    simp only [findPrefix, IsbnInfo.table, hl]
  rw [hyphenateIsbn, hyphenateIsbn, hfind]

theorem hyphenate_small (hb : bsz < 18) :
    hyphenateIsbn (some (isbn.table fst)) bsz z = .quit [] (.ok ENOSPC) := by
  simp [hyphenateIsbn, findPrefix, IsbnInfo.table, hb]

theorem Refines.hyphenate_unmatched (h : Refines isbn cat) (hb : 18 ≤ bsz)
    (hne : cat.entries ≠ []) (hno : ∀ e, ¬ Matched cat z.str e) :
    hyphenateIsbn (some (isbn.table isbn.fst.view)) bsz z = .quit [] (.ok ENOENT) :=
  hyphenate_fail hb (h.lookup_unmatched hne hno)

theorem Refines.hyphenate_empty (h : Refines isbn cat) (hb : 18 ≤ bsz) (he : cat.entries = []) :
    hyphenateIsbn (some (isbn.table isbn.fst.view)) bsz z =
      .quit [] (if z.str = [] then .ok ENOENT else .error .badRead) := by
  have hl := h.lookup_empty (s := z.str) he
  split_ifs at hl ⊢ with hs
  · exact hyphenate_fail hb hl
  · exact hyphenate_stop hb hl

end Hyphenate

end IsbnHyphenate
