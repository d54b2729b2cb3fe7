import IsbnHyphenate.FstInvariant
import IsbnHyphenate.FstPackSim
import Mathlib.Data.Finset.Card
import Mathlib.Data.List.Infix

/-!
# How large a transducer is

Its transitions stand for the prefixes of the strings, NUL included, so the
numbers of states and transitions depend on the set of strings alone. The
block that `fst_copy_and_pack` asks for is short of the vector header, the
header of the last state and its one transition.
-/

namespace IsbnHyphenate
open NumberedTrie

def terminated (s : CStr) : List ℤ := s.map chrInt ++ [0]

def prefixesOf (keys : List CStr) : Finset CStr := (keys.flatMap List.inits).toFinset.erase []

theorem mem_prefixesOf {keys : List CStr} {s : CStr} :
    s ∈ prefixesOf keys ↔ s ≠ [] ∧ ∃ q ∈ keys, s <+: q := by
  simp [prefixesOf]

variable {fst : Fst} {label : ℕ → CStr} {adds : List (CStr × ℕ)}

theorem Built.prefixesOf_eq (h : Built fst label adds) :
    prefixesOf (adds.map Prod.fst) = ((Finset.range (fst.len + 1)).erase 0).image label := by
  ext s
  rw [mem_prefixesOf, Finset.mem_image]
  constructor
  · rintro ⟨hs, hkey⟩
    obtain ⟨i, hi, hl⟩ := (h.prefix_iff hs).mp hkey
    refine ⟨i, Finset.mem_erase.mpr ⟨?_, Finset.mem_range.mpr (Nat.lt_succ_of_le hi)⟩, hl⟩
    intro h0
    exact hs (by rw [← hl, h0, h.inv.rep.root])
  · rintro ⟨i, hi, rfl⟩
    obtain ⟨h0, hi⟩ := Finset.mem_erase.mp hi
    have hlt := Finset.mem_range.mp hi
    have hs : label i ≠ [] := fun hnil =>
      h0 (h.inv.rep.inj i hlt 0 h.inv.rep.pos (hnil.trans h.inv.rep.root.symm))
    exact ⟨hs, (h.prefix_iff hs).mpr ⟨i, Nat.lt_succ_iff.mp hlt, rfl⟩⟩

theorem Built.len_eq_card (h : Built fst label adds) :
    fst.len = (prefixesOf (adds.map Prod.fst)).card := by
  rw [h.prefixesOf_eq, Finset.card_image_of_injOn, Finset.card_erase_of_mem (by simp),
    Finset.card_range, Nat.add_sub_cancel]
  intro i hi j hj hl
  simp only [Finset.coe_erase, Finset.coe_range, Set.mem_sdiff, Set.mem_Iio] at hi hj
  exact h.inv.rep.inj i hi.1 j hj.1 hl

def spelled (label : ℕ → CStr) (i : ℕ) (t : Trans) : List ℤ := (label i).map chrInt ++ [t.tChr]

def transOf (fst : Fst) (label : ℕ → CStr) : List (List ℤ) :=
  (List.range (fst.len + 1)).flatMap fun i => (Fst.row fst i).map (spelled label i)

theorem chrInt_injective : Function.Injective chrInt := fun _ _ h => chrInt_inj.mp h

theorem Built.transOf_nodup (h : Built fst label adds) : (transOf fst label).Nodup := by
  rw [transOf, List.nodup_flatMap]
  refine ⟨fun i _ => ?_, ?_⟩
  · have hnd := (h.inv.wf i).nodup
    have heq : (Fst.row fst i).map (spelled label i) =
        ((Fst.row fst i).map Trans.tChr).map fun z => (label i).map chrInt ++ [z] := by
      rw [List.map_map]
      rfl
    rw [heq]
    refine hnd.map fun z z' hz => ?_
    simpa using hz
  · refine List.nodup_range.pairwise_of_forall_ne fun i hi j hj hij => ?_
    refine List.disjoint_left.mpr fun x hx hx' => ?_
    obtain ⟨t, -, rfl⟩ := List.mem_map.mp hx
    obtain ⟨u, -, heq⟩ := List.mem_map.mp hx'
    obtain ⟨hl, -⟩ := List.append_inj' heq rfl
    exact hij (h.inv.rep.inj i (List.mem_range.mp hi) j (List.mem_range.mp hj)
      (List.map_injective_iff.mpr chrInt_injective hl.symm))

theorem Built.mem_transOf (h : Built fst label adds) (x : List ℤ) :
    x ∈ transOf fst label ↔
      (∃ p ∈ prefixesOf (adds.map Prod.fst), p.map chrInt = x) ∨
      ∃ k ∈ adds.map Prod.fst, terminated k = x := by
  simp only [transOf, List.mem_flatMap, List.mem_range, List.mem_map]
  constructor
  · rintro ⟨i, hi, t, ht, rfl⟩
    have hi' := Nat.lt_succ_iff.mp hi
    by_cases hchr : t.tChr = 0
    · have hfind := rowFind_of_mem (h.inv.wf i) ht
      have hvalue : stored adds (label i) = some t.tNext := by
        rw [← h.inv.rep.value_eq i hi, ← hfind, hchr]
        rfl
      refine Or.inr ⟨label i, ?_, by rw [terminated, spelled, hchr]⟩
      have hne : stored adds (label i) ≠ none := by simp [hvalue]
      exact List.mem_map.mp (stored_ne_none.mp hne)
    · obtain ⟨c, hc, -, hle, hl⟩ := h.inv.edge hi' ht hchr
      have hs : label (asState t.tNext) ≠ [] := by simp [hl]
      refine Or.inl ⟨_, mem_prefixesOf.mpr ⟨hs, (h.prefix_iff hs).mpr ⟨_, hle, rfl⟩⟩, ?_⟩
      rw [hl, List.map_append, spelled, hc]
      rfl
  · rintro (⟨p, hp, rfl⟩ | ⟨k, hk, rfl⟩)
    · obtain ⟨hs, hkey⟩ := mem_prefixesOf.mp hp
      obtain ⟨j, hj, rfl⟩ := (h.prefix_iff hs).mp hkey
      have h0 : j ≠ 0 := fun h0 => hs (h0 ▸ h.inv.rep.root)
      obtain ⟨⟨i, k⟩, ⟨hi, t, ht, hchr, hnext⟩, -⟩ := h.enters_once hj h0
      have hmem := List.mem_of_getElem? ht
      obtain ⟨c, hc, -, -, hl⟩ := h.inv.edge hi hmem hchr
      refine ⟨i, Nat.lt_succ_of_le hi, t, hmem, ?_⟩
      rw [← hnext, hl, List.map_append, spelled, hc]
      rfl
    · have hd := stored_ne_none.mpr (List.mem_map.mpr hk)
      obtain ⟨i, hi, hl⟩ := h.inv.rep.stored _ hd
      obtain ⟨v, hv⟩ := Option.ne_none_iff_exists'.mp hd
      have hfind : rowFind (Fst.row fst i) 0 = some v :=
        (h.inv.rep.value_eq i hi).trans (hl ▸ hv)
      refine ⟨i, hi, _, mem_of_rowFind hfind, ?_⟩
      rw [spelled, hl, terminated]

theorem zero_notMem_chars (s : CStr) : (0 : ℤ) ∉ s.map chrInt := by
  intro hmem
  obtain ⟨c, -, hc⟩ := List.mem_map.mp hmem
  exact chrInt_ne_zero c hc

theorem Built.transOf_length (h : Built fst label adds) :
    (transOf fst label).length = fst.len + (adds.map Prod.fst).toFinset.card := by
  have hkeys : Function.Injective terminated := by
    intro k k' heq
    exact List.map_injective_iff.mpr chrInt_injective (List.append_inj' heq rfl).1
  have hperm : (transOf fst label).Perm
      ((prefixesOf (adds.map Prod.fst)).toList.map (List.map chrInt) ++
        (adds.map Prod.fst).toFinset.toList.map terminated) := by
    refine (List.perm_ext_iff_of_nodup h.transOf_nodup ?_).mpr fun x => ?_
    · refine List.Nodup.append ?_ ?_ ?_
      · exact (Finset.nodup_toList _).map (List.map_injective_iff.mpr chrInt_injective)
      · exact (Finset.nodup_toList _).map hkeys
      · rw [List.disjoint_left]
        intro x hx hx'
        obtain ⟨p, -, rfl⟩ := List.mem_map.mp hx
        obtain ⟨k, -, hk⟩ := List.mem_map.mp hx'
        apply zero_notMem_chars p
        rw [← hk, terminated]
        simp
    · rw [h.mem_transOf]
      simp
  rw [hperm.length_eq, List.length_append, List.length_map, List.length_map,
    Finset.length_toList, Finset.length_toList, h.len_eq_card]

def transBelow (fst : Fst) (n : ℕ) : ℕ := ((List.range n).map fun i => (Fst.row fst i).length).sum

theorem transBelow_succ (fst : Fst) (n : ℕ) :
    transBelow fst (n + 1) = transBelow fst n + (Fst.row fst n).length := by
  simp [transBelow, List.range_succ]

theorem offset_eq (fst : Fst) (n : ℕ) :
    offset fst n = sizeofFst + fst.len * sizeofState + transBelow fst n * sizeofTrans := by
  induction n with
  | zero => simp [offset, transBelow]
  | succ n ih =>
    rw [offset, ih, transBelow_succ]
    ring

theorem Built.transBelow_all (h : Built fst label adds) :
    transBelow fst (fst.len + 1) = fst.len + (adds.map Prod.fst).toFinset.card := by
  rw [← h.transOf_length, transOf, List.length_flatMap, transBelow]
  simp

theorem Built.last_row (h : Built fst label adds) (h0 : fst.len ≠ 0) :
    (Fst.row fst fst.len).length = 1 := by
  obtain ⟨v, hv⟩ := h.childless (h.row_ne_nil (h.adds_ne_nil h0) le_rfl) fun t ht => by
    by_contra hchr
    obtain ⟨c, -, hlt, hle, -⟩ := h.inv.edge le_rfl ht hchr
    omega
  rw [hv]
  rfl

/-- States and transitions are counted by the prefixes and the distinct strings;
the copy is given the room of all but one of each. -/
theorem fst_measure_exact (adds : List (CStr × ℕ)) :
    ∃ fst pk, fstBuild adds = .ok fst ∧ fstCopyAndPack fst = .ok pk ∧
      fstMeasure fst = .ok pk.alloc ∧
      fst.len = (prefixesOf (adds.map Prod.fst)).card ∧
      transBelow fst (fst.len + 1) = fst.len + (adds.map Prod.fst).toFinset.card ∧
      pk.alloc = if fst.len = 0 then 0 else sizeofState * fst.len +
        sizeofTrans * (fst.len + (adds.map Prod.fst).toFinset.card - 1) := by
  obtain ⟨fst, label, hok, hb⟩ := fstBuild_built adds
  obtain ⟨total, m, hmeas, hsize, hpack, -⟩ := copyAndPack_run hb.inv.holds
  refine ⟨fst, _, hok, hpack, hmeas, hb.len_eq_card, hb.transBelow_all, ?_⟩
  have hall := hb.transBelow_all
  rw [transBelow_succ] at hall
  rw [offset_eq] at hsize
  simp only [sizeofFst, sizeofState, sizeofTrans] at hsize ⊢
  split_ifs with h0
  · rw [h0] at hsize
    simp only [transBelow, List.range_zero, List.map_nil, List.sum_nil] at hsize
    omega
  · have hlast := hb.last_row h0
    omega

end IsbnHyphenate
