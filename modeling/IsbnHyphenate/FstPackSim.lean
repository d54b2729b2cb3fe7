import IsbnHyphenate.FstPack

/-!
# Lookups on the packed copy

The copy and its source are compared state by state along one input. They
agree as long as the walk stays among the copied states 0..len - 1; the walk
that enters state `len` reads a header that is not there. Which inputs enter it
depends on the strings alone: state `len` belongs to the last string that was
not a prefix of an earlier one.
-/

namespace IsbnHyphenate
open NumberedTrie

variable {fst : Fst} {label : ℕ → CStr} {adds : List (CStr × ℕ)} {m : FstView}

theorem missing_header (hm : m.ntrans fst.len = none) (hl : m.len = fst.len) (pfx : Bool)
    (s : CStr) : fstLookupFrom m pfx fst.len s = .error .badRead := by
  have hlook : ∀ chr, fstRuleLookup m fst.len chr = .error .badRead := by
    intro chr
    rw [fstRuleLookup, if_neg (by omega), FstView.readNtrans, hm]
    rfl
  cases s with
  | nil => rw [fstLookupFrom, hlook]; rfl
  | cons c s => rw [fstLookupFrom, hlook]; rfl

theorem Built.next_ne_zero (h : Built fst label adds) {i : ℕ} (hi : i ≤ fst.len) (c : Chr) :
    rowFind (Fst.row fst i) (chrInt c) ≠ some 0 :=
  fun h0 => absurd (h.inv.rep.next_lt (Nat.lt_succ_of_le hi) h0) (Nat.not_lt_zero i)

theorem Built.adds_ne_nil (h : Built fst label adds) (hlen : fst.len ≠ 0) : adds ≠ [] := by
  intro heq
  subst heq
  exact hlen h.len_eq_zero

theorem Built.copy_agrees (h : Built fst label adds) (hs : m.Shows fst.len (Fst.row fst))
    (hl : m.len = fst.len) (pfx : Bool) (s : CStr) {i : ℕ} (hi : i < fst.len)
    (hfar : ¬ label fst.len <+: label i ++ s) :
    fstLookupFrom m pfx i s = fstLookupFrom fst.view pfx i s := by
  have hview := Fst.view_shows h.inv.holds
  induction s generalizing i with
  | nil =>
    have hv : i < fst.view.len + 1 := by
      simp only [Fst.view]
      omega
    rw [lookupFrom_nil (hs i hi) (by omega), lookupFrom_nil (hview i hv) hi.le]
  | cons c s ih =>
    have hne := h.row_ne_nil (h.adds_ne_nil (by omega)) hi.le
    rw [lookupFrom_cons (hs i hi) (by omega) pfx c s (fun _ => hne) (h.inv.wf i)
        (h.next_ne_zero hi.le c),
      lookupFrom_cons (Fst.view_row h.inv.holds hi.le) hi.le pfx c s (fun _ => hne) (h.inv.wf i)
        (h.next_ne_zero hi.le c)]
    split_ifs
    · rfl
    · cases hn : rowFind (Fst.row fst i) (chrInt c) with
      | none => rfl
      | some j =>
        obtain ⟨hj, hjl⟩ := (h.inv.rep.next_iff i (Nat.lt_succ_of_le hi.le) c j).mp hn
        have hkey : label i ++ c :: s = label j ++ s := by rw [hjl]; simp
        have hjn : j ≠ fst.len := by
          intro heq
          subst heq
          exact hfar (hkey ▸ List.prefix_append _ _)
        exact ih (lt_of_le_of_ne (Nat.lt_succ_iff.mp hj) hjn) (hkey ▸ hfar)

theorem Built.copy_stops (h : Built fst label adds) (hs : m.Shows fst.len (Fst.row fst))
    (hm : m.ntrans fst.len = none) (hl : m.len = fst.len) (pfx : Bool) (s : CStr) {i : ℕ}
    (hi : i ≤ fst.len) (hnear : label fst.len <+: label i ++ s) (hup : label i <+: label fst.len) :
    fstLookupFrom m pfx i s = .error .badRead := by
  have hlast : fst.len < (Fst.trie fst).size := Nat.lt_succ_self _
  induction s generalizing i with
  | nil =>
    rw [List.append_nil] at hnear
    have hle := h.inv.rep.le_of_prefix hlast (Nat.lt_succ_of_le hi) hnear
    obtain rfl : i = fst.len := le_antisymm hi hle
    exact missing_header hm hl pfx []
  | cons c s ih =>
    by_cases hil : i = fst.len
    · rw [hil]
      exact missing_header hm hl pfx _
    · have hlt : i < fst.len := by omega
      have his := Nat.lt_succ_of_le hi
      obtain ⟨r, hr⟩ := hup
      cases r with
      | nil =>
        rw [List.append_nil] at hr
        exact (hil (h.inv.rep.inj i his fst.len hlast hr)).elim
      | cons e r =>
        rw [← hr, List.prefix_append_right_inj, List.cons_prefix_cons] at hnear
        obtain ⟨rfl, hrs⟩ := hnear
        have hp : label i ++ [e] <+: label fst.len := ⟨r, by rw [← hr]; simp⟩
        obtain ⟨j, hj, -, hjl⟩ := h.inv.rep.prefix_stored hlast hp
        have hn : rowFind (Fst.row fst i) (chrInt e) = some j :=
          (h.inv.rep.next_iff i his e j).mpr ⟨hj, hjl⟩
        have hne := h.row_ne_nil (h.adds_ne_nil (by omega)) hi
        have hfin : ¬ rowFinal (Fst.row fst i) = true := by
          intro hf
          have := (rowFinal_iff (h.inv.wf i) hne).mp hf e
          simp [hn] at this
        rw [lookupFrom_cons (hs i hlt) (by omega) pfx e s (fun _ => hne) (h.inv.wf i)
          (h.next_ne_zero hi e), if_neg (fun hf => hfin hf.2), hn]
        refine ih (Nat.lt_succ_iff.mp hj) ?_ (hjl ▸ hp)
        rw [hjl, ← hr, List.append_assoc, List.singleton_append, List.prefix_append_right_inj]
        exact List.cons_prefix_cons.mpr ⟨rfl, hrs⟩

theorem Built.lookup_returns (h : Built fst label adds) (hne : adds ≠ []) (s : CStr) (pfx : Bool) :
    ∃ ret, fstLookup fst.view s pfx = .ok ret := by
  cases pfx with
  | false => exact ⟨_, h.lookupString s⟩
  | true => exact ⟨_, h.lookupPrefix hne s⟩

theorem Built.packed_lookup (h : Built fst label adds) :
    ∃ pk, fstCopyAndPack fst = .ok pk ∧
      (∀ i ≤ fst.len, pk.view.Row i (Fst.row fst i) ↔ i < fst.len) ∧
      ∀ s pfx, fstLookup pk.view s pfx =
        if lastNew (adds.map Prod.fst) <+: s then .error .badRead
        else fstLookup fst.view s pfx := by
  obtain ⟨pk, hpack, hlen, hshows, hmiss⟩ := copyAndPack_shows h.inv.holds
  have hlen' : pk.view.len = fst.len := hlen
  have hvalid : fstValidate pk.view = .ok () :=
    fstValidate_shows (hlen'.symm ▸ hshows : pk.view.Shows pk.view.len (Fst.row fst))
  have hroot : ∀ s : CStr, label 0 ++ s = s := fun s => by rw [h.inv.rep.root, List.nil_append]
  refine ⟨pk, hpack, fun i hi => ⟨fun hr => ?_, hshows i⟩, fun s pfx => ?_⟩
  · by_contra hge
    obtain rfl : i = fst.len := by omega
    rw [hr.header] at hmiss
    cases hmiss
  rw [fstLookup, hvalid, run_ok_bind, ← h.last]
  by_cases hp : label fst.len <+: s
  · rw [if_pos hp]
    exact h.copy_stops hshows hmiss hlen' pfx s (Nat.zero_le _) ((hroot s).symm ▸ hp)
      (h.inv.rep.root ▸ List.nil_prefix)
  · have hpos : 0 < fst.len := by
      by_contra h0
      obtain hz : fst.len = 0 := by omega
      exact hp (by rw [hz, h.inv.rep.root]; exact List.nil_prefix)
    rw [if_neg hp, fstLookup, Fst.validate_ok h.inv.holds, run_ok_bind,
      h.copy_agrees hshows hlen' pfx s hpos ((hroot s).symm ▸ hp)]

/-- The packed copy answers as the source on exactly those inputs that do not
start with the last string that was not a prefix of an earlier one; on the
others it reads the state that was not copied. -/
theorem fst_pack_agrees_iff (adds : List (CStr × ℕ)) :
    ∃ fst pk, fstBuild adds = .ok fst ∧ fstCopyAndPack fst = .ok pk ∧
      (∀ i ≤ fst.len, pk.view.Row i (Fst.row fst i) ↔ i < fst.len) ∧
      ∀ s, (∀ pfx, ∃ ret, fstLookup pk.view s pfx = .ok ret ∧
        fstLookup fst.view s pfx = .ok ret) ↔ ¬ lastNew (adds.map Prod.fst) <+: s := by
  obtain ⟨fst, label, hok, hb⟩ := fstBuild_built adds
  obtain ⟨pk, hpack, hrows, hlookup⟩ := hb.packed_lookup
  refine ⟨fst, pk, hok, hpack, hrows, fun s => ⟨fun hall hp => ?_, fun hp pfx => ?_⟩⟩
  · obtain ⟨ret, hret, -⟩ := hall false
    rw [hlookup, if_pos hp] at hret
    cases hret
  · have hne : adds ≠ [] := by
      intro heq
      subst heq
      exact hp List.nil_prefix
    obtain ⟨ret, hret⟩ := hb.lookup_returns hne s pfx
    exact ⟨ret, by rw [hlookup, if_neg hp, hret], hret⟩

/-- One string stored: its source finds it, its packed copy has no header for
the state that holds the value. -/
theorem fst_pack_drops_last :
    (fstBuild [(lit ['9', '7', '8'], 7)] >>= fun fst =>
      fstLookupString fst.view (lit ['9', '7', '8'])) = .ok ⟨0, some 7⟩ ∧
    (fstBuild [(lit ['9', '7', '8'], 7)] >>= fun fst => fstCopyAndPack fst >>= fun pk =>
      fstLookupString pk.view (lit ['9', '7', '8'])) = .error .badRead := by
  decide +kernel

end IsbnHyphenate
