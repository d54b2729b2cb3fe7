import IsbnHyphenate.HyphenateSafety

/-!
# Tables that were loaded without an error

`add_rule_str` and `add_prefix` put no bound on the length in a rule and none
but the size of a local array on the length of a prefix. What `place_hyphens`
needs of them is therefore a condition on the document.
-/

namespace IsbnHyphenate
open Slices CopyScript

inductive LoadOp where
  | rule (rangeStr rangeLen : Option CStr)
  | pfx (text agency : CStr)

def LoadOp.apply (isbn : IsbnInfo) : LoadOp → Run (ℕ × IsbnInfo)
  | .rule rangeStr rangeLen => addRuleStr isbn rangeStr rangeLen
  | .pfx p agency => addPrefix isbn p agency

/-- `none` if one of the calls does not return 0. -/
def loadOps : IsbnInfo → List LoadOp → Run (Option IsbnInfo)
  | isbn, [] => .ok (some isbn)
  | isbn, op :: ops => do
    let (rc, isbn) ← op.apply isbn
    if rc = 0 then loadOps isbn ops else .ok none

def loadTable (ops : List LoadOp) : Run (Option IsbnInfo) := do
  let isbn ← newIsbnInfo
  loadOps isbn ops

def Catalog.load (cat : Catalog) : LoadOp → Catalog
  | .rule rangeStr rangeLen =>
    match ruleOfStr rangeStr rangeLen with
    | .ok (some r) => cat.addRule r
    | _ => cat
  | .pfx p agency => cat.addPrefix p agency

def loadedCatalog (ops : List LoadOp) : Catalog := ops.foldl Catalog.load Catalog.empty

theorem apply_load {isbn isbn' : IsbnInfo} {cat : Catalog} (h : Refines isbn cat) (op : LoadOp)
    (hrun : op.apply isbn = .ok (0, isbn')) : Refines isbn' (cat.load op) := by
  cases op with
  | rule rangeStr rangeLen =>
    obtain ⟨rule, hrule, hadd⟩ := run_bind_ok hrun
    cases rule with
    | none => cases hadd
    | some r =>
      obtain ⟨isbn₁, hok, h₁, -⟩ := h.addRule r
      simp only [hok] at hadd
      cases hadd
      rw [Catalog.load, hrule]
      exact h₁
  | pfx p agency =>
    obtain ⟨room, -, hcopy⟩ := run_bind_ok hrun
    obtain ⟨r, hr, -⟩ := run_bind_ok hcopy
    obtain ⟨isbn₁, hok, h₁⟩ := h.addPrefix hr agency
    have hpair := Except.ok.inj (hok.symm.trans hrun)
    rw [← (Prod.mk.inj hpair).2]
    exact h₁

theorem loadOps_refines (ops : List LoadOp) {isbn isbn' : IsbnInfo} {cat : Catalog}
    (h : Refines isbn cat) (hrun : loadOps isbn ops = .ok (some isbn')) :
    Refines isbn' (ops.foldl Catalog.load cat) := by
  induction ops generalizing isbn cat with
  | nil =>
    cases hrun
    exact h
  | cons op ops ih =>
    obtain ⟨⟨rc, isbn₁⟩, hop, hrest⟩ := run_bind_ok hrun
    simp only at hrest
    split_ifs at hrest with h0
    · exact ih (apply_load h op (h0 ▸ hop)) hrest
    · cases hrest

theorem loadTable_refines {ops : List LoadOp} {isbn : IsbnInfo}
    (hrun : loadTable ops = .ok (some isbn)) : Refines isbn (loadedCatalog ops) := by
  obtain ⟨isbn₀, hnew, h₀⟩ := newIsbnInfo_refines
  rw [loadTable, hnew, run_ok_bind] at hrun
  exact loadOps_refines ops h₀ hrun

/-- If `place_hyphens` is called, neither of its subtractions wraps around and
every byte is written inside `hbuf`. -/
def SafePlacement (bsz : ℕ) (h : Hyphenation) : Prop :=
  ∀ len pfxlen, h.placed = some (len, pfxlen) → 3 ≤ pfxlen.toNat ∧ len.toNat ≤ 8 ∧
    ∀ w ∈ h.writes, w.2 = 0 ∨ w.1 + w.2 ≤ bsz

theorem safe_quit {bsz : ℕ} {parts : List (ℕ × ℕ)} {ret : Run ℕ} :
    SafePlacement bsz (.quit parts ret) := by
  intro len pfxlen h
  cases h

theorem placed_safe_iff {bsz : ℕ} {z : ZStr} {len : UInt64} {pfx : CStr} (hb : 18 ≤ bsz)
    (h16 : pfx.length < 16) :
    SafePlacement bsz (placed bsz z len pfx) ↔
      3 ≤ pfx.length ∧ pfx.length + 14 ≤ bsz ∧ len.toNat ≤ 8 := by
  have hlen := toNat_strlen h16
  have hcall : (placed bsz z len pfx).placed = some (len, UInt64.ofNat pfx.length) := by
    simp [placed, Nat.not_lt.mpr hb]
  have hwrites : 3 ≤ pfx.length → len.toNat ≤ 8 → (placed bsz z len pfx).writes =
      writes (plainScript len.toNat pfx.length) := by
    intro h3 h8
    rw [placed_eq hb h3 h16 h8]
  constructor
  · intro hsafe
    obtain ⟨h3, h8, hall⟩ := hsafe _ _ hcall
    rw [hlen] at h3
    have hlast := hall (pfx.length + 13, 1) (by rw [hwrites h3 h8]; simp [plainScript])
    omega
  · rintro ⟨h3, hfit, h8⟩ len' pfxlen' heq
    cases Option.some_inj.mp (hcall.symm.trans heq)
    refine ⟨by omega, h8, fun w hw => Or.inr ?_⟩
    rw [hwrites h3 h8] at hw
    exact ((plainScript_tiles _ _ h3 h8).bounds.2 w hw).2.trans hfit

def Fits (cat : Catalog) (bsz : ℕ) (z : ZStr) : Prop :=
  ∀ e r, Matched cat z.str e → e.ruleFor (registrantOf z) = some r →
    3 ≤ e.pfx.length ∧ e.pfx.length + 14 ≤ bsz ∧ r.rngLen.toNat ≤ 8

theorem fits_of_entries {cat : Catalog} {bsz : ℕ} (z : ZStr)
    (h : ∀ e ∈ cat.entries, 3 ≤ e.pfx.length ∧ e.pfx.length + 14 ≤ bsz ∧
      ∀ r ∈ e.rules, r.rngLen.toNat ≤ 8) : Fits cat bsz z := by
  intro e r hm hr
  obtain ⟨h3, hroom, h8⟩ := h e (List.mem_of_find?_eq_some hm.first)
  exact ⟨h3, hroom, h8 r (List.mem_of_find?_eq_some hr)⟩

theorem Refines.safe_iff {isbn : IsbnInfo} {cat : Catalog} (h : Refines isbn cat) {bsz : ℕ}
    (hb : 18 ≤ bsz) (z : ZStr) :
    SafePlacement bsz (hyphenateIsbn (some (isbn.table isbn.fst.view)) bsz z) ↔
      Fits cat bsz z := by
  by_cases hm : ∃ e, Matched cat z.str e
  · obtain ⟨e, hm⟩ := hm
    rw [h.hyphenate_matched hb hm]
    cases hr : e.ruleFor (registrantOf z) with
    | none =>
      refine iff_of_true safe_quit fun e' r hm' hr' => ?_
      rw [← hm.unique hm', hr] at hr'
      cases hr'
    | some r =>
      simp only
      rw [placed_safe_iff hb (h.short e (List.mem_of_find?_eq_some hm.first))]
      constructor
      · intro hfit e' r' hm' hr'
        obtain rfl := hm.unique hm'
        obtain rfl : r = r' := Option.some_inj.mp (hr.symm.trans hr')
        exact hfit
      · exact fun hall => hall e r hm hr
  · have hno : ∀ e, ¬ Matched cat z.str e := fun e he => hm ⟨e, he⟩
    refine iff_of_true ?_ fun e r he => (hno e he).elim
    by_cases hne : cat.entries = []
    · rw [h.hyphenate_empty hb hne]
      exact safe_quit
    · rw [h.hyphenate_unmatched hb hne hno]
      exact safe_quit

/-- With the transducer as it was built, and with its packed copy. -/
theorem hyphenation_safe_iff {ops : List LoadOp} {isbn : IsbnInfo}
    (hload : loadTable ops = .ok (some isbn)) {bsz : ℕ} (hb : 18 ≤ bsz) (z : ZStr) :
    (SafePlacement bsz (hyphenateIsbn (some (isbn.table isbn.fst.view)) bsz z) ↔
      Fits (loadedCatalog ops) bsz z) ∧
    ∃ pk, fstCopyAndPack isbn.fst = .ok pk ∧
      (SafePlacement bsz (hyphenateIsbn (some (isbn.table pk.view)) bsz z) ↔
        lastNew ((loadedCatalog ops).entries.map Entry.pfx) <+: z.str ∨
          Fits (loadedCatalog ops) bsz z) := by
  have h := loadTable_refines hload
  obtain ⟨pk, hpack, hpacked⟩ := h.hyphenate_packed
  refine ⟨h.safe_iff hb z, pk, hpack, ?_⟩
  rw [hpacked bsz z]
  by_cases hlast : lastNew ((loadedCatalog ops).entries.map Entry.pfx) <+: z.str
  · rw [if_pos ⟨hb, hlast⟩]
    exact iff_of_true safe_quit (Or.inl hlast)
  · rw [if_neg fun hand => hlast hand.2, or_iff_right hlast]
    exact h.safe_iff hb z

def loadSample (len : CStr) : List LoadOp :=
  [.pfx (lit "979".toList) (lit ['A']), .rule (some (lit "0-9999999".toList)) (some len),
    .pfx (lit "978-0".toList) (lit ['A'])]

theorem hyphenation_safe_sample :
    ∃ isbn, loadTable (loadSample (lit ['3'])) = .ok (some isbn) ∧
      SafePlacement 32 (hyphenateIsbn (some (isbn.table isbn.fst.view)) 32
        ⟨lit "9780312128470".toList, fun _ => 0⟩) := by
  have hok : (loadTable (loadSample (lit ['3'])) >>= fun isbn => .ok isbn.isSome) = .ok true := by
    decide +kernel
  have hfits : ∀ z, Fits (loadedCatalog (loadSample (lit ['3']))) 32 z := fun z =>
    fits_of_entries z (by decide +kernel)
  obtain ⟨isbn, hload, hsome⟩ := run_bind_ok hok
  cases isbn with
  | none => cases hsome
  | some isbn => exact ⟨isbn, hload, (hyphenation_safe_iff hload (by decide) _).1.mpr (hfits _)⟩

/-- A rule with the length 9 is loaded without an error, and `8 - len` wraps. -/
theorem loaded_length_wraps :
    ∃ isbn, loadTable (loadSample (lit ['9'])) = .ok (some isbn) ∧
      ¬ SafePlacement 32 (hyphenateIsbn (some (isbn.table isbn.fst.view)) 32
        ⟨lit "9780312128470".toList, fun _ => 0⟩) := by
  have hok : (loadTable (loadSample (lit ['9'])) >>= fun isbn => .ok (isbn.map fun isbn =>
      (hyphenateIsbn (some (isbn.table isbn.fst.view)) 32
        ⟨lit "9780312128470".toList, fun _ => 0⟩).placed)) = .ok (some (some (9, 4))) := by
    decide +kernel
  obtain ⟨isbn, hload, hplaced⟩ := run_bind_ok hok
  cases isbn with
  | none => cases hplaced
  | some isbn =>
    have hcall := Option.some_inj.mp (Except.ok.inj hplaced)
    exact ⟨isbn, hload, fun hsafe => absurd (hsafe _ _ hcall).2.1 (by decide)⟩

end IsbnHyphenate
