import IsbnHyphenate.HyphenateSafety
import IsbnHyphenate.IsbnTrace

/-!
# Hyphenating one ISBN with messages

What a verbose `hyphenate_isbn` writes to `eprint_fh`. The messages read all
ranges of the entry, also those behind the range that is found; for a table that
refines a catalog they stop a run only where the lookup does.
-/

namespace IsbnHyphenate.Traced
open Logged

def rangeMessage (registrant : UInt32) (r : IsbnRange) : CStr :=
  say "    lo=" ++ formatZu r.rngLbound.toNat ++ say ", hi=" ++ formatZu r.rngUbound.toNat ++
    say ", len=" ++ formatZu r.rngLen.toNat ++ (if r.Contains registrant then say " ==" else []) ++
    newlineText

def rangeMessages (ranges : Vec IsbnRange) (row : IsbnPrefix) (registrant : UInt32) :
    ℕ → ℕ → Noisy Unit
  | _, 0 => pure ()
  | i, k + 1 =>
    match row.ruleIdx.bind fun idx => ranges.read (idx + i) with
    | none => quit .badRead
    | some r => do
      emit (rangeMessage registrant r)
      rangeMessages ranges row registrant (i + 1) k

def lookupMessage (s : CStr) (rc : ℕ) : CStr :=
  say "Lookup of ('" ++ s ++ say "') failed; rc = " ++ formatZu rc ++ say "." ++ newlineText

def prefixMessage (s : CStr) (val : ℕ) (row : IsbnPrefix) : CStr :=
  say "isbn " ++ s ++ say " -> prefix=" ++ formatZu val ++ say "='" ++ formatS row.pfx ++ say "'" ++
    newlineText ++ say "Agency='" ++ formatS row.agency ++ say "'" ++ newlineText

def foundMessages (tab : RangeTable) (z : ZStr) (val : ℕ) (row : IsbnPrefix) : Noisy Unit := do
  emit (prefixMessage z.str val row)
  match row.pfx with
  | none => quit .badRead
  | some _ => do
    emit (say "registrant=" ++ formatZu (registrantOf z).toNat ++ newlineText)
    rangeMessages tab.rangesVec row (registrantOf z) 0 row.nrules

def hyphenateMessages (isbn : Option RangeTable) (bsz : ℕ) (z : ZStr) : Noisy Unit :=
  match isbn with
  | none => pure ()
  | some tab =>
    match tab.fst with
    | none => pure ()
    | some fst =>
      if bsz < 18 then pure ()
      else do
        let ret ← silent (fstLookupPrefix fst z.str)
        if ret.rc ≠ 0 then emit (lookupMessage z.str ret.rc)
        else
          match ret.val with
          | none => quit .badRead
          | some val =>
            match tab.prefixVec.read val with
            | none => quit .badRead
            | some row => foundMessages tab z val row

def vmessages (verbose : Bool) (messages : Noisy Unit) : Noisy Unit :=
  if verbose then messages else pure ()

/-- Nothing is written after the hyphens have been placed. -/
def hyphenateIsbn (verbose : Bool) (isbn : Option RangeTable) (bsz : ℕ) (z : ZStr) :
    Noisy Hyphenation := do
  vmessages verbose (hyphenateMessages isbn bsz z)
  pure (IsbnHyphenate.hyphenateIsbn isbn bsz z)

theorem rangeMessages_ret (ranges : Vec IsbnRange) (row : IsbnPrefix) (start : ℕ)
    (registrant : UInt32) {n : ℕ} (hidx : n ≠ 0 → row.ruleIdx = some start)
    (hcells : ∀ i < n, (ranges.read (start + i)).isSome) (k : ℕ) :
    ∀ i, i + k = n → (rangeMessages ranges row registrant i k).ret = .ok () := by
  induction k with
  | zero =>
    intro i _
    rfl
  | succ k ih =>
    intro i hi
    obtain ⟨r, hr⟩ := Option.isSome_iff_exists.mp (hcells i (by omega))
    have hrest := ih (i + 1) (by omega)
    simp [rangeMessages, hidx (by omega), hr, emit, hrest]

variable {isbn : IsbnInfo} {cat : Catalog} {pk : Packed} {z : ZStr} {bsz : ℕ}

theorem foundMessages_ret (h : Refines isbn cat) (fst : FstView) {k : ℕ} {e : Entry}
    (he : cat.entries[k]? = some e) : ∃ row, isbn.prefixVec.read k = some row ∧
      (foundMessages (isbn.table fst) z k row).ret = .ok () := by
  obtain ⟨row, start, hread, ⟨hpfx, -, hn, hidx⟩, -, hcells⟩ := h.entry he
  dsimp only at hpfx hn hidx
  refine ⟨row, hread, ?_⟩
  have hranges := rangeMessages_ret isbn.rangesVec row start (registrantOf z) (n := row.nrules)
    (fun hne => hidx.resolve_right fun hnil => hne (by rw [hn, hnil.2]; rfl))
    (fun i hi => by rw [hcells i (hn ▸ hi), List.getElem?_eq_getElem (hn ▸ hi)]; rfl)
    row.nrules 0 (Nat.zero_add _)
  simp only [foundMessages, hpfx, bind_ret, emit, run_ok_bind]
  exact hranges

theorem messages_ret (h : Refines isbn cat) (hpack : fstCopyAndPack isbn.fst = .ok pk)
    (hb : 18 ≤ bsz) (z : ZStr) :
    (hyphenateMessages (some (isbn.table pk.view)) bsz z).ret =
      if lastNew (cat.entries.map Entry.pfx) <+: z.str then .error .badRead else .ok () := by
  obtain ⟨label, hdict⟩ := h.dict
  obtain ⟨pk', hpack', -, hlookup⟩ := hdict.packed_lookup
  obtain rfl : pk = pk' := Except.ok.inj (hpack.symm.trans hpack')
  rw [cat.keyed_keys] at hlookup
  have hl : fstLookupPrefix pk.view z.str = _ := hlookup z.str true
  have hcall : (hyphenateMessages (some (isbn.table pk.view)) bsz z).ret = _ :=
    congrArg Logged.ret (if_neg (Nat.not_lt.mpr hb))
  rw [hcall, bind_ret]
  by_cases hlast : lastNew (cat.entries.map Entry.pfx) <+: z.str
  · rw [if_pos hlast] at hl ⊢
    simp [silent, hl]
  · rw [if_neg hlast] at hl ⊢
    have hne : cat.entries ≠ [] := by
      intro hnil
      rw [hnil] at hlast
      exact hlast List.nil_prefix
    by_cases hm : ∃ e, Matched cat z.str e
    · obtain ⟨e, hm⟩ := hm
      obtain ⟨k, hk, hfound⟩ := h.lookup_matched hm
      obtain ⟨row, hread, hret⟩ := foundMessages_ret (z := z) h pk.view hk
      have hfound' : fstLookupPrefix pk.view z.str = .ok ⟨0, some k⟩ := hl.trans hfound
      simp only [silent, hfound', run_ok_bind, ne_eq, not_true_eq_false, if_false]
      simp only [IsbnInfo.table, hread]
      exact hret
    · have hmiss := h.lookup_unmatched hne fun e he => hm ⟨e, he⟩
      have hmiss' : fstLookupPrefix pk.view z.str = .ok ⟨ENOENT, none⟩ := hl.trans hmiss
      simp [silent, hmiss', emit]

end IsbnHyphenate.Traced
