import IsbnHyphenate.CommandStreams
import IsbnHyphenate.DocumentOrder
import IsbnHyphenate.HyphenateLoaded
import IsbnHyphenate.IsbnMessages
import Mathlib.Data.List.Find

/-!
# Runs that read the command line

What a catalog answers to a string, and that the command with `--argv` prints
the answers of the catalog of its document to its operands, in their order, up
to the first operand that leads into the state the packed copy lacks.
-/

namespace IsbnHyphenate

def untilNul (bs : List UInt8) : CStr := chrsOf (bs.takeWhile fun b => b ≠ 0)

def fieldBytes (z : ZStr) (pfx : CStr) (L : ℕ) : List UInt8 :=
  (List.range 3).map z.byte ++ [hyphen] ++ bytesOf (pfx.drop 3) ++ [hyphen] ++
    (List.range L).map (fun i => z.byte (pfx.length + i)) ++ [hyphen] ++
    (List.range (8 - L)).map (fun i => z.byte (pfx.length + L + i)) ++ [hyphen, z.byte 12]

namespace Catalog

def matchFor (cat : Catalog) (s : CStr) : Option Entry :=
  cat.entries.find? fun e => LongestPrefix (cat.entries.map Entry.pfx) s e.pfx ∧
    Findable (cat.entries.map Entry.pfx) s e.pfx

/-- The line for a string, no line, or the end of the run. -/
def answer (cat : Catalog) (z : ZStr) : Run CStr :=
  if lastNew (cat.entries.map Entry.pfx) <+: z.str then .error .badRead
  else
    match cat.matchFor z.str with
    | none => .ok []
    | some e =>
      match e.ruleFor (registrantOf z) with
      | none => .ok []
      | some r => .ok (untilNul (fieldBytes z e.pfx r.rngLen.toNat) ++ newlineText)

end Catalog

theorem LongestPrefix.same {keys : List CStr} {s p q : CStr} (hp : LongestPrefix keys s p)
    (hq : LongestPrefix keys s q) : p = q := by
  have hlen : p.length = q.length :=
    le_antisymm (hq.2.2 p hp.1 hp.2.1) (hp.2.2 q hq.1 hq.2.1)
  exact (List.prefix_of_prefix_length_le hp.2.1 hq.2.1 hlen.le).eq_of_length hlen

theorem Catalog.matchFor_iff (cat : Catalog) (s : CStr) (e : Entry) :
    cat.matchFor s = some e ↔ Matched cat s e := by
  have hfound : ∀ e : Entry, LongestPrefix (cat.entries.map Entry.pfx) s e.pfx →
      Findable (cat.entries.map Entry.pfx) s e.pfx →
      cat.matchFor s = cat.entries.find? fun e' => e'.pfx = e.pfx := by
    intro e hlong hfind
    refine List.find?_congr fun e' _ => ?_
    rw [decide_eq_decide]
    constructor
    · intro h
      exact h.1.same hlong
    · intro h
      rw [h]
      exact ⟨hlong, hfind⟩
  constructor
  · intro h
    have hprops : LongestPrefix (cat.entries.map Entry.pfx) s e.pfx ∧
        Findable (cat.entries.map Entry.pfx) s e.pfx := by
      simpa using List.find?_some h
    exact ⟨hprops.1, hprops.2, (hfound e hprops.1 hprops.2).symm.trans h⟩
  · intro h
    exact (hfound e h.longest h.findable).trans h.first

theorem cstrAt_untilNul {buf : ℕ → Option UInt8} (bs : List UInt8) {i k : ℕ} (hk : bs.length ≤ k)
    (hbuf : ∀ j, buf (i + j) = bs[j]?) : cstrAt buf i k = untilNul bs := by
  induction bs generalizing i k with
  | nil =>
    have h0 : buf i = none := hbuf 0
    cases k with
    | zero => rfl
    | succ k => simp [cstrAt, h0, untilNul, chrsOf]
  | cons b bs ih =>
    obtain ⟨k, rfl⟩ : ∃ k', k = k' + 1 := ⟨k - 1, by rw [List.length_cons] at hk; omega⟩
    have h0 : buf i = some b := hbuf 0
    have hrest := ih (i := i + 1) (k := k) (Nat.le_of_succ_le_succ hk) fun j => by
      rw [Nat.add_right_comm, Nat.add_assoc]
      exact hbuf (j + 1)
    by_cases hb : b = 0
    · simp [cstrAt, h0, hb, untilNul, chrsOf]
    · rw [cstrAt, h0]
      simp only [ne_eq, hb, not_false_eq_true, dif_pos, hrest]
      simp [untilNul, chrsOf, hb]

theorem untilNul_nul (bs : List UInt8) : untilNul (bs ++ [0]) = untilNul bs := by
  rw [untilNul, untilNul, List.takeWhile_append]
  split_ifs with hall
  · rw [(List.takeWhile_prefix _).eq_of_length hall]
    simp
  · rfl

theorem placed_text {z : ZStr} {pfx : CStr} {len : UInt64} {bsz : ℕ} (hb : 18 ≤ bsz)
    (h3 : 3 ≤ pfx.length) (h16 : pfx.length < 16) (hfit : pfx.length + 14 ≤ bsz)
    (h8 : len.toNat ≤ 8) :
    cstrAt (placed bsz z len pfx).hbuf 0 bsz = untilNul (fieldBytes z pfx len.toNat) := by
  have hgroup := bytes_of_string ⟨pfx, fun _ => 0⟩ 3 (pfx.length - 3) (by simp only; omega)
  rw [List.take_of_length_le (by rw [List.length_drop])] at hgroup
  have hbytes : (plainScript len.toNat pfx.length).flatMap
      (CopyScript.Step.bytes (sourceBytes z pfx)) = fieldBytes z pfx len.toNat ++ [0] := by
    simp only [plainScript, List.flatMap_cons, List.flatMap_nil, CopyScript.Step.bytes, sourceBytes,
      hgroup, fieldBytes, bytesOf]
    simp [List.range_succ]
  have hlength : (fieldBytes z pfx len.toNat ++ [0]).length = pfx.length + 14 := by
    simp only [fieldBytes, bytesOf, List.length_append, List.length_map, List.length_range,
      List.length_drop, List.length_cons, List.length_nil]
    omega
  rw [← untilNul_nul]
  refine cstrAt_untilNul _ (by omega) fun j => ?_
  rw [placed_eq hb h3 h16 h8, Nat.zero_add]
  simp only
  rw [CopyScript.run_tiles (plainScript_tiles _ _ h3 h8), hbytes, Nat.sub_zero]
  split_ifs with hj
  · rfl
  · rw [List.getElem?_eq_none (by omega)]

namespace Command
open Logged Options

section Operand
variable {isbn : IsbnInfo} {cat : Catalog} {pk : Packed}

theorem print_quit (rc : ℕ) (hrc : rc ≠ 0) (parts : List (ℕ × ℕ)) :
    silent (intoHbuf (.quit parts (.ok rc))) >>= printHbuf (.quit parts (.ok rc)) = puts [] := by
  have hret : intoHbuf (.quit parts (.ok rc)) = .ok rc := if_pos fun r hr => by cases hr
  rw [hret]
  simp [silent, printHbuf, hrc, puts, emit, pure_eq]

theorem hyphenate_prints (h : Refines isbn cat) (hpack : fstCopyAndPack isbn.fst = .ok pk)
    {z : ZStr} (hfit : Fits cat hbufSize z) :
    silent (intoHbuf (hyphenateIsbn (some (isbn.table pk.view)) hbufSize z)) >>=
        printHbuf (hyphenateIsbn (some (isbn.table pk.view)) hbufSize z) =
      silent (cat.answer z) >>= puts := by
  have hb : 18 ≤ hbufSize := by decide
  obtain ⟨pk', hpack', hcopy⟩ := h.hyphenate_packed
  obtain rfl : pk = pk' := Except.ok.inj (hpack.symm.trans hpack')
  rw [hcopy, Catalog.answer]
  by_cases hlast : lastNew (cat.entries.map Entry.pfx) <+: z.str
  · rw [if_pos ⟨hb, hlast⟩, if_pos hlast]
    rfl
  · rw [if_neg fun hand => hlast hand.2, if_neg hlast]
    have hne : cat.entries ≠ [] := by
      intro hnil
      rw [hnil] at hlast
      exact hlast List.nil_prefix
    cases hm : cat.matchFor z.str with
    | none =>
      have hno : ∀ e, ¬ Matched cat z.str e := fun e he => by
        rw [(cat.matchFor_iff z.str e).mpr he] at hm
        cases hm
      rw [h.hyphenate_unmatched hb hne hno, print_quit ENOENT (by decide)]
      rfl
    | some e =>
      have hmatch := (cat.matchFor_iff z.str e).mp hm
      rw [h.hyphenate_matched hb hmatch]
      cases hr : e.ruleFor (registrantOf z) with
      | none =>
        simp only [hr]
        rw [print_quit ENOENT (by decide)]
        rfl
      | some r =>
        obtain ⟨h3, hroom, h8⟩ := hfit e r hmatch hr
        have h16 := h.short e (List.mem_of_find?_eq_some hmatch.first)
        have hinto : intoHbuf (placed hbufSize z r.rngLen e.pfx) = .ok 0 := by
          have hsafe := ((placed_safe_iff (z := z) hb h16).mpr ⟨h3, hroom, h8⟩) r.rngLen
            (UInt64.ofNat e.pfx.length) (by rw [placed_eq hb h3 h16 h8])
          rw [intoHbuf, if_pos hsafe.2.2, placed_ok hb h3 h16 h8]
        simp only [hinto, hr]
        simp [silent, printHbuf, fprintl, puts, emit, placed_text hb h3 h16 hroom h8]

theorem operand_prints (h : Refines isbn cat) (hpack : fstCopyAndPack isbn.fst = .ok pk) {z : ZStr}
    (hfit : Fits cat hbufSize z) (verbose : Bool) {α : Type} (rest : Prog α) :
    visible (onEprint (Traced.hyphenateIsbn verbose (some (isbn.table pk.view)) hbufSize z) >>=
        fun hy => silent (intoHbuf hy) >>= fun rv => printHbuf hy rv >>= fun _ => rest) =
      silent (cat.answer z) >>= fun text => emit (bytesOf text) >>= fun _ => visible rest := by
  have hplain : visible
      (silent (intoHbuf (hyphenateIsbn (some (isbn.table pk.view)) hbufSize z)) >>= fun rv =>
        printHbuf (hyphenateIsbn (some (isbn.table pk.view)) hbufSize z) rv >>= fun _ => rest) =
      silent (cat.answer z) >>= fun text => emit (bytesOf text) >>= fun _ => visible rest := by
    rw [← Logged.bind_assoc, hyphenate_prints h hpack hfit, Logged.bind_assoc, visible_bind]
    simp only [visible_bind, visible_puts]
    rfl
  have hmessages := Traced.messages_ret h hpack (show 18 ≤ hbufSize by decide) z
  rw [visible_bind, visible_onEprint, Traced.hyphenateIsbn, bind_ret]
  cases verbose with
  | false => exact hplain
  | true =>
    rw [Traced.vmessages, if_pos rfl, hmessages]
    by_cases hlast : lastNew (cat.entries.map Entry.pfx) <+: z.str
    · rw [if_pos hlast, Catalog.answer, if_pos hlast]
      rfl
    · rw [if_neg hlast]
      exact hplain

end Operand

def answersFrom (cat : Catalog) (behind : ℕ → ℕ → UInt8) (i : ℕ) (argv : List CStr) :
    List (Run CStr) :=
  (argv.zipIdx i).map fun p => cat.answer ⟨p.1, behind p.2⟩

def spoken : List (Run CStr) → CStr
  | .ok text :: answers => text ++ spoken answers
  | _ => []

def AllAnswered (answers : List (Run CStr)) : Prop := ∀ r ∈ answers, r.isOk

instance : DecidablePred AllAnswered := fun answers =>
  inferInstanceAs (Decidable (∀ r ∈ answers, r.isOk = true))

def AllFit (cat : Catalog) (behind : ℕ → ℕ → UInt8) (i : ℕ) (argv : List CStr) : Prop :=
  ∀ p ∈ argv.zipIdx i, Fits cat hbufSize ⟨p.1, behind p.2⟩

theorem answer_fault {cat : Catalog} {z : ZStr} {e : Stop} (h : cat.answer z = .error e) :
    e = .badRead := by
  rw [Catalog.answer] at h
  split_ifs at h
  · cases h
    rfl
  · split at h
    · cases h
    · split at h <;> cases h

section Operands
variable {isbn : IsbnInfo} {cat : Catalog} {pk : Packed}

theorem argvIsbn_answers (h : Refines isbn cat) (hpack : fstCopyAndPack isbn.fst = .ok pk)
    (verbose : Bool) (behind : ℕ → ℕ → UInt8) (argv : List CStr) (i : ℕ)
    (hfit : AllFit cat behind i argv) :
    visible (argvIsbn verbose (some (isbn.table pk.view)) behind i argv) =
      ⟨bytesOf (spoken (answersFrom cat behind i argv)),
        if AllAnswered (answersFrom cat behind i argv) then .ok 0 else .error .badRead⟩ := by
  induction argv generalizing i with
  | nil => rfl
  | cons s argv ih =>
    rw [AllFit, List.zipIdx_cons, List.forall_mem_cons] at hfit
    have hcons : answersFrom cat behind i (s :: argv) =
        cat.answer ⟨s, behind i⟩ :: answersFrom cat behind (i + 1) argv := by
      rw [answersFrom, List.zipIdx_cons, List.map_cons, answersFrom]
    rw [argvIsbn, operand_prints h hpack hfit.1 verbose, ih (i + 1) hfit.2, hcons]
    cases hans : cat.answer ⟨s, behind i⟩ with
    | error e =>
      rw [answer_fault hans]
      have hno : ¬ AllAnswered (.error .badRead :: answersFrom cat behind (i + 1) argv) :=
        fun hall => absurd (hall _ List.mem_cons_self) (by decide)
      rw [if_neg hno]
      rfl
    | ok text =>
      have hall : AllAnswered (.ok text :: answersFrom cat behind (i + 1) argv) ↔
          AllAnswered (answersFrom cat behind (i + 1) argv) := by
        have hok : (.ok text : Run CStr).isOk = true := rfl
        rw [AllAnswered, List.forall_mem_cons, and_iff_right hok, AllAnswered]
      simp only [silent, emit, Logged.bind_ok, List.nil_append, spoken, hall]
      rw [bytesOf, bytesOf, bytesOf, List.map_append]

end Operands

def sampleRoot : Option XmlNode :=
  sampleMessage [(lit "978-0".toList, lit ['3']), (lit "979".toList, lit ['1'])]

def sampleCatalog : Catalog :=
  ⟨[⟨lit "9780".toList, lit ['A'], [⟨3, 0, 9⟩]⟩, ⟨lit "979".toList, lit ['A'], [⟨1, 0, 9⟩]⟩], []⟩

def sampleArgs : List CStr :=
  [say "-v", say "--arg", say "9780000000512", say "12", say "9790", say "9780000000512"]

end Command

end IsbnHyphenate
