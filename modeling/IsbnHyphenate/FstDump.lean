import IsbnHyphenate.FstPackSim
import IsbnHyphenate.Printf
import IsbnHyphenate.Library.SelfDelimiting

/-!
# The dump of a transducer

`fdump_fst` writes the states below `len` with their transitions, so the last
state is not in the text. Every line is self-delimiting, and the text shows
just the rows that `fst_pack` copies.
-/

namespace IsbnHyphenate
open SelfDelimiting

variable {fst : Fst} {label : ℕ → CStr} {adds : List (CStr × ℕ)}

def shownChr (t : Trans) : Option Chr :=
  if h : UInt8.ofNat (t.tChr % 256).toNat ≠ 0 then some ⟨_, h⟩ else none

def dumpTrans (t : Trans) : CStr :=
  match shownChr t with
  | none => say "            -> value=" ++ formatZu (asValue t.tNext) ++ newlineText
  | some chr => say "    " ++ chr :: (say " (" ++ formatU3 chr.1.toNat ++ say ") -> ") ++
      formatZu (asState t.tNext) ++ newlineText

def dumpRow (fst : FstView) (state : ℕ) : ℕ → Run CStr
  | 0 => .ok []
  | trnr + 1 => do
    let out ← dumpRow fst state trnr
    let t ← fst.readTrans state trnr
    .ok (out ++ dumpTrans t)

def dumpStates (fst : FstView) : ℕ → Run CStr
  | 0 => .ok []
  | state + 1 => do
    let out ← dumpStates fst state
    let ntrans ← fst.readNtrans state
    let row ← dumpRow fst state ntrans
    .ok (out ++ (say "State " ++ formatZu state ++ say ":\n" ++ row))

/-- `null` when `fst->base` is NULL, which the copy never has. -/
def fdumpFst (null : Bool) (fst : FstView) : Run CStr :=
  if null then .error (.exit 32) else dumpStates fst fst.len

def Fst.dump (fst : Fst) : Run CStr := fdumpFst fst.base.isNone fst.view

def Packed.dump (pk : Packed) : Run CStr := fdumpFst false pk.view

inductive Line where
  | state (nr : ℕ)
  | value (val : ℕ)
  | edge (chr : Chr) (nr : ℕ)
  deriving DecidableEq

def Line.text : Line → CStr
  | .state nr => say "State " ++ (formatZu nr ++ say ":\n")
  | .value val => say "            -> value=" ++ (formatZu val ++ newlineText)
  | .edge chr nr => say "    " ++
      ((chr :: (say " (" ++ formatU3 chr.1.toNat ++ say ") -> ")) ++ (formatZu nr ++ newlineText))

def Line.ofTrans (t : Trans) : Line :=
  match shownChr t with
  | none => .value (asValue t.tNext)
  | some chr => .edge chr (asState t.tNext)

theorem dumpTrans_text (t : Trans) : dumpTrans t = (Line.ofTrans t).text := by
  rw [dumpTrans, Line.ofTrans]
  cases shownChr t <;> simp [Line.text]

theorem code_nr (w : CStr) {d : Chr} (hd : isDigit d = false) :
    Code fun nr => formatZu nr ++ d :: w :=
  code_until formatZu_injective (formatZu_lacks hd) w

theorem code_edge : Code fun p : Chr × ℕ =>
    (p.1 :: (say " (" ++ formatU3 p.1.1.toNat ++ say ") -> ")) ++ (formatZu p.2 ++ newlineText) :=
  (code_letter Function.injective_id fun chr : Chr =>
    say " (" ++ formatU3 chr.1.toNat ++ say ") -> ").pair (code_nr [] (by decide))

def Line.kind : Line → ℕ
  | .state _ => 0
  | .value _ => 1
  | .edge _ _ => 2

def kindOf (s : CStr) : ℕ :=
  if s[0]? = (say "S")[0]? then 0 else if s[6]? = (say "(")[0]? then 2 else 1

theorem kindOf_text (l : Line) (s : CStr) : kindOf (l.text ++ s) = l.kind := by
  cases l <;> rfl

theorem code_line : Code Line.text := by
  intro a b s t h
  have hkind : a.kind = b.kind := by rw [← kindOf_text a s, h, kindOf_text]
  cases a with
  | state m =>
    cases b with
    | state n =>
      obtain ⟨rfl, hst⟩ := (code_nr _ (by decide)).behind _ m n s t h
      exact ⟨rfl, hst⟩
    | value | edge => cases hkind
  | value v =>
    cases b with
    | value w =>
      obtain ⟨rfl, hst⟩ := (code_nr _ (by decide)).behind _ v w s t h
      exact ⟨rfl, hst⟩
    | state | edge => cases hkind
  | edge c m =>
    cases b with
    | edge d n =>
      obtain ⟨heq, hst⟩ := code_edge.behind _ (c, m) (d, n) s t h
      obtain ⟨rfl, rfl⟩ := Prod.mk.inj heq
      exact ⟨rfl, hst⟩
    | state | value => cases hkind

theorem Line.text_ne_nil (l : Line) : l.text ≠ [] := by
  cases l <;> exact List.cons_ne_nil _ _

def rowLines (state : ℕ) (ts : List Trans) : List Line := .state state :: ts.map Line.ofTrans

def dumpLines (n : ℕ) (row : ℕ → List Trans) : List Line :=
  (List.range n).flatMap fun state => rowLines state (row state)

theorem dumpRow_shows {m : FstView} {state : ℕ} {ts : List Trans} (h : m.Row state ts) {k : ℕ}
    (hk : k ≤ ts.length) :
    dumpRow m state k = .ok (((ts.take k).map Line.ofTrans).flatMap Line.text) := by
  induction k with
  | zero => rfl
  | succ k ih =>
    rw [dumpRow, ih (by omega), run_ok_bind, h.readTrans hk, run_ok_bind,
      List.take_succ_eq_append_getElem hk, List.map_append, List.flatMap_append, dumpTrans_text]
    simp

theorem dumpStates_shows {m : FstView} {row : ℕ → List Trans} {n : ℕ} (h : m.Shows n row) :
    dumpStates m n = .ok ((dumpLines n row).flatMap Line.text) := by
  induction n with
  | zero => rfl
  | succ n ih =>
    have hrow := h n (Nat.lt_succ_self n)
    have hdump := dumpRow_shows hrow le_rfl
    rw [List.take_length] at hdump
    rw [dumpStates, ih fun i hi => h i (Nat.lt_succ_of_lt hi), run_ok_bind, hrow.readNtrans,
      run_ok_bind, hdump, run_ok_bind, dumpLines, dumpLines, List.range_succ, List.flatMap_append,
      List.flatMap_append]
    simp [rowLines, Line.text]

theorem shownChr_chrInt {t : Trans} {c : Chr} (h : t.tChr = chrInt c) : shownChr t = some c := by
  have hb : UInt8.ofNat (t.tChr % 256).toNat = c.1 := by
    rw [h, chrInt_emod, Int.toNat_natCast, UInt8.ofNat_toNat]
  rw [shownChr, dif_pos (hb ▸ c.2)]
  exact congrArg some (Subtype.ext hb)

theorem shownChr_zero {t : Trans} (h : t.tChr = 0) : shownChr t = none := by
  rw [shownChr, h]
  rfl

theorem Line.ofTrans_inj {t u : Trans} (ht : t.tChr = 0 ∨ ∃ c, t.tChr = chrInt c)
    (hu : u.tChr = 0 ∨ ∃ c, u.tChr = chrInt c) (h : Line.ofTrans t = Line.ofTrans u) : t = u := by
  obtain ⟨tchr, tnext⟩ := t
  obtain ⟨uchr, unext⟩ := u
  rcases ht with ht | ⟨c, ht⟩ <;> rcases hu with hu | ⟨d, hu⟩
  · simp only [Line.ofTrans, shownChr_zero ht, shownChr_zero hu, Line.value.injEq] at h
    exact congrArg₂ Trans.mk (ht.trans hu.symm) h
  · simp [Line.ofTrans, shownChr_zero ht, shownChr_chrInt hu] at h
  · simp [Line.ofTrans, shownChr_chrInt ht, shownChr_zero hu] at h
  · simp only [Line.ofTrans, shownChr_chrInt ht, shownChr_chrInt hu, Line.edge.injEq] at h
    exact congrArg₂ Trans.mk (ht.trans (h.1 ▸ hu.symm)) h.2

theorem rowLines_inj {ts us : List Trans} (ht : RowWf ts) (hu : RowWf us)
    (h : ts.map Line.ofTrans = us.map Line.ofTrans) : ts = us := by
  have hbt := ht.byte
  have hbu := hu.byte
  clear ht hu
  induction ts generalizing us with
  | nil => exact (List.map_eq_nil_iff.mp h.symm).symm
  | cons t ts ih =>
    cases us with
    | nil => cases h
    | cons u us =>
      rw [List.forall_mem_cons] at hbt hbu
      obtain ⟨hhead, htail⟩ := List.cons.inj h
      rw [Line.ofTrans_inj hbt.1 hbu.1 hhead, ih htail hbt.2 hbu.2]

theorem dumpLines_inj {n n' : ℕ} {row row' : ℕ → List Trans}
    (h : dumpLines n row = dumpLines n' row') :
    n = n' ∧ ∀ i < n, (row i).map Line.ofTrans = (row' i).map Line.ofTrans := by
  have hpairs : ∀ k (r : ℕ → List Trans), dumpLines k r =
      ((List.range k).map fun i => (i, r i)).flatMap fun p =>
        Line.state p.1 :: p.2.map Line.ofTrans := by
    intro k r
    rw [List.flatMap_map]
    rfl
  rw [hpairs, hpairs] at h
  have hmaps := blocks_injective (P := fun l => l.kind = 0) (fun _ => rfl) (fun p l hl => by
    obtain ⟨t, -, rfl⟩ := List.mem_map.mp hl
    rw [Line.ofTrans]
    cases shownChr t <;> exact Nat.succ_ne_zero _) h
  rw [List.map_map, List.map_map] at hmaps
  have hlen : n = n' := by simpa using congrArg List.length hmaps
  subst hlen
  refine ⟨rfl, fun i hi => ?_⟩
  exact (Prod.mk.inj (List.map_inj_left.mp hmaps i (List.mem_range.mpr hi))).2

section Copy
variable {fst fst' : Fst}

theorem measureStates_congr {m m' : FstView} {n : ℕ} (h : ∀ i < n, m.ntrans i = m'.ntrans i) :
    measureStates m n = measureStates m' n := by
  induction n with
  | zero => rfl
  | succ n ih =>
    rw [measureStates, measureStates, ih fun i hi => h i (Nat.lt_succ_of_lt hi),
      FstView.readNtrans, FstView.readNtrans, h n (Nat.lt_succ_self n)]

theorem copyHeaders_congr {n : ℕ} (h : ∀ i < n, fst.read i = fst'.read i) (dst : ℕ) (m : Mem) :
    copyHeaders fst dst n m = copyHeaders fst' dst n m := by
  induction n with
  | zero => rfl
  | succ n ih =>
    rw [copyHeaders, copyHeaders, ih fun i hi => h i (Nat.lt_succ_of_lt hi),
      h n (Nat.lt_succ_self n)]

theorem packStates_congr {n : ℕ} (h : ∀ i < n, fst.read i = fst'.read i) (dst : ℕ)
    (start : Mem × ℕ) : packStates fst dst start n = packStates fst' dst start n := by
  induction n with
  | zero => rfl
  | succ n ih =>
    rw [packStates, packStates, ih fun i hi => h i (Nat.lt_succ_of_lt hi),
      h n (Nat.lt_succ_self n)]

theorem copyAndPack_congr (hl : fst.len = fst'.len) (h : ∀ i < fst.len, fst.read i = fst'.read i) :
    fstCopyAndPack fst = fstCopyAndPack fst' := by
  have hmeas : fstMeasure fst = fstMeasure fst' := by
    rw [fstMeasure, fstMeasure, ← hl]
    exact measureStates_congr fun i hi => by simp only [Fst.view, h i hi]
  rw [fstCopyAndPack, fstCopyAndPack, hmeas]
  refine congrArg (fstMeasure fst' >>= ·) (funext fun alloc => ?_)
  simp only [fstPack, ← hl, copyHeaders_congr h, packStates_congr h]

end Copy

theorem Built.dump (h : Built fst label adds) : ∃ pk, fstCopyAndPack fst = .ok pk ∧
    fst.dump = .ok ((dumpLines fst.len (Fst.row fst)).flatMap Line.text) ∧
    pk.dump = .ok ((dumpLines fst.len (Fst.row fst)).flatMap Line.text) := by
  obtain ⟨pk, hpack, hlen, hshows, -⟩ := copyAndPack_shows h.inv.holds
  have hbase : fst.base.isNone = false := by
    rcases h.inv.holds.alloc with ⟨-, hsize⟩ | ⟨hbase, -⟩
    · have := h.inv.holds.fits
      omega
    · rwa [Option.isNone_eq_false_iff, Option.isSome_iff_ne_none]
  refine ⟨pk, hpack, ?_, ?_⟩
  · rw [Fst.dump, hbase]
    exact dumpStates_shows fun i hi => Fst.view_shows h.inv.holds i (Nat.lt_succ_of_lt hi)
  · have hview : pk.view.len = fst.len := hlen
    rw [Packed.dump, fdumpFst, hview]
    exact dumpStates_shows hshows

theorem Built.copies_eq {fst' : Fst} {label' : ℕ → CStr} {adds' : List (CStr × ℕ)}
    {pk pk' : Packed} (h : Built fst label adds) (h' : Built fst' label' adds')
    (hpack : fstCopyAndPack fst = .ok pk) (hpack' : fstCopyAndPack fst' = .ok pk')
    (hlines : dumpLines fst.len (Fst.row fst) = dumpLines fst'.len (Fst.row fst')) :
    pk = pk' := by
  obtain ⟨hlen, hrows⟩ := dumpLines_inj hlines
  have hread : ∀ i < fst.len, fst.read i = fst'.read i := by
    intro i hi
    rw [Fst.read_row h.inv.holds hi.le, Fst.read_row h'.inv.holds (hlen ▸ hi.le),
      rowLines_inj (h.inv.wf i) (h'.inv.wf i) (hrows i hi)]
  rw [copyAndPack_congr hlen hread, hpack'] at hpack
  exact (Except.ok.inj hpack).symm

/-- The dump of a transducer is the dump of its copy, and it can be read back:
two copies with one dump are the same copy. -/
theorem fdump_reads_back (adds adds' : List (CStr × ℕ)) :
    ∃ fst fst' pk pk' out, fstBuild adds = .ok fst ∧ fstBuild adds' = .ok fst' ∧
      fstCopyAndPack fst = .ok pk ∧ fstCopyAndPack fst' = .ok pk' ∧
      fst.dump = .ok out ∧ pk.dump = .ok out ∧ (fst'.dump = .ok out ↔ pk = pk') := by
  obtain ⟨fst, label, hok, hb⟩ := fstBuild_built adds
  obtain ⟨fst', label', hok', hb'⟩ := fstBuild_built adds'
  obtain ⟨pk, hpack, hdump, hcopy⟩ := hb.dump
  obtain ⟨pk', hpack', hdump', hcopy'⟩ := hb'.dump
  refine ⟨fst, fst', pk, pk', _, hok, hok', hpack, hpack', hdump, hcopy, fun heq => ?_,
    fun heq => ?_⟩
  · rw [hdump'] at heq
    have hlines := code_line.flatMap_injective Line.text_ne_nil (Except.ok.inj heq)
    exact hb.copies_eq hb' hpack hpack' hlines.symm
  · rw [hdump', ← hcopy', ← heq, hcopy]

end IsbnHyphenate
