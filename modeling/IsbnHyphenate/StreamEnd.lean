import IsbnHyphenate.IsbnStream
import IsbnHyphenate.SglReads

/-!
# The end of the loop

`isbn_stream` leaves its loop only when `feof` was true after a failed read. In
front of the end of a file every call takes a byte that is not NUL, so the loop
comes to an end. A read error never sets `eof`, and the loop goes on with empty
lines.
-/

namespace IsbnHyphenate

def Settles {α : Type} (x : Run α) : Prop := x ≠ .error .spin

theorem Settles.ok {α : Type} (a : α) : Settles (.ok a) := by
  intro h
  cases h

theorem Settles.bad_read {α : Type} : Settles (.error .badRead : Run α) := by
  intro h
  cases h

theorem Settles.error {α β : Type} {e : Stop} (h : Settles (.error e : Run α)) :
    Settles (.error e : Run β) := by
  intro heq
  cases heq
  exact h rfl

theorem Settles.bind {α β : Type} {x : Run α} {f : α → Run β} (hx : Settles x)
    (hf : ∀ a, Settles (f a)) : Settles (x >>= f) := by
  cases x with
  | error e => exact hx.error
  | ok a => exact hf a

theorem Settles.ite {α : Type} {c : Prop} [Decidable c] {x y : Run α} (hx : Settles x)
    (hy : Settles y) : Settles (if c then x else y) := by
  split_ifs
  · exact hx
  · exact hy

section Lookup
variable (fst : FstView)

theorem readNtrans_settles (state : ℕ) : Settles (fst.readNtrans state) := by
  rw [FstView.readNtrans]
  cases fst.ntrans state with
  | none => exact .bad_read
  | some n => exact .ok n

theorem readTrans_settles (state i : ℕ) : Settles (fst.readTrans state i) := by
  rw [FstView.readTrans]
  cases fst.transv state i with
  | none => exact .bad_read
  | some t => exact .ok t

theorem validateTrans_settles (state n : ℕ) : Settles (validateTrans fst state n) := by
  induction n with
  | zero => exact .ok _
  | succ n ih => exact ih.bind fun _ => (readTrans_settles fst state n).bind fun _ => .ok _

theorem validateStates_settles (n : ℕ) : Settles (validateStates fst n) := by
  induction n with
  | zero => exact .ok _
  | succ n ih =>
    exact ih.bind fun _ => (readNtrans_settles fst n).bind fun k => validateTrans_settles fst n k

theorem ruleScan_settles (state : ℕ) (chr : ℤ) (i k : ℕ) :
    Settles (ruleScan fst state chr i k) := by
  induction k generalizing i with
  | zero => exact .ok _
  | succ k ih => exact (readTrans_settles fst state i).bind fun t => .ite (.ok _) (ih (i + 1))

theorem fstRuleLookup_settles (state : ℕ) (chr : ℤ) : Settles (fstRuleLookup fst state chr) := by
  apply Settles.ite (.ok _)
  exact (readNtrans_settles fst state).bind fun k => ruleScan_settles fst state chr 0 k

theorem pfxFinal_settles (pfx : Bool) (state : ℕ) : Settles (pfxFinal fst pfx state) := by
  refine .ite ?_ (.ok _)
  apply (readNtrans_settles fst state).bind
  intro n
  exact .ite (.ok _) ((readTrans_settles fst state 0).bind fun _ => .ok _)

theorem fstLookupFrom_settles (pfx : Bool) (state : ℕ) (s : CStr) :
    Settles (fstLookupFrom fst pfx state s) := by
  induction s generalizing state with
  | nil =>
    apply (fstRuleLookup_settles fst state 0).bind
    intro enext
    exact .ite (.ok _) (.ite (.ok _) (.ok _))
  | cons c s ih =>
    apply (fstRuleLookup_settles fst state (chrInt c)).bind
    intro enext
    apply Settles.ite (.ok _)
    apply (pfxFinal_settles fst pfx state).bind
    intro final
    apply Settles.ite
    · exact (readTrans_settles fst state 0).bind fun _ => .ok _
    · exact .ite (.ok _) (.ite (.ok _) (ih _))

theorem fstLookup_settles (s : CStr) (pfx : Bool) : Settles (fstLookup fst s pfx) :=
  (validateStates_settles fst fst.len).bind fun _ => fstLookupFrom_settles fst pfx 0 s

end Lookup

theorem findPrefix_settles (isbn : Option RangeTable) (bsz : ℕ) (s : CStr) :
    Settles (findPrefix isbn bsz s) := by
  cases isbn with
  | none => exact .ok _
  | some tab =>
    cases hfst : tab.fst with
    | none =>
      rw [findPrefix, hfst]
      exact .ok _
    | some fst =>
      rw [findPrefix, hfst]
      apply Settles.ite (.ok _)
      apply (fstLookup_settles fst s true).bind
      intro ret
      apply Settles.ite (.ok _)
      cases ret.val.bind tab.prefixVec.read with
      | none => exact .bad_read
      | some row =>
        cases hpfx : row.pfx with
        | none => simp [hpfx, Settles.bad_read]
        | some pfx => simp [hpfx, Settles.ok]

theorem findRange_settles (ranges : Vec IsbnRange) (row : IsbnPrefix) (registrant : UInt32)
    (i k : ℕ) : Settles (findRange ranges row registrant i k) := by
  induction k generalizing i with
  | zero => exact .ok _
  | succ k ih =>
    rw [findRange]
    cases row.ruleIdx.bind fun idx => ranges.read (idx + i) with
    | none => exact .bad_read
    | some r => exact .ite (.ok _) (ih (i + 1))

theorem placed_settles (bsz : ℕ) (z : ZStr) (len : UInt64) (pfx : CStr) :
    Settles (placed bsz z len pfx).ret := by
  rw [placed]
  split_ifs
  · intro h
    cases h
  · exact .ok 0

theorem hyphenateIsbn_settles (isbn : Option RangeTable) (bsz : ℕ) (z : ZStr) :
    Settles (hyphenateIsbn isbn bsz z).ret := by
  have hfind := findPrefix_settles isbn bsz z.str
  rw [hyphenateIsbn]
  cases h : findPrefix isbn bsz z.str with
  | error e =>
    rw [h] at hfind
    exact hfind.error
  | ok found =>
    cases found with
    | inl rc => exact .ok rc
    | inr found =>
      obtain ⟨row, pfx, ranges⟩ := found
      have hscan := findRange_settles ranges row (parseNumberSlice z.byte 4 7 0) 0 row.nrules
      cases hr : findRange ranges row (parseNumberSlice z.byte 4 7 0) 0 row.nrules with
      | error e =>
        rw [hr] at hscan
        simp only [hr]
        exact hscan.error
      | ok len =>
        cases len with
        | none =>
          simp only [hr]
          exact .ok _
        | some len =>
          simp only [hr]
          exact placed_settles bsz z len pfx

section Round
variable {lbuf : LineBuf}

theorem fgetline_reads (sz : Sizes) (lbuf : LineBuf) :
    ∃ lbuf' slots e, fgetline sz lbuf = .ok lbuf' ∧
      Reads sz newline lbuf.file slots lbuf'.file e ∧ lbuf'.eof = e.getD lbuf.eof ∧
      lbuf'.len = (slots.map Slot.slen).sum := by
  obtain ⟨lbuf₁, hget, hfile, heof⟩ := fgetline_eq sz lbuf
  obtain ⟨lbuf', slots, sgl, e, hcall, hd⟩ := sglFgetline_reads sz newline lbuf₁
  refine ⟨lbuf', slots, e, by rw [hget, hcall], ?_, ?_, hd.len_eq⟩
  · rw [← hfile]
    exact hd.reads
  · rw [← heof]
    exact hd.eof_eq

theorem fgetline_good (sz : Sizes) (hgood : lbuf.file.failing = false) :
    ∃ lbuf', fgetline sz lbuf = .ok lbuf' ∧ lbuf'.file.failing = false ∧
      (lbuf'.eof = false → nz lbuf'.file.data < nz lbuf.file.data) := by
  obtain ⟨lbuf', slots, e, hget, hreads, heof, -⟩ := fgetline_reads sz lbuf
  refine ⟨lbuf', hget, hreads.failing_eq.trans hgood, fun hgo => ?_⟩
  by_cases he : e = none
  · have hlt := (hreads.nz_le hgood).2 he
    omega
  · rw [heof, (hreads.at_end hgood he).1] at hgo
    cases hgo

/-- The stream ends with an error, and the end of the file has not been reported. -/
structure Broken (lbuf : LineBuf) : Prop where
  failing : lbuf.file.failing = true
  file : lbuf.file.eof = false
  eof : lbuf.eof = false

theorem Broken.fgetline (h : Broken lbuf) (sz : Sizes) :
    ∃ lbuf', fgetline sz lbuf = .ok lbuf' ∧ Broken lbuf' := by
  obtain ⟨lbuf', slots, e, hget, hreads, hend, -⟩ := fgetline_reads sz lbuf
  obtain ⟨hkept, hstored⟩ := hreads.at_error h.failing
  refine ⟨lbuf', hget, hreads.failing_eq.trans h.failing, hkept.trans h.file, ?_⟩
  rw [hend]
  cases e with
  | none => exact h.eof
  | some b =>
    have hb := hstored b rfl
    rw [Option.getD_some, hb, h.file]

theorem fgetline_nil (sz : Sizes) (hnil : lbuf.file.data = []) :
    ∃ lbuf', fgetline sz lbuf = .ok lbuf' ∧ lbuf'.file.data = [] ∧ lbuf'.len = 0 := by
  obtain ⟨lbuf', slots, e, hget, hreads, -, hlen⟩ := fgetline_reads sz lbuf
  obtain ⟨hslots, hdata⟩ := hreads.of_nil hnil
  refine ⟨lbuf', hget, hdata, ?_⟩
  rw [hlen, hslots]
  rfl

theorem cstrOf_closed (stale : ℕ → UInt8) (rbuf : List (Option UInt8)) :
    ∃ t, cstrOf ((rbuf ++ [some 0]).mapIdx fun i b => some (Option.getD b (stale i))) =
      some t := by
  induction rbuf generalizing stale with
  | nil => exact ⟨[], rfl⟩
  | cons b rbuf ih =>
    obtain ⟨t, ht⟩ := ih fun i => stale (i + 1)
    rw [List.cons_append, List.mapIdx_cons, cstrOf, ht]
    split_ifs
    · exact ⟨[], rfl⟩
    · exact ⟨_, rfl⟩

theorem fgetline_string (stale : ℕ → UInt8) {lbuf' : LineBuf} (h : fgetline sz lbuf = .ok lbuf') :
    ∃ t, lbuf'.string stale = some t := by
  obtain ⟨lbuf₁, hget, -⟩ := fgetline_eq sz lbuf
  obtain ⟨lbuf₂, slots, sgl, e, hcall, hd⟩ := sglFgetline_reads sz newline lbuf₁
  cases h.symm.trans (hget.trans hcall)
  rw [LineBuf.string, hd.buf_eq]
  exact cstrOf_closed stale _

end Round

section Loop
variable {sz : Sizes} {stale : ℕ → ℕ → UInt8} {hyphenate : ℕ → CStr → Hyphenation}

theorem streamLoop_nil (fuel n : ℕ) {lbuf : LineBuf} (hnil : lbuf.file.data = []) :
    (streamLoop sz stale hyphenate fuel n lbuf).calls = [] := by
  induction fuel generalizing lbuf with
  | zero => rfl
  | succ fuel ih =>
    obtain ⟨lbuf', hget, hnil', hlen⟩ := fgetline_nil sz hnil
    simp only [streamLoop, hget, hlen, if_true]
    split_ifs
    · rfl
    · exact ih hnil'

theorem streamLoop_settles (hcalls : ∀ n s, Settles (hyphenate n s).ret) (fuel n : ℕ)
    {lbuf : LineBuf} (hgood : lbuf.file.failing = false) (hfuel : nz lbuf.file.data < fuel) :
    Settles (streamLoop sz stale hyphenate fuel n lbuf).ret := by
  induction fuel generalizing n lbuf with
  | zero => exact absurd hfuel (Nat.not_lt_zero _)
  | succ fuel ih =>
    obtain ⟨lbuf', hget, hgood', hmove⟩ := fgetline_good sz hgood
    simp only [streamLoop, hget]
    cases heof : lbuf'.eof with
    | true => exact .ok _
    | false =>
      have hlt := hmove heof
      have hrest : ∀ n, Settles (streamLoop sz stale hyphenate fuel n lbuf').ret := fun n =>
        ih n hgood' (by omega)
      simp only [Bool.false_eq_true, if_false]
      split_ifs
      · exact hrest n
      · obtain ⟨t, ht⟩ := fgetline_string (stale n) hget
        have hcall := hcalls n (chrsOf t)
        rw [ht]
        cases hret : (hyphenate n (chrsOf t)).ret with
        | error e =>
          rw [hret] at hcall
          simp only [hret]
          exact hcall
        | ok rv =>
          simp only [hret]
          exact hrest (n + 1)

/-- One round behind a read error: an empty line, or a call of `hyphenate`. -/
theorem Broken.round {lbuf : LineBuf} (h : Broken lbuf) (fuel n : ℕ) :
    ∃ lbuf', Broken lbuf' ∧
      (streamLoop sz stale hyphenate (fuel + 1) n lbuf =
          streamLoop sz stale hyphenate fuel n lbuf' ∨
        ∃ s, (streamLoop sz stale hyphenate (fuel + 1) n lbuf).ret =
            ((hyphenate n s).ret >>= fun _ =>
              (streamLoop sz stale hyphenate fuel (n + 1) lbuf').ret) ∧
          (streamLoop sz stale hyphenate (fuel + 1) n lbuf).calls =
            s :: if (hyphenate n s).ret.isOk then
              (streamLoop sz stale hyphenate fuel (n + 1) lbuf').calls else []) := by
  obtain ⟨lbuf', hget, h'⟩ := h.fgetline sz
  obtain ⟨t, ht⟩ := fgetline_string (stale n) hget
  refine ⟨lbuf', h', ?_⟩
  simp only [streamLoop, hget, h'.eof, Bool.false_eq_true, if_false, ht]
  split_ifs
  · exact Or.inl rfl
  · refine Or.inr ⟨chrsOf t, ?_⟩
    cases (hyphenate n (chrsOf t)).ret with
    | error e => exact ⟨rfl, rfl⟩
    | ok rv => exact ⟨rfl, rfl⟩

theorem Broken.unfinished {lbuf : LineBuf} (h : Broken lbuf) (fuel n rv : ℕ) :
    (streamLoop sz stale hyphenate fuel n lbuf).ret ≠ .ok rv := by
  induction fuel generalizing n lbuf with
  | zero =>
    intro hret
    cases hret
  | succ fuel ih =>
    obtain ⟨lbuf', h', hskip | ⟨s, hret, -⟩⟩ := h.round fuel n
    · rw [hskip]
      exact ih h' n
    · rw [hret]
      cases (hyphenate n s).ret with
      | error e =>
        intro hstop
        cases hstop
      | ok _ => exact ih h' (n + 1)

/-- After a read error nothing but a call of `hyphenate` can end the run. -/
theorem Broken.settles_iff (hcalls : ∀ n s, Settles (hyphenate n s).ret) {lbuf : LineBuf}
    (h : Broken lbuf) (fuel n : ℕ) :
    Settles (streamLoop sz stale hyphenate fuel n lbuf).ret ↔
      ∃ i s, (streamLoop sz stale hyphenate fuel n lbuf).calls[i]? = some s ∧
        ¬ (hyphenate (n + i) s).ret.isOk := by
  induction fuel generalizing n lbuf with
  | zero => simp [streamLoop, Settles]
  | succ fuel ih =>
    obtain ⟨lbuf', h', hskip | ⟨s, hret, hmade⟩⟩ := h.round fuel n
    · rw [hskip]
      exact ih h' n
    · rw [hret, hmade]
      have hcall := hcalls n s
      cases hs : (hyphenate n s).ret with
      | error e =>
        rw [hs] at hcall
        refine iff_of_true hcall.error ⟨0, s, rfl, ?_⟩
        rw [Nat.add_zero, hs]
        simp [Except.isOk, Except.toBool]
      | ok rv =>
        rw [run_ok_bind, ih h' (n + 1)]
        constructor
        · rintro ⟨i, s', hi, hstop⟩
          exact ⟨i + 1, s', hi, by rwa [← Nat.add_assoc, Nat.add_right_comm]⟩
        · rintro ⟨i, s', hi, hstop⟩
          cases i with
          | zero =>
            cases hi
            simp [hs, Except.isOk, Except.toBool] at hstop
          | succ i => exact ⟨i, s', hi, by rwa [Nat.add_right_comm, Nat.add_assoc]⟩

end Loop

theorem hyphenateLine_settles (isbn : Option RangeTable) (behind : ℕ → ℕ → UInt8) (n : ℕ)
    (s : CStr) : Settles (hyphenateLine isbn behind n s).ret :=
  hyphenateIsbn_settles isbn 32 ⟨s, behind n⟩

/-- With `fuel` calls of `fgetline`, for some `fuel`, the loop is over. -/
def StreamEnds (sz : Sizes) (isbn : Option RangeTable) (behind stale : ℕ → ℕ → UInt8) (f : File) :
    Prop :=
  ∃ fuel, (isbnStream sz isbn behind stale fuel f).ret ≠ .error .spin

theorem stream_ends_of_good (sz : Sizes) (isbn : Option RangeTable) (behind stale : ℕ → ℕ → UInt8)
    (data : List UInt8) : StreamEnds sz isbn behind stale ⟨data, false, false⟩ :=
  ⟨nz data + 1,
    streamLoop_settles (hyphenateLine_settles isbn behind) _ 0 rfl (Nat.lt_succ_self _)⟩

theorem error_ends_iff (sz : Sizes) (isbn : Option RangeTable) (behind stale : ℕ → ℕ → UInt8)
    (data : List UInt8) : StreamEnds sz isbn behind stale ⟨data, true, false⟩ ↔
      ∃ fuel i s,
        (isbnStream sz isbn behind stale fuel ⟨data, true, false⟩).calls[i]? = some s ∧
        ¬ (hyphenateLine isbn behind i s).ret.isOk := by
  refine exists_congr fun fuel => ?_
  have hiff : Settles (isbnStream sz isbn behind stale fuel ⟨data, true, false⟩).ret ↔
      ∃ i s, (isbnStream sz isbn behind stale fuel ⟨data, true, false⟩).calls[i]? = some s ∧
        ¬ (hyphenateLine isbn behind (0 + i) s).ret.isOk :=
    Broken.settles_iff (hyphenateLine_settles isbn behind) ⟨rfl, rfl, rfl⟩ fuel 0
  simp only [Nat.zero_add] at hiff
  exact hiff

end IsbnHyphenate
