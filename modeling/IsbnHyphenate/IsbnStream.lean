import IsbnHyphenate.HyphenateSafety
import IsbnHyphenate.SglLines

/-!
# The lines of an input file

`isbn_stream` reads line after line until the reader has met the end of the
file, and hands every other line that is not empty to `hyphenate_isbn`. The
call that meets the end may have read a line, too: the driver tests `eof`
before it looks at it.
-/

namespace IsbnHyphenate

/-- The strings that `hyphenate_isbn` was called with, what stood in `hbuf` at
each `printl`, and the return code. -/
structure StreamRun where
  calls : List CStr
  printed : List (ℕ → Option UInt8)
  ret : Run ℕ

def fgetline (sz : Sizes) (lbuf : LineBuf) : Run LineBuf := do
  let lbuf ← linebufSglNew (linebufFree lbuf)
  sglFgetline sz lbuf newline

def chrsOf (t : List UInt8) : CStr :=
  t.filterMap fun b => if h : b ≠ 0 then some ⟨b, h⟩ else none

/-- The loop of `isbn_stream` after `n` calls of `hyphenate`. In a line whose
bytes were lost the next call finds `stale n`. -/
def streamLoop (sz : Sizes) (stale : ℕ → ℕ → UInt8) (hyphenate : ℕ → CStr → Hyphenation) :
    ℕ → ℕ → LineBuf → StreamRun
  | 0, _, _ => ⟨[], [], .error .spin⟩
  | fuel + 1, n, lbuf =>
    match fgetline sz lbuf with
    | .error e => ⟨[], [], .error e⟩
    | .ok lbuf =>
      if lbuf.eof then ⟨[], [], .ok 0⟩
      else if lbuf.len = 0 then streamLoop sz stale hyphenate fuel n lbuf
      else
        match lbuf.string (stale n) with
        | none => ⟨[], [], .error .badRead⟩
        | some t =>
          let h := hyphenate n (chrsOf t)
          match h.ret with
          | .error e => ⟨[chrsOf t], [], .error e⟩
          | .ok rv =>
            let run := streamLoop sz stale hyphenate fuel (n + 1) lbuf
            { calls := chrsOf t :: run.calls
              printed := if rv = 0 then h.hbuf :: run.printed else run.printed
              ret := run.ret }

/-- `hyphenate_isbn` with the `hbuf` of `isbn_stream`. Behind the line stands
whatever the memory holds at the time of the call. -/
def hyphenateLine (isbn : Option RangeTable) (behind : ℕ → ℕ → UInt8) (n : ℕ) (s : CStr) :
    Hyphenation :=
  hyphenateIsbn isbn 32 ⟨s, behind n⟩

def isbnStream (sz : Sizes) (isbn : Option RangeTable) (behind stale : ℕ → ℕ → UInt8) (fuel : ℕ)
    (f : File) : StreamRun :=
  streamLoop sz stale (hyphenateLine isbn behind) fuel 0 (linebufInit f)

section Calls
variable {hyphenate : ℕ → CStr → Hyphenation}

def callsFor (hyphenate : ℕ → CStr → Hyphenation) : ℕ → List CStr → List CStr
  | _, [] => []
  | n, l :: lines =>
    if (hyphenate n l).ret.isOk then l :: callsFor hyphenate (n + 1) lines else [l]

def AllReturn (hyphenate : ℕ → CStr → Hyphenation) : ℕ → List CStr → Prop
  | _, [] => True
  | n, l :: lines => (hyphenate n l).ret.isOk ∧ AllReturn hyphenate (n + 1) lines

theorem callsFor_length_le (lines : List CStr) (n : ℕ) :
    (callsFor hyphenate n lines).length ≤ lines.length := by
  induction lines generalizing n with
  | nil => exact Nat.le_refl _
  | cons l lines ih =>
    rw [callsFor]
    split_ifs
    · exact Nat.succ_le_succ (ih (n + 1))
    · exact Nat.succ_le_succ (Nat.zero_le _)

theorem callsFor_eq_iff (lines : List CStr) (n : ℕ) :
    callsFor hyphenate n lines = lines ↔ AllReturn hyphenate n lines.dropLast := by
  induction lines generalizing n with
  | nil => exact iff_of_true rfl trivial
  | cons l lines ih =>
    cases lines with
    | nil =>
      refine iff_of_true ?_ trivial
      rw [callsFor]
      split_ifs <;> rfl
    | cons l' lines =>
      rw [List.dropLast_cons_cons, callsFor, AllReturn]
      split_ifs with hret
      · rw [List.cons.injEq, ih (n + 1)]
        simp [hret]
      · simp [hret]

def nonEmpty (lines : List CStr) : List CStr := lines.filter fun l => l ≠ []

def Terminated (stream : CStr) : Prop := ∀ c ∈ stream.getLast?, c = newlineChr

theorem terminated_iff (stream : CStr) :
    Terminated stream ↔ (linesOf stream).getLast? = some [] := by
  induction stream using lines_induction with
  | last l hl =>
    simp only [Terminated, linesOf_last hl, List.getLast?_singleton, Option.some_inj]
    constructor
    · intro hlast
      by_contra hne
      have hmem := List.getLast_mem hne
      rw [hlast _ (List.getLast?_eq_some_getLast hne)] at hmem
      exact hl hmem
    · intro hnil
      simp [hnil]
  | line l rest hl ih =>
    rw [linesOf_line rest hl, List.getLast?_cons_of_ne_nil (linesOf_ne_nil rest), ← ih]
    cases rest with
    | nil => simp [Terminated]
    | cons c rest => simp [Terminated, List.getLast?_cons_cons]

end Calls

section Loop
variable {sz : Sizes} {stale : ℕ → ℕ → UInt8} {hyphenate : ℕ → CStr → Hyphenation}

theorem cstrOf_stale (stale : ℕ → UInt8) {buf : List (Option UInt8)} {t : List UInt8}
    (h : cstrOf buf = some t) :
    cstrOf (buf.mapIdx fun i b => some (b.getD (stale i))) = some t := by
  induction buf generalizing stale t with
  | nil => cases h
  | cons b buf ih =>
    cases b with
    | none => cases h
    | some b =>
      rw [cstrOf] at h
      rw [List.mapIdx_cons, Option.getD_some, cstrOf]
      split_ifs at h ⊢ with hb
      · exact h
      · obtain ⟨t', ht', rfl⟩ := Option.map_eq_some_iff.mp h
        rw [ih (fun i => stale (i + 1)) ht', Option.map_some]

theorem LineBuf.string_of_text (stale : ℕ → UInt8) {lbuf : LineBuf} {t : List UInt8}
    (h : lbuf.text = some t) : lbuf.string stale = some t := by
  obtain ⟨buf, hbuf, ht⟩ := Option.bind_eq_some_iff.mp h
  rw [LineBuf.string, hbuf, Option.bind_some, cstrOf_stale stale ht]

/-- The second `linebuf_free` undoes what `fgetline` has set up. -/
theorem fgetline_eq (sz : Sizes) (lbuf : LineBuf) :
    ∃ lbuf', fgetline sz lbuf = sglFgetline sz lbuf' newline ∧ lbuf'.file = lbuf.file ∧
      lbuf'.eof = lbuf.eof := by
  refine ⟨{ linebufFree lbuf with sgl := some [[]] }, rfl, ?_⟩
  simp only [linebufFree]
  split_ifs <;> exact ⟨rfl, rfl⟩

theorem chrsOf_bytesOf (s : CStr) : chrsOf (bytesOf s) = s := by
  induction s with
  | nil => rfl
  | cons c s ih =>
    have hc : c.1 ≠ 0 := c.2
    simpa [chrsOf, bytesOf, hc] using ih

theorem streamLoop_calls (stream : CStr) {lbuf : LineBuf} {eof : Bool} {fuel : ℕ} (n : ℕ)
    (hfits : FitsSegment sz (linesOf stream)) (hfile : lbuf.file = ⟨bytesOf stream, false, eof⟩)
    (heof : lbuf.eof = false) (hfuel : (linesOf stream).length ≤ fuel) :
    (streamLoop sz stale hyphenate fuel n lbuf).calls =
      callsFor hyphenate n (nonEmpty (linesOf stream).dropLast) := by
  induction stream using lines_induction generalizing lbuf fuel n with
  | last l hl =>
    obtain ⟨lbuf₁, hget, hfile₁, -⟩ := fgetline_eq sz lbuf
    obtain ⟨lbuf', hcall, -, -, hend, -⟩ := getLine_last sz hl (hfile₁.trans hfile)
    rw [linesOf_last hl] at hfuel ⊢
    cases fuel with
    | zero => exact absurd hfuel (Nat.not_succ_le_zero _)
    | succ fuel => simp [streamLoop, hget, hcall, hend, nonEmpty, callsFor]
  | line l rest hl ih =>
    obtain ⟨lbuf₁, hget, hfile₁, heof₁⟩ := fgetline_eq sz lbuf
    obtain ⟨lbuf', hcall, hfile', hlen, heof', htext⟩ :=
      getLine_line sz hl (hfile₁.trans hfile)
    have hgo : lbuf'.eof = false := heof'.trans (heof₁.trans heof)
    rw [linesOf_line rest hl] at hfits hfuel ⊢
    rw [fitsSegment_line l (linesOf_ne_nil rest)] at hfits
    rw [List.dropLast_cons_of_ne_nil (linesOf_ne_nil rest)]
    cases fuel with
    | zero => exact absurd hfuel (Nat.not_succ_le_zero _)
    | succ fuel =>
      have hrest : ∀ n, (streamLoop sz stale hyphenate fuel n lbuf').calls =
          callsFor hyphenate n (nonEmpty (linesOf rest).dropLast) := fun n =>
        ih n hfits.2 hfile' hgo (Nat.le_of_succ_le_succ hfuel)
      by_cases hnil : l = []
      · subst hnil
        simp [streamLoop, hget, hcall, hgo, hlen, hrest, nonEmpty]
      · have hne : lbuf'.len ≠ 0 := by
          rw [hlen]
          simpa using hnil
        have hfront : nonEmpty (l :: (linesOf rest).dropLast) =
            l :: nonEmpty (linesOf rest).dropLast := by
          simp [nonEmpty, hnil]
        simp only [streamLoop, hget, hcall, hgo, Bool.false_eq_true, if_false, if_neg hne,
          lbuf'.string_of_text (stale n) (htext.mpr hfits.1), chrsOf_bytesOf, hfront, callsFor]
        cases hret : (hyphenate n l).ret with
        | error e => simp [Except.isOk, Except.toBool]
        | ok rv => simp [Except.isOk, Except.toBool, hrest]

end Loop

theorem fitsSegment_of_page {sz : Sizes} {lines : List CStr}
    (h : ∀ l ∈ lines, l.length < sz.pageSize) : FitsSegment sz lines := by
  have hseg := sz.two_le_segSize
  have hpos := sz.room_pos
  have hroom : sz.pageSize = sz.room + 1 := by
    simp only [Sizes.room] at hpos ⊢
    omega
  have hline : 2 * sz.room ≤ sz.segSize * sz.room := Nat.mul_le_mul_right _ hseg
  have hlast : 1 * sz.room ≤ (sz.segSize - 1) * sz.room := Nat.mul_le_mul_right _ (by omega)
  constructor
  · intro l hl
    have hlt := h l (List.dropLast_subset lines hl)
    omega
  · intro l hl
    have hlt := h l (List.mem_of_getLast? hl)
    omega

def CallsEveryLine (sz : Sizes) (isbn : Option RangeTable) (behind stale : ℕ → ℕ → UInt8)
    (fuel : ℕ) (stream : CStr) : Prop :=
  (isbnStream sz isbn behind stale fuel ⟨bytesOf stream, false, false⟩).calls =
    nonEmpty (linesOf stream)

theorem isbnStream_calls {sz : Sizes} (isbn : Option RangeTable) (behind stale : ℕ → ℕ → UInt8)
    {stream : CStr} {fuel : ℕ} (hpage : ∀ l ∈ linesOf stream, l.length < sz.pageSize)
    (hfuel : (linesOf stream).length ≤ fuel) :
    (isbnStream sz isbn behind stale fuel ⟨bytesOf stream, false, false⟩).calls =
      callsFor (hyphenateLine isbn behind) 0 (nonEmpty (linesOf stream).dropLast) :=
  streamLoop_calls stream 0 (fitsSegment_of_page hpage) rfl rfl hfuel

theorem nonEmpty_split (stream : CStr) :
    nonEmpty (linesOf stream) = nonEmpty (linesOf stream).dropLast ++
      nonEmpty [(linesOf stream).getLast (linesOf_ne_nil stream)] := by
  have hsplit := List.dropLast_append_getLast (linesOf_ne_nil stream)
  rw [nonEmpty, nonEmpty, nonEmpty, ← List.filter_append, hsplit]

theorem nonEmpty_dropLast (stream : CStr) :
    nonEmpty (linesOf stream).dropLast = nonEmpty (linesOf stream) ↔ Terminated stream := by
  rw [terminated_iff, nonEmpty_split, List.getLast?_eq_some_getLast (linesOf_ne_nil stream),
    Option.some_inj, List.self_eq_append_right, nonEmpty]
  simp

def sampleStream : CStr := lit "9780312128470\n9780312128470\n".toList

theorem sampleStream_returns :
    (buildTable sampleOps >>= fun isbn => (hyphenateLine (some (isbn.table isbn.fst.view))
      (fun _ _ => 0) 0 (lit "9780312128470".toList)).ret) = .ok 0 := by
  decide +kernel

end IsbnHyphenate
