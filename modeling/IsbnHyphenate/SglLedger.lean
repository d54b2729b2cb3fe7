import IsbnHyphenate.SglBlocks

/-!
# What the line reader gives back

A call frees what the call before it allocated, and nothing twice. Only the page
in the first slot of a full segment is forgotten when the next segment is linked
in, so a run loses one page for every segment behind the first one of a line, and
none exactly when every line is delivered.
-/

namespace IsbnHyphenate.Blocks
open Ledger

variable {sz : Sizes} {endl : UInt8}

def callAll (sz : Sizes) : List UInt8 → LineBuf → Owning LineBuf
  | [], lbuf => pure lbuf
  | endl :: endls, lbuf => do
    let lbuf ← sglFgetline sz lbuf endl
    callAll sz endls lbuf

def readRecords (sz : Sizes) (endls : List UInt8) (f : File) : Owning Unit := do
  let self ← malloc
  let lbuf ← callAll sz endls (linebufInit f)
  let _ ← linebufFree lbuf
  free .badWrite self

def plainCalls (sz : Sizes) : List UInt8 → IsbnHyphenate.LineBuf → Run (List IsbnHyphenate.LineBuf)
  | [], _ => .ok []
  | endl :: endls, lbuf => do
    let lbuf ← IsbnHyphenate.sglFgetline sz lbuf endl
    let rest ← plainCalls sz endls lbuf
    .ok (lbuf :: rest)

theorem Owns.after {own : Multiset ℕ} {lbuf : LineBuf} {lost : ℕ} {x : Owning LineBuf}
    {y : Run IsbnHyphenate.LineBuf} (h : Owns own lbuf lost)
    (hcall : Accounts lbuf.blocks x y fun p q own => p.plain = q ∧ Owns own p (overwritten q)) :
    Accounts own x y fun p q own => p.plain = q ∧ Owns own p (lost + overwritten q) := by
  obtain ⟨before, rfl, rfl⟩ := h
  refine (hcall.frame before).mono fun p q own hpost => ?_
  obtain ⟨o, rfl, hplain, more, rfl, hmore⟩ := hpost
  refine ⟨hplain, more + before, Multiset.add_assoc _ _ _, ?_⟩
  rw [Multiset.card_add, hmore, Nat.add_comm]

theorem callAll_keeps (endls : List UInt8) {own : Multiset ℕ} {lbuf : LineBuf} {lost : ℕ}
    (h : Owns own lbuf lost) :
    Accounts own (callAll sz endls lbuf) (plainCalls sz endls lbuf.plain)
      fun p q own => Owns own p (lost + (q.map overwritten).sum) := by
  induction endls generalizing own lbuf lost with
  | nil => exact .pure h
  | cons endl endls ih =>
    refine (h.after (sglFgetline_keeps lbuf)).bind fun p q own hpost => ?_
    obtain ⟨rfl, howns⟩ := hpost
    rw [← bind_pure (callAll sz endls p)]
    refine (ih howns).bind fun p' qs own hrest => .pure ?_
    rwa [List.map_cons, List.sum_cons, ← Nat.add_assoc]

theorem Owns.close {β γ : Type} {own : Multiset ℕ} {lbuf : LineBuf} {lost self : ℕ}
    (h : Owns own lbuf lost) {f : Unit → Owning γ} {y : Run β}
    {Q : γ → β → Multiset ℕ → Prop}
    (hf : ∀ rest : Multiset ℕ, rest.card = lost → Accounts rest (f ()) y Q) :
    Accounts (self ::ₘ own) (linebufFree lbuf >>= fun _ => free .badWrite self >>= f) y Q := by
  obtain ⟨rest, rfl, hcard⟩ := h
  simp only [linebufFree_eq, bind_assoc, pure_bind, ← Multiset.add_cons]
  exact .freeAll _ (hf rest hcard).free

/-- Whatever the file holds and whatever the delimiters are: the run ends as the
calls do, nothing is freed twice, and what is left over are the overwritten pages. -/
theorem reader_ledger (sz : Sizes) (endls : List UInt8) (f : File) (h : Heap) :
    (∀ e, plainCalls sz endls (IsbnHyphenate.linebufInit f) = .error e →
      readRecords sz endls f h = .error e) ∧
    ∀ lbufs, plainCalls sz endls (IsbnHyphenate.linebufInit f) = .ok lbufs →
      ∃ h' lost, readRecords sz endls f h = .ok ((), h') ∧ h'.live = lost + h.live ∧
        lost.card = (lbufs.map overwritten).sum := by
  have hkeeps : Accounts 0 (readRecords sz endls f)
      (plainCalls sz endls (IsbnHyphenate.linebufInit f))
      fun _ q own => own.card = (q.map overwritten).sum := by
    refine .malloc fun self => ?_
    have hnew : Owns 0 (linebufInit f) 0 := ⟨0, rfl, rfl⟩
    refine ((callAll_keeps endls hnew).frame_cons self).andThen fun lbuf lbufs own hpost => ?_
    obtain ⟨o, rfl, howns⟩ := hpost
    rw [← bind_pure (free Stop.badWrite self)]
    refine howns.close fun rest hcard => .pure ?_
    rw [hcard, Nat.zero_add]
  have hrun := hkeeps h h.live (Multiset.zero_add _).symm
  refine ⟨fun e he => ?_, fun lbufs hlbufs => ?_⟩
  · rw [he] at hrun
    exact hrun.of_error
  · rw [hlbufs] at hrun
    obtain ⟨⟨_, h'⟩, hcall, lost, hcard, hlive⟩ := hrun.of_ok
    exact ⟨h', lost, hcall, hlive, hcard⟩

def Appended (sz : Sizes) (n : ℕ) (sgl : List IsbnHyphenate.Segment) : Prop :=
  ∃ front last, sgl = front ++ [last] ∧ last.length ≤ sz.segSize ∧
    n = front.length * (sz.segSize + 1) + last.length

theorem store_last (sz : Sizes) (front : List IsbnHyphenate.Segment)
    (last : IsbnHyphenate.Segment) (slot : Slot) :
    store sz (front ++ [last]) slot = front ++ store sz [last] slot := by
  induction front with
  | nil => rfl
  | cons seg front ih =>
    rw [List.cons_append, List.cons_append, ← ih]
    cases front <;> rfl

theorem Appended.store {n : ℕ} {sgl : List IsbnHyphenate.Segment} (h : Appended sz n sgl)
    (slot : Slot) : Appended sz (n + 1) (store sz sgl slot) := by
  obtain ⟨front, last, rfl, hlast, rfl⟩ := h
  rw [store_last, IsbnHyphenate.store]
  split_ifs with hroom
  · refine ⟨front, last ++ [slot], rfl, ?_, ?_⟩
    · rw [List.length_append, List.length_singleton]
      omega
    · rw [List.length_append, List.length_singleton, Nat.add_assoc]
  · refine ⟨front ++ [last.set 0 slot], [], ?_, Nat.zero_le _, ?_⟩
    · rw [List.append_assoc]
      rfl
    · rw [List.length_append, List.length_singleton, Nat.succ_mul, List.length_nil]
      omega

theorem Appended.foldl {n : ℕ} {sgl : List IsbnHyphenate.Segment} (h : Appended sz n sgl)
    (slots : List Slot) :
    Appended sz (n + slots.length) (slots.foldl (IsbnHyphenate.store sz) sgl) := by
  induction slots generalizing n sgl with
  | nil => exact h
  | cons slot slots ih =>
    have hrest := ih (h.store slot)
    rwa [Nat.add_right_comm, Nat.add_assoc] at hrest

theorem Appended.segments {n : ℕ} {sgl : List IsbnHyphenate.Segment} (h : Appended sz n sgl) :
    sgl.length - 1 = n / (sz.segSize + 1) := by
  obtain ⟨front, last, rfl, hlast, rfl⟩ := h
  rw [List.length_append, List.length_singleton, Nat.add_sub_cancel, Nat.mul_comm,
    Nat.mul_add_div (Nat.succ_pos _), Nat.div_eq_of_lt (Nat.lt_succ_of_le hlast), Nat.add_zero]

theorem Appended.sglAppend {n k i : ℕ} {sgl sgl' : List IsbnHyphenate.Segment}
    (h : Appended sz n sgl) (happ : IsbnHyphenate.sglAppend sz sgl = .ok (sgl', k, i)) :
    sgl'.length - 1 = (n + 1) / (sz.segSize + 1) := by
  have hne : sgl ≠ [] := by
    obtain ⟨front, last, rfl, -, -⟩ := h
    exact List.append_ne_nil_of_right_ne_nil _ (List.cons_ne_nil _ _)
  obtain ⟨_, _, _, hcall, -, hset⟩ := append_store sz hne
  rw [happ] at hcall
  cases hcall
  have hlength := congrArg List.length (hset ⟨[], 0⟩)
  rw [IsbnHyphenate.setSlot, List.length_modify] at hlength
  rw [hlength, (h.store _).segments]

theorem appended_new (sz : Sizes) : Appended sz 0 [[]] :=
  ⟨[], [], rfl, Nat.zero_le _, by simp⟩

theorem sglFgetline_sgl {lbuf lbuf' : IsbnHyphenate.LineBuf} {pages : IsbnHyphenate.Pages}
    (hcall : IsbnHyphenate.sglFgetline sz lbuf endl = .ok lbuf')
    (hread : IsbnHyphenate.readPages sz endl (lbuf.file.data.length + 2) [[]] 0 lbuf.file =
      .ok pages) : overwritten lbuf' = pages.sgl.length - 1 := by
  have hfile : (IsbnHyphenate.linebufFree lbuf).file = lbuf.file := by
    simp only [IsbnHyphenate.linebufFree]
    split_ifs <;> rfl
  have hnew : IsbnHyphenate.linebufSglNew (IsbnHyphenate.linebufFree lbuf) =
      .ok { IsbnHyphenate.linebufFree lbuf with sgl := some [[]] } := rfl
  simp only [IsbnHyphenate.sglFgetline, hnew, run_ok_bind, hfile, Option.getD_some, hread] at hcall
  obtain ⟨buf, -, hok⟩ := run_bind_ok hcall
  cases hok
  rfl

theorem overwritten_line {t rest : List UInt8} {failing eof : Bool}
    {lbuf lbuf' : IsbnHyphenate.LineBuf} (h : Plain t)
    (hfile : lbuf.file = ⟨t ++ newline :: rest, failing, eof⟩)
    (hcall : IsbnHyphenate.sglFgetline sz lbuf newline = .ok lbuf') :
    overwritten lbuf' = (t.length / sz.room + 1) / (sz.segSize + 1) := by
  have hfuel : t.length < lbuf.file.data.length + 2 := by
    simp only [hfile, List.length_append]
    omega
  obtain ⟨slots, hread, -, hcount⟩ := readPages_line (lbuf.file.data.length + 2)
    (List.cons_ne_nil [] []) h hfuel
  rw [← hfile] at hread
  rw [sglFgetline_sgl hcall hread, ((appended_new sz).foldl slots).segments, hcount, Nat.zero_add]

/-- At the end of the file one page more is appended and left empty. -/
theorem overwritten_last {t : List UInt8} {eof : Bool} {lbuf lbuf' : IsbnHyphenate.LineBuf}
    (h : Plain t) (hfile : lbuf.file = ⟨t, false, eof⟩)
    (hcall : IsbnHyphenate.sglFgetline sz lbuf newline = .ok lbuf') :
    overwritten lbuf' = (sz.pages t.length + 1) / (sz.segSize + 1) := by
  have hfuel : t.length + 1 < lbuf.file.data.length + 2 := by
    rw [hfile]
    exact Nat.lt_succ_self _
  obtain ⟨slots, sgl, k, i, hread, happ, -, -, hcount⟩ :=
    @readPages_last sz (lbuf.file.data.length + 2) t [[]] 0 eof (List.cons_ne_nil [] []) h hfuel
  rw [← hfile] at hread
  rw [sglFgetline_sgl hcall hread, ((appended_new sz).foldl slots).sglAppend happ, hcount,
    Nat.zero_add]

def lostPages (sz : Sizes) : List CStr → ℕ
  | [] => 0
  | [l] => (sz.pages l.length + 1) / (sz.segSize + 1)
  | l :: l' :: lines =>
    (l.length / sz.room + 1) / (sz.segSize + 1) + lostPages sz (l' :: lines)

theorem lostPages_line (l : CStr) {lines : List CStr} (h : lines ≠ []) :
    lostPages sz (l :: lines) =
      (l.length / sz.room + 1) / (sz.segSize + 1) + lostPages sz lines := by
  cases lines with
  | nil => exact absurd rfl h
  | cons l' lines => rfl

theorem lostPages_eq_zero_iff (stream : CStr) :
    lostPages sz (linesOf stream) = 0 ↔ FitsSegment sz (linesOf stream) := by
  induction stream using lines_induction with
  | last l hl =>
    rw [linesOf_last hl, fitsSegment_last, lostPages, ← sz.pages_lt_iff,
      Nat.div_eq_zero_iff_lt (Nat.succ_pos _)]
    exact Nat.add_lt_add_iff_right
  | line l rest hl ih =>
    rw [linesOf_line rest hl, lostPages_line l (linesOf_ne_nil rest),
      fitsSegment_line l (linesOf_ne_nil rest), Nat.add_eq_zero_iff, ih,
      Nat.div_eq_zero_iff_lt (Nat.succ_pos _), Nat.add_lt_add_iff_right,
      Nat.div_lt_iff_lt_mul sz.room_pos]

section Stream
variable {stale : ℕ → ℕ → UInt8} {hyphenate : ℕ → CStr → Hyphenation} {l rest : CStr}

theorem fgetline_line (sz : Sizes) (lbuf : IsbnHyphenate.LineBuf) {failing eof : Bool}
    (hl : newlineChr ∉ l)
    (hfile : lbuf.file = ⟨bytesOf (l ++ newlineChr :: rest), failing, eof⟩) :
    ∃ lbuf', IsbnHyphenate.fgetline sz lbuf = .ok lbuf' ∧
      lbuf'.file = ⟨bytesOf rest, failing, eof⟩ ∧ lbuf'.eof = lbuf.eof ∧
      overwritten lbuf' = (l.length / sz.room + 1) / (sz.segSize + 1) := by
  obtain ⟨lbuf₁, hget, hfile₁, heof₁⟩ := fgetline_eq sz lbuf
  obtain ⟨lbuf', hcall, hfile', -, heof', -⟩ := getLine_line sz hl (hfile₁.trans hfile)
  have hsplit : bytesOf (l ++ newlineChr :: rest) = bytesOf l ++ newline :: bytesOf rest :=
    List.map_append
  rw [hsplit] at hfile
  refine ⟨lbuf', hget.trans hcall, hfile', heof'.trans heof₁, ?_⟩
  rw [overwritten_line (plain_bytesOf hl) (hfile₁.trans hfile) hcall, length_bytesOf]

theorem fgetline_last (sz : Sizes) (lbuf : IsbnHyphenate.LineBuf) {eof : Bool} (hl : newlineChr ∉ l)
    (hfile : lbuf.file = ⟨bytesOf l, false, eof⟩) :
    ∃ lbuf', IsbnHyphenate.fgetline sz lbuf = .ok lbuf' ∧ lbuf'.eof = true ∧
      overwritten lbuf' = (sz.pages l.length + 1) / (sz.segSize + 1) := by
  obtain ⟨lbuf₁, hget, hfile₁, -⟩ := fgetline_eq sz lbuf
  obtain ⟨lbuf', hcall, -, -, heof, -⟩ := getLine_last sz hl (hfile₁.trans hfile)
  refine ⟨lbuf', hget.trans hcall, heof, ?_⟩
  rw [overwritten_last (plain_bytesOf hl) (hfile₁.trans hfile) hcall, length_bytesOf]

theorem fgetline_keeps (lbuf : LineBuf) :
    Accounts lbuf.blocks (fgetline sz lbuf) (IsbnHyphenate.fgetline sz lbuf.plain)
      fun p q own => p.plain = q ∧ Owns own p (overwritten q) :=
  renew_keeps fun self => sglFgetline_keeps (renewed lbuf self)

theorem streamLoop_ret (fuel n : ℕ) (lbuf : IsbnHyphenate.LineBuf) :
    (IsbnHyphenate.streamLoop sz stale hyphenate (fuel + 1) n lbuf).ret =
      IsbnHyphenate.fgetline sz lbuf >>= fun lbuf =>
        if lbuf.eof then .ok 0
        else if lbuf.len = 0 then (IsbnHyphenate.streamLoop sz stale hyphenate fuel n lbuf).ret
        else
          match lbuf.string (stale n) with
          | none => .error .badRead
          | some t => (hyphenate n (chrsOf t)).ret >>= fun _ =>
              (IsbnHyphenate.streamLoop sz stale hyphenate fuel (n + 1) lbuf).ret := by
  rw [IsbnHyphenate.streamLoop]
  cases IsbnHyphenate.fgetline sz lbuf with
  | error e => rfl
  | ok lbuf =>
    simp only [run_ok_bind]
    split_ifs
    · rfl
    · rfl
    · cases lbuf.string (stale n) with
      | none => rfl
      | some t =>
        simp only
        cases (hyphenate n (chrsOf t)).ret <;> rfl

theorem streamLoop_keeps (stream : CStr) {lbuf : LineBuf} {own : Multiset ℕ} {eof : Bool}
    {lost self fuel : ℕ} (n : ℕ) (h : Owns own lbuf lost)
    (hfile : lbuf.file = ⟨bytesOf stream, false, eof⟩) (heof : lbuf.eof = false)
    (hfuel : (linesOf stream).length ≤ fuel) :
    Accounts (self ::ₘ own) (streamLoop sz stale hyphenate self fuel n lbuf)
      (IsbnHyphenate.streamLoop sz stale hyphenate fuel n lbuf.plain).ret
      fun p q own => p = q ∧ own.card = lost + lostPages sz (linesOf stream) := by
  induction stream using lines_induction generalizing lbuf own lost fuel n with
  | last l hl =>
    obtain ⟨q, hcall, hend, hlost⟩ := fgetline_last sz lbuf.plain hl hfile
    rw [linesOf_last hl] at hfuel ⊢
    cases fuel with
    | zero => exact absurd hfuel (Nat.not_succ_le_zero _)
    | succ fuel =>
      rw [streamLoop, streamLoop_ret]
      refine ((h.after (fgetline_keeps lbuf)).frame_cons self).ran.bind fun p q' own hpost => ?_
      obtain ⟨hran, o, rfl, rfl, howns⟩ := hpost
      cases hcall.symm.trans hran
      have hend' : p.eof = true := hend
      rw [if_pos hend, if_pos hend']
      refine howns.close fun rest hcard => .pure ⟨rfl, ?_⟩
      rw [hcard, hlost, lostPages]
  | line l rest hl ih =>
    obtain ⟨q, hcall, hfile', heof', hlost⟩ := fgetline_line sz lbuf.plain hl hfile
    rw [linesOf_line rest hl] at hfuel ⊢
    cases fuel with
    | zero => exact absurd hfuel (Nat.not_succ_le_zero _)
    | succ fuel =>
      rw [streamLoop, streamLoop_ret]
      refine ((h.after (fgetline_keeps lbuf)).frame_cons self).ran.bind fun p q' own hpost => ?_
      obtain ⟨hran, o, rfl, rfl, howns⟩ := hpost
      cases hcall.symm.trans hran
      have hgo : p.eof = false := heof'.trans heof
      have hrest : ∀ n, Accounts (self ::ₘ o) (streamLoop sz stale hyphenate self fuel n p)
          (IsbnHyphenate.streamLoop sz stale hyphenate fuel n p.plain).ret
          fun p q own => p = q ∧ own.card = lost + lostPages sz (l :: linesOf rest) := by
        intro n
        have hkeeps := ih n howns hfile' hgo (Nat.le_of_succ_le_succ hfuel)
        rwa [hlost, Nat.add_assoc, ← lostPages_line l (linesOf_ne_nil rest)] at hkeeps
      have hgo' : p.plain.eof = false := hgo
      have hlen : p.plain.len = p.len := rfl
      simp only [hgo, hgo', hlen, Bool.false_eq_true, if_false]
      split_ifs
      · exact hrest n
      · cases p.plain.string (stale n) with
        | none => exact .quit _
        | some t => exact .plain fun _ _ => hrest (n + 1)

/-- Until `linebuf_free` at the end: nothing is freed twice, and a block is left
over for every page that a later one was hung over. So nothing is left over
exactly when every line is delivered. -/
theorem stream_ledger (sz : Sizes) (stale : ℕ → ℕ → UInt8)
    (hyphenate : ℕ → CStr → Hyphenation) (stream : CStr) {fuel : ℕ}
    (hfuel : (linesOf stream).length ≤ fuel) (h : Heap) :
    (∀ e, (IsbnHyphenate.streamLoop sz stale hyphenate fuel 0
        (IsbnHyphenate.linebufInit ⟨bytesOf stream, false, false⟩)).ret = .error e →
      isbnStream sz stale hyphenate fuel ⟨bytesOf stream, false, false⟩ h = .error e) ∧
    (∀ rv, (IsbnHyphenate.streamLoop sz stale hyphenate fuel 0
        (IsbnHyphenate.linebufInit ⟨bytesOf stream, false, false⟩)).ret = .ok rv →
      ∃ h' lost,
        isbnStream sz stale hyphenate fuel ⟨bytesOf stream, false, false⟩ h = .ok (rv, h') ∧
        h'.live = lost + h.live ∧ lost.card = lostPages sz (linesOf stream)) ∧
    (lostPages sz (linesOf stream) = 0 ↔ Delivers sz stream) := by
  have hkeeps : Accounts 0 (isbnStream sz stale hyphenate fuel ⟨bytesOf stream, false, false⟩)
      (IsbnHyphenate.streamLoop sz stale hyphenate fuel 0
        (IsbnHyphenate.linebufInit ⟨bytesOf stream, false, false⟩)).ret
      fun p q own => p = q ∧ own.card = lostPages sz (linesOf stream) := by
    refine .malloc fun self => ?_
    have hnew : Owns 0 (linebufInit ⟨bytesOf stream, false, false⟩) 0 := ⟨0, rfl, rfl⟩
    refine (streamLoop_keeps stream 0 hnew rfl rfl hfuel).mono fun p q own hpost => ?_
    rwa [Nat.zero_add] at hpost
  have hrun := hkeeps h h.live (Multiset.zero_add _).symm
  refine ⟨fun e he => ?_, fun rv hrv => ?_, ?_⟩
  · rw [he] at hrun
    exact hrun.of_error
  · rw [hrv] at hrun
    obtain ⟨⟨rv', h'⟩, hcall, lost, ⟨rfl, hcard⟩, hlive⟩ := hrun.of_ok
    exact ⟨h', lost, hcall, hlive, hcard⟩
  · exact (lostPages_eq_zero_iff stream).trans (getLines_iff stream rfl).symm

def stressStream : CStr := List.replicate 60 ⟨120, by decide⟩ ++ [newlineChr]

theorem stream_ledger_stress : ∃ h' lost,
    isbnStream stressSizes (fun _ _ => 0) (hyphenateLine none fun _ _ => 0) 2
      ⟨bytesOf stressStream, false, false⟩ Heap.empty = .ok (0, h') ∧
      h'.live = lost + Heap.empty.live ∧ lost.card = 1 := by
  have hlines : (linesOf stressStream).length ≤ 2 := by decide +kernel
  have hret : (IsbnHyphenate.streamLoop stressSizes (fun _ _ => 0)
      (hyphenateLine none fun _ _ => 0) 2 0
      (IsbnHyphenate.linebufInit ⟨bytesOf stressStream, false, false⟩)).ret = .ok 0 := by
    decide +kernel
  have hlost : lostPages stressSizes (linesOf stressStream) = 1 := by decide +kernel
  obtain ⟨h', lost, hcall, hlive, hcard⟩ :=
    (stream_ledger stressSizes (fun _ _ => 0) (hyphenateLine none fun _ _ => 0) stressStream hlines
      Heap.empty).2.1 0 hret
  exact ⟨h', lost, hcall, hlive, hcard.trans hlost⟩

end Stream

end IsbnHyphenate.Blocks
