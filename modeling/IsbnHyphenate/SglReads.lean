import IsbnHyphenate.SglLines
import Mathlib.Data.List.TakeWhile

/-!
# Streams of any bytes

A call of `sgl_fgetline` on a stream that may hold NUL bytes, for any
end-of-line character. Of every page the reader keeps the bytes in front of the
first NUL, and only a newline at their end makes it stop before the end of the
file.
-/

namespace IsbnHyphenate

variable {sz : Sizes} {endl : UInt8}

def Ended (endl : UInt8) (got : List UInt8) : Prop := got.getLast? = some endl ∧ endl ≠ 0

instance (endl : UInt8) (got : List UInt8) : Decidable (Ended endl got) :=
  inferInstanceAs (Decidable (got.getLast? = some endl ∧ endl ≠ 0))

theorem ended_cons {b : UInt8} (h : ¬ (b = endl ∧ endl ≠ 0)) (got : List UInt8) :
    Ended endl (b :: got) ↔ Ended endl got := by
  cases got with
  | nil => simpa [Ended] using h
  | cons c got => simp [Ended, List.getLast?_cons_cons]

/-- What `fgets_endl` returns at the end of the file. -/
def closed (buf : List UInt8) : Option (List UInt8) :=
  if buf = [] then none else if buf.getLast? ≠ some 0 then some (buf ++ [0]) else some buf

def File.behind (f : File) (endl : UInt8) (n : ℕ) : File :=
  { f with data := f.data.drop (takePage endl n f.data).length }

theorem fgetsEndlFrom_eq (n : ℕ) (buf : List UInt8) (f : File) :
    fgetsEndlFrom endl n buf f =
      if (takePage endl n f.data).length < n ∧ ¬ Ended endl (takePage endl n f.data) then
        (closed (buf ++ takePage endl n f.data), atEnd (f.behind endl n))
      else (some (buf ++ takePage endl n f.data ++ [0]), f.behind endl n) := by
  induction n generalizing buf f with
  | zero => simp [fgetsEndlFrom, File.behind, takePage]
  | succ n ih =>
    cases f with
    | mk data failing eof =>
      cases data with
      | nil =>
        have hended : ¬ Ended endl [] := by simp [Ended]
        have hpos := Nat.succ_pos n
        simp only [fgetsEndlFrom, takePage, closed, List.length_nil, List.append_nil, hended, hpos,
          not_false_eq_true, and_self, if_true]
        split_ifs <;> rfl
      | cons b data =>
        by_cases hb : b = endl ∧ endl ≠ 0
        · have hended : Ended endl [b] := ⟨congrArg some hb.1, hb.2⟩
          have hone : takePage endl (n + 1) (b :: data) = [b] := if_pos hb
          have hstep : fgetsEndlFrom endl (n + 1) buf ⟨b :: data, failing, eof⟩ =
              (some (buf ++ [b] ++ [0]), ⟨data, failing, eof⟩) := if_pos hb
          simp only [hstep, File.behind, hone, hended, not_true_eq_false, and_false, if_false]
          rfl
        · simp only [fgetsEndlFrom, if_neg hb, ih, File.behind, takePage, ended_cons hb,
            List.length_cons, Nat.add_lt_add_iff_right, List.append_assoc, List.singleton_append,
            List.drop_succ_cons]

theorem fgets_eq (f : File) :
    fgets sz.pageSize f =
      if (takePage newline sz.room f.data).length < sz.room ∧
          (takePage newline sz.room f.data).getLast? ≠ some newline then
        if f.failing ∨ takePage newline sz.room f.data = [] then
          (none, atEnd (f.behind newline sz.room))
        else (some (takePage newline sz.room f.data ++ [0]), atEnd (f.behind newline sz.room))
      else (some (takePage newline sz.room f.data ++ [0]), f.behind newline sz.room) := by
  rw [fgets, takeLine_eq]
  rfl

def front (s : List UInt8) : List UInt8 := s.takeWhile fun b => b ≠ 0

theorem front_zero_free (s : List UInt8) : ∀ b ∈ front s, b ≠ 0 := by
  intro b hb
  have hall := List.all_takeWhile (p := fun b : UInt8 => decide (b ≠ 0)) (l := s)
  exact of_decide_eq_true (List.all_eq_true.mp hall b hb)

theorem front_append_zero {t : List UInt8} (h : ∀ b ∈ t, b ≠ 0) (more : List UInt8) :
    front (t ++ 0 :: more) = t := by
  have hall : ∀ b ∈ t, decide (b ≠ 0) = true := fun b hb => decide_eq_true (h b hb)
  rw [front, List.takeWhile_append_of_pos hall]
  simp

theorem front_of_mem {s : List UInt8} (h : 0 ∈ s) : ∃ more, s = front s ++ 0 :: more := by
  obtain ⟨t, more, rfl, ht⟩ := List.eq_append_cons_of_mem h
  refine ⟨more, ?_⟩
  rw [front_append_zero fun b hb heq => ht (heq ▸ hb)]

theorem front_closed (s : List UInt8) : front (s ++ [0]) = front s := by
  induction s with
  | nil => rfl
  | cons b s ih =>
    simp only [front] at ih ⊢
    simp only [List.cons_append, List.takeWhile_cons, ih]

def nz (s : List UInt8) : ℕ := s.countP fun b => b ≠ 0

theorem length_front_le (s : List UInt8) : (front s).length ≤ nz s := by
  have hall : (front s).countP (fun b => b ≠ 0) = (front s).length :=
    List.countP_eq_length.mpr fun b hb => decide_eq_true (front_zero_free s b hb)
  rw [← hall]
  exact (List.takeWhile_sublist _).countP_le

def Holds (got page : List UInt8) : Prop := page = got ++ [0] ∨ page = got ∧ 0 ∈ got

theorem Holds.nul_mem {got page : List UInt8} (h : Holds got page) : 0 ∈ page := by
  rcases h with rfl | ⟨rfl, hmem⟩
  · simp
  · exact hmem

theorem Holds.front_eq {got page : List UInt8} (h : Holds got page) : front page = front got := by
  rcases h with rfl | ⟨rfl, -⟩
  · exact front_closed got
  · rfl

theorem closed_some {buf page : List UInt8} (h : closed buf = some page) :
    buf ≠ [] ∧ Holds buf page := by
  rw [closed] at h
  split_ifs at h with hnil hlast
  · cases h
    exact ⟨hnil, .inl rfl⟩
  · cases h
    exact ⟨hnil, .inr ⟨rfl, List.mem_of_getLast? (not_not.mp hlast)⟩⟩

def Passed (f f' : File) (endl : UInt8) (n : ℕ) : Prop :=
  f' = f.behind endl n ∨ f' = atEnd (f.behind endl n)

theorem fgets_some {f f' : File} {page : List UInt8}
    (h : fgets sz.pageSize f = (some page, f')) :
    takePage newline sz.room f.data ≠ [] ∧ Holds (takePage newline sz.room f.data) page ∧
      Passed f f' newline sz.room := by
  have hpos := sz.room_pos
  rw [fgets_eq] at h
  split_ifs at h with hshort hfail
  · cases h
  · cases h
    exact ⟨fun hnil => hfail (.inr hnil), .inl rfl, .inr rfl⟩
  · cases h
    refine ⟨fun hnil => hshort ?_, .inl rfl, .inl rfl⟩
    rw [hnil]
    exact ⟨hpos, by simp⟩

theorem fgetsEndl_some {f f' : File} {page : List UInt8}
    (h : fgetsEndl sz.pageSize f endl = (some page, f')) :
    takePage endl sz.room f.data ≠ [] ∧ Holds (takePage endl sz.room f.data) page ∧
      Passed f f' endl sz.room := by
  have hpos := sz.room_pos
  rw [fgetsEndl, ← Sizes.room, fgetsEndlFrom_eq, List.nil_append] at h
  split_ifs at h with hshort
  · obtain ⟨hpage, hf⟩ := Prod.ext_iff.mp h
    obtain ⟨hne, hholds⟩ := closed_some hpage
    exact ⟨hne, hholds, .inr hf.symm⟩
  · cases h
    refine ⟨fun hnil => hshort ?_, .inl rfl, .inl rfl⟩
    rw [hnil]
    exact ⟨hpos, by simp [Ended]⟩

theorem readPage_some {f f' : File} {page : List UInt8}
    (h : readPage sz endl f = (some page, f')) :
    takePage endl sz.room f.data ≠ [] ∧ Holds (takePage endl sz.room f.data) page ∧
      Passed f f' endl sz.room := by
  rw [readPage] at h
  split_ifs at h with hnl
  · subst hnl
    exact fgets_some h
  · exact fgetsEndl_some h

theorem atEnd_data (f : File) : (atEnd f).data = f.data := by
  rw [atEnd]
  split_ifs <;> rfl

theorem atEnd_failing (f : File) : (atEnd f).failing = f.failing := by
  rw [atEnd]
  split_ifs <;> rfl

theorem Passed.data_eq {f f' : File} {n : ℕ} (h : Passed f f' endl n) :
    takePage endl n f.data ++ f'.data = f.data := by
  have hdata : f'.data = f.data.drop (takePage endl n f.data).length := by
    rcases h with rfl | rfl
    · rfl
    · exact atEnd_data _
  rw [hdata, takePage_append_drop]

theorem Passed.failing_eq {f f' : File} {n : ℕ} (h : Passed f f' endl n) :
    f'.failing = f.failing := by
  rcases h with rfl | rfl
  · rfl
  · exact atEnd_failing _

theorem Passed.eof_eq {f f' : File} {n : ℕ} (h : Passed f f' endl n) (hfail : f.failing = true) :
    f'.eof = f.eof := by
  rcases h with rfl | rfl
  · rfl
  · rw [atEnd, if_pos (show (f.behind endl n).failing = true from hfail)]
    rfl

theorem readPage_none {f f' : File} (h : readPage sz endl f = (none, f')) :
    f' = atEnd (f.behind endl sz.room) ∧ (f.failing = false → f.data = []) := by
  have hpos := sz.room_pos
  have hnil : takePage endl sz.room f.data = [] → f.data = [] :=
    not_imp_not.mp (takePage_ne_nil hpos)
  rw [readPage] at h
  split_ifs at h with hnl
  · subst hnl
    rw [fgets_eq] at h
    split_ifs at h with hshort hfail
    · cases h
      refine ⟨rfl, fun hgood => hnil ?_⟩
      rcases hfail with hfail | hgot
      · rw [hgood] at hfail
        cases hfail
      · exact hgot
    · cases h
    · cases h
  · rw [fgetsEndl, ← Sizes.room, fgetsEndlFrom_eq, List.nil_append] at h
    split_ifs at h with hshort
    · obtain ⟨hpage, hf⟩ := Prod.ext_iff.mp h
      refine ⟨hf.symm, fun _ => hnil ?_⟩
      simp only [closed] at hpage
      split_ifs at hpage with hgot
      exact hgot
    · cases h

/-- The slots that a call fills, the file behind it, and what it stores in
`lbuf->eof`. -/
inductive Reads (sz : Sizes) (endl : UInt8) : File → List Slot → File → Option Bool → Prop
  | stop {f f' : File} (h : readPage sz endl f = (none, f')) : Reads sz endl f [] f' (some f'.eof)
  | line {f f' : File} {t more : List UInt8}
      (h : readPage sz endl f = (some (t ++ newline :: 0 :: more), f')) (ht : ∀ b ∈ t, b ≠ 0) :
      Reads sz endl f [⟨t ++ 0 :: 0 :: more, t.length⟩] f' none
  | page {f f' f'' : File} {t more : List UInt8} {slots : List Slot} {e : Option Bool}
      (h : readPage sz endl f = (some (t ++ 0 :: more), f')) (ht : ∀ b ∈ t, b ≠ 0)
      (hend : t.getLast? ≠ some newline) (hrest : Reads sz endl f' slots f'' e) :
      Reads sz endl f (⟨t ++ 0 :: more, t.length⟩ :: slots) f'' e

/-- At the end of the file one more page is hung into the list. -/
def Keeps (sz : Sizes) (sgl : List Segment) (e : Option Bool) (sgl' : List Segment) : Prop :=
  if e = none then sgl' = sgl else ∃ k i, sglAppend sz sgl = .ok (sgl', k, i)

theorem Keeps.strlen_eq {sgl sgl' : List Segment} {e : Option Bool} (h : Keeps sz sgl e sgl')
    (hsgl : sgl ≠ []) : sglStrlen sgl' = sglStrlen sgl := by
  rw [Keeps] at h
  split_ifs at h
  · rw [h]
  · obtain ⟨k, i, happ⟩ := h
    obtain ⟨sgl₁, k₁, i₁, happ₁, hlen, -⟩ := append_store sz hsgl
    rw [happ] at happ₁
    cases happ₁
    exact hlen

theorem foldl_store_ne_nil (slots : List Slot) {sgl : List Segment} (h : sgl ≠ []) :
    slots.foldl (store sz) sgl ≠ [] := by
  induction slots generalizing sgl with
  | nil => exact h
  | cons s slots ih => exact ih (store_ne_nil sz h s)

theorem Passed.length_lt {f f' : File} (h : Passed f f' endl sz.room)
    (hne : takePage endl sz.room f.data ≠ []) : f'.data.length < f.data.length := by
  have hlen := congrArg List.length h.data_eq
  have hpos := List.length_pos_of_ne_nil hne
  rw [List.length_append] at hlen
  omega

theorem readPages_reads (sz : Sizes) (endl : UInt8) (fuel llen : ℕ) {f : File}
    {sgl : List Segment} (hsgl : sgl ≠ []) (hfuel : f.data.length < fuel) :
    ∃ slots sgl' f' e, Reads sz endl f slots f' e ∧ Keeps sz (slots.foldl (store sz) sgl) e sgl' ∧
      readPages sz endl fuel sgl llen f =
        .ok ⟨sgl', llen + (slots.map Slot.slen).sum, f', e⟩ := by
  induction fuel generalizing f sgl llen with
  | zero => exact absurd hfuel (Nat.not_lt_zero _)
  | succ fuel ih =>
    cases hread : readPage sz endl f with
    | mk rbuf f' =>
      cases rbuf with
      | none =>
        obtain ⟨sgl', k, i, happ, -, hrun⟩ := readPages_stop fuel llen hsgl hread
        refine ⟨[], sgl', f', _, .stop hread, ?_, hrun⟩
        exact ⟨k, i, happ⟩
      | some page =>
        obtain ⟨hne, hholds, hpassed⟩ := readPage_some hread
        obtain ⟨more, hpage⟩ := front_of_mem hholds.nul_mem
        have hfree := front_zero_free page
        generalize front page = t at hpage hfree
        subst hpage
        by_cases hend : t.getLast? = some newline
        · obtain ⟨t', rfl⟩ := List.getLast?_eq_some_iff.mp hend
          have hfree' : ∀ b ∈ t', b ≠ 0 := fun b hb => hfree b (List.mem_append_left _ hb)
          rw [List.append_assoc, List.singleton_append] at hread
          refine ⟨[_], _, f', none, .line hread hfree', rfl, ?_⟩
          exact readPages_done hsgl hread hfree'
        · have hlt := hpassed.length_lt hne
          have hkeep := store_ne_nil sz hsgl ⟨t ++ 0 :: more, t.length⟩
          have hmore : f'.data.length < fuel := by omega
          obtain ⟨slots, sgl', f'', e, hreads, hkeeps, hrun⟩ := ih (llen + t.length) hkeep hmore
          refine ⟨_ :: slots, sgl', f'', e, .page hread hfree hend hreads, hkeeps, ?_⟩
          rw [readPages_more hsgl hread hfree hend, hrun, List.map_cons, List.sum_cons,
            Nat.add_assoc]

theorem Keeps.strlen_le {slots : List Slot} {sgl : List Segment} {e : Option Bool}
    (h : Keeps sz (slots.foldl (store sz) [[]]) e sgl) :
    sglStrlen sgl ≤ (slots.map Slot.slen).sum := by
  have hle := foldl_strlen_le sz slots [[]]
  rw [h.strlen_eq (foldl_store_ne_nil slots (List.cons_ne_nil _ _))]
  simpa [sglStrlen] using hle

structure Delivered (sz : Sizes) (endl : UInt8) (lbuf lbuf' : LineBuf) (slots : List Slot)
    (sgl : List Segment) (e : Option Bool) : Prop where
  reads : Reads sz endl lbuf.file slots lbuf'.file e
  keeps : Keeps sz (slots.foldl (store sz) [[]]) e sgl
  len_eq : lbuf'.len = (slots.map Slot.slen).sum
  eof_eq : lbuf'.eof = e.getD lbuf.eof
  buf_eq : lbuf'.buf = some (sgl.flatten.flatMap Slot.bytes ++ [some 0])

theorem sglFgetline_reads (sz : Sizes) (endl : UInt8) (lbuf : LineBuf) :
    ∃ lbuf' slots sgl e, sglFgetline sz lbuf endl = .ok lbuf' ∧
      Delivered sz endl lbuf lbuf' slots sgl e := by
  have hfuel : lbuf.file.data.length < lbuf.file.data.length + 2 := by omega
  obtain ⟨slots, sgl, f', e, hreads, hkeeps, hrun⟩ :=
    readPages_reads sz endl _ 0 (List.cons_ne_nil [] []) hfuel
  have hkept : sglStrlen sgl ≤ 0 + (slots.map Slot.slen).sum := by
    rw [Nat.zero_add]
    exact hkeeps.strlen_le
  obtain ⟨lbuf', hcall, hf, hl, he, hb⟩ := sglFgetline_buf hrun hkept
  refine ⟨lbuf', slots, sgl, e, hcall, ?_, hkeeps, by rw [hl, Nat.zero_add], he, hb⟩
  rwa [hf]

section Taken
variable {f f' : File} {slots : List Slot} {e : Option Bool} {t more : List UInt8}

theorem Reads.text_zero_free (h : Reads sz endl f slots f' e) :
    ∀ s ∈ slots, s.slen ≤ s.sbuf.length ∧ ∀ b ∈ s.text, b ≠ 0 := by
  induction h with
  | stop h => simp
  | line h ht => simpa [Slot.text] using ht
  | page h ht hend hrest ih =>
    refine List.forall_mem_cons.mpr ⟨?_, ih⟩
    simpa [Slot.text] using ht

theorem nz_append (s t : List UInt8) : nz (s ++ t) = nz s + nz t := List.countP_append

theorem readPage_nz (h : readPage sz endl f = (some (t ++ 0 :: more), f'))
    (ht : ∀ b ∈ t, b ≠ 0) : t.length + nz f'.data ≤ nz f.data := by
  obtain ⟨-, hholds, hpassed⟩ := readPage_some h
  have hfront := hholds.front_eq
  rw [front_append_zero ht] at hfront
  rw [← hpassed.data_eq, nz_append, hfront]
  exact Nat.add_le_add_right (length_front_le _) _

theorem readPage_nz_line (h : readPage sz endl f = (some (t ++ newline :: 0 :: more), f'))
    (ht : ∀ b ∈ t, b ≠ 0) : t.length + nz f'.data < nz f.data := by
  rw [← List.singleton_append, ← List.append_assoc] at h
  have hle := readPage_nz h (zero_free_line ht)
  rw [List.length_append, List.length_singleton] at hle
  omega

theorem Reads.failing_eq (h : Reads sz endl f slots f' e) : f'.failing = f.failing := by
  induction h with
  | stop h =>
    rw [(readPage_none h).1]
    exact atEnd_failing _
  | line h ht => exact (readPage_some h).2.2.failing_eq
  | page h ht hend hrest ih => rw [ih, (readPage_some h).2.2.failing_eq]

theorem Reads.nz_le (h : Reads sz endl f slots f' e) (hgood : f.failing = false) :
    (slots.map Slot.slen).sum + nz f'.data ≤ nz f.data ∧
      (e = none → (slots.map Slot.slen).sum + nz f'.data < nz f.data) := by
  induction h with
  | stop h =>
    obtain ⟨hf, hnil⟩ := readPage_none h
    rw [hf, atEnd_data]
    simp [File.behind, hnil hgood, nz]
  | line h ht =>
    have hlt := readPage_nz_line h ht
    simpa using ⟨hlt.le, hlt⟩
  | page h ht hend hrest ih =>
    have hle := readPage_nz h ht
    have hrest := ih ((readPage_some h).2.2.failing_eq.trans hgood)
    simp only [List.map_cons, List.sum_cons]
    refine ⟨by omega, fun he => ?_⟩
    have hlt := hrest.2 he
    omega

theorem Reads.at_end (h : Reads sz endl f slots f' e) (hgood : f.failing = false) (he : e ≠ none) :
    e = some true ∧ f'.data = [] := by
  induction h with
  | stop h =>
    obtain ⟨hf, hnil⟩ := readPage_none h
    rw [hf, atEnd_data, atEnd, if_neg (by simpa [File.behind] using hgood)]
    simp [File.behind, hnil hgood]
  | line h ht => exact absurd rfl he
  | page h ht hend hrest ih => exact ih ((readPage_some h).2.2.failing_eq.trans hgood) he

theorem Reads.at_error (h : Reads sz endl f slots f' e) (hfail : f.failing = true) :
    f'.eof = f.eof ∧ ∀ b ∈ e, b = f.eof := by
  induction h with
  | stop h =>
    rw [(readPage_none h).1, atEnd, if_pos (by simpa [File.behind] using hfail)]
    simp [File.behind]
  | line h ht => exact ⟨(readPage_some h).2.2.eof_eq hfail, by simp⟩
  | page h ht hend hrest ih =>
    have hstep := (readPage_some h).2.2
    rw [← hstep.eof_eq hfail]
    exact ih (hstep.failing_eq.trans hfail)

theorem Reads.of_nil (h : Reads sz endl f slots f' e) (hnil : f.data = []) :
    slots = [] ∧ f'.data = [] := by
  have hpage : takePage endl sz.room f.data = [] := by rw [hnil, takePage_nil]
  cases h with
  | stop h =>
    rw [(readPage_none h).1, atEnd_data]
    simp [File.behind, hnil]
  | line h ht => exact absurd hpage (readPage_some h).1
  | page h ht hend hrest => exact absurd hpage (readPage_some h).1

end Taken

end IsbnHyphenate
