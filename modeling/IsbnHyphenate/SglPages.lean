import IsbnHyphenate.SglGetline
import Mathlib.Algebra.BigOperators.Group.List.Basic
import Mathlib.Algebra.Order.Group.Nat
import Mathlib.Algebra.Ring.Nat

/-!
# One line as a list of pages

The loop of `sgl_fgetline` cuts a line into pages of `SGL_PAGESIZE - 1` bytes
and stores them one after the other. What it reads does not depend on the list
it stores to, and whether the list keeps everything depends only on the number
of pages: the page that does not fit into the first segment takes the place of
an older one.
-/

namespace IsbnHyphenate

def Sizes.room (sz : Sizes) : ℕ := sz.pageSize - 1

theorem Sizes.room_pos (sz : Sizes) : 0 < sz.room := by
  have := sz.two_le_pageSize
  simp only [Sizes.room]
  omega

def Sizes.pages (sz : Sizes) (n : ℕ) : ℕ := (n + sz.room - 1) / sz.room

theorem Sizes.pages_zero (sz : Sizes) : sz.pages 0 = 0 := by
  have hpos := sz.room_pos
  exact Nat.div_eq_of_lt (by omega)

theorem Sizes.pages_pos (sz : Sizes) {n : ℕ} (h : 0 < n) :
    sz.pages n = sz.pages (n - sz.room) + 1 := by
  have hpos := sz.room_pos
  have hshift : n + sz.room - 1 = n - 1 + sz.room := by omega
  rw [Sizes.pages, hshift, Nat.add_div_right _ hpos, Sizes.pages]
  by_cases hle : sz.room ≤ n
  · have heq : n - sz.room + sz.room - 1 = n - 1 := by omega
    rw [heq]
  · rw [Nat.div_eq_of_lt (by omega), Nat.div_eq_of_lt (by omega)]

theorem Sizes.pages_lt_iff (sz : Sizes) (n : ℕ) :
    sz.pages n < sz.segSize ↔ n ≤ (sz.segSize - 1) * sz.room := by
  have hseg := sz.two_le_segSize
  have hpos := sz.room_pos
  have hmul : sz.segSize * sz.room = (sz.segSize - 1) * sz.room + sz.room := by
    rw [← Nat.succ_mul]
    congr 1
    omega
  rw [Sizes.pages, Nat.div_lt_iff_lt_mul hpos, hmul]
  omega

def Plain (t : List UInt8) : Prop := ∀ b ∈ t, b ≠ 0 ∧ b ≠ newline

theorem Plain.take {t : List UInt8} (h : Plain t) (n : ℕ) : Plain (t.take n) :=
  fun b hb => h b (List.mem_of_mem_take hb)

theorem Plain.drop {t : List UInt8} (h : Plain t) (n : ℕ) : Plain (t.drop n) :=
  fun b hb => h b (List.mem_of_mem_drop hb)

theorem Plain.zero_free {t : List UInt8} (h : Plain t) : ∀ b ∈ t, b ≠ 0 := fun b hb => (h b hb).1

theorem Plain.not_mem {t : List UInt8} (h : Plain t) : newline ∉ t := fun hmem => (h _ hmem).2 rfl

theorem Plain.getLast_ne {t : List UInt8} (h : Plain t) : t.getLast? ≠ some newline :=
  fun hlast => h.not_mem (List.mem_of_getLast? hlast)

section TakePage
variable {endl : UInt8}

def takePage (endl : UInt8) : ℕ → List UInt8 → List UInt8
  | 0, _ => []
  | _, [] => []
  | n + 1, b :: s => if b = endl ∧ endl ≠ 0 then [b] else b :: takePage endl n s

theorem takePage_nil (n : ℕ) : takePage endl n [] = [] := by
  cases n <;> rfl

theorem takeLine_eq (n : ℕ) (s : List UInt8) : takeLine n s = takePage newline n s := by
  induction s generalizing n with
  | nil => cases n <;> rfl
  | cons b s ih =>
    have hne : newline ≠ 0 := by decide
    cases n with
    | zero => rfl
    | succ n => simp only [takeLine, takePage, hne, ne_eq, not_false_eq_true, and_true, ih]

theorem takePage_append_drop (n : ℕ) (s : List UInt8) :
    takePage endl n s ++ s.drop (takePage endl n s).length = s := by
  induction s generalizing n with
  | nil => cases n <;> rfl
  | cons b s ih =>
    cases n with
    | zero => rfl
    | succ n =>
      rw [takePage]
      split_ifs
      · rfl
      · exact congrArg (b :: ·) (ih n)

theorem takePage_ne_nil {n : ℕ} (hn : 0 < n) {s : List UInt8} (hs : s ≠ []) :
    takePage endl n s ≠ [] := by
  cases s with
  | nil => exact absurd rfl hs
  | cons b s =>
    cases n with
    | zero => exact absurd hn (Nat.lt_irrefl 0)
    | succ n =>
      rw [takePage]
      split_ifs <;> exact List.cons_ne_nil _ _

theorem takePage_take {n : ℕ} {s : List UInt8} (h : endl = 0 ∨ endl ∉ s.take n) :
    takePage endl n s = s.take n := by
  induction s generalizing n with
  | nil => rw [takePage_nil, List.take_nil]
  | cons b s ih =>
    cases n with
    | zero => rfl
    | succ n =>
      rw [List.take_succ_cons] at h
      have hb : ¬ (b = endl ∧ endl ≠ 0) := by
        rintro ⟨rfl, hne⟩
        rcases h with h | h
        · exact hne h
        · exact h List.mem_cons_self
      have hs : endl = 0 ∨ endl ∉ s.take n :=
        h.imp_right fun hmem hin => hmem (List.mem_cons_of_mem b hin)
      rw [takePage, if_neg hb, List.take_succ_cons, ih hs]

theorem takePage_full {n : ℕ} {r : List UInt8} (h : endl ∉ r) (more : List UInt8)
    (hn : n ≤ r.length) : takePage endl n (r ++ more) = r.take n := by
  have htake : (r ++ more).take n = r.take n := List.take_append_of_le_length hn
  have hfree : endl ∉ (r ++ more).take n := by
    rw [htake]
    exact fun hmem => h (List.mem_of_mem_take hmem)
  rw [takePage_take (.inr hfree), htake]

theorem takePage_delimited {n : ℕ} {r : List UInt8} (h : endl ∉ r) (hd : endl ≠ 0)
    (more : List UInt8) (hn : r.length < n) :
    takePage endl n (r ++ endl :: more) = r ++ [endl] := by
  induction r generalizing n with
  | nil =>
    cases n with
    | zero => exact absurd hn (Nat.not_lt_zero _)
    | succ n => exact if_pos ⟨rfl, hd⟩
  | cons b r ih =>
    cases n with
    | zero => exact absurd hn (Nat.not_lt_zero _)
    | succ n =>
      have hb : ¬ (b = endl ∧ endl ≠ 0) := fun hb => h (hb.1 ▸ List.mem_cons_self)
      have hrest := ih (fun hin => h (List.mem_cons_of_mem b hin)) (Nat.lt_of_succ_lt_succ hn)
      rw [List.cons_append, takePage, if_neg hb, hrest, List.cons_append]

end TakePage

theorem takeLine_full {t : List UInt8} (h : Plain t) (rest : List UInt8) {n : ℕ}
    (hn : n ≤ t.length) : takeLine n (t ++ rest) = t.take n := by
  rw [takeLine_eq, takePage_full h.not_mem rest hn]

theorem takeLine_line {t : List UInt8} (h : Plain t) (rest : List UInt8) {n : ℕ}
    (hn : t.length < n) : takeLine n (t ++ newline :: rest) = t ++ [newline] := by
  rw [takeLine_eq, takePage_delimited h.not_mem (by decide) rest hn]

theorem takeLine_end {t : List UInt8} (h : Plain t) {n : ℕ} (hn : t.length < n) :
    takeLine n t = t := by
  rw [takeLine_eq, takePage_take (.inr fun hmem => h.not_mem (List.mem_of_mem_take hmem)),
    List.take_of_length_le hn.le]

section Fgets
variable {sz : Sizes} {t rest : List UInt8} {failing eof : Bool}

theorem fgets_full (h : Plain t) (hn : sz.room ≤ t.length) :
    fgets sz.pageSize ⟨t ++ rest, failing, eof⟩ =
      (some (t.take sz.room ++ [0]), ⟨t.drop sz.room ++ rest, failing, eof⟩) := by
  have hgot : takeLine (sz.pageSize - 1) (t ++ rest) = t.take sz.room := takeLine_full h rest hn
  have hlen : (t.take sz.room).length = sz.pageSize - 1 := List.length_take_of_le hn
  simp only [fgets, hgot, hlen, lt_irrefl, false_and, if_false]
  rw [← Sizes.room, List.drop_append_of_le_length hn]

theorem fgets_line (h : Plain t) (hn : t.length < sz.room) :
    fgets sz.pageSize ⟨t ++ newline :: rest, failing, eof⟩ =
      (some (t ++ [newline, 0]), ⟨rest, failing, eof⟩) := by
  have hgot : takeLine (sz.pageSize - 1) (t ++ newline :: rest) = t ++ [newline] :=
    takeLine_line h rest hn
  have hdrop : (t ++ newline :: rest).drop (t ++ [newline]).length = rest := by
    have hsplit : t ++ newline :: rest = t ++ [newline] ++ rest := by simp
    rw [hsplit, List.drop_left]
  simp only [fgets, hgot, hdrop, List.getLast?_append, List.getLast?_singleton, Option.some_or,
    ne_eq, not_true_eq_false, and_false, if_false, List.append_assoc, List.singleton_append]

theorem fgets_end (h : Plain t) (hne : t ≠ []) (hn : t.length < sz.room) :
    fgets sz.pageSize ⟨t, false, eof⟩ = (some (t ++ [0]), ⟨[], false, true⟩) := by
  have hgot : takeLine (sz.pageSize - 1) t = t := takeLine_end h hn
  have hlen : t.length < sz.pageSize - 1 := hn
  simp [fgets, hgot, hlen, h.getLast_ne, hne, atEnd]

theorem fgets_eof : fgets sz.pageSize ⟨[], false, eof⟩ = (none, ⟨[], false, true⟩) := by
  have hgot : takeLine (sz.pageSize - 1) [] = [] :=
    takeLine_end (fun b hb => by cases hb) sz.room_pos
  have hlen : 0 < sz.pageSize - 1 := sz.room_pos
  simp [fgets, hgot, hlen, atEnd]

end Fgets

theorem strlen_plain {t more : List UInt8} (h : ∀ b ∈ t, b ≠ 0) :
    strlen (t ++ 0 :: more) = .ok t.length := by
  have hidx : ((t ++ 0 :: more).findIdx? fun b => b = 0) = some t.length := by
    rw [List.findIdx?_append, List.findIdx?_eq_none_iff.mpr (by simpa using h)]
    simp [List.findIdx?_cons]
  rw [strlen, hidx]

theorem zero_free_line {t : List UInt8} (h : ∀ b ∈ t, b ≠ 0) : ∀ b ∈ t ++ [newline], b ≠ 0 := by
  intro b hb
  rcases List.mem_append.mp hb with hb | hb
  · exact h b hb
  · rw [List.mem_singleton.mp hb]
    decide

def store (sz : Sizes) : List Segment → Slot → List Segment
  | [], _ => []
  | [seg], slot => if seg.length < sz.segSize then [seg ++ [slot]] else [seg.set 0 slot, []]
  | seg :: seg' :: sgl, slot => seg :: store sz (seg' :: sgl) slot

def sglStrlen (sgl : List Segment) : ℕ := (sgl.map fun seg => (seg.map Slot.slen).sum).sum

theorem store_ne_nil (sz : Sizes) {sgl : List Segment} (h : sgl ≠ []) (slot : Slot) :
    store sz sgl slot ≠ [] := by
  match sgl with
  | [] => exact absurd rfl h
  | [seg] =>
    rw [store]
    split_ifs <;> simp
  | seg :: seg' :: sgl => simp [store]

theorem set_zero_sum (seg : Segment) (slot : Slot) :
    ((seg.set 0 slot).map Slot.slen).sum ≤ (seg.map Slot.slen).sum + slot.slen := by
  cases seg with
  | nil => simp
  | cons s seg =>
    simp only [List.set_cons_zero, List.map_cons, List.sum_cons]
    omega

theorem append_store (sz : Sizes) {sgl : List Segment} (h : sgl ≠ []) :
    ∃ sgl' k i, sglAppend sz sgl = .ok (sgl', k, i) ∧ sglStrlen sgl' = sglStrlen sgl ∧
      ∀ slot, setSlot sgl' k i slot = store sz sgl slot := by
  induction sgl with
  | nil => exact absurd rfl h
  | cons seg sgl ih =>
    cases sgl with
    | nil =>
      by_cases hfit : seg.length < sz.segSize
      · refine ⟨_, _, _, by rw [sglAppend, if_pos hfit], ?_, fun slot => ?_⟩
        · simp [sglStrlen]
        · simp [setSlot, store, hfit]
      · refine ⟨_, _, _, by rw [sglAppend, if_neg hfit], ?_, fun slot => ?_⟩
        · cases seg <;> simp [sglStrlen]
        · rw [store, if_neg hfit]
          cases seg <;> simp [setSlot]
    | cons seg' sgl =>
      obtain ⟨sgl₁, k, i, happ, hlen, hset⟩ := ih (List.cons_ne_nil _ _)
      refine ⟨seg :: sgl₁, k + 1, i, by simp [sglAppend, happ], ?_, fun slot => ?_⟩
      · have hsum := congrArg ((seg.map Slot.slen).sum + ·) hlen
        simpa [sglStrlen] using hsum
      · rw [store, ← hset slot]
        rfl

def readPage (sz : Sizes) (endl : UInt8) (f : File) : Option (List UInt8) × File :=
  if endl = newline then fgets sz.pageSize f else fgetsEndl sz.pageSize f endl

section Step
variable {sz : Sizes} {endl : UInt8} {f f' : File} {t more : List UInt8} {sgl : List Segment}
  {fuel llen : ℕ}

theorem readPages_stop (fuel llen : ℕ) (hsgl : sgl ≠ []) (h : readPage sz endl f = (none, f')) :
    ∃ sgl' k i, sglAppend sz sgl = .ok (sgl', k, i) ∧ sglStrlen sgl' = sglStrlen sgl ∧
      readPages sz endl (fuel + 1) sgl llen f = .ok ⟨sgl', llen, f', some f'.eof⟩ := by
  obtain ⟨sgl', k, i, happ, hlen, -⟩ := append_store sz hsgl
  refine ⟨sgl', k, i, happ, hlen, ?_⟩
  rw [readPage] at h
  simp only [readPages, happ, run_ok_bind, h]

theorem readPages_more (hsgl : sgl ≠ []) (h : readPage sz endl f = (some (t ++ 0 :: more), f'))
    (ht : ∀ b ∈ t, b ≠ 0) (hend : t.getLast? ≠ some newline) :
    readPages sz endl (fuel + 1) sgl llen f =
      readPages sz endl fuel (store sz sgl ⟨t ++ 0 :: more, t.length⟩) (llen + t.length) f' := by
  obtain ⟨sgl', k, i, happ, -, hset⟩ := append_store sz hsgl
  have hnot : ¬ (t.length > 0 ∧ (t ++ 0 :: more)[t.length - 1]? = some newline) := by
    intro hlast
    rcases hlast with ⟨hpos, hget⟩
    rw [List.getElem?_append_left (by omega), ← List.getLast?_eq_getElem?] at hget
    exact hend hget
  rw [readPage] at h
  simp only [readPages, happ, run_ok_bind, h, strlen_plain ht, if_neg hnot, hset]

theorem readPages_done (hsgl : sgl ≠ [])
    (h : readPage sz endl f = (some (t ++ newline :: 0 :: more), f')) (ht : ∀ b ∈ t, b ≠ 0) :
    readPages sz endl (fuel + 1) sgl llen f =
      .ok ⟨store sz sgl ⟨t ++ 0 :: 0 :: more, t.length⟩, llen + t.length, f', none⟩ := by
  obtain ⟨sgl', k, i, happ, -, hset⟩ := append_store sz hsgl
  have hlen : strlen (t ++ newline :: 0 :: more) = .ok (t.length + 1) := by
    have hstr : strlen (t ++ [newline] ++ 0 :: more) = .ok (t ++ [newline]).length :=
      strlen_plain (zero_free_line ht)
    rwa [List.append_assoc, List.length_append] at hstr
  rw [readPage] at h
  simp only [readPages, happ, run_ok_bind, h, hlen, Nat.add_sub_cancel]
  simp [hset]

end Step

def Slot.text (slot : Slot) : List UInt8 := slot.sbuf.take slot.slen

/-- The slots hold the text piece by piece, and only the last piece can be empty. -/
structure Pieces (slots : List Slot) (t : List UInt8) : Prop where
  text_eq : slots.flatMap Slot.text = t
  filled : ∀ s ∈ slots, s.slen ≤ s.sbuf.length
  full : ∀ s ∈ slots.dropLast, 0 < s.slen

theorem slen_sum {slots : List Slot} (h : ∀ s ∈ slots, s.slen ≤ s.sbuf.length) :
    (slots.map Slot.slen).sum = (slots.flatMap Slot.text).length := by
  have hmap : slots.map Slot.slen = slots.map fun s => s.text.length := by
    apply List.map_congr_left
    intro s hs
    rw [Slot.text, List.length_take_of_le (h s hs)]
  rw [hmap, List.length_flatMap]

theorem Pieces.slen_sum {slots : List Slot} {t : List UInt8} (h : Pieces slots t) :
    (slots.map Slot.slen).sum = t.length := by
  rw [IsbnHyphenate.slen_sum h.filled, h.text_eq]

theorem Pieces.cons {slots : List Slot} {t t' : List UInt8} {s : Slot} (h : Pieces slots t)
    (htext : s.text = t') (hfill : s.slen ≤ s.sbuf.length) (hpos : 0 < s.slen) :
    Pieces (s :: slots) (t' ++ t) := by
  refine ⟨by rw [List.flatMap_cons, htext, h.text_eq], List.forall_mem_cons.mpr ⟨hfill, h.filled⟩,
    fun s' hs' => ?_⟩
  cases slots with
  | nil => exact absurd hs' List.not_mem_nil
  | cons s₁ slots =>
    rw [List.dropLast_cons_cons] at hs'
    rcases List.mem_cons.mp hs' with rfl | hmem
    · exact hpos
    · exact h.full s' hmem

theorem Pieces.single {s : Slot} (hfill : s.slen ≤ s.sbuf.length) : Pieces [s] s.text :=
  ⟨by simp, by simpa using hfill, by simp⟩

section Loop
variable {sz : Sizes} {t rest : List UInt8} {failing eof : Bool}

theorem readPage_fgets (f : File) : readPage sz newline f = fgets sz.pageSize f := if_pos rfl

theorem Pieces.cons_page {slots : List Slot} (hp : Pieces slots (t.drop sz.room)) (hne : t ≠ []) :
    Pieces (⟨t.take sz.room ++ [0], (t.take sz.room).length⟩ :: slots) t := by
  have hpos := sz.room_pos
  have hlen := List.length_pos_of_ne_nil hne
  have htext : Slot.text ⟨t.take sz.room ++ [0], (t.take sz.room).length⟩ = t.take sz.room :=
    List.take_left
  have hcons := hp.cons htext (by simp) (by simp only [List.length_take]; omega)
  rwa [List.take_append_drop] at hcons

theorem fgets_page (h : Plain t) (hne : t ≠ []) :
    ∃ eof', fgets sz.pageSize ⟨t, false, eof⟩ =
      (some (t.take sz.room ++ [0]), ⟨t.drop sz.room, false, eof'⟩) := by
  by_cases hn : t.length < sz.room
  · refine ⟨true, ?_⟩
    rw [fgets_end h hne hn, List.take_of_length_le hn.le, List.drop_eq_nil_of_le hn.le]
  · have hfull : fgets sz.pageSize ⟨t ++ [], false, eof⟩ =
        (some (t.take sz.room ++ [0]), ⟨t.drop sz.room ++ [], false, eof⟩) :=
      fgets_full h (Nat.le_of_not_lt hn)
    rw [List.append_nil, List.append_nil] at hfull
    exact ⟨eof, hfull⟩

theorem readPages_line (fuel : ℕ) {t : List UInt8} {sgl : List Segment} {llen : ℕ}
    (hsgl : sgl ≠ []) (h : Plain t) (hfuel : t.length < fuel) :
    ∃ slots, readPages sz newline fuel sgl llen ⟨t ++ newline :: rest, failing, eof⟩ =
        .ok ⟨slots.foldl (store sz) sgl, llen + t.length, ⟨rest, failing, eof⟩, none⟩ ∧
      Pieces slots t ∧ slots.length = t.length / sz.room + 1 := by
  induction fuel generalizing t sgl llen with
  | zero => exact absurd hfuel (Nat.not_lt_zero _)
  | succ fuel ih =>
    have hpos := sz.room_pos
    by_cases hn : t.length < sz.room
    · have hread : readPage sz newline ⟨t ++ newline :: rest, failing, eof⟩ = _ :=
        (readPage_fgets _).trans (fgets_line h hn)
      refine ⟨[⟨t ++ [0, 0], t.length⟩], readPages_done hsgl hread h.zero_free, ?_, ?_⟩
      · have hone : Pieces [⟨t ++ [0, 0], t.length⟩] (Slot.text ⟨t ++ [0, 0], t.length⟩) :=
          Pieces.single (by simp)
        simpa [Slot.text] using hone
      · rw [Nat.div_eq_of_lt hn]
        rfl
    · have hle : sz.room ≤ t.length := Nat.le_of_not_lt hn
      have hdrop : (t.drop sz.room).length < fuel := by
        rw [List.length_drop]
        omega
      have hkeep := store_ne_nil sz hsgl ⟨t.take sz.room ++ [0], (t.take sz.room).length⟩
      obtain ⟨slots, hrun, hp, hcount⟩ := ih hkeep (h.drop sz.room) hdrop
      refine ⟨_ :: slots, ?_, hp.cons_page (List.ne_nil_of_length_pos (by omega)), ?_⟩
      · have hread : readPage sz newline ⟨t ++ newline :: rest, failing, eof⟩ = _ :=
          (readPage_fgets _).trans (fgets_full h hle)
        rw [readPages_more hsgl hread (h.take sz.room).zero_free (h.take sz.room).getLast_ne, hrun,
          List.foldl_cons, Nat.add_assoc, ← List.length_append, List.take_append_drop]
      · rw [List.length_cons, hcount, List.length_drop, Nat.div_eq_sub_div hpos hle]

theorem readPages_last (fuel : ℕ) {t : List UInt8} {sgl : List Segment} {llen : ℕ} {eof : Bool}
    (hsgl : sgl ≠ []) (h : Plain t) (hfuel : t.length + 1 < fuel) :
    ∃ slots sgl' k i, readPages sz newline fuel sgl llen ⟨t, false, eof⟩ =
        .ok ⟨sgl', llen + t.length, ⟨[], false, true⟩, some true⟩ ∧
      sglAppend sz (slots.foldl (store sz) sgl) = .ok (sgl', k, i) ∧
      sglStrlen sgl' = sglStrlen (slots.foldl (store sz) sgl) ∧
      Pieces slots t ∧ slots.length = sz.pages t.length := by
  induction fuel generalizing t sgl llen eof with
  | zero => exact absurd hfuel (Nat.not_lt_zero _)
  | succ fuel ih =>
    have hpos := sz.room_pos
    by_cases hnil : t = []
    · subst hnil
      have hread : readPage sz newline ⟨[], false, eof⟩ = _ := (readPage_fgets _).trans fgets_eof
      obtain ⟨sgl', k, i, happ, hlen, hrun⟩ := readPages_stop fuel llen hsgl hread
      exact ⟨[], sgl', k, i, hrun, happ, hlen, ⟨rfl, by simp, by simp⟩, sz.pages_zero.symm⟩
    · have hlt := List.length_pos_of_ne_nil hnil
      have hdrop : (t.drop sz.room).length + 1 < fuel := by
        rw [List.length_drop]
        omega
      have hpage : ∃ eof', fgets sz.pageSize ⟨t, false, eof⟩ =
          (some (t.take sz.room ++ [0]), ⟨t.drop sz.room, false, eof'⟩) := fgets_page h hnil
      obtain ⟨eof', hf⟩ := hpage
      have hkeep := store_ne_nil sz hsgl ⟨t.take sz.room ++ [0], (t.take sz.room).length⟩
      obtain ⟨slots, sgl', k, i, hrun, happ, hlen, hp, hcount⟩ := ih hkeep (h.drop sz.room) hdrop
      refine ⟨_ :: slots, sgl', k, i, ?_, happ, hlen, hp.cons_page hnil, ?_⟩
      · have hread := (readPage_fgets _).trans hf
        rw [readPages_more hsgl hread (h.take sz.room).zero_free (h.take sz.room).getLast_ne, hrun,
          Nat.add_assoc, ← List.length_append, List.take_append_drop]
      · rw [List.length_cons, hcount, List.length_drop, ← sz.pages_pos hlt]

end Loop

end IsbnHyphenate
