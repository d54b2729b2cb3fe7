import IsbnHyphenate.SglPages

/-!
# Lines of any length

A call of `sgl_fgetline` gives the line back exactly when all its pages went to
the first segment. Beyond that a page is lost with every segment that is linked
in, because the new page is hung into the first slot of the full segment.
-/

namespace IsbnHyphenate

variable {sz : Sizes}

theorem foldl_store_room (slots : List Slot) {seg : Segment}
    (h : seg.length + slots.length ≤ sz.segSize) :
    slots.foldl (store sz) [seg] = [seg ++ slots] := by
  induction slots generalizing seg with
  | nil => simp
  | cons s slots ih =>
    rw [List.length_cons] at h
    have hfit : seg.length < sz.segSize := by omega
    have hrest : (seg ++ [s]).length + slots.length ≤ sz.segSize := by
      simp only [List.length_append, List.length_singleton]
      omega
    simp only [List.foldl_cons, store, if_pos hfit]
    rw [ih hrest, List.append_assoc, List.singleton_append]

theorem foldl_store_fits {slots : List Slot} (h : slots.length ≤ sz.segSize) :
    slots.foldl (store sz) [[]] = [slots] := by
  apply foldl_store_room
  rwa [List.length_nil, Nat.zero_add]

theorem store_strlen_le (sz : Sizes) (sgl : List Segment) (s : Slot) :
    sglStrlen (store sz sgl s) ≤ sglStrlen sgl + s.slen := by
  induction sgl with
  | nil => simp [store, sglStrlen]
  | cons seg sgl ih =>
    cases sgl with
    | nil =>
      have hset := set_zero_sum seg s
      simp only [store]
      split_ifs
      · simp [sglStrlen]
      · simpa [sglStrlen] using hset
    | cons seg' sgl =>
      simp only [sglStrlen, store, List.map_cons, List.sum_cons] at ih ⊢
      omega

theorem foldl_strlen_le (sz : Sizes) (slots : List Slot) (sgl : List Segment) :
    sglStrlen (slots.foldl (store sz) sgl) ≤ sglStrlen sgl + (slots.map Slot.slen).sum := by
  induction slots generalizing sgl with
  | nil => simp
  | cons s slots ih =>
    have hone := store_strlen_le sz sgl s
    have hrest := ih (store sz sgl s)
    simp only [List.foldl_cons, List.map_cons, List.sum_cons]
    omega

theorem Pieces.head_pos {s : Slot} {slots : List Slot} {t : List UInt8}
    (h : Pieces (s :: slots) t) (hne : slots ≠ []) : 0 < s.slen := by
  apply h.full
  rw [List.dropLast_cons_of_ne_nil hne]
  exact List.mem_cons_self

theorem foldl_strlen_lt {s₀ : Slot} {slots : List Slot} (hhead : 0 < s₀.slen)
    (h : sz.segSize < (s₀ :: slots).length) :
    sglStrlen ((s₀ :: slots).foldl (store sz) [[]]) < ((s₀ :: slots).map Slot.slen).sum := by
  have hseg := sz.two_le_segSize
  rw [List.length_cons] at h
  -- the front fills the segment, and `s` is the page that finds it full
  have hlen : (s₀ :: slots.take (sz.segSize - 1)).length = sz.segSize := by
    simp only [List.length_cons, List.length_take]
    omega
  have hsplit := List.take_append_drop (sz.segSize - 1) slots
  generalize slots.take (sz.segSize - 1) = front at hlen hsplit
  cases hdrop : slots.drop (sz.segSize - 1) with
  | nil =>
    have hzero := congrArg List.length hdrop
    simp only [List.length_drop, List.length_nil] at hzero
    omega
  | cons s more =>
    rw [hdrop] at hsplit
    have hroom : (s₀ :: front).foldl (store sz) [[]] = [s₀ :: front] :=
      foldl_store_fits hlen.le
    have hstore : store sz [s₀ :: front] s = [s :: front, []] := by
      simp [store, hlen]
    have hrest := foldl_strlen_le sz more [s :: front, []]
    rw [← hsplit, ← List.cons_append, List.foldl_append, hroom, List.foldl_cons, hstore]
    simp only [sglStrlen, List.map_cons, List.map_nil, List.sum_cons, List.sum_nil,
      List.map_append, List.sum_append] at hrest ⊢
    omega

theorem Pieces.strlen_lt {slots : List Slot} {t : List UInt8} (hp : Pieces slots t)
    (h : sz.segSize < slots.length) :
    sglStrlen (slots.foldl (store sz) [[]]) < t.length := by
  have hseg := sz.two_le_segSize
  cases slots with
  | nil => exact absurd h (Nat.not_lt_zero _)
  | cons s₀ slots =>
    have hne : slots ≠ [] := by
      apply List.ne_nil_of_length_pos
      rw [List.length_cons] at h
      omega
    rw [← hp.slen_sum]
    exact foldl_strlen_lt (hp.head_pos hne) h

theorem length_slot_bytes (s : Slot) : s.bytes.length = s.slen := by simp [Slot.bytes]

theorem Slot.bytes_filled {s : Slot} (h : s.slen ≤ s.sbuf.length) :
    s.bytes = s.text.map some := by
  apply List.ext_getElem?
  intro i
  by_cases hi : i < s.slen
  · have hb : i < s.sbuf.length := Nat.lt_of_lt_of_le hi h
    simp [Slot.bytes, Slot.text, hi, hb]
  · simp [Slot.bytes, Slot.text, hi]

theorem buildSlots_ok {n : ℕ} (seg : Segment) {rbuf : List (Option UInt8)}
    (h : rbuf.length + (seg.map Slot.slen).sum ≤ n) :
    buildSlots n rbuf seg = .ok (rbuf ++ seg.flatMap Slot.bytes) := by
  induction seg generalizing rbuf with
  | nil => simp [buildSlots]
  | cons s seg ih =>
    simp only [List.map_cons, List.sum_cons] at h
    have hrest : (rbuf ++ s.bytes).length + (seg.map Slot.slen).sum ≤ n := by
      rw [List.length_append, length_slot_bytes]
      omega
    have hfit : ¬ rbuf.length + s.slen > n := by omega
    rw [buildSlots, if_neg hfit, ih hrest, List.flatMap_cons, List.append_assoc]

theorem length_flatMap_bytes (seg : Segment) :
    (seg.flatMap Slot.bytes).length = (seg.map Slot.slen).sum := by
  simp [List.length_flatMap, length_slot_bytes]

theorem buildSegments_ok {n : ℕ} (sgl : List Segment) {rbuf : List (Option UInt8)}
    (h : rbuf.length + sglStrlen sgl ≤ n) :
    buildSegments n rbuf sgl = .ok (rbuf ++ sgl.flatten.flatMap Slot.bytes) := by
  induction sgl generalizing rbuf with
  | nil => simp [buildSegments]
  | cons seg sgl ih =>
    simp only [sglStrlen, List.map_cons, List.sum_cons] at h ih
    have hseg : buildSlots n rbuf seg = .ok (rbuf ++ seg.flatMap Slot.bytes) := by
      apply buildSlots_ok
      omega
    have hrest : (rbuf ++ seg.flatMap Slot.bytes).length +
        (sgl.map fun seg => (seg.map Slot.slen).sum).sum ≤ n := by
      rw [List.length_append, length_flatMap_bytes]
      omega
    simp only [buildSegments, hseg, run_ok_bind, ih hrest, List.flatten_cons, List.flatMap_append,
      List.append_assoc]

theorem length_sgl_bytes (sgl : List Segment) :
    (sgl.flatten.flatMap Slot.bytes).length = sglStrlen sgl := by
  induction sgl with
  | nil => rfl
  | cons seg sgl ih =>
    rw [List.flatten_cons, List.flatMap_append, List.length_append, length_flatMap_bytes, ih]
    rfl

theorem sglStrBuild_ok {n : ℕ} {sgl : List Segment} (h : sglStrlen sgl ≤ n) :
    sglStrBuild (n + 1) sgl = .ok (sgl.flatten.flatMap Slot.bytes ++ [some 0]) := by
  have hbuild : buildSegments (n + 1) [] sgl = .ok (sgl.flatten.flatMap Slot.bytes) := by
    apply buildSegments_ok
    simp only [List.length_nil]
    omega
  have hend : (sgl.flatten.flatMap Slot.bytes).length < n + 1 := by
    rw [length_sgl_bytes]
    omega
  simp only [sglStrBuild, hbuild, run_ok_bind, if_pos hend]

theorem cstrOf_text {t : List UInt8} (h : ∀ b ∈ t, b ≠ 0) :
    cstrOf (t.map some ++ [some 0]) = some t := by
  induction t with
  | nil => rfl
  | cons b t ih =>
    have hb := h b List.mem_cons_self
    have hrest := ih fun c hc => h c (List.mem_cons_of_mem b hc)
    simp only [List.map_cons, List.cons_append, cstrOf, if_neg hb, hrest, Option.map_some]

theorem cstrOf_length {buf : List (Option UInt8)} {t : List UInt8} (h : cstrOf buf = some t) :
    t.length < buf.length := by
  induction buf generalizing t with
  | nil => cases h
  | cons b buf ih =>
    cases b with
    | none => cases h
    | some b =>
      simp only [cstrOf] at h
      split_ifs at h with hb
      · cases h
        exact Nat.succ_pos _
      · obtain ⟨t', ht', rfl⟩ := Option.map_eq_some_iff.mp h
        exact Nat.succ_lt_succ (ih ht')

theorem flatMap_bytes {slots : List Slot} (h : ∀ s ∈ slots, s.slen ≤ s.sbuf.length) :
    slots.flatMap Slot.bytes = (slots.flatMap Slot.text).map some := by
  have hmap : slots.map Slot.bytes = slots.map fun s => s.text.map some := by
    apply List.map_congr_left
    intro s hs
    exact Slot.bytes_filled (h s hs)
  rw [List.map_flatMap, List.flatMap_def, hmap]
  rfl

theorem Pieces.bytes {slots : List Slot} {t : List UInt8} (h : Pieces slots t) :
    slots.flatMap Slot.bytes = t.map some := by
  rw [flatMap_bytes h.filled, h.text_eq]

def strOf (sgl : List Segment) : Option (List UInt8) :=
  cstrOf (sgl.flatten.flatMap Slot.bytes ++ [some 0])

theorem strOf_length {sgl : List Segment} {t : List UInt8} (h : strOf sgl = some t) :
    t.length ≤ sglStrlen sgl := by
  have hlt := cstrOf_length h
  rw [List.length_append, length_sgl_bytes, List.length_singleton] at hlt
  exact Nat.le_of_lt_succ hlt

theorem Pieces.strOf_eq {slots : List Slot} {t : List UInt8} (hp : Pieces slots t)
    (h : Plain t) : strOf [slots] = some t := by
  simp only [strOf, List.flatten_singleton, hp.bytes]
  exact cstrOf_text fun b hb => (h b hb).1

theorem strOf_hole {n : ℕ} (h : 0 < n) (slots : Segment) (sgl : List Segment) :
    strOf ((⟨[], n⟩ :: slots) :: sgl) = none := by
  cases n with
  | zero => exact absurd h (Nat.lt_irrefl 0)
  | succ n => simp [strOf, Slot.bytes, List.range_succ_eq_map, cstrOf]

section Call
variable {t rest : List UInt8} {slots : List Slot}

theorem strOf_line (hp : Pieces slots t) (h : Plain t)
    (hcount : slots.length = t.length / sz.room + 1) :
    strOf (slots.foldl (store sz) [[]]) = some t ↔ t.length < sz.segSize * sz.room := by
  have hfit : slots.length ≤ sz.segSize ↔ t.length < sz.segSize * sz.room := by
    rw [hcount, ← Nat.div_lt_iff_lt_mul sz.room_pos]
    exact Nat.succ_le_iff
  rw [← hfit]
  constructor
  · intro htext
    have hlen := strOf_length htext
    by_contra hover
    have hlost := hp.strlen_lt (Nat.lt_of_not_le hover)
    omega
  · intro hle
    rw [foldl_store_fits hle]
    exact hp.strOf_eq h

theorem strOf_last (hp : Pieces slots t) (h : Plain t) {sgl : List Segment} {k i : ℕ}
    (happ : sglAppend sz (slots.foldl (store sz) [[]]) = .ok (sgl, k, i))
    (hlen : sglStrlen sgl = sglStrlen (slots.foldl (store sz) [[]]))
    (hcount : slots.length = sz.pages t.length) :
    strOf sgl = some t ↔ t.length ≤ (sz.segSize - 1) * sz.room := by
  have hseg := sz.two_le_segSize
  rw [← sz.pages_lt_iff, ← hcount]
  rcases Nat.lt_trichotomy slots.length sz.segSize with hlt | heq | hgt
  · rw [foldl_store_fits hlt.le, sglAppend, if_pos hlt] at happ
    cases happ
    have hpad : strOf [slots ++ [⟨[], 0⟩]] = strOf [slots] := by
      simp [strOf, Slot.bytes]
    simp only [hpad, hp.strOf_eq h, hlt]
  · -- the page that reads the end of the file is hung over the first one
    have hfull : ¬ slots.length < sz.segSize := by omega
    rw [foldl_store_fits heq.le, sglAppend, if_neg hfull] at happ
    cases happ
    cases slots with
    | nil =>
      rw [List.length_nil] at heq
      omega
    | cons s₀ slots =>
      have hhead : 0 < s₀.slen := by
        apply hp.head_pos
        apply List.ne_nil_of_length_pos
        rw [List.length_cons] at heq
        omega
      simp only [List.modify_zero_cons, strOf_hole hhead, reduceCtorEq, false_iff]
      exact hfull
  · have hlost := hp.strlen_lt hgt
    constructor
    · intro htext
      have hstr := strOf_length htext
      omega
    · intro hlt
      omega

theorem sglFgetline_buf {endl : UInt8} {lbuf : LineBuf} {pages : Pages}
    (hread : readPages sz endl (lbuf.file.data.length + 2) [[]] 0 lbuf.file = .ok pages)
    (hlen : sglStrlen pages.sgl ≤ pages.llen) :
    ∃ lbuf', sglFgetline sz lbuf endl = .ok lbuf' ∧ lbuf'.file = pages.file ∧
      lbuf'.len = pages.llen ∧ lbuf'.eof = pages.eof.getD lbuf.eof ∧
      lbuf'.buf = some (pages.sgl.flatten.flatMap Slot.bytes ++ [some 0]) := by
  have hfile : (linebufFree lbuf).file = lbuf.file ∧ (linebufFree lbuf).eof = lbuf.eof := by
    simp only [linebufFree]
    split_ifs <;> exact ⟨rfl, rfl⟩
  have hnew : linebufSglNew (linebufFree lbuf) = .ok { linebufFree lbuf with sgl := some [[]] } :=
    rfl
  have hbuild := sglStrBuild_ok hlen
  refine ⟨⟨pages.file, some (pages.sgl.flatten.flatMap Slot.bytes ++ [some 0]), some pages.sgl,
    pages.llen, pages.eof.getD lbuf.eof⟩, ?_, rfl, rfl, rfl, rfl⟩
  simp only [sglFgetline, hnew, run_ok_bind, hfile, Option.getD_some, hread, hbuild]

theorem sglFgetline_ok {endl : UInt8} {lbuf : LineBuf} {pages : Pages}
    (hread : readPages sz endl (lbuf.file.data.length + 2) [[]] 0 lbuf.file = .ok pages)
    (hlen : sglStrlen pages.sgl ≤ pages.llen) :
    ∃ lbuf', sglFgetline sz lbuf endl = .ok lbuf' ∧ lbuf'.file = pages.file ∧
      lbuf'.len = pages.llen ∧ lbuf'.eof = pages.eof.getD lbuf.eof ∧
      lbuf'.text = strOf pages.sgl := by
  obtain ⟨lbuf', hcall, hf, hl, he, hb⟩ := sglFgetline_buf hread hlen
  refine ⟨lbuf', hcall, hf, hl, he, ?_⟩
  rw [LineBuf.text, hb]
  rfl

theorem sglFgetline_line {lbuf : LineBuf} {failing eof : Bool} (h : Plain t)
    (hfile : lbuf.file = ⟨t ++ newline :: rest, failing, eof⟩) :
    ∃ lbuf', sglFgetline sz lbuf newline = .ok lbuf' ∧ lbuf'.file = ⟨rest, failing, eof⟩ ∧
      lbuf'.len = t.length ∧ lbuf'.eof = lbuf.eof ∧
      (lbuf'.text = some t ↔ t.length < sz.segSize * sz.room) := by
  have hfuel : t.length < lbuf.file.data.length + 2 := by
    simp only [hfile, List.length_append]
    omega
  obtain ⟨slots, hread, hp, hcount⟩ := readPages_line (lbuf.file.data.length + 2)
    (List.cons_ne_nil [] []) h hfuel
  have hkept : sglStrlen (slots.foldl (store sz) [[]]) ≤ 0 + t.length := by
    have hle := foldl_strlen_le sz slots [[]]
    rw [hp.slen_sum] at hle
    exact hle
  rw [← hfile] at hread
  obtain ⟨lbuf', hcall, hf, hl, he, ht⟩ := sglFgetline_ok hread hkept
  refine ⟨lbuf', hcall, hf, by rw [hl, Nat.zero_add], he, ?_⟩
  rw [ht]
  exact strOf_line hp h hcount

theorem sglFgetline_last {lbuf : LineBuf} {eof : Bool} (h : Plain t)
    (hfile : lbuf.file = ⟨t, false, eof⟩) :
    ∃ lbuf', sglFgetline sz lbuf newline = .ok lbuf' ∧ lbuf'.file = ⟨[], false, true⟩ ∧
      lbuf'.len = t.length ∧ lbuf'.eof = true ∧
      (lbuf'.text = some t ↔ t.length ≤ (sz.segSize - 1) * sz.room) := by
  have hfuel : t.length + 1 < lbuf.file.data.length + 2 := by
    rw [hfile]
    exact Nat.lt_succ_self _
  obtain ⟨slots, sgl, k, i, hread, happ, hlen, hp, hcount⟩ :=
    readPages_last (lbuf.file.data.length + 2) (List.cons_ne_nil [] []) h hfuel
  have hkept : sglStrlen sgl ≤ 0 + t.length := by
    have hle := foldl_strlen_le sz slots [[]]
    rw [hp.slen_sum] at hle
    rw [hlen]
    exact hle
  rw [← hfile] at hread
  obtain ⟨lbuf', hcall, hf, hl, he, ht⟩ := sglFgetline_ok hread hkept
  refine ⟨lbuf', hcall, hf, by rw [hl, Nat.zero_add], he, ?_⟩
  rw [ht]
  exact strOf_last hp h happ hlen hcount

end Call

def newlineChr : Chr := ⟨newline, by decide⟩

def linesOf (stream : CStr) : List CStr := stream.splitOn newlineChr

theorem split_induction {α : Type} [DecidableEq α] {P : List α → Prop} (d : α)
    (last : ∀ l, d ∉ l → P l) (piece : ∀ l rest, d ∉ l → P rest → P (l ++ d :: rest))
    (s : List α) : P s := by
  by_cases hmem : d ∈ s
  · obtain ⟨l, rest, heq, hl⟩ := List.eq_append_cons_of_mem hmem
    have hlt : rest.length < s.length := by
      rw [heq, List.length_append, List.length_cons]
      omega
    rw [heq]
    exact piece l rest hl (split_induction d last piece rest)
  · exact last s hmem
termination_by s.length

theorem lines_induction {P : CStr → Prop} (last : ∀ l, newlineChr ∉ l → P l)
    (line : ∀ l rest, newlineChr ∉ l → P rest → P (l ++ newlineChr :: rest)) (s : CStr) : P s :=
  split_induction newlineChr last line s

theorem linesOf_last {l : CStr} (h : newlineChr ∉ l) : linesOf l = [l] :=
  List.splitOn_eq_singleton h

theorem linesOf_line {l : CStr} (rest : CStr) (h : newlineChr ∉ l) :
    linesOf (l ++ newlineChr :: rest) = l :: linesOf rest :=
  List.splitOn_append_cons_self_of_not_mem h rest

theorem linesOf_ne_nil (stream : CStr) : linesOf stream ≠ [] := List.splitOn_ne_nil _ _

def bytesOf (s : CStr) : List UInt8 := s.map Subtype.val

theorem length_bytesOf (s : CStr) : (bytesOf s).length = s.length := List.length_map _

theorem plain_bytesOf {l : CStr} (h : newlineChr ∉ l) : Plain (bytesOf l) := by
  intro b hb
  obtain ⟨c, hc, rfl⟩ := List.mem_map.mp hb
  refine ⟨c.2, fun heq => ?_⟩
  have hnl : c = newlineChr := Subtype.ext heq
  exact h (hnl ▸ hc)

section Line
variable {lbuf : LineBuf} {failing eof : Bool} {l rest : CStr}

theorem getLine_line (sz : Sizes) (hl : newlineChr ∉ l)
    (hfile : lbuf.file = ⟨bytesOf (l ++ newlineChr :: rest), failing, eof⟩) :
    ∃ lbuf', sglFgetline sz lbuf newline = .ok lbuf' ∧
      lbuf'.file = ⟨bytesOf rest, failing, eof⟩ ∧ lbuf'.len = l.length ∧ lbuf'.eof = lbuf.eof ∧
      (lbuf'.text = some (bytesOf l) ↔ l.length < sz.segSize * sz.room) := by
  have hsplit : bytesOf (l ++ newlineChr :: rest) = bytesOf l ++ newline :: bytesOf rest :=
    List.map_append
  rw [hsplit] at hfile
  rw [← length_bytesOf l]
  exact sglFgetline_line (plain_bytesOf hl) hfile

theorem getLine_last (sz : Sizes) (hl : newlineChr ∉ l)
    (hfile : lbuf.file = ⟨bytesOf l, false, eof⟩) :
    ∃ lbuf', sglFgetline sz lbuf newline = .ok lbuf' ∧ lbuf'.file = ⟨[], false, true⟩ ∧
      lbuf'.len = l.length ∧ lbuf'.eof = true ∧
      (lbuf'.text = some (bytesOf l) ↔ l.length ≤ (sz.segSize - 1) * sz.room) := by
  rw [← length_bytesOf l]
  exact sglFgetline_last (plain_bytesOf hl) hfile

end Line

def getLines (sz : Sizes) : ℕ → LineBuf → Run (List (Option (List UInt8) × ℕ))
  | 0, _ => .ok []
  | n + 1, lbuf => do
    let lbuf ← sglFgetline sz lbuf newline
    let lines ← getLines sz n lbuf
    .ok ((lbuf.text, lbuf.len) :: lines)

def Delivers (sz : Sizes) (stream : CStr) : Prop :=
  getLines sz (linesOf stream).length (linebufInit ⟨bytesOf stream, false, false⟩) =
    .ok ((linesOf stream).map fun l => (some (bytesOf l), l.length))

/-- With its newline a line fills one segment at most. Without one a slot is left
for the page that meets the end of the file. -/
def FitsSegment (sz : Sizes) (lines : List CStr) : Prop :=
  (∀ l ∈ lines.dropLast, l.length < sz.segSize * sz.room) ∧
    ∀ l ∈ lines.getLast?, l.length ≤ (sz.segSize - 1) * sz.room

theorem fitsSegment_last (l : CStr) :
    FitsSegment sz [l] ↔ l.length ≤ (sz.segSize - 1) * sz.room := by
  simp [FitsSegment]

theorem fitsSegment_line (l : CStr) {lines : List CStr} (h : lines ≠ []) :
    FitsSegment sz (l :: lines) ↔ l.length < sz.segSize * sz.room ∧ FitsSegment sz lines := by
  cases lines with
  | nil => exact absurd rfl h
  | cons l' lines =>
    simp only [FitsSegment, List.dropLast_cons_cons, List.forall_mem_cons,
      List.getLast?_cons_cons, and_assoc]

theorem getLines_iff (stream : CStr) {lbuf : LineBuf} {eof : Bool}
    (hfile : lbuf.file = ⟨bytesOf stream, false, eof⟩) :
    getLines sz (linesOf stream).length lbuf =
        .ok ((linesOf stream).map fun l => (some (bytesOf l), l.length)) ↔
      FitsSegment sz (linesOf stream) := by
  induction stream using lines_induction generalizing lbuf with
  | last l hl =>
    obtain ⟨lbuf', hcall, -, hlen, -, htext⟩ := getLine_last sz hl hfile
    simp only [linesOf_last hl, List.length_singleton, List.map_cons, List.map_nil, getLines,
      hcall, run_ok_bind, hlen, fitsSegment_last, ← htext]
    simp
  | line l rest hl ih =>
    obtain ⟨lbuf', hcall, hfile', hlen, -, htext⟩ := getLine_line sz hl hfile
    rw [linesOf_line rest hl, fitsSegment_line l (linesOf_ne_nil rest), ← ih hfile', ← htext]
    simp only [List.length_cons, List.map_cons, getLines, hcall, run_ok_bind, hlen]
    cases getLines sz (linesOf rest).length lbuf' with
    | error e => simp
    | ok lines => simp

/-- The reader gives back every line of the stream exactly when none of them
needs a second segment. -/
theorem lines_delivered_iff (sz : Sizes) (stream : CStr) :
    Delivers sz stream ↔ FitsSegment sz (linesOf stream) := getLines_iff stream rfl

theorem full_segment_line_lost :
    ¬ Delivers sizes (List.replicate 65472 ⟨120, by decide⟩ ++ [newlineChr]) := by
  have hl : newlineChr ∉ List.replicate 65472 (⟨120, by decide⟩ : Chr) := by
    intro hmem
    exact absurd (List.eq_of_mem_replicate hmem) (by decide)
  intro hd
  have hfit := (getLines_iff _ rfl).mp hd
  rw [linesOf_line [] hl, fitsSegment_line _ (linesOf_ne_nil [])] at hfit
  have hlt := hfit.1
  rw [List.length_replicate] at hlt
  exact absurd hlt (by decide)

end IsbnHyphenate
