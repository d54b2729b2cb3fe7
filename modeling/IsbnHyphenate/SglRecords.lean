import IsbnHyphenate.SglReads

/-!
# Records with another delimiter

With an end-of-line character other than newline `fgets_endl` ends a page at the
delimiter, but `sgl_fgetline` still looks for a newline, so the delimiter is
kept and the next record read behind it. What comes out of this is a record
only where the whole stream is one.
-/

namespace IsbnHyphenate

variable {sz : Sizes} {d : UInt8}

def getRecords (sz : Sizes) (d : UInt8) :
    ℕ → LineBuf → Run (List (Option (List (Option UInt8)) × ℕ))
  | 0, _ => .ok []
  | n + 1, lbuf => do
    let lbuf ← sglFgetline sz lbuf d
    let records ← getRecords sz d n lbuf
    .ok ((lbuf.buf, lbuf.len) :: records)

def recordOf (r : List UInt8) : Option (List (Option UInt8)) × ℕ :=
  (some (r.map some ++ [some 0]), r.length)

def DeliversRecords (sz : Sizes) (d : UInt8) (stream : List UInt8) : Prop :=
  getRecords sz d (stream.splitOn d).length (linebufInit ⟨stream, false, false⟩) =
    .ok ((stream.splitOn d).map recordOf)

def Unbroken (sz : Sizes) (r : List UInt8) : Prop :=
  ∀ i, r[i]? = some newline → ¬ sz.room ∣ i + 1 ∧ i + 1 ≠ r.length

structure Lone (d : UInt8) (r : List UInt8) (k : ℕ) : Prop where
  free : ∀ b ∈ r, b ≠ 0 ∧ b ≠ d
  nul : k ≠ 0 → d = 0

def LoneRecord (sz : Sizes) (d : UInt8) (stream : List UInt8) : Prop :=
  ∃ r k, stream = r ++ List.replicate k 0 ∧ Lone d r k ∧ Unbroken sz r ∧
    (r = [] ∨ stream.length ≤ (sz.segSize - 1) * sz.room)

theorem front_self {t : List UInt8} (h : ∀ b ∈ t, b ≠ 0) : front t = t := by
  rw [← front_closed, front_append_zero h]

theorem Lone.takePage_eq {r : List UInt8} {k : ℕ} (h : Lone d r k) (n : ℕ) :
    takePage d n (r ++ List.replicate k 0) = (r ++ List.replicate k 0).take n := by
  apply takePage_take
  by_cases hk : k = 0
  · right
    rw [hk, List.replicate_zero, List.append_nil]
    exact fun hmem => (h.free d (List.mem_of_mem_take hmem)).2 rfl
  · exact .inl (h.nul hk)

theorem Lone.take_front {r : List UInt8} {k : ℕ} (h : Lone d r k) (n : ℕ) :
    front ((r ++ List.replicate k 0).take n) = r.take n := by
  have hfree : ∀ b ∈ r.take n, b ≠ 0 := fun b hb => (h.free b (List.mem_of_mem_take hb)).1
  rw [List.take_append, List.take_replicate]
  cases min (n - r.length) k with
  | zero => rw [List.replicate_zero, List.append_nil, front_self hfree]
  | succ j => rw [List.replicate_succ, front_append_zero hfree]

theorem Lone.drop {r : List UInt8} {k : ℕ} (h : Lone d r k) (n : ℕ) :
    ∃ j, (r ++ List.replicate k 0).drop n = r.drop n ++ List.replicate j 0 ∧
      Lone d (r.drop n) j := by
  refine ⟨k - (n - r.length), ?_, fun b hb => h.free b (List.mem_of_mem_drop hb), fun hj => ?_⟩
  · rw [List.drop_append, List.drop_replicate]
  · apply h.nul
    omega

theorem unbroken_drop (r : List UInt8) :
    Unbroken sz r ↔ (r.take sz.room).getLast? ≠ some newline ∧ Unbroken sz (r.drop sz.room) := by
  have hpos := sz.room_pos
  constructor
  · intro h
    constructor
    · intro hlast
      rw [List.getLast?_eq_getElem?, List.length_take, List.getElem?_take_of_lt (by omega)] at hlast
      obtain ⟨hdvd, hlen⟩ := h _ hlast
      obtain ⟨hlt, -⟩ := List.getElem?_eq_some_iff.mp hlast
      by_cases hle : sz.room ≤ r.length
      · rw [Nat.min_eq_left hle, Nat.sub_add_cancel hpos] at hdvd
        exact hdvd (dvd_refl _)
      · omega
    · intro j hj
      rw [List.getElem?_drop] at hj
      obtain ⟨hdvd, hlen⟩ := h _ hj
      rw [Nat.add_assoc, Nat.dvd_add_right (dvd_refl _)] at hdvd
      refine ⟨hdvd, fun heq => hlen ?_⟩
      rw [List.length_drop] at heq
      omega
  · rintro ⟨hlast, hdrop⟩ i hi
    obtain ⟨hlt, -⟩ := List.getElem?_eq_some_iff.mp hi
    by_cases hroom : i < sz.room
    · have hnot : i + 1 ≠ min sz.room r.length := by
        intro heq
        apply hlast
        rw [List.getLast?_eq_getElem?, List.length_take, ← heq, Nat.add_sub_cancel,
          List.getElem?_take_of_lt hroom, hi]
      refine ⟨fun hdvd => hnot ?_, by omega⟩
      have hle := Nat.le_of_dvd (Nat.succ_pos i) hdvd
      omega
    · obtain ⟨j, rfl⟩ := Nat.exists_eq_add_of_le (Nat.le_of_not_lt hroom)
      rw [← List.getElem?_drop] at hi
      obtain ⟨hdvd, hlen⟩ := hdrop j hi
      rw [List.length_drop] at hlen
      rw [Nat.add_assoc, Nat.dvd_add_right (dvd_refl _)]
      exact ⟨hdvd, by omega⟩

section Call
variable {f f' : File} {slots : List Slot} {e : Option Bool} {r : List UInt8} {k : ℕ}

theorem readPage_lone {t more : List UInt8} (h : readPage sz d f = (some (t ++ 0 :: more), f'))
    (ht : ∀ b ∈ t, b ≠ 0) (hdata : f.data = r ++ List.replicate k 0) (hr : Lone d r k) :
    f.data ≠ [] ∧ r.take sz.room = t ∧ f'.data = f.data.drop sz.room := by
  obtain ⟨hne, hholds, hpassed⟩ := readPage_some h
  have hgot : takePage d sz.room f.data = f.data.take sz.room := by rw [hdata, hr.takePage_eq]
  have hfront := hholds.front_eq
  rw [front_append_zero ht, hgot, hdata, hr.take_front] at hfront
  have hsplit := hpassed.data_eq
  rw [hgot] at hsplit
  refine ⟨fun hnil => hne ?_, hfront.symm, ?_⟩
  · rw [hnil, takePage_nil]
  · have hjoin : f.data.take sz.room ++ f'.data = f.data.take sz.room ++ f.data.drop sz.room := by
      rw [hsplit, List.take_append_drop]
    exact List.append_cancel_left hjoin

theorem Reads.lone (h : Reads sz d f slots f' e) (hgood : f.failing = false)
    (hdata : f.data = r ++ List.replicate k 0) (hr : Lone d r k) :
    (Unbroken sz r ∧ e ≠ none ∧ slots.flatMap Slot.text = r ∧
        slots.length = sz.pages f.data.length ∧ (r ≠ [] → ∀ s ∈ slots.head?, 0 < s.slen)) ∨
      (¬ Unbroken sz r ∧ (slots.map Slot.slen).sum < r.length) := by
  induction h generalizing r k with
  | stop h =>
    have hnil := (readPage_none h).2 hgood
    rw [hnil] at hdata
    obtain ⟨rfl, -⟩ := List.append_eq_nil_iff.mp hdata.symm
    left
    refine ⟨?_, by simp, rfl, ?_, by simp⟩
    · intro i hi
      cases hi
    · rw [hnil]
      exact sz.pages_zero.symm
  | @line f f' t more h ht =>
    rw [← List.singleton_append, ← List.append_assoc] at h
    obtain ⟨-, htake, -⟩ := readPage_lone h (zero_free_line ht) hdata hr
    have hlen := congrArg List.length htake
    rw [List.length_take, List.length_append, List.length_singleton] at hlen
    right
    constructor
    · intro hun
      apply ((unbroken_drop r).mp hun).1
      rw [htake, List.getLast?_append, List.getLast?_singleton, Option.some_or]
    · simp only [List.map_cons, List.map_nil, List.sum_cons, List.sum_nil]
      omega
  | @page f f' f'' t more slots e h ht hend hrest ih =>
    obtain ⟨hne, htake, hdrop⟩ := readPage_lone h ht hdata hr
    obtain ⟨j, hj, hlone⟩ := hr.drop sz.room
    have hdata' : f'.data = r.drop sz.room ++ List.replicate j 0 := by rw [hdrop, hdata, hj]
    have hgood' := (readPage_some h).2.2.failing_eq.trans hgood
    have hstep : Unbroken sz r ↔ Unbroken sz (r.drop sz.room) := by
      rw [unbroken_drop, htake]
      exact and_iff_right hend
    have hsplit := List.take_append_drop sz.room r
    rw [htake] at hsplit
    have hlen := congrArg List.length hsplit
    rw [List.length_append] at hlen
    rcases ih hgood' hdata' hlone with ⟨hun, he, htext, hcount, -⟩ | ⟨hbroken, hlt⟩
    · left
      refine ⟨hstep.mpr hun, he, ?_, ?_, ?_⟩
      · simpa [Slot.text, htext] using hsplit
      · rw [List.length_cons, hcount, hdrop, List.length_drop,
          ← sz.pages_pos (List.length_pos_of_ne_nil hne)]
      · intro hr₀ s hs
        cases hs
        have hpos := sz.room_pos
        have hlen₀ := List.length_pos_of_ne_nil hr₀
        have htaken := congrArg List.length htake
        rw [List.length_take] at htaken
        show 0 < t.length
        omega
    · right
      refine ⟨fun hun => hbroken (hstep.mp hun), ?_⟩
      simp only [List.map_cons, List.sum_cons]
      omega

end Call

section Buffer
variable {s₀ : Slot} {slots : List Slot} {sgl : List Segment} {e : Option Bool}

theorem Keeps.bytes_eq (h : Keeps sz (slots.foldl (store sz) [[]]) e sgl) (he : e ≠ none)
    (hfits : slots.length < sz.segSize) :
    sgl.flatten.flatMap Slot.bytes = slots.flatMap Slot.bytes := by
  rw [Keeps, if_neg he, foldl_store_fits hfits.le, sglAppend, if_pos hfits] at h
  obtain ⟨k, i, happ⟩ := h
  cases happ
  simp [Slot.bytes]

/-- The page that meets the end of the file takes the place of the first one. -/
theorem Keeps.bytes_lost (h : Keeps sz ((s₀ :: slots).foldl (store sz) [[]]) e sgl) (he : e ≠ none)
    (hhead : 0 < s₀.slen) (hover : sz.segSize ≤ (s₀ :: slots).length) {t : List UInt8}
    (ht : sgl.flatten.flatMap Slot.bytes = t.map some) :
    t.length ≠ ((s₀ :: slots).map Slot.slen).sum := by
  rcases Nat.lt_or_eq_of_le hover with hgt | heq
  · have hlost := foldl_strlen_lt hhead hgt
    have hlen := congrArg List.length ht
    rw [length_sgl_bytes, List.length_map,
      h.strlen_eq (foldl_store_ne_nil _ (List.cons_ne_nil _ _))] at hlen
    omega
  · have hfull : ¬ (s₀ :: slots).length < sz.segSize := by omega
    rw [Keeps, if_neg he, foldl_store_fits heq.ge, sglAppend, if_neg hfull] at h
    obtain ⟨k, i, happ⟩ := h
    cases happ
    -- the first byte that is copied has no value
    obtain ⟨n, hn⟩ := Nat.exists_eq_succ_of_ne_zero hhead.ne'
    cases t <;> simp [Slot.bytes, hn, List.range_succ_eq_map] at ht

theorem mem_store {sgl : List Segment} {s s' : Slot} (h : s' ∈ (store sz sgl s).flatten) :
    s' ∈ sgl.flatten ∨ s' = s := by
  induction sgl with
  | nil => exact .inl h
  | cons seg sgl ih =>
    cases sgl with
    | nil =>
      rw [store] at h
      split_ifs at h
      · simpa using h
      · rw [List.flatten_cons, List.flatten_singleton, List.append_nil] at h
        rw [List.flatten_singleton]
        exact List.mem_or_eq_of_mem_set h
    | cons seg' sgl =>
      rw [store, List.flatten_cons] at h
      rw [List.flatten_cons, List.mem_append, or_assoc]
      exact (List.mem_append.mp h).imp_right ih

theorem mem_sglAppend {sgl sgl' : List Segment} {k i : ℕ} {s : Slot}
    (happ : sglAppend sz sgl = .ok (sgl', k, i)) (h : s ∈ sgl'.flatten) :
    s ∈ sgl.flatten ∨ s.sbuf = [] := by
  induction sgl generalizing sgl' k i with
  | nil => cases happ
  | cons seg sgl ih =>
    cases sgl with
    | nil =>
      rw [sglAppend] at happ
      split_ifs at happ
      · cases happ
        rw [List.flatten_singleton] at h ⊢
        rcases List.mem_append.mp h with hmem | hmem
        · exact .inl hmem
        · rw [List.mem_singleton.mp hmem]
          exact .inr rfl
      · cases happ
        rw [List.flatten_singleton]
        cases seg with
        | nil => simp at h
        | cons s₀ seg =>
          rcases (by simpa using h : s = { s₀ with sbuf := [] } ∨ s ∈ seg) with rfl | hmem
          · exact .inr rfl
          · exact .inl (List.mem_cons_of_mem _ hmem)
    | cons seg' sgl =>
      obtain ⟨⟨sgl₁, k₁, i₁⟩, happ₁, hret⟩ := run_bind_ok happ
      cases hret
      rw [List.flatten_cons] at h
      rw [List.flatten_cons, List.mem_append, or_assoc]
      exact (List.mem_append.mp h).imp_right (ih happ₁)

theorem mem_foldl_store {sgl : List Segment} {s : Slot}
    (h : s ∈ (slots.foldl (store sz) sgl).flatten) : s ∈ sgl.flatten ∨ s ∈ slots := by
  induction slots generalizing sgl with
  | nil => exact .inl h
  | cons s' slots ih =>
    rcases ih h with hmem | hmem
    · rcases mem_store hmem with hold | rfl
      · exact .inl hold
      · exact .inr List.mem_cons_self
    · exact .inr (List.mem_cons_of_mem _ hmem)

theorem Keeps.mem (h : Keeps sz (slots.foldl (store sz) [[]]) e sgl) {s : Slot}
    (hs : s ∈ sgl.flatten) : s ∈ slots ∨ s.sbuf = [] := by
  have hslots : s ∈ (slots.foldl (store sz) [[]]).flatten → s ∈ slots := by
    intro hmem
    rcases mem_foldl_store hmem with hnil | hmem
    · cases hnil
    · exact hmem
  rw [Keeps] at h
  split_ifs at h
  · rw [h] at hs
    exact .inl (hslots hs)
  · obtain ⟨k, i, happ⟩ := h
    exact (mem_sglAppend happ hs).imp_left hslots

end Buffer

section Record
variable {lbuf lbuf' : LineBuf} {slots : List Slot} {sgl : List Segment} {e : Option Bool}
  {r : List UInt8} {k : ℕ}

theorem Delivered.bytes_eq (h : Delivered sz d lbuf lbuf' slots sgl e)
    (hrec : (lbuf'.buf, lbuf'.len) = recordOf r) :
    sgl.flatten.flatMap Slot.bytes = r.map some ∧ r.length = (slots.map Slot.slen).sum := by
  obtain ⟨hbuf, hlen⟩ := Prod.ext_iff.mp hrec
  have hbytes := Option.some.inj (h.buf_eq.symm.trans hbuf)
  exact ⟨List.append_cancel_right hbytes, hlen.symm.trans h.len_eq⟩

theorem Delivered.zero_free (h : Delivered sz d lbuf lbuf' slots sgl e)
    (hrec : (lbuf'.buf, lbuf'.len) = recordOf r) : ∀ b ∈ r, b ≠ 0 := by
  intro b hb
  have hmem : some b ∈ sgl.flatten.flatMap Slot.bytes := by
    rw [(h.bytes_eq hrec).1]
    exact List.mem_map_of_mem hb
  obtain ⟨s, hs, hsb⟩ := List.mem_flatMap.mp hmem
  rcases h.keeps.mem hs with hslot | hnil
  · obtain ⟨hfill, hfree⟩ := h.reads.text_zero_free s hslot
    rw [Slot.bytes_filled hfill] at hsb
    obtain ⟨b', hb', heq⟩ := List.mem_map.mp hsb
    cases heq
    exact hfree b hb'
  · simp [Slot.bytes, hnil] at hsb

theorem Delivered.record_iff (h : Delivered sz d lbuf lbuf' slots sgl e)
    (hgood : lbuf.file.failing = false) (hdata : lbuf.file.data = r ++ List.replicate k 0)
    (hr : Lone d r k) :
    (lbuf'.buf, lbuf'.len) = recordOf r ↔
      Unbroken sz r ∧ (r = [] ∨ lbuf.file.data.length ≤ (sz.segSize - 1) * sz.room) := by
  have hseg := sz.two_le_segSize
  have hfill : ∀ s ∈ slots, s.slen ≤ s.sbuf.length := fun s hs => (h.reads.text_zero_free s hs).1
  rw [← sz.pages_lt_iff]
  constructor
  · intro hrec
    obtain ⟨hbytes, hlen⟩ := h.bytes_eq hrec
    rcases h.reads.lone hgood hdata hr with ⟨hun, he, -, hcount, hhead⟩ | ⟨-, hlt⟩
    · refine ⟨hun, or_iff_not_imp_left.mpr fun hr₀ => ?_⟩
      by_contra hover
      rw [← hcount] at hover
      cases slots with
      | nil => exact hover (by simp only [List.length_nil]; omega)
      | cons s₀ slots =>
        exact h.keeps.bytes_lost he (hhead hr₀ s₀ rfl) (Nat.le_of_not_lt hover) hbytes hlen
    · omega
  · rintro ⟨hun, hsize⟩
    rcases h.reads.lone hgood hdata hr with ⟨-, he, htext, hcount, -⟩ | ⟨hbroken, -⟩
    · have hbytes : sgl.flatten.flatMap Slot.bytes = r.map some := by
        rw [← hcount] at hsize
        by_cases hfits : slots.length < sz.segSize
        · rw [h.keeps.bytes_eq he hfits, flatMap_bytes hfill, htext]
        · have hnil := hsize.resolve_right hfits
          have hzero := h.keeps.strlen_le
          rw [slen_sum hfill, htext, hnil, List.length_nil, ← length_sgl_bytes] at hzero
          rw [List.eq_nil_of_length_eq_zero (Nat.le_zero.mp hzero), hnil]
          rfl
      rw [h.buf_eq, hbytes, h.len_eq, slen_sum hfill, htext]
      rfl
    · exact absurd hun hbroken

end Record

section Delimiter
variable {f f' : File} {slots : List Slot} {e : Option Bool} {r more : List UInt8}

theorem readPage_delimiter {t tail : List UInt8}
    (h : readPage sz d f = (some (t ++ 0 :: tail), f')) (ht : ∀ b ∈ t, b ≠ 0) (hd₀ : d ≠ 0)
    (hdata : f.data = r ++ d :: more) (hr : ∀ b ∈ r, b ≠ 0 ∧ b ≠ d) :
    t = r ++ [d] ∨
      (sz.room ≤ r.length ∧ t = r.take sz.room ∧ f'.data = r.drop sz.room ++ d :: more) := by
  obtain ⟨-, hholds, hpassed⟩ := readPage_some h
  have hmem : d ∉ r := fun hin => (hr d hin).2 rfl
  have hfront := hholds.front_eq
  have hsplit := hpassed.data_eq
  rw [front_append_zero ht] at hfront
  rw [hdata] at hfront hsplit
  by_cases hlt : r.length < sz.room
  · left
    have hfree : ∀ b ∈ r ++ [d], b ≠ 0 := by
      intro b hb
      rcases List.mem_append.mp hb with hb | hb
      · exact (hr b hb).1
      · rwa [List.mem_singleton.mp hb]
    rwa [takePage_delimited hmem hd₀ more hlt, front_self hfree] at hfront
  · right
    have hle := Nat.le_of_not_lt hlt
    have hfree : ∀ b ∈ r.take sz.room, b ≠ 0 := fun b hb => (hr b (List.mem_of_mem_take hb)).1
    rw [takePage_full hmem _ hle] at hfront hsplit
    rw [front_self hfree] at hfront
    refine ⟨hle, hfront, List.append_cancel_left (hsplit.trans ?_)⟩
    rw [← List.append_assoc, List.take_append_drop]

/-- The delimiter is kept, so a call that reads it delivers too much. -/
theorem Reads.delimiter (h : Reads sz d f slots f' e) (hgood : f.failing = false)
    (hd : d ≠ newline) (hd₀ : d ≠ 0) (hdata : f.data = r ++ d :: more)
    (hr : ∀ b ∈ r, b ≠ 0 ∧ b ≠ d) : (slots.map Slot.slen).sum ≠ r.length := by
  induction h generalizing r with
  | stop h =>
    have hnil := (readPage_none h).2 hgood
    rw [hnil] at hdata
    exact absurd hdata.symm (by simp)
  | line h ht =>
    rw [← List.singleton_append, ← List.append_assoc] at h
    rcases readPage_delimiter h (zero_free_line ht) hd₀ hdata hr with hall | ⟨hle, htake, -⟩
    · have hlast := List.append_inj_right' hall rfl
      exact absurd (List.singleton_inj.mp hlast).symm hd
    · have hlen := congrArg List.length htake
      rw [List.length_append, List.length_singleton, List.length_take] at hlen
      simp only [List.map_cons, List.map_nil, List.sum_cons, List.sum_nil]
      omega
  | page h ht hend hrest ih =>
    simp only [List.map_cons, List.sum_cons]
    rcases readPage_delimiter h ht hd₀ hdata hr with hall | ⟨hle, htake, hdata'⟩
    · rw [hall, List.length_append, List.length_singleton]
      omega
    · have hgood' := (readPage_some h).2.2.failing_eq.trans hgood
      have hmore := ih hgood' hdata' fun b hb => hr b (List.mem_of_mem_drop hb)
      rw [List.length_drop] at hmore
      rw [htake, List.length_take]
      omega

end Delimiter

section Calls
variable {lbuf : LineBuf} {stream : List UInt8}

theorem getRecords_succ (sz : Sizes) (d : UInt8) (n : ℕ) (lbuf : LineBuf) :
    ∃ lbuf' slots sgl e, Delivered sz d lbuf lbuf' slots sgl e ∧ ∀ x records,
      getRecords sz d (n + 1) lbuf = .ok (x :: records) ↔
        (lbuf'.buf, lbuf'.len) = x ∧ getRecords sz d n lbuf' = .ok records := by
  obtain ⟨lbuf', slots, sgl, e, hcall, hd⟩ := sglFgetline_reads sz d lbuf
  refine ⟨lbuf', slots, sgl, e, hd, fun x records => ?_⟩
  simp only [getRecords, hcall, run_ok_bind]
  cases getRecords sz d n lbuf' with
  | error e => simp
  | ok found => simp

theorem getRecords_sum (n : ℕ) {records : List (Option (List (Option UInt8)) × ℕ)}
    (hgood : lbuf.file.failing = false) (h : getRecords sz d n lbuf = .ok records) :
    (records.map Prod.snd).sum ≤ nz lbuf.file.data := by
  induction n generalizing lbuf records with
  | zero =>
    cases h
    exact Nat.zero_le _
  | succ n ih =>
    cases records with
    | nil => exact Nat.zero_le _
    | cons x records =>
      obtain ⟨lbuf', slots, sgl, e, hd, hiff⟩ := getRecords_succ sz d n lbuf
      obtain ⟨rfl, hrest⟩ := (hiff x records).mp h
      have hle := ih (hd.reads.failing_eq.trans hgood) hrest
      have hstep := (hd.reads.nz_le hgood).1
      rw [← hd.len_eq] at hstep
      rw [List.map_cons, List.sum_cons]
      omega

theorem getRecords_nil (n : ℕ) (hgood : lbuf.file.failing = false) (hnil : lbuf.file.data = []) :
    getRecords sz d n lbuf = .ok (List.replicate n (recordOf [])) := by
  induction n generalizing lbuf with
  | zero => rfl
  | succ n ih =>
    obtain ⟨lbuf', slots, sgl, e, hd, hiff⟩ := getRecords_succ sz d n lbuf
    have hunbroken : Unbroken sz [] := fun i hi => by cases hi
    have hrec : (lbuf'.buf, lbuf'.len) = recordOf [] := by
      refine (hd.record_iff (k := 0) hgood hnil ⟨by simp, by simp⟩).mpr ⟨hunbroken, .inl rfl⟩
    rw [List.replicate_succ, hiff]
    exact ⟨hrec, ih (hd.reads.failing_eq.trans hgood) (hd.reads.of_nil hnil).2⟩

theorem nz_zero_free {s : List UInt8} (h : ∀ b ∈ s, b ≠ 0) : nz s = s.length :=
  List.countP_eq_length.mpr fun b hb => decide_eq_true (h b hb)

theorem nz_splitOn (s : List UInt8) : ((s.splitOn 0).map List.length).sum = nz s := by
  induction s using split_induction (0 : UInt8) with
  | last l hl =>
    rw [List.splitOn_eq_singleton hl, nz_zero_free fun b hb heq => hl (heq ▸ hb)]
    simp
  | piece l rest hl ih =>
    rw [List.splitOn_append_cons_self_of_not_mem hl, List.map_cons, List.sum_cons, ih, nz_append,
      nz_zero_free fun b hb heq => hl (heq ▸ hb)]
    rfl

theorem splitOn_replicate (k : ℕ) :
    (List.replicate k d).splitOn d = List.replicate (k + 1) [] := by
  induction k with
  | zero => rfl
  | succ k ih =>
    have hsplit := List.splitOn_append_cons_self_of_not_mem (List.not_mem_nil (a := d))
      (List.replicate k d)
    rw [List.nil_append, ih] at hsplit
    exact hsplit

theorem splitOn_lone {r : List UInt8} {k : ℕ} (h : Lone d r k) :
    (r ++ List.replicate k 0).splitOn d = r :: List.replicate k [] := by
  have hmem : d ∉ r := fun hin => (h.free d hin).2 rfl
  cases k with
  | zero => rw [List.replicate_zero, List.append_nil, List.splitOn_eq_singleton hmem]; rfl
  | succ k =>
    have hd := h.nul (Nat.succ_ne_zero k)
    subst hd
    rw [List.replicate_succ, List.splitOn_append_cons_self_of_not_mem hmem, splitOn_replicate]

theorem lone_delivered (h : LoneRecord sz d stream) : DeliversRecords sz d stream := by
  obtain ⟨r, k, rfl, hr, hun, hsize⟩ := h
  obtain ⟨lbuf', slots, sgl, e, hd, hiff⟩ :=
    getRecords_succ sz d k (linebufInit ⟨r ++ List.replicate k 0, false, false⟩)
  rw [DeliversRecords, splitOn_lone hr, List.length_cons, List.length_replicate, List.map_cons,
    List.map_replicate, hiff]
  refine ⟨(hd.record_iff rfl rfl hr).mpr ⟨hun, hsize⟩, ?_⟩
  rcases hd.reads.lone rfl rfl hr with ⟨-, he, -⟩ | ⟨hbroken, -⟩
  · exact getRecords_nil k hd.reads.failing_eq (hd.reads.at_end rfl he).2
  · exact absurd hun hbroken

theorem nz_eq_zero {s : List UInt8} (h : nz s = 0) : s = List.replicate s.length 0 := by
  apply List.eq_replicate_of_mem
  intro b hb
  have hzero := List.countP_eq_zero.mp h b hb
  simpa using hzero

/-- With NUL for a delimiter every byte in front of the end counts, so nothing
may stand behind the first record. -/
theorem nul_tail {r rest : List UInt8} {lbuf' : LineBuf} {slots : List Slot}
    {sgl : List Segment} {e : Option Bool} (hgood : lbuf.file.failing = false)
    (hd : Delivered sz 0 lbuf lbuf' slots sgl e) (hdata : lbuf.file.data = r ++ 0 :: rest)
    (hr : ∀ b ∈ r, b ≠ 0) (hlen : lbuf'.len = r.length)
    (hrest : getRecords sz 0 (rest.splitOn 0).length lbuf' =
      .ok ((rest.splitOn 0).map recordOf)) :
    rest = List.replicate rest.length 0 := by
  have hsum := getRecords_sum _ (hd.reads.failing_eq.trans hgood) hrest
  have hlens : ((rest.splitOn 0).map recordOf).map Prod.snd = (rest.splitOn 0).map List.length := by
    rw [List.map_map]
    rfl
  have htotal : nz lbuf.file.data = r.length + nz rest := by
    rw [hdata, nz_append, nz_zero_free hr]
    rfl
  obtain ⟨hle, hlt⟩ := hd.reads.nz_le hgood
  rw [hlens, nz_splitOn] at hsum
  rw [← hd.len_eq, hlen, htotal] at hle hlt
  have he : e ≠ none := by
    intro he
    have hmove := hlt he
    omega
  rw [(hd.reads.at_end hgood he).2] at hsum
  exact nz_eq_zero (Nat.le_zero.mp hsum)

theorem delivered_lone (hd : d ≠ newline) (h : DeliversRecords sz d stream) :
    LoneRecord sz d stream := by
  cases hsplit : stream.splitOn d with
  | nil => exact absurd hsplit (List.splitOn_ne_nil d stream)
  | cons r rs =>
    rw [DeliversRecords, hsplit, List.length_cons, List.map_cons] at h
    obtain ⟨lbuf', slots, sgl, e, hdel, hiff⟩ :=
      getRecords_succ sz d rs.length (linebufInit ⟨stream, false, false⟩)
    obtain ⟨hrec, hrest⟩ := (hiff _ _).mp h
    have hfree := hdel.zero_free hrec
    have hlone : ∀ k, stream = r ++ List.replicate k 0 → Lone d r k → LoneRecord sz d stream :=
      fun k hdata hr => ⟨r, k, hdata, hr, (hdel.record_iff rfl hdata hr).mp hrec⟩
    by_cases hmem : d ∈ stream
    · obtain ⟨l, rest, hdata, hl⟩ := List.eq_append_cons_of_mem hmem
      rw [hdata, List.splitOn_append_cons_self_of_not_mem hl] at hsplit
      cases hsplit
      have hfree' : ∀ b ∈ r, b ≠ 0 ∧ b ≠ d := fun b hb => ⟨hfree b hb, fun heq => hl (heq ▸ hb)⟩
      by_cases hd₀ : d = 0
      · subst hd₀
        have htail := nul_tail rfl hdel hdata hfree (Prod.ext_iff.mp hrec).2 hrest
        apply hlone (rest.length + 1) _ ⟨hfree', fun _ => rfl⟩
        rw [List.replicate_succ, ← htail, hdata]
      · have hlen := (hdel.bytes_eq hrec).2
        exact absurd hlen.symm (hdel.reads.delimiter rfl hd hd₀ hdata hfree')
    · rw [List.splitOn_eq_singleton hmem] at hsplit
      cases hsplit
      apply hlone 0 _ ⟨fun b hb => ⟨hfree b hb, fun heq => hmem (heq ▸ hb)⟩, by simp⟩
      rw [List.replicate_zero, List.append_nil]

end Calls

/-- The records come back exactly when there is only one, which a newline does
not end before the end of the file, and which fits one segment. -/
theorem records_delivered_iff (sz : Sizes) {d : UInt8} (hd : d ≠ newline) (stream : List UInt8) :
    DeliversRecords sz d stream ↔ LoneRecord sz d stream :=
  ⟨delivered_lone hd, lone_delivered⟩

theorem records_delivered_semicolon : DeliversRecords sizes 59 [97, 98] := by
  have hlone : Lone 59 [97, 98] 0 := ⟨by simp, fun h => absurd rfl h⟩
  have hnone : newline ∉ ([97, 98] : List UInt8) := by decide
  have hun : Unbroken sizes [97, 98] := fun i hi => absurd (List.mem_of_getElem? hi) hnone
  exact (records_delivered_iff sizes (by decide) [97, 98]).mpr
    ⟨[97, 98], 0, rfl, hlone, hun, .inr (by decide)⟩

theorem nul_records_lost : ¬ DeliversRecords sizes 0 [97, 0, 98] := by
  intro h
  obtain ⟨r, k, heq, hr, -⟩ := delivered_lone (by decide) h
  cases k with
  | zero =>
    rw [List.replicate_zero, List.append_nil] at heq
    exact (hr.free 0 (heq ▸ by simp)).1 rfl
  | succ k =>
    have hlast := congrArg List.getLast? heq
    simp [List.getLast?_append, List.getLast?_replicate] at hlast

end IsbnHyphenate
