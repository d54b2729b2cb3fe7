import IsbnHyphenate.IsbnStream
import IsbnHyphenate.Library.Ledger

/-!
# The line reader with its blocks

The functions of sgl-getline.c and the loop of `isbn_stream` once more, with every
`malloc` and every `free`. A page is a block, and so are a segment, the buffer and
the `linebuf_t`. `plain` forgets the blocks.
-/

namespace IsbnHyphenate.Blocks
open Ledger

abbrev Owning (α : Type) := Held Stop α

/-- `sgl_t` in the block `self`; a slot has the block of its page. -/
structure Segment where
  self : ℕ
  segv : List (ℕ × Slot)

structure LineBuf where
  file : File
  buf : Option (ℕ × List (Option UInt8))
  sgl : Option (List Segment)
  len : ℕ
  eof : Bool

structure Pages where
  sgl : List Segment
  llen : ℕ
  file : File
  eof : Option Bool

def Segment.plain (seg : Segment) : IsbnHyphenate.Segment := seg.segv.map Prod.snd

def LineBuf.plain (lbuf : LineBuf) : IsbnHyphenate.LineBuf :=
  ⟨lbuf.file, lbuf.buf.map Prod.snd, lbuf.sgl.map (List.map Segment.plain), lbuf.len, lbuf.eof⟩

def linebufInit (f : File) : LineBuf := ⟨f, none, none, 0, false⟩

def freeSglSegment (seg : Segment) : Owning Unit := freeAll .badWrite (seg.segv.map Prod.fst)

def freeSgl : List Segment → Owning Unit
  | [] => pure ()
  | seg :: sgl => do
    freeSglSegment seg
    free .badWrite seg.self
    freeSgl sgl

def linebufFree (lbuf : LineBuf) : Owning LineBuf := do
  let lbuf ← match lbuf.buf with
    | some buf => do
      free .badWrite buf.1
      pure { lbuf with buf := none, len := 0 }
    | none => pure lbuf
  match lbuf.sgl with
  | some sgl => do
    freeSgl sgl
    pure { lbuf with sgl := none }
  | none => pure lbuf

def linebufSglNew (lbuf : LineBuf) : Owning LineBuf :=
  if lbuf.sgl.isSome then quit .abort
  else do
    let self ← malloc
    pure { lbuf with sgl := some [⟨self, []⟩] }

/-- The block in the first slot of a full segment is forgotten. -/
def sglAppend (sz : Sizes) : List Segment → Owning (List Segment × ℕ × ℕ)
  | [] => quit .abort
  | [seg] =>
    if seg.segv.length < sz.segSize then do
      let rbuf ← malloc
      pure ([{ seg with segv := seg.segv ++ [(rbuf, ⟨[], 0⟩)] }], 0, seg.segv.length)
    else do
      let self ← malloc
      let rbuf ← malloc
      pure ([{ seg with segv := seg.segv.modify 0 fun slot => (rbuf, { slot.2 with sbuf := [] }) },
        ⟨self, []⟩], 0, 0)
  | seg :: sgl => do
    let (sgl, k, i) ← sglAppend sz sgl
    pure (seg :: sgl, k + 1, i)

def setSlot (sgl : List Segment) (k i : ℕ) (slot : Slot) : List Segment :=
  sgl.modify k fun seg => { seg with segv := seg.segv.modify i fun old => (old.1, slot) }

def readPages (sz : Sizes) (endl : UInt8) : ℕ → List Segment → ℕ → File → Owning Pages
  | 0, _, _, _ => quit .spin
  | fuel + 1, sgl, llen, f => do
    let (sgl, k, i) ← sglAppend sz sgl
    let (rbuf, f) := if endl = newline then fgets sz.pageSize f else fgetsEndl sz.pageSize f endl
    match rbuf with
    | none => pure ⟨sgl, llen, f, some f.eof⟩
    | some page => do
      let slen ← plain (strlen page)
      if slen > 0 ∧ page[slen - 1]? = some newline then
        pure ⟨setSlot sgl k i ⟨page.set (slen - 1) 0, slen - 1⟩, llen + (slen - 1), f, none⟩
      else readPages sz endl fuel (setSlot sgl k i ⟨page, slen⟩) (llen + slen) f

def sglFgetline (sz : Sizes) (lbuf : LineBuf) (endl : UInt8) : Owning LineBuf := do
  let lbuf ← linebufFree lbuf
  let lbuf ← linebufSglNew lbuf
  let pages ← readPages sz endl (lbuf.file.data.length + 2) (lbuf.sgl.getD []) 0 lbuf.file
  let buf ← malloc
  let text ← plain (sglStrBuild (pages.llen + 1) (pages.sgl.map Segment.plain))
  pure { file := pages.file, buf := some (buf, text), sgl := some pages.sgl, len := pages.llen
         eof := pages.eof.getD lbuf.eof }

def fgetline (sz : Sizes) (lbuf : LineBuf) : Owning LineBuf := do
  let lbuf ← linebufFree lbuf
  let lbuf ← linebufSglNew lbuf
  sglFgetline sz lbuf newline

def streamLoop (sz : Sizes) (stale : ℕ → ℕ → UInt8) (hyphenate : ℕ → CStr → Hyphenation)
    (self : ℕ) : ℕ → ℕ → LineBuf → Owning ℕ
  | 0, _, _ => quit .spin
  | fuel + 1, n, lbuf => do
    let lbuf ← fgetline sz lbuf
    if lbuf.eof then do
      let _ ← linebufFree lbuf
      free .badWrite self
      pure 0
    else if lbuf.len = 0 then streamLoop sz stale hyphenate self fuel n lbuf
    else
      match lbuf.plain.string (stale n) with
      | none => quit .badRead
      | some t => do
        let _ ← plain (hyphenate n (chrsOf t)).ret
        streamLoop sz stale hyphenate self fuel (n + 1) lbuf

def isbnStream (sz : Sizes) (stale : ℕ → ℕ → UInt8) (hyphenate : ℕ → CStr → Hyphenation)
    (fuel : ℕ) (f : File) : Owning ℕ := do
  let self ← malloc
  streamLoop sz stale hyphenate self fuel 0 (linebufInit f)

def Segment.blocks (seg : Segment) : List ℕ := seg.segv.map Prod.fst ++ [seg.self]

def sglBlocks (sgl : List Segment) : List ℕ := sgl.flatMap Segment.blocks

def LineBuf.blocks (lbuf : LineBuf) : List ℕ :=
  (lbuf.buf.map Prod.fst).toList ++ sglBlocks (lbuf.sgl.getD [])

/-- Beside the blocks of the list one is lost for every segment beyond `n`. -/
def Loses (n : ℕ) (own : Multiset ℕ) (sgl : List Segment) : Prop :=
  ∃ lost : Multiset ℕ, own = sglBlocks sgl + lost ∧ lost.card + n = sgl.length

variable {sz : Sizes} {endl : UInt8}

theorem sglBlocks_cons (seg : Segment) (sgl : List Segment) :
    sglBlocks (seg :: sgl) = seg.segv.map Prod.fst ++ (seg.self :: sglBlocks sgl) := by
  rw [sglBlocks, List.flatMap_cons, Segment.blocks, List.append_assoc, List.singleton_append]
  rfl

theorem coe_sglBlocks_cons (seg : Segment) (sgl : List Segment) :
    (sglBlocks (seg :: sgl) : Multiset ℕ) = sglBlocks sgl + seg.blocks := by
  rw [sglBlocks, List.flatMap_cons, ← Multiset.coe_add, Multiset.add_comm]
  rfl

theorem freeSgl_eq (sgl : List Segment) : freeSgl sgl = freeAll .badWrite (sglBlocks sgl) := by
  induction sgl with
  | nil => rfl
  | cons seg sgl ih =>
    rw [freeSgl, ih, sglBlocks_cons, freeAll_append]
    rfl

theorem linebufFree_eq (lbuf : LineBuf) : linebufFree lbuf =
    freeAll .badWrite lbuf.blocks >>= fun _ => pure { lbuf with
      buf := none, sgl := none, len := if lbuf.buf = none then lbuf.len else 0 } := by
  obtain ⟨file, buf, sgl, len, eof⟩ := lbuf
  cases buf <;> cases sgl <;> simp [linebufFree, LineBuf.blocks, sglBlocks, freeSgl_eq, freeAll]

theorem sglAppend_keeps (sz : Sizes) (sgl : List Segment) :
    Accounts (sglBlocks sgl) (sglAppend sz sgl) (IsbnHyphenate.sglAppend sz (sgl.map Segment.plain))
      fun p q own => p.1.map Segment.plain = q.1 ∧ p.2 = q.2 ∧ Loses sgl.length own p.1 := by
  induction sgl with
  | nil => exact .quit _
  | cons seg sgl ih =>
    cases sgl with
    | nil =>
      have hlen : seg.plain.length = seg.segv.length := List.length_map _
      rw [sglAppend, List.map_cons, List.map_nil, IsbnHyphenate.sglAppend, hlen]
      split_ifs with hroom
      · refine .malloc fun rbuf => .pure ⟨?_, rfl, 0, ?_, rfl⟩
        · simp [Segment.plain]
        · rw [Multiset.cons_coe, Multiset.add_zero, Multiset.coe_eq_coe, sglBlocks_cons,
            sglBlocks_cons, List.map_append, List.append_assoc]
          exact List.perm_middle.symm
      · obtain ⟨self₀, segv⟩ := seg
        cases segv with
        | nil => exact absurd (Nat.lt_of_lt_of_le Nat.two_pos sz.two_le_segSize) hroom
        | cons slot segv =>
          refine .malloc fun self => .malloc fun rbuf => .pure ⟨rfl, rfl, {slot.1}, ?_, rfl⟩
          simp only [sglBlocks_cons, List.modify_zero_cons, List.map_cons, Multiset.cons_coe,
            ← Multiset.coe_singleton, Multiset.coe_add, Multiset.coe_eq_coe]
          refine List.perm_iff_count.mpr fun b => ?_
          simp only [List.count_append, List.count_cons, List.count_nil, List.map_nil]
          omega
    | cons seg' sgl =>
      have hrest := ih.frame seg.blocks
      rw [coe_sglBlocks_cons, sglAppend, List.map_cons, List.map_cons,
        IsbnHyphenate.sglAppend, ← List.map_cons]
      · refine hrest.bind fun p q own hpost => ?_
        obtain ⟨o, rfl, hplain, hplace, lost, rfl, hcard⟩ := hpost
        refine .pure ⟨?_, ?_, lost, ?_, ?_⟩
        · rw [List.map_cons, hplain]
        · exact congrArg₂ Prod.mk (congrArg (·.1 + 1) hplace) (congrArg Prod.snd hplace)
        · simp only [coe_sglBlocks_cons, Multiset.add_assoc, Multiset.add_comm lost]
        · simp only [List.length_cons] at hcard ⊢
          omega
      all_goals exact fun h => by cases h

theorem Loses.append {n : ℕ} {own : Multiset ℕ} {sgl : List Segment} (h : Loses n own sgl) :
    Accounts own (sglAppend sz sgl) (IsbnHyphenate.sglAppend sz (sgl.map Segment.plain))
      fun p q own => p.1.map Segment.plain = q.1 ∧ p.2 = q.2 ∧ Loses n own p.1 := by
  obtain ⟨lost, rfl, hcard⟩ := h
  refine ((sglAppend_keeps sz sgl).frame lost).mono fun p q own hpost => ?_
  obtain ⟨o, rfl, hplain, hplace, more, rfl, hmore⟩ := hpost
  refine ⟨hplain, hplace, more + lost, Multiset.add_assoc _ _ _, ?_⟩
  rw [Multiset.card_add]
  omega

theorem map_modify {α β : Type} {f : α → β} {g : α → α} {g' : β → β}
    (h : ∀ a, f (g a) = g' (f a)) (l : List α) (i : ℕ) :
    (l.modify i g).map f = (l.map f).modify i g' := by
  induction l generalizing i with
  | nil => simp
  | cons a l ih => cases i <;> simp [h, ih]

theorem setSlot_plain (sgl : List Segment) (k i : ℕ) (slot : Slot) :
    (setSlot sgl k i slot).map Segment.plain =
      IsbnHyphenate.setSlot (sgl.map Segment.plain) k i slot := by
  refine map_modify (fun seg => ?_) sgl k
  have hslot : ∀ old : ℕ × Slot, Prod.snd (old.1, slot) = (fun _ => slot) old.2 := fun _ => rfl
  rw [List.set_eq_modify]
  exact map_modify hslot seg.segv i

theorem setSlot_blocks (sgl : List Segment) (k i : ℕ) (slot : Slot) :
    sglBlocks (setSlot sgl k i slot) = sglBlocks sgl := by
  have hslot : ∀ old : ℕ × Slot, Prod.fst (old.1, slot) = id old.1 := fun _ => rfl
  have hseg : ∀ seg : Segment, Segment.blocks
      { seg with segv := seg.segv.modify i fun old => (old.1, slot) } = id seg.blocks := by
    intro seg
    rw [Segment.blocks, map_modify hslot, List.modify_id]
    rfl
  rw [sglBlocks, List.flatMap_def, setSlot, map_modify hseg, List.modify_id]
  rfl

theorem Loses.setSlot {n : ℕ} {own : Multiset ℕ} {sgl : List Segment} (h : Loses n own sgl)
    (k i : ℕ) (slot : Slot) : Loses n own (setSlot sgl k i slot) := by
  obtain ⟨lost, rfl, hcard⟩ := h
  refine ⟨lost, ?_, ?_⟩
  · rw [setSlot_blocks]
  · rw [hcard, Blocks.setSlot, List.length_modify]

theorem readPages_keeps {n : ℕ} (fuel : ℕ) {own : Multiset ℕ} {sgl : List Segment} (llen : ℕ)
    (f : File) (h : Loses n own sgl) :
    Accounts own (readPages sz endl fuel sgl llen f)
      (IsbnHyphenate.readPages sz endl fuel (sgl.map Segment.plain) llen f)
      fun p q own => p.sgl.map Segment.plain = q.sgl ∧ p.llen = q.llen ∧ p.file = q.file ∧
        p.eof = q.eof ∧ Loses n own p.sgl := by
  induction fuel generalizing own sgl llen f with
  | zero => exact .quit _
  | succ fuel ih =>
    rw [readPages, IsbnHyphenate.readPages]
    refine h.append.bind fun p q own hpost => ?_
    obtain ⟨sgl', k, i⟩ := p
    obtain ⟨sgl'', k', i'⟩ := q
    obtain ⟨rfl, hplace, hloses⟩ := hpost
    cases hplace
    cases (if endl = newline then fgets sz.pageSize f else fgetsEndl sz.pageSize f endl) with
    | mk rbuf f' =>
      cases rbuf with
      | none => exact .pure ⟨rfl, rfl, rfl, rfl, hloses⟩
      | some page =>
        refine .plain fun slen _ => ?_
        simp only
        split_ifs
        · exact .pure ⟨setSlot_plain _ _ _ _, rfl, rfl, rfl, hloses.setSlot _ _ _⟩
        · rw [← setSlot_plain]
          exact ih _ _ (hloses.setSlot _ _ _)

def overwritten (lbuf : IsbnHyphenate.LineBuf) : ℕ := (lbuf.sgl.getD []).length - 1

def Owns (own : Multiset ℕ) (lbuf : LineBuf) (lost : ℕ) : Prop :=
  ∃ rest : Multiset ℕ, own = lbuf.blocks + rest ∧ rest.card = lost

def renewed (lbuf : LineBuf) (self : ℕ) : LineBuf :=
  { lbuf with
    buf := none
    sgl := some [⟨self, []⟩]
    len := if lbuf.buf = none then lbuf.len else 0 }

theorem renewed_plain (lbuf : LineBuf) (self : ℕ) :
    IsbnHyphenate.linebufSglNew (IsbnHyphenate.linebufFree lbuf.plain) =
      .ok (renewed lbuf self).plain := by
  obtain ⟨file, buf, sgl, len, eof⟩ := lbuf
  cases buf <;> cases sgl <;> rfl

theorem renew_keeps {β γ : Type} {lbuf : LineBuf} {f : LineBuf → Owning γ}
    {g : IsbnHyphenate.LineBuf → Run β} {Q : γ → β → Multiset ℕ → Prop}
    (h : ∀ self, Accounts {self} (f (renewed lbuf self)) (g (renewed lbuf self).plain) Q) :
    Accounts lbuf.blocks (linebufFree lbuf >>= fun lbuf => linebufSglNew lbuf >>= f)
      (IsbnHyphenate.linebufSglNew (IsbnHyphenate.linebufFree lbuf.plain) >>= g) Q := by
  have hnew : linebufFree lbuf >>= (fun lbuf => linebufSglNew lbuf >>= f) =
      freeAll .badWrite lbuf.blocks >>= fun _ => malloc >>= fun self => f (renewed lbuf self) := by
    rw [linebufFree_eq, bind_assoc]
    rfl
  rw [hnew, ← Multiset.add_zero (lbuf.blocks : Multiset ℕ)]
  refine .freeAll _ (.malloc fun self => ?_)
  rw [renewed_plain lbuf self, run_ok_bind]
  exact h self

theorem sglFgetline_keeps (lbuf : LineBuf) :
    Accounts lbuf.blocks (sglFgetline sz lbuf endl) (IsbnHyphenate.sglFgetline sz lbuf.plain endl)
      fun p q own => p.plain = q ∧ Owns own p (overwritten q) := by
  refine renew_keeps fun self => ?_
  have hone : Loses 1 {self} [⟨self, []⟩] := ⟨0, rfl, rfl⟩
  refine (readPages_keeps _ _ _ hone).bind fun p q own hpost => ?_
  obtain ⟨hsgl, hllen, hfile, heof, lost, rfl, hcard⟩ := hpost
  refine .malloc fun buf => ?_
  rw [hsgl, hllen]
  refine .plain fun text _ => .pure ⟨?_, lost, ?_, ?_⟩
  · simp only [LineBuf.plain, Option.map_some, hsgl, hfile, heof, renewed]
  · rw [← Multiset.cons_add, Multiset.cons_coe]
    rfl
  · rw [overwritten, Option.getD_some, ← hsgl, List.length_map, ← hcard, Nat.add_sub_cancel]

end IsbnHyphenate.Blocks
