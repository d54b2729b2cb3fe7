import IsbnHyphenate.Machine

/-!
# The line reader of sgl-getline.c

A line is read page by page into a scatter/gather list and then copied into one
buffer. The pages stand in segments of `SGL_SEGSIZE` slots; the slots of a
segment are filled from the front, so a segment is the list of its occupied
slots. A page is the list of the bytes that have been written to it, and a byte
of `lbuf->buf` that was copied from behind them has no value.
-/

namespace IsbnHyphenate

structure Sizes where
  segSize : ℕ
  pageSize : ℕ
  two_le_segSize : 2 ≤ segSize
  two_le_pageSize : 2 ≤ pageSize

/-- `SGL_SEGSIZE` and `SGL_PAGESIZE`, and below with `SGL_STRESS_TEST`. -/
def sizes : Sizes := ⟨64, 1024, by decide, by decide⟩
def stressSizes : Sizes := ⟨4, 16, by decide, by decide⟩

/-- `data` has not been read yet. At its end a read fails, or reports the end of
the file. -/
structure File where
  data : List UInt8
  failing : Bool
  eof : Bool

structure Slot where
  sbuf : List UInt8
  slen : ℕ

abbrev Segment := List Slot

structure LineBuf where
  file : File
  buf : Option (List (Option UInt8))
  sgl : Option (List Segment)
  len : ℕ
  eof : Bool

def newline : UInt8 := 10

def linebufInit (f : File) : LineBuf := ⟨f, none, none, 0, false⟩

def linebufFree (lbuf : LineBuf) : LineBuf :=
  let lbuf := if lbuf.buf ≠ none then { lbuf with buf := none, len := 0 } else lbuf
  { lbuf with sgl := none }

def linebufSglNew (lbuf : LineBuf) : Run LineBuf :=
  if lbuf.sgl.isSome then .error .abort else .ok { lbuf with sgl := some [[]] }

/-- The list with a new page, and the place of the slot that holds it. When the
last segment is full a new one is linked in, and the page goes to the first slot
of the full one: `sglv` still points there. -/
def sglAppend (sz : Sizes) : List Segment → Run (List Segment × ℕ × ℕ)
  | [] => .error .abort
  | [seg] =>
    if seg.length < sz.segSize then .ok ([seg ++ [⟨[], 0⟩]], 0, seg.length)
    else .ok ([seg.modify 0 fun slot => { slot with sbuf := [] }, []], 0, 0)
  | seg :: sgl => do
    let (sgl, k, i) ← sglAppend sz sgl
    .ok (seg :: sgl, k + 1, i)

def setSlot (sgl : List Segment) (k i : ℕ) (slot : Slot) : List Segment :=
  sgl.modify k fun seg => seg.set i slot

def takeLine : ℕ → List UInt8 → List UInt8
  | 0, _ => []
  | _, [] => []
  | n + 1, b :: s => if b = newline then [b] else b :: takeLine n s

def atEnd (f : File) : File := if f.failing then f else { f with eof := true }

/-- `fgets`, returning what it wrote to the page. A failed read loses the bytes
in front of it. -/
def fgets (size : ℕ) (f : File) : Option (List UInt8) × File :=
  let got := takeLine (size - 1) f.data
  let f' := { f with data := f.data.drop got.length }
  if got.length < size - 1 ∧ got.getLast? ≠ some newline then
    if f.failing ∨ got = [] then (none, atEnd f') else (some (got ++ [0]), atEnd f')
  else (some (got ++ [0]), f')

def fgetsEndlFrom (endl : UInt8) : ℕ → List UInt8 → File → Option (List UInt8) × File
  | 0, buf, f => (some (buf ++ [0]), f)
  | n + 1, buf, f =>
    match f.data with
    | [] =>
      if buf = [] then (none, atEnd f)
      else if buf.getLast? ≠ some 0 then (some (buf ++ [0]), atEnd f)
      else (some buf, atEnd f)
    | b :: data =>
      let f := { f with data := data }
      if b = endl ∧ endl ≠ 0 then (some (buf ++ [b] ++ [0]), f)
      else fgetsEndlFrom endl n (buf ++ [b]) f

def fgetsEndl (size : ℕ) (f : File) (endl : UInt8) : Option (List UInt8) × File :=
  fgetsEndlFrom endl (size - 1) [] f

def strlen (page : List UInt8) : Run ℕ :=
  match page.findIdx? fun b => b = 0 with
  | some n => .ok n
  | none => .error .badRead

structure Pages where
  sgl : List Segment
  llen : ℕ
  file : File
  eof : Option Bool

def readPages (sz : Sizes) (endl : UInt8) : ℕ → List Segment → ℕ → File → Run Pages
  | 0, _, _, _ => .error .spin
  | fuel + 1, sgl, llen, f => do
    let (sgl, k, i) ← sglAppend sz sgl
    let (rbuf, f) := if endl = newline then fgets sz.pageSize f else fgetsEndl sz.pageSize f endl
    match rbuf with
    | none => .ok ⟨sgl, llen, f, some f.eof⟩
    | some page => do
      let slen ← strlen page
      if slen > 0 ∧ page[slen - 1]? = some newline then
        .ok ⟨setSlot sgl k i ⟨page.set (slen - 1) 0, slen - 1⟩, llen + (slen - 1), f, none⟩
      else readPages sz endl fuel (setSlot sgl k i ⟨page, slen⟩) (llen + slen) f

def Slot.bytes (slot : Slot) : List (Option UInt8) :=
  (List.range slot.slen).map fun i => slot.sbuf[i]?

def buildSlots (sz : ℕ) : List (Option UInt8) → Segment → Run (List (Option UInt8))
  | rbuf, [] => .ok rbuf
  | rbuf, slot :: seg =>
    if rbuf.length + slot.slen > sz then .error .abort
    else buildSlots sz (rbuf ++ slot.bytes) seg

def buildSegments (sz : ℕ) : List (Option UInt8) → List Segment → Run (List (Option UInt8))
  | rbuf, [] => .ok rbuf
  | rbuf, seg :: sgl => do
    let rbuf ← buildSlots sz rbuf seg
    buildSegments sz rbuf sgl

def sglStrBuild (sz : ℕ) (sgl : List Segment) : Run (List (Option UInt8)) := do
  let rbuf ← buildSegments sz [] sgl
  if rbuf.length < sz then .ok (rbuf ++ [some 0]) else .error .badWrite

/-- Every page but the last is full, so the bytes of the file and one call more
bound the number of pages. -/
def sglFgetline (sz : Sizes) (lbuf : LineBuf) (endl : UInt8) : Run LineBuf := do
  let lbuf ← linebufSglNew (linebufFree lbuf)
  let pages ← readPages sz endl (lbuf.file.data.length + 2) (lbuf.sgl.getD []) 0 lbuf.file
  let buf ← sglStrBuild (pages.llen + 1) pages.sgl
  .ok { file := pages.file, buf := some buf, sgl := some pages.sgl, len := pages.llen
        eof := pages.eof.getD lbuf.eof }

def cstrOf : List (Option UInt8) → Option (List UInt8)
  | [] => none
  | none :: _ => none
  | some b :: buf => if b = 0 then some [] else (cstrOf buf).map (b :: ·)

def LineBuf.text (lbuf : LineBuf) : Option (List UInt8) := lbuf.buf.bind cstrOf

/-- The string that a caller finds there: `stale` is what `malloc` left in the
bytes without a value. -/
def LineBuf.string (stale : ℕ → UInt8) (lbuf : LineBuf) : Option (List UInt8) :=
  lbuf.buf.bind fun buf => cstrOf (buf.mapIdx fun i b => some (b.getD (stale i)))

end IsbnHyphenate
