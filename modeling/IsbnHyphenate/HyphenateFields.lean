import IsbnHyphenate.HyphenateSafety

/-!
# The number that is looked up and the fields that are written

For an ISBN-13 the bytes read by `parse_number_slice` are digits, and their
value is a decimal number. For a placement that comes back, the first three
fields of `hbuf` are the pieces of the ISBN and of the prefix they should be,
whatever follows them.
-/

namespace IsbnHyphenate
open Slices CopyScript

def zero : Chr := ⟨48, by decide⟩

/-- Seven digits from position `i` on, without the check digit, filled up with
zeros on the right. -/
def sevenDigits (s : CStr) (i : ℕ) : CStr :=
  let ds := ((s.take 12).drop i).take 7
  ds ++ List.replicate (7 - ds.length) zero

def numberAt (s : CStr) (i : ℕ) : UInt32 := UInt32.ofNat (decimal 0 (sevenDigits s i))

theorem charWord_digit {c : Chr} (hc : isDigit c) :
    charWord c.1 - charWord 48 = UInt32.ofNat (digitVal c) := by
  have hb : 48 ≤ c.1.toNat ∧ c.1.toNat ≤ 57 := by simpa [isDigit] using hc
  have hlt : c.1 < 128 := by
    rw [UInt8.lt_iff_toNat_lt]
    have : (128 : UInt8).toNat = 128 := rfl
    omega
  have h48 : charWord 48 = 48 := by decide
  have hsub : (UInt32.ofNat c.1.toNat - 48).toNat = c.1.toNat - 48 := by
    rw [UInt32.toNat_sub_of_le, UInt32.toNat_ofNat']
    · have : (48 : UInt32).toNat = 48 := rfl
      omega
    · rw [UInt32.le_iff_toNat_le, UInt32.toNat_ofNat']
      have : (48 : UInt32).toNat = 48 := rfl
      omega
  have hword : charWord c.1 = UInt32.ofNat c.1.toNat := by
    rw [charWord, if_pos hlt]
    exact UInt32.toNat_inj.mp (by rw [UInt8.toNat_toUInt32, UInt32.toNat_ofNat']; omega)
  rw [hword, h48, ← UInt32.toNat_inj, hsub, UInt32.toNat_ofNat', digitVal]
  have : '0'.toNat = 48 := rfl
  omega

theorem parseNumberSlice_digits {s : ℕ → UInt8} (ds : CStr) (hd : ∀ c ∈ ds, isDigit c) {i m : ℕ}
    (hs : ∀ j c, ds[j]? = some c → s (i + j) = c.1) :
    parseNumberSlice s i ds.length (UInt32.ofNat m) = UInt32.ofNat (decimal m ds) := by
  induction ds generalizing i m with
  | nil => rfl
  | cons c ds ih =>
    obtain ⟨hc, hds⟩ := List.forall_mem_cons.mp hd
    have h0 : s i = c.1 := hs 0 c rfl
    have hstep : UInt32.ofNat m * 10 + (charWord c.1 - charWord 48) =
        UInt32.ofNat (m * 10 + digitVal c) := by
      rw [charWord_digit hc, UInt32.ofNat_add, UInt32.ofNat_mul]
      rfl
    rw [List.length_cons, parseNumberSlice, h0, hstep, decimal, List.foldl_cons]
    refine ih hds fun j d hj => ?_
    rw [Nat.add_right_comm, Nat.add_assoc]
    exact hs (j + 1) d hj

theorem ZStr.byte_of_getElem? {z : ZStr} {i : ℕ} {c : Chr} (h : z.str[i]? = some c) :
    z.byte i = c.1 := by
  rw [ZStr.byte, h]

theorem registrantOf_isbn13 {z : ZStr} (hz : Isbn13 z.str) :
    registrantOf z = numberAt z.str 4 := by
  have hds : sevenDigits z.str 4 = (z.str.drop 4).take 7 := by
    have hlen : (((z.str.take 12).drop 4).take 7).length = 7 := by
      simp [hz.1]
    simp only [sevenDigits, hlen, Nat.sub_self, List.replicate_zero, List.append_nil]
    rw [List.drop_take, List.take_take]
    rfl
  have hlen : ((z.str.drop 4).take 7).length = 7 := by simp [hz.1]
  have hparse := parseNumberSlice_digits (s := z.byte) ((z.str.drop 4).take 7)
    (fun c hc => hz.2 c (List.mem_of_mem_drop (List.mem_of_mem_take hc))) (i := 4) (m := 0)
    (fun j c hj => ZStr.byte_of_getElem? (by
      rw [List.getElem?_take] at hj
      split_ifs at hj
      rwa [List.getElem?_drop] at hj))
  rw [hlen] at hparse
  rw [registrantOf, numberAt, hds, ← hparse]
  rfl

def cstrAt (buf : ℕ → Option UInt8) : ℕ → ℕ → CStr
  | _, 0 => []
  | i, k + 1 =>
    match buf i with
    | none => []
    | some b => if h : b ≠ 0 then ⟨b, h⟩ :: cstrAt buf (i + 1) k else []

theorem cstrAt_append {buf : ℕ → Option UInt8} (t : CStr) {i k : ℕ} (hk : t.length ≤ k)
    (ht : ∀ j c, t[j]? = some c → buf (i + j) = some c.1) :
    cstrAt buf i k = t ++ cstrAt buf (i + t.length) (k - t.length) := by
  induction t generalizing i k with
  | nil => simp
  | cons c t ih =>
    rw [List.length_cons] at hk
    obtain ⟨k, rfl⟩ : ∃ k', k = k' + 1 := ⟨k - 1, by omega⟩
    have h0 : buf i = some c.1 := ht 0 c rfl
    have hrest := ih (i := i + 1) (k := k) (by omega) fun j d hj => by
      rw [Nat.add_right_comm, Nat.add_assoc]
      exact ht (j + 1) d hj
    rw [cstrAt, h0]
    simp only [dif_pos c.2, hrest, List.length_cons, List.cons_append, Nat.add_sub_add_right]
    rw [Nat.add_right_comm, Nat.add_assoc]

def registrantField (h : Hyphenation) (bsz : ℕ) : Option CStr :=
  ((cstrAt h.hbuf 0 bsz).splitOnP (chrIs '-'))[2]?

theorem bytes_of_string (z : ZStr) (off n : ℕ) (h : off + n ≤ z.str.length) :
    (List.range n).map (fun i => z.byte (off + i)) =
      ((z.str.drop off).take n).map Subtype.val := by
  refine List.ext_getElem? fun j => ?_
  rw [List.getElem?_map, List.getElem?_map, List.getElem?_take]
  by_cases hj : j < n
  · have hlt : off + j < z.str.length := by omega
    rw [if_pos hj, List.getElem?_range hj, List.getElem?_drop, List.getElem?_eq_getElem hlt,
      Option.map_some, Option.map_some, ZStr.byte_of_getElem? (List.getElem?_eq_getElem hlt)]
  · rw [if_neg hj, List.getElem?_eq_none (by rw [List.length_range]; omega)]
    rfl

def hyphenChr : Chr := ⟨hyphen, by decide⟩

def threeFields (s pfx : CStr) (len : ℕ) : CStr :=
  s.take 3 ++ hyphenChr ::
    (pfx.drop 3 ++ hyphenChr :: ((s.drop pfx.length).take len ++ [hyphenChr]))

theorem length_threeFields_le (s pfx : CStr) (len : ℕ) :
    (threeFields s pfx len).length ≤ 6 + (pfx.length - 3) + len := by
  simp only [threeFields, List.length_append, List.length_cons, List.length_take,
    List.length_drop, List.length_nil]
  omega

section Output
variable {z : ZStr} {pfx : CStr} {len : UInt64} {bsz : ℕ}

theorem placed_ok (hb : 18 ≤ bsz) (h3 : 3 ≤ pfx.length) (h16 : pfx.length < 16)
    (h8 : len.toNat ≤ 8) : (placed bsz z len pfx).ret = .ok 0 := by
  rw [placed_eq hb h3 h16 h8]

theorem placed_threeFields (hb : 18 ≤ bsz) (h3 : 3 ≤ pfx.length) (h16 : pfx.length < 16)
    (h8 : len.toNat ≤ 8) (hz : pfx.length + len.toNat ≤ z.str.length) {j : ℕ} {c : Chr}
    (hj : (threeFields z.str pfx len.toNat)[j]? = some c) :
    (placed bsz z len pfx).hbuf j = some c.1 := by
  simp only [placed_eq hb h3 h16 h8]
  rw [run_tiles (plainScript_tiles _ _ h3 h8), Nat.sub_zero]
  have hean := bytes_of_string z 0 3 (by omega)
  have hgroup := bytes_of_string ⟨pfx, fun _ => 0⟩ 3 (pfx.length - 3) (by simp only; omega)
  have hreg := bytes_of_string z pfx.length len.toNat hz
  rw [List.take_of_length_le (by rw [List.length_drop])] at hgroup
  simp only [plainScript, List.flatMap_cons, Step.bytes, sourceBytes, hean, hgroup, hreg,
    List.drop_zero]
  have hfront : ∀ more : List UInt8, (z.str.take 3).map Subtype.val ++ ([hyphen] ++
      ((pfx.drop 3).map Subtype.val ++ ([hyphen] ++
        (((z.str.drop pfx.length).take len.toNat).map Subtype.val ++ ([hyphen] ++ more))))) =
      (threeFields z.str pfx len.toNat).map Subtype.val ++ more := by
    intro more
    simp [threeFields, hyphenChr]
  have hcut : j < (threeFields z.str pfx len.toNat).length := (List.getElem?_eq_some_iff.mp hj).1
  have hlength := length_threeFields_le z.str pfx len.toNat
  rw [hfront, if_pos (by omega), List.getElem?_append_left (by rwa [List.length_map]),
    List.getElem?_map, hj, Option.map_some]

theorem digit_not_hyphen {c : Chr} (hc : isDigit c) : chrIs '-' c = false := by
  have hb : 48 ≤ c.1.toNat ∧ c.1.toNat ≤ 57 := by simpa [isDigit] using hc
  have : '-'.toNat = 45 := rfl
  simp only [chrIs, beq_eq_false_iff_ne]
  omega

theorem placed_registrant (hb : 32 ≤ bsz) (h3 : 3 ≤ pfx.length) (h16 : pfx.length < 16)
    (h8 : len.toNat ≤ 8) (hz : Isbn13 z.str) (hfit : pfx.length + len.toNat ≤ 13)
    (hdigits : ∀ c ∈ pfx, isDigit c) :
    registrantField (placed bsz z len pfx) bsz =
      some ((z.str.drop pfx.length).take len.toNat) := by
  have hlength : (threeFields z.str pfx len.toNat).length ≤ bsz := by
    have hle := length_threeFields_le z.str pfx len.toNat
    omega
  have hread : cstrAt (placed bsz z len pfx).hbuf 0 bsz = threeFields z.str pfx len.toNat ++
      cstrAt (placed bsz z len pfx).hbuf (0 + (threeFields z.str pfx len.toNat).length)
        (bsz - (threeFields z.str pfx len.toNat).length) := by
    refine cstrAt_append _ hlength fun j c hj => ?_
    rw [Nat.zero_add]
    exact placed_threeFields (by omega) h3 h16 h8 (by rw [hz.1]; exact hfit) hj
  have hhyphen : chrIs '-' hyphenChr = true := by decide
  have hean : ∀ c ∈ z.str.take 3, chrIs '-' c = false :=
    fun c hc => digit_not_hyphen (hz.2 c (List.mem_of_mem_take hc))
  have hgroup : ∀ c ∈ pfx.drop 3, chrIs '-' c = false :=
    fun c hc => digit_not_hyphen (hdigits c (List.mem_of_mem_drop hc))
  have hreg : ∀ c ∈ (z.str.drop pfx.length).take len.toNat, chrIs '-' c = false :=
    fun c hc => digit_not_hyphen (hz.2 c (List.mem_of_mem_drop (List.mem_of_mem_take hc)))
  rw [registrantField, hread, threeFields, List.append_assoc, List.cons_append,
    List.splitOnP_append_cons_of_forall_mem hean _ hhyphen, List.append_assoc, List.cons_append,
    List.splitOnP_append_cons_of_forall_mem hgroup _ hhyphen, List.append_assoc,
    List.singleton_append, List.splitOnP_append_cons_of_forall_mem hreg _ hhyphen]
  rfl

end Output

def slice (s : CStr) (i j : ℕ) : CStr := (s.drop i).take (j - i)

def fiveFields (s : CStr) (g L : ℕ) : CStr :=
  [hyphenChr].intercalate [slice s 0 3, slice s 3 (3 + g), slice s (3 + g) (3 + g + L),
    slice s (3 + g + L) 12, slice s 12 13]

structure PlacesFields (z : ZStr) (g L bsz : ℕ) (h : Hyphenation) : Prop where
  returned : h.ret = .ok 0
  inside : ∀ r ∈ h.reads, r.1 + r.2 ≤ 13
  written : ∀ w ∈ h.writes, w.1 + w.2 ≤ 18
  output : cstrAt h.hbuf 0 bsz = fiveFields z.str g L
  length : (cstrAt h.hbuf 0 bsz).length = 17
  digits : (∀ c ∈ z.str, chrIs '-' c = false) →
    (cstrAt h.hbuf 0 bsz).filter (fun c => !chrIs '-' c) = z.str

theorem slice_append (s : CStr) {i j k : ℕ} (hij : i ≤ j) (hjk : j ≤ k) :
    slice s i j ++ slice s j k = slice s i k := by
  have hlen : k - i = (j - i) + (k - j) := by omega
  have hdrop : i + (j - i) = j := by omega
  simp only [slice, hlen, List.take_add, List.drop_drop, hdrop]

theorem length_slice {s : CStr} {i j : ℕ} (hj : j ≤ s.length) : (slice s i j).length = j - i := by
  rw [slice, List.length_take, List.length_drop]
  omega

theorem slice_full {s : CStr} {n : ℕ} (hs : s.length = n) : slice s 0 n = s := by
  rw [slice, List.drop_zero, List.take_of_length_le (by omega)]

theorem fiveFields_eq (s : CStr) (g L : ℕ) :
    fiveFields s g L = slice s 0 3 ++ hyphenChr :: (slice s 3 (3 + g) ++ hyphenChr ::
      (slice s (3 + g) (3 + g + L) ++ hyphenChr ::
        (slice s (3 + g + L) 12 ++ hyphenChr :: slice s 12 13))) := by
  simp [fiveFields, List.intercalate]

section FiveFields
variable {z : ZStr} {g L bsz : ℕ}

theorem length_fiveFields (hz : z.str.length = 13) (hfit : g + L ≤ 9) :
    (fiveFields z.str g L).length = 17 := by
  have h1 : (slice z.str 0 3).length = 3 := length_slice (by omega)
  have h2 : (slice z.str 3 (3 + g)).length = 3 + g - 3 := length_slice (by omega)
  have h3 : (slice z.str (3 + g) (3 + g + L)).length = 3 + g + L - (3 + g) :=
    length_slice (by omega)
  have h4 : (slice z.str (3 + g + L) 12).length = 12 - (3 + g + L) := length_slice (by omega)
  have h5 : (slice z.str 12 13).length = 1 := length_slice (by omega)
  simp only [fiveFields_eq, List.length_append, List.length_cons, h1, h2, h3, h4, h5]
  omega

theorem filter_fiveFields (hz : z.str.length = 13) (hfit : g + L ≤ 9)
    (hpure : ∀ c ∈ z.str, chrIs '-' c = false) :
    (fiveFields z.str g L).filter (fun c => !chrIs '-' c) = z.str := by
  have hkeep : ∀ i j, (slice z.str i j).filter (fun c => !chrIs '-' c) = slice z.str i j := by
    intro i j
    apply List.filter_eq_self.mpr
    intro c hc
    rw [hpure c (List.mem_of_mem_drop (List.mem_of_mem_take hc))]
    rfl
  have hhyphen : chrIs '-' hyphenChr = true := by decide
  calc (fiveFields z.str g L).filter (fun c => !chrIs '-' c)
      = slice z.str 0 3 ++ (slice z.str 3 (3 + g) ++ (slice z.str (3 + g) (3 + g + L) ++
          (slice z.str (3 + g + L) 12 ++ slice z.str 12 13))) := by
        simp only [fiveFields_eq, List.filter_append, List.filter_cons, hkeep, hhyphen,
          Bool.not_true, Bool.false_eq_true, if_false]
    _ = slice z.str 0 13 := by
        rw [slice_append _ (by omega) (by omega), slice_append _ (by omega) (by omega),
          slice_append _ (by omega) (by omega), slice_append _ (by omega) (by omega)]
    _ = z.str := slice_full hz

theorem slice_bytes (hz : z.str.length = 13) {i n j : ℕ} (hj : j = i + n) (hle : j ≤ 13) :
    (List.range n).map (fun k => z.byte (i + k)) = (slice z.str i j).map Subtype.val := by
  subst hj
  rw [bytes_of_string z i n (by omega), slice, Nat.add_sub_cancel_left]

theorem placed_hbuf_one (hb : 18 ≤ bsz) (hz : z.str.length = 13) (hL : L ≤ 8) (j : ℕ) :
    (placed bsz z (UInt64.ofNat L) (z.str.take 4)).hbuf j =
      ((fiveFields z.str 1 L).map Subtype.val ++ [0])[j]? := by
  have hpfx : (z.str.take 4).length = 4 := by simp [hz]
  have hlen : (UInt64.ofNat L).toNat = L := by
    rw [UInt64.toNat_ofNat']
    omega
  rw [placed_eq hb (by omega) (by omega) (by omega), hlen, hpfx]
  simp only
  rw [run_tiles (plainScript_tiles _ _ (by omega) hL), Nat.sub_zero]
  have hean := slice_bytes hz (i := 0) (n := 3) rfl (by omega)
  have hgroup := bytes_of_string ⟨z.str.take 4, fun _ => 0⟩ 3 1 (by simp only; omega)
  have hreg := slice_bytes hz (i := 4) (n := L) rfl (by omega)
  have hpub := slice_bytes hz (i := 4 + L) (n := 8 - L) (j := 12) (by omega) (by omega)
  have hcheck := slice_bytes hz (i := 12) (n := 1) rfl (by omega)
  have hslice : ((z.str.take 4).drop 3).take 1 = slice z.str 3 (3 + 1) := by
    rw [List.drop_take, List.take_take]
    rfl
  rw [hslice] at hgroup
  have hbytes : (plainScript L 4).flatMap (Step.bytes (sourceBytes z (z.str.take 4))) =
      (fiveFields z.str 1 L).map Subtype.val ++ [0] := by
    simp only [plainScript, List.flatMap_cons, List.flatMap_nil, Step.bytes, sourceBytes, hean,
      hgroup, hreg, hpub, hcheck, fiveFields_eq, List.map_append, List.map_cons, List.append_assoc,
      List.cons_append, List.nil_append, Nat.reduceSub, Nat.reduceAdd]
    rfl
  rw [hbytes]
  split_ifs with hj
  · rfl
  · rw [List.getElem?_eq_none]
    rw [List.length_append, List.length_map, length_fiveFields hz (by omega)]
    simp only [List.length_singleton]
    omega

theorem cstrAt_nul {buf : ℕ → Option UInt8} {i : ℕ} (h : buf i = some 0) (k : ℕ) :
    cstrAt buf i k = [] := by
  cases k with
  | zero => rfl
  | succ k =>
    rw [cstrAt, h]
    rfl

theorem placed_output_one (hb : 18 ≤ bsz) (hz : z.str.length = 13) (hL : L ≤ 8) :
    cstrAt (placed bsz z (UInt64.ofNat L) (z.str.take 4)).hbuf 0 bsz = fiveFields z.str 1 L := by
  have hlen := length_fiveFields (g := 1) (L := L) hz (by omega)
  have hbuf := placed_hbuf_one hb hz hL
  rw [cstrAt_append (fiveFields z.str 1 L) (by omega) fun j c hj => ?_, cstrAt_nul,
    List.append_nil]
  · rw [hbuf, List.getElem?_append_right (by rw [List.length_map]; omega), List.length_map]
    simp
  · have hlt := (List.getElem?_eq_some_iff.mp hj).1
    rw [Nat.zero_add, hbuf, List.getElem?_append_left (by rwa [List.length_map]),
      List.getElem?_map, hj]
    rfl

/-- The fourth field is cut to 8 digits less the third one, as if the group had
one digit; with more digits in the group the NUL is written behind byte 17. -/
theorem place_hyphens_fields_iff (hz : z.str.length = 13) (hg : 1 ≤ g) (hfit : g + L ≤ 8)
    (hb : 18 ≤ bsz) :
    PlacesFields z g L bsz (placed bsz z (UInt64.ofNat L) (z.str.take (3 + g))) ↔ g = 1 := by
  have hpfx : (z.str.take (3 + g)).length = 3 + g := by
    rw [List.length_take]
    omega
  have hlen : (UInt64.ofNat L).toNat = L := by
    rw [UInt64.toNat_ofNat']
    omega
  have hrun : placed bsz z (UInt64.ofNat L) (z.str.take (3 + g)) = _ :=
    placed_eq hb (by omega) (by omega) (by omega)
  constructor
  · intro h
    have hnul : (3 + g + 13, 1) ∈ (placed bsz z (UInt64.ofNat L) (z.str.take (3 + g))).writes := by
      rw [hrun, hpfx]
      simp [plainScript]
    have := h.written _ hnul
    omega
  · intro hone
    subst hone
    have hout := placed_output_one hb hz (by omega : L ≤ 8)
    refine ⟨placed_ok hb (by omega) (by omega) (by omega), ?_, ?_, hout, ?_, ?_⟩
    · rw [hrun, hpfx, hlen]
      simp only [plainScript_reads, List.forall_mem_cons, List.not_mem_nil, false_implies,
        implies_true, and_true]
      omega
    · intro w hw
      rw [hrun, hpfx, hlen] at hw
      have htiles := (plainScript_tiles L (3 + 1) (by omega) (by omega)).bounds.2 w hw
      omega
    · rw [hout, length_fiveFields hz (by omega)]
    · intro hpure
      rw [hout, filter_fiveFields hz (by omega) hpure]

end FiveFields

theorem place_hyphens_fields_english :
    PlacesFields ⟨lit "9780306406157".toList, fun _ => 0⟩ 1 3 18
      (placed 18 ⟨lit "9780306406157".toList, fun _ => 0⟩ (UInt64.ofNat 3)
        ((lit "9780306406157".toList).take (3 + 1))) :=
  (place_hyphens_fields_iff (by decide +kernel) le_rfl (by decide) le_rfl).mpr rfl

theorem place_hyphens_overruns_india :
    ¬ PlacesFields ⟨lit "9788175257665".toList, fun _ => 0⟩ 2 4 18
      (placed 18 ⟨lit "9788175257665".toList, fun _ => 0⟩ (UInt64.ofNat 4)
        ((lit "9788175257665".toList).take (3 + 2))) ∧
    cstrAt (placed 32 ⟨lit "9788175257665".toList, fun _ => 0⟩ (UInt64.ofNat 4)
      ((lit "9788175257665".toList).take (3 + 2))).hbuf 0 32 = lit "978-81-7525-7665-5".toList := by
  refine ⟨fun h => ?_, by decide +kernel⟩
  have hnul := h.written (18, 1) (by decide +kernel)
  omega

end IsbnHyphenate
