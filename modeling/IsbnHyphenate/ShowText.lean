import IsbnHyphenate.IsbnTrace
import IsbnHyphenate.SglLines
import Mathlib.Data.List.TakeWhile

/-!
# Strings in graphic characters

`show_char_r` writes one character as itself or as an escape, and the functions
over it write strings, file names and numbered arrays of strings. The buffer
has 8 bytes; the escape of a negative `char` is longer than that.
-/

namespace IsbnHyphenate.Traced
open Logged

/-- In the C locale. -/
def isprint (c : ℤ) : Bool := 32 ≤ c && c ≤ 126

def hexEscape (chr : ℤ) : CStr := say "\\x" ++ formatX02 chr

def graphic (chr : ℤ) : CStr :=
  if isprint chr then lit [Char.ofNat chr.toNat] else hexEscape chr

/-- The text comes from `sprintf`, which does not know `sz`. -/
def showCharR (sz : ℕ) (chr : ℤ) : Noisy CStr :=
  if sz < 5 then do
    emit (say "show_char_r: buffer size is " ++ formatZu sz ++ say ".  It must be >= 5.\n")
    quit .abort
  else if (graphic chr).length < sz then pure (graphic chr)
  else quit .badWrite

def fshowStr : CStr → Noisy Unit
  | [] => pure ()
  | chr :: s => do
    let dbuf ← showCharR 8 (chrInt chr)
    emit dbuf
    fshowStr s

def fshowFname (fname : CStr) : Noisy Unit := fshowStr fname

def formatIndex (maxw i : ℕ) : CStr := lit (padLeft maxw ' ' (Nat.toDigits 10 i))

def showFrom (maxw : ℕ) : ℕ → List CStr → Noisy Unit
  | _, [] => pure ()
  | i, s :: av => do
    emit (formatIndex maxw i)
    emit (say ") [")
    fshowStr s
    emit (say "]\n")
    showFrom maxw (i + 1) av

abbrev uintMod : ℕ := 2 ^ 32

/-- The index is a `uint_t` and the count a `size_t`: behind the last index the
loop starts again with the first string. -/
def fshowStrArray (av : List CStr) : Noisy Unit := do
  showFrom (formatZu av.length).length 0 (av.take uintMod)
  if av.length < uintMod then pure () else quit .spin

def Ascii (c : Chr) : Prop := c.1.toNat < 128

instance : DecidablePred Ascii := fun c => inferInstanceAs (Decidable (c.1.toNat < 128))

def AsciiStr (s : CStr) : Prop := ∀ c ∈ s, Ascii c

instance : DecidablePred AsciiStr := fun s =>
  decidable_of_iff (s.all fun c => decide (Ascii c)) (by
    simp only [List.all_eq_true, decide_eq_true_eq, AsciiStr])

theorem isprint_iff {c : ℤ} : isprint c ↔ 32 ≤ c ∧ c ≤ 126 := by simp [isprint]

theorem say_isprint {s : String} (h : (say s).all fun c => isprint (chrInt c)) :
    ∀ c ∈ say s, isprint (chrInt c) := List.all_eq_true.mp h

theorem lit_graphic (cs : List Char) (h : ∀ c ∈ cs, 32 ≤ c.toNat ∧ c.toNat ≤ 126) :
    (lit cs).length = cs.length ∧ ∀ d ∈ lit cs, isprint (chrInt d) := by
  induction cs with
  | nil => exact ⟨rfl, fun d hd => absurd hd List.not_mem_nil⟩
  | cons c cs ih =>
    rw [List.forall_mem_cons] at h
    obtain ⟨hlen, hall⟩ := ih h.2
    have hn : (UInt8.ofNat c.toNat).toNat = c.toNat := by
      rw [UInt8.toNat_ofNat']
      omega
    have h0 : UInt8.ofNat c.toNat ≠ 0 := by
      intro heq
      rw [heq] at hn
      have : (0 : UInt8).toNat = 0 := rfl
      omega
    have hcons : lit (c :: cs) = ⟨_, h0⟩ :: lit cs := by simp [lit, h0]
    rw [hcons, List.length_cons, hlen, List.forall_mem_cons]
    refine ⟨rfl, ?_, hall⟩
    rw [isprint_iff, chrInt, hn, if_pos (by omega)]
    omega

theorem ofNat_toNat_ascii {n : ℕ} (hn : n < 128) : (Char.ofNat n).toNat = n := by
  revert n
  decide

theorem digitChar_graphic {d : ℕ} (hd : d < 16) :
    32 ≤ d.digitChar.toNat ∧ d.digitChar.toNat ≤ 126 := by
  revert d
  decide

theorem toDigits_graphic {b : ℕ} (hb : 1 < b) (h16 : b ≤ 16) (n : ℕ) :
    ∀ c ∈ Nat.toDigits b n, 32 ≤ c.toNat ∧ c.toNat ≤ 126 := by
  induction n using Nat.strong_induction_on with
  | h n ih =>
    rw [Nat.toDigits_eq_if hb]
    split_ifs with hlt
    · intro c hc
      rw [List.mem_singleton.mp hc]
      exact digitChar_graphic (by omega)
    · intro c hc
      rcases List.mem_append.mp hc with hc | hc
      · exact ih _ (Nat.div_lt_self (by omega) hb) c hc
      · rw [List.mem_singleton.mp hc]
        exact digitChar_graphic ((Nat.mod_lt n (by omega)).trans_le h16)

theorem padLeft_graphic {width : ℕ} {c : Char} {cs : List Char}
    (hc : 32 ≤ c.toNat ∧ c.toNat ≤ 126) (h : ∀ d ∈ cs, 32 ≤ d.toNat ∧ d.toNat ≤ 126) :
    ∀ d ∈ padLeft width c cs, 32 ≤ d.toNat ∧ d.toNat ≤ 126 := by
  intro d hd
  rcases List.mem_append.mp hd with hd | hd
  · rwa [List.eq_of_mem_replicate hd]
  · exact h d hd

theorem length_padLeft (width : ℕ) (c : Char) (cs : List Char) :
    (padLeft width c cs).length = max width cs.length := by
  rw [padLeft, List.length_append, List.length_replicate]
  omega

theorem hexEscape_graphic (chr : ℤ) :
    (hexEscape chr).length = 2 + max 2 (Nat.toDigits 16 (chr % 4294967296).toNat).length ∧
      ∀ d ∈ hexEscape chr, isprint (chrInt d) := by
  have hpad : ∀ d ∈ padLeft 2 '0' (Nat.toDigits 16 (chr % 4294967296).toNat),
      32 ≤ d.toNat ∧ d.toNat ≤ 126 :=
    padLeft_graphic (by decide) (toDigits_graphic (by decide) le_rfl _)
  obtain ⟨hlen, hall⟩ := lit_graphic _ hpad
  have hhead : (say "\\x").length = 2 := by decide
  rw [hexEscape, List.length_append, formatX02, hlen, hhead, length_padLeft]
  refine ⟨rfl, fun d hd => ?_⟩
  rcases List.mem_append.mp hd with hd | hd
  · exact say_isprint (by decide) d hd
  · exact hall d hd

theorem graphic_isprint (chr : ℤ) : ∀ d ∈ graphic chr, isprint (chrInt d) := by
  rw [graphic]
  split_ifs with hp
  · rw [isprint_iff] at hp
    have hval := ofNat_toNat_ascii (n := chr.toNat) (by omega)
    refine (lit_graphic _ fun c hc => ?_).2
    rw [List.mem_singleton.mp hc, hval]
    omega
  · exact (hexEscape_graphic chr).2

theorem graphic_fits_iff (c : Chr) : (graphic (chrInt c)).length < 8 ↔ Ascii c := by
  have hp := chr_pos c
  have hl := c.1.toNat_lt
  have hword : (Nat.toDigits 16 (chrInt c % 4294967296).toNat).length ≤ 5 ↔ Ascii c := by
    rw [Nat.length_toDigits_le_iff (by decide) (by decide), Ascii, chrInt]
    split_ifs <;> omega
  rw [graphic]
  split_ifs with hprint
  · have hone : (lit [Char.ofNat (chrInt c).toNat]).length ≤ 1 :=
      (List.length_filterMap_le _ _).trans (le_of_eq rfl)
    refine iff_of_true (by omega) ?_
    rw [isprint_iff, chrInt] at hprint
    rw [Ascii]
    split_ifs at hprint <;> omega
  · rw [(hexEscape_graphic _).1, ← hword]
    omega

theorem fshowStr_eq (s : CStr) :
    fshowStr s = ⟨(s.takeWhile Ascii).flatMap fun c => graphic (chrInt c),
      if AsciiStr s then .ok () else .error .badWrite⟩ := by
  induction s with
  | nil => simp [fshowStr, pure_eq, AsciiStr]
  | cons c s ih =>
    have hfit := graphic_fits_iff c
    by_cases hc : Ascii c
    · have hall : AsciiStr (c :: s) ↔ AsciiStr s := by
        rw [AsciiStr, List.forall_mem_cons, and_iff_right hc, AsciiStr]
      have htake : (c :: s).takeWhile Ascii = c :: s.takeWhile Ascii := by
        rw [List.takeWhile_cons, if_pos (decide_eq_true hc)]
      have hstep : fshowStr (c :: s) =
          ⟨graphic (chrInt c) ++ (fshowStr s).log, (fshowStr s).ret⟩ := by
        rw [fshowStr, showCharR, if_neg (by decide), if_pos (hfit.mpr hc)]
        rfl
      rw [hstep, ih, htake, List.flatMap_cons]
      exact congrArg _ (if_congr hall.symm rfl rfl)
    · have hall : ¬ AsciiStr (c :: s) := fun h => hc (h c List.mem_cons_self)
      have htake : (c :: s).takeWhile Ascii = [] := by
        rw [List.takeWhile_cons, if_neg (by rwa [decide_eq_true_eq])]
      rw [htake, if_neg hall, fshowStr, showCharR, if_neg (by decide), if_neg (mt hfit.mp hc)]
      rfl

theorem fshowStr_isprint (s : CStr) : ∀ c ∈ (fshowStr s).log, isprint (chrInt c) := by
  rw [fshowStr_eq]
  intro c hc
  obtain ⟨d, -, hd⟩ := List.mem_flatMap.mp hc
  exact graphic_isprint _ c hd

def numbered (maxw : ℕ) (line : CStr × ℕ) : CStr :=
  formatIndex maxw line.2 ++ say ") [" ++ (line.1.flatMap fun c => graphic (chrInt c)) ++ say "]"

theorem formatIndex_spec (maxw i : ℕ) :
    (formatIndex maxw i).length = max maxw (Nat.toDigits 10 i).length ∧
      ∀ c ∈ formatIndex maxw i, isprint (chrInt c) := by
  have hpad : ∀ d ∈ padLeft maxw ' ' (Nat.toDigits 10 i), 32 ≤ d.toNat ∧ d.toNat ≤ 126 :=
    padLeft_graphic (by decide) (toDigits_graphic (by decide) (by decide) i)
  obtain ⟨hlen, hall⟩ := lit_graphic _ hpad
  exact ⟨hlen.trans (length_padLeft _ _ _), hall⟩

theorem length_formatIndex {i n : ℕ} (hi : i < n) :
    (formatIndex (formatZu n).length i).length = (formatZu n).length := by
  have hn := (lit_graphic _ (toDigits_graphic (b := 10) (by decide) (by decide) n)).1
  have hle : (Nat.toDigits 10 i).length ≤ (Nat.toDigits 10 n).length := by
    have hpos : 0 < (Nat.toDigits 10 n).length := Nat.length_toDigits_pos
    rw [Nat.length_toDigits_le_iff (by decide) hpos]
    exact hi.trans ((Nat.length_toDigits_le_iff (by decide) hpos).mp le_rfl)
  rw [(formatIndex_spec _ _).1, formatZu, hn]
  omega

theorem numbered_isprint (maxw : ℕ) (line : CStr × ℕ) :
    ∀ c ∈ numbered maxw line, isprint (chrInt c) := by
  intro c hc
  simp only [numbered, List.mem_append, List.mem_flatMap] at hc
  rcases hc with ((hc | hc) | ⟨d, -, hc⟩) | hc
  · exact (formatIndex_spec _ _).2 c hc
  · exact say_isprint (by decide) c hc
  · exact graphic_isprint _ c hc
  · exact say_isprint (by decide) c hc

theorem takeWhile_ascii {s : CStr} (h : AsciiStr s) : s.takeWhile Ascii = s :=
  List.takeWhile_eq_self_iff.mpr fun c hc => decide_eq_true (h c hc)

def AllAscii (av : List CStr) : Prop := ∀ s ∈ av, AsciiStr s

instance : DecidablePred AllAscii := fun av =>
  inferInstanceAs (Decidable (∀ s ∈ av, AsciiStr s))

theorem newline_not_numbered (maxw : ℕ) (line : CStr × ℕ) : newlineChr ∉ numbered maxw line :=
  fun hmem => absurd (numbered_isprint maxw line _ hmem) (by decide)

theorem showFrom_cons (maxw i : ℕ) {s : CStr} (hs : AsciiStr s) (av : List CStr) :
    showFrom maxw i (s :: av) = ⟨numbered maxw (s, i) ++ newlineChr ::
      (showFrom maxw (i + 1) av).log, (showFrom maxw (i + 1) av).ret⟩ := by
  have htake := takeWhile_ascii hs
  have hend : say "]\n" = say "]" ++ [newlineChr] := by decide
  rw [showFrom, fshowStr_eq, if_pos hs, htake, hend]
  simp only [emit, bind_ok, numbered, List.append_assoc, List.cons_append, List.nil_append]

theorem showFrom_stop (maxw i : ℕ) {s : CStr} (hs : ¬ AsciiStr s) (av : List CStr) :
    showFrom maxw i (s :: av) =
      ⟨formatIndex maxw i ++ (say ") [" ++ (fshowStr s).log), .error .badWrite⟩ := by
  have hret : (fshowStr s).ret = .error .badWrite := by rw [fshowStr_eq, if_neg hs]
  have hcall : fshowStr s = ⟨(fshowStr s).log, .error .badWrite⟩ := by rw [← hret]
  rw [showFrom, hcall]
  simp [emit]

theorem showFrom_spec (maxw : ℕ) (av : List CStr) (i : ℕ) :
    (showFrom maxw i av).ret = (if AllAscii av then .ok () else .error .badWrite) ∧
      (∀ c ∈ (showFrom maxw i av).log, isprint (chrInt c) ∨ c = newlineChr) ∧
      (AllAscii av →
        linesOf (showFrom maxw i av).log = (av.zipIdx i).map (numbered maxw) ++ [[]]) := by
  induction av generalizing i with
  | nil =>
    refine ⟨rfl, fun c hc => absurd hc List.not_mem_nil, fun _ => rfl⟩
  | cons s av ih =>
    obtain ⟨hret, hlog, hlines⟩ := ih (i + 1)
    by_cases hs : AsciiStr s
    · have hall : AllAscii (s :: av) ↔ AllAscii av := by
        rw [AllAscii, List.forall_mem_cons, and_iff_right hs, AllAscii]
      rw [showFrom_cons maxw i hs]
      refine ⟨?_, fun c hc => ?_, fun hav => ?_⟩
      · simp only [hret, hall]
      · rcases List.mem_append.mp hc with hc | hc
        · exact Or.inl (numbered_isprint _ _ c hc)
        · rcases List.mem_cons.mp hc with hc | hc
          · exact Or.inr hc
          · exact hlog c hc
      · rw [linesOf_line _ (newline_not_numbered _ _), hlines (hall.mp hav), List.zipIdx_cons,
          List.map_cons, List.cons_append]
    · have hall : ¬ AllAscii (s :: av) := fun hav => hs (hav s List.mem_cons_self)
      rw [showFrom_stop maxw i hs]
      refine ⟨(if_neg hall).symm, fun c hc => Or.inl ?_, fun hav => absurd hav hall⟩
      rcases List.mem_append.mp hc with hc | hc
      · exact (formatIndex_spec _ _).2 c hc
      · rcases List.mem_append.mp hc with hc | hc
        · exact say_isprint (by decide) c hc
        · exact fshowStr_isprint s c hc

def Showable (av : List CStr) : Prop := AllAscii av ∧ av.length < uintMod

instance : DecidablePred Showable := fun av =>
  inferInstanceAs (Decidable (AllAscii av ∧ av.length < uintMod))

theorem fshowStrArray_end (av : List CStr) :
    (fshowStrArray av).ret = if AllAscii (av.take uintMod) then
      if av.length < uintMod then .ok () else .error .spin else .error .badWrite := by
  have hret := (showFrom_spec (formatZu av.length).length (av.take uintMod) 0).1
  rw [fshowStrArray, bind_ret, hret]
  split_ifs <;> rfl

theorem fshowStrArray_ret (av : List CStr) : (fshowStrArray av).ret = .ok () ↔ Showable av := by
  rw [fshowStrArray_end, Showable]
  by_cases hlen : av.length < uintMod
  · rw [List.take_of_length_le (Nat.le_of_lt hlen), if_pos hlen, and_iff_left hlen]
    split_ifs with hall <;> simp [hall]
  · rw [if_neg hlen]
    refine iff_of_false (fun h => ?_) fun h => hlen h.2
    split_ifs at h

/-- Every string gets a line of its own, whatever it holds, as long as no `char`
of it is negative and the index holds their number. A negative `char` overruns the
buffer. -/
theorem fshowStrArray_shows (av : List CStr) :
    ((fshowStrArray av).ret = .ok () ↔ Showable av) ∧
      (¬ AllAscii (av.take uintMod) → (fshowStrArray av).ret = .error .badWrite) ∧
      (∀ c ∈ (fshowStrArray av).log, isprint (chrInt c) ∨ c = newlineChr) ∧
      (Showable av → linesOf (fshowStrArray av).log =
        av.zipIdx.map (numbered (formatZu av.length).length) ++ [[]]) ∧
      ∀ i < av.length, (formatIndex (formatZu av.length).length i).length =
        (formatZu av.length).length := by
  obtain ⟨-, hlog, hlines⟩ := showFrom_spec (formatZu av.length).length (av.take uintMod) 0
  refine ⟨fshowStrArray_ret av, fun hneg => ?_, fun c hc => ?_, fun hav => ?_,
    fun i hi => length_formatIndex hi⟩
  · rw [fshowStrArray_end, if_neg hneg]
  · rw [fshowStrArray, bind_log] at hc
    rcases List.mem_append.mp hc with hc | hc
    · exact hlog c hc
    · split_ifs at hc <;> split at hc <;> exact absurd hc List.not_mem_nil
  · have htake : av.take uintMod = av := List.take_of_length_le (Nat.le_of_lt hav.2)
    rw [fshowStrArray, if_pos hav.2, bind_unit]
    rw [htake] at hlines ⊢
    exact hlines hav.1

end IsbnHyphenate.Traced
