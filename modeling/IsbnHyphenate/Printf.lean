import IsbnHyphenate.IsbnTable

/-!
# Texts that printf makes

The conversions `%zu`, `%u` and `%3u` of a number, and `%02x` of an `int`.
-/

namespace IsbnHyphenate

def say (s : String) : CStr := lit s.toList

def newlineText : CStr := lit ['\n']

def padLeft (width : ℕ) (c : Char) (cs : List Char) : List Char :=
  List.replicate (width - cs.length) c ++ cs

def formatZu (n : ℕ) : CStr := lit (Nat.toDigits 10 n)

def formatU3 (n : ℕ) : CStr := lit (padLeft 3 ' ' (Nat.toDigits 10 n))

/-- `%02x`, which takes an `int` for an `unsigned int`. -/
def formatX02 (c : ℤ) : CStr := lit (padLeft 2 '0' (Nat.toDigits 16 (c % 4294967296).toNat))

theorem lit_append (cs ds : List Char) : lit (cs ++ ds) = lit cs ++ lit ds := List.filterMap_append

theorem lit_digit {c : Char} (h : c.isDigit) :
    ∃ d, lit [c] = [d] ∧ isDigit d ∧ digitVal d = c.toNat - '0'.toNat := by
  have hb : 48 ≤ c.toNat ∧ c.toNat ≤ 57 := by
    simpa [Char.isDigit, Char.le_def, UInt32.le_iff_toNat_le] using h
  have hn : (UInt8.ofNat c.toNat).toNat = c.toNat := by
    rw [UInt8.toNat_ofNat']
    omega
  have h0 : UInt8.ofNat c.toNat ≠ 0 := by
    intro heq
    rw [heq] at hn
    have : (0 : UInt8).toNat = 0 := rfl
    omega
  refine ⟨⟨_, h0⟩, by simp [lit, h0], ?_, ?_⟩
  · simpa [isDigit, hn] using hb
  · rw [digitVal, hn]

theorem lit_digits (ds : List Char) (h : ∀ c ∈ ds, c.isDigit) :
    (∀ d ∈ lit ds, isDigit d) ∧ ∀ n, decimal n (lit ds) = Nat.ofDigitChars 10 ds n := by
  induction ds with
  | nil => exact ⟨by simp [lit], fun n => rfl⟩
  | cons c ds ih =>
    rw [List.forall_mem_cons] at h
    obtain ⟨d, hd, hdig, hval⟩ := lit_digit h.1
    obtain ⟨hall, hdec⟩ := ih h.2
    have hcons : lit (c :: ds) = d :: lit ds := by
      rw [← List.singleton_append, lit_append, hd, List.singleton_append]
    refine ⟨by simpa [hcons, hdig] using hall, fun n => ?_⟩
    rw [hcons, decimal, List.foldl_cons, ← decimal, hdec, Nat.ofDigitChars_cons, hval,
      Nat.mul_comm]

theorem formatZu_digits (n : ℕ) : ∀ d ∈ formatZu n, isDigit d :=
  (lit_digits _ fun _ hc => Nat.isDigit_of_mem_toDigits (by decide) (by decide) hc).1

theorem decimal_formatZu (n : ℕ) : decimal 0 (formatZu n) = n := by
  have hdigits : ∀ c ∈ Nat.toDigits 10 n, c.isDigit := fun _ hc =>
    Nat.isDigit_of_mem_toDigits (by decide) (by decide) hc
  rw [formatZu, (lit_digits _ hdigits).2, Nat.ofDigitChars_ten_toDigits]

theorem formatZu_injective : Function.Injective formatZu := by
  intro m n h
  rw [← decimal_formatZu m, h, decimal_formatZu]

theorem formatZu_lacks {c : Chr} (hc : isDigit c = false) (n : ℕ) : c ∉ formatZu n := by
  intro hmem
  rw [formatZu_digits n c hmem] at hc
  cases hc

end IsbnHyphenate
