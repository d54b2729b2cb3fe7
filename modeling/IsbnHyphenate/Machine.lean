import Mathlib.Algebra.Ring.Nat
import Mathlib.Data.Int.Notation
import Mathlib.Tactic.Common

/-!
# Bytes, strings and the ways a run of the C code can end

A NUL-terminated string is the list of its bytes before the NUL, so every
element is a nonzero byte. Plain `char` is signed on the supported targets.
-/

namespace IsbnHyphenate

abbrev Chr := {b : UInt8 // b ≠ 0}
abbrev CStr := List Chr

instance : DecidableEq CStr := inferInstanceAs (DecidableEq (List {b : UInt8 // b ≠ 0}))

def chrInt (c : Chr) : ℤ := if c.1.toNat < 128 then c.1.toNat else c.1.toNat - 256

theorem chr_pos (c : Chr) : 0 < c.1.toNat := by
  have h : c.1.toNat ≠ 0 := fun h => c.2 (UInt8.toNat_inj.mp (by simpa using h))
  omega

theorem chrInt_ne_zero (c : Chr) : chrInt c ≠ 0 := by
  have hp := chr_pos c
  have hl := c.1.toNat_lt
  unfold chrInt
  split_ifs <;> omega

theorem chrInt_emod (c : Chr) : chrInt c % 256 = c.1.toNat := by
  have hl := c.1.toNat_lt
  unfold chrInt
  split_ifs <;> omega

theorem chrInt_inj {a b : Chr} : chrInt a = chrInt b ↔ a = b := by
  constructor
  · intro h
    have hm : (a.1.toNat : ℤ) = b.1.toNat := by rw [← chrInt_emod, ← chrInt_emod, h]
    exact Subtype.ext (UInt8.toNat_inj.mp (by exact_mod_cast hm))
  · intro heq
    subst heq
    rfl

def lit (cs : List Char) : CStr :=
  cs.filterMap fun c => if h : UInt8.ofNat c.toNat ≠ 0 then some ⟨_, h⟩ else none

inductive Stop where
  | badRead
  | badWrite
  | exit (status : ℕ)
  | abort
  | spin
  deriving DecidableEq, Repr

abbrev Run (α : Type) := Except Stop α

@[simp] theorem run_ok_bind {α β : Type} (a : α) (f : α → Run β) :
    (Except.ok a >>= f : Run β) = f a := rfl

@[simp] theorem run_error_bind {α β : Type} (e : Stop) (f : α → Run β) :
    (Except.error e >>= f : Run β) = Except.error e := rfl

theorem run_bind_assoc {α β γ : Type} (x : Run α) (f : α → Run β) (g : β → Run γ) :
    x >>= f >>= g = x >>= fun a => f a >>= g := by
  cases x <;> rfl

theorem run_bind_ok {α β : Type} {x : Run α} {f : α → Run β} {b : β}
    (h : x >>= f = Except.ok b) : ∃ a, x = Except.ok a ∧ f a = Except.ok b := by
  cases x with
  | error e => cases h
  | ok a => exact ⟨a, rfl, h⟩

abbrev ENOENT : ℕ := 2
abbrev EEXIST : ℕ := 17
abbrev ENOSPC : ℕ := 28
abbrev EDOM : ℕ := 33
abbrev ELOOP : ℕ := 40
abbrev ENODATA : ℕ := 61

abbrev sizeMod : ℕ := 2 ^ 64

end IsbnHyphenate
