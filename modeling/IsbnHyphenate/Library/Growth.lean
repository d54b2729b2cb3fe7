import Mathlib.Algebra.BigOperators.Group.List.Basic
import Mathlib.Algebra.Order.Group.Nat
import Mathlib.Algebra.Ring.Nat
import Mathlib.Logic.Function.Iterate
import Mathlib.Tactic.Ring

/-!
# Blocks that grow by a rule

A block starts with the capacity `s₀`, and a full one is copied to a block of the
capacity that `g` gives. The capacity is then told by the number of elements alone.
If every growth pays for the copy, all copies together are bounded by the capacity.
-/

namespace Growth

variable {g : ℕ → ℕ} {s₀ n k : ℕ}

structure Reached (g : ℕ → ℕ) (s₀ n k : ℕ) : Prop where
  holds : n ≤ g^[k] s₀
  needed : ∀ j < k, g^[j] s₀ < n

def moved (g : ℕ → ℕ) (s₀ k : ℕ) : ℕ := ((List.range k).map fun j => g^[j] s₀).sum

theorem moved_succ (g : ℕ → ℕ) (s₀ k : ℕ) : moved g s₀ (k + 1) = moved g s₀ k + g^[k] s₀ := by
  simp [moved, List.range_succ]

theorem Reached.start (h : n ≤ s₀) : Reached g s₀ n 0 :=
  ⟨h, fun _ hj => absurd hj (Nat.not_lt_zero _)⟩

theorem Reached.keep (h : Reached g s₀ n k) (hroom : n < g^[k] s₀) : Reached g s₀ (n + 1) k :=
  ⟨hroom, fun j hj => Nat.lt_succ_of_lt (h.needed j hj)⟩

theorem Reached.last (h : Reached g s₀ n k) : k = 0 ∨ ∃ c < n, g^[k] s₀ = g c := by
  cases k with
  | zero => exact Or.inl rfl
  | succ k =>
    exact Or.inr ⟨_, h.needed k (Nat.lt_succ_self k), Function.iterate_succ_apply' g k s₀⟩

structure Pays (g : ℕ → ℕ) (s₀ a : ℕ) : Prop where
  grows : ∀ s, s₀ ≤ s → s < g s
  pays : ∀ s, s₀ ≤ s → s + a * s ≤ a * g s

variable {a : ℕ}

theorem Pays.le_iterate (h : Pays g s₀ a) (k : ℕ) : s₀ ≤ g^[k] s₀ := by
  induction k with
  | zero => exact le_rfl
  | succ k ih =>
    rw [Function.iterate_succ_apply']
    exact ih.trans (h.grows _ ih).le

theorem Reached.grow (h : Reached g s₀ n k) (hg : Pays g s₀ a) (hfull : ¬ n < g^[k] s₀) :
    Reached g s₀ (n + 1) (k + 1) := by
  have heq : g^[k] s₀ = n := Nat.le_antisymm (Nat.le_of_not_lt hfull) h.holds
  refine ⟨?_, fun j hj => ?_⟩
  · rw [Function.iterate_succ_apply', ← heq]
    exact hg.grows _ (hg.le_iterate k)
  · rcases Nat.lt_succ_iff_lt_or_eq.mp hj with hj | rfl
    · exact Nat.lt_succ_of_lt (h.needed j hj)
    · rw [heq]
      exact Nat.lt_succ_self n

/-- What all growths have copied, with the capacity as the potential. -/
theorem Pays.moved_le (h : Pays g s₀ a) (k : ℕ) : moved g s₀ k + a * s₀ ≤ a * g^[k] s₀ := by
  induction k with
  | zero => simp [moved]
  | succ k ih =>
    have hstep := h.pays _ (h.le_iterate k)
    rw [moved_succ, Function.iterate_succ_apply']
    omega

end Growth
