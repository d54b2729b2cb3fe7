import Mathlib.Data.List.Basic
import Mathlib.Tactic.Common

/-!
# Computations in lockstep

Two computations that may fail are related when they fail alike, or both return
and the values are related. A run of related steps is related, whatever the
steps do, so a simulation is proved one step at a time.
-/

namespace Lockstep

universe u
variable {ε : Type u} {α β γ δ ι : Type u}

inductive Related (R : α → β → Prop) : Except ε α → Except ε β → Prop where
  | error (e : ε) : Related R (.error e) (.error e)
  | ok {a : α} {b : β} (h : R a b) : Related R (.ok a) (.ok b)

variable {R : α → β → Prop} {S : γ → δ → Prop} {x : Except ε α} {y : Except ε β}

theorem Related.bind (h : Related R x y) {f : α → Except ε γ} {g : β → Except ε δ}
    (hf : ∀ a b, R a b → Related S (f a) (g b)) : Related S (x >>= f) (y >>= g) := by
  cases h with
  | error e => exact .error e
  | ok hab => exact hf _ _ hab

theorem Related.mono {R' : α → β → Prop} (h : Related R x y) (hR : ∀ a b, R a b → R' a b) :
    Related R' x y := by
  cases h with
  | error e => exact .error e
  | ok hab => exact .ok (hR _ _ hab)

theorem Related.of_ok {b : β} (h : Related R x (.ok b)) : ∃ a, x = .ok a ∧ R a b := by
  cases h with
  | ok hab => exact ⟨_, rfl, hab⟩

theorem Related.of_error {e : ε} (h : Related R x (.error e)) : x = .error e := by
  cases h with
  | error e => rfl

theorem Related.error_iff {e : ε} (h : Related R x y) : x = .error e ↔ y = .error e := by
  cases h with
  | error e' => rw [Except.error.injEq, Except.error.injEq]
  | ok hab => exact iff_of_false (fun h => by cases h) fun h => by cases h

theorem Related.to_ok {a : α} (h : Related R (.ok a) y) : ∃ b, y = .ok b ∧ R a b := by
  cases h with
  | ok hab => exact ⟨_, rfl, hab⟩

end Lockstep
