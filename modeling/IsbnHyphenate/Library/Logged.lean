import Mathlib.Data.List.Basic
import Mathlib.Tactic.Common

/-!
# Computations that write as they run

What a computation has written stays written when it stops with an error. Two
computations are compared by what they wrote and how they ended; the rules for
a sequence are equations on both.
-/

structure Logged (β ε α : Type) where
  log : List β
  ret : Except ε α

namespace Logged

variable {β ε α γ δ : Type}

instance : Monad (Logged β ε) where
  pure a := ⟨[], .ok a⟩
  bind x f :=
    match x.ret with
    | .ok a => ⟨x.log ++ (f a).log, (f a).ret⟩
    | .error e => ⟨x.log, .error e⟩

def emit (w : List β) : Logged β ε Unit := ⟨w, .ok ()⟩

def quit (e : ε) : Logged β ε α := ⟨[], .error e⟩

def silent (x : Except ε α) : Logged β ε α := ⟨[], x⟩

theorem pure_eq (a : α) : (pure a : Logged β ε α) = ⟨[], .ok a⟩ := rfl

@[simp] theorem bind_ok (w : List β) (a : α) (f : α → Logged β ε γ) :
    (⟨w, .ok a⟩ : Logged β ε α) >>= f = ⟨w ++ (f a).log, (f a).ret⟩ := rfl

@[simp] theorem bind_error (w : List β) (e : ε) (f : α → Logged β ε γ) :
    (⟨w, .error e⟩ : Logged β ε α) >>= f = ⟨w, .error e⟩ := rfl

theorem emit_bind (w : List β) (f : Unit → Logged β ε γ) :
    emit w >>= f = ⟨w ++ (f ()).log, (f ()).ret⟩ := rfl

theorem bind_ret (x : Logged β ε α) (f : α → Logged β ε γ) :
    (x >>= f).ret = x.ret >>= fun a => (f a).ret := by
  obtain ⟨w, r⟩ := x
  cases r <;> rfl

theorem bind_log (x : Logged β ε α) (f : α → Logged β ε γ) :
    (x >>= f).log = x.log ++ match x.ret with
      | .ok a => (f a).log
      | .error _ => [] := by
  obtain ⟨w, r⟩ := x
  cases r with
  | ok a => rfl
  | error e => exact (List.append_nil w).symm

theorem bind_assoc (x : Logged β ε α) (f : α → Logged β ε γ) (g : γ → Logged β ε δ) :
    x >>= f >>= g = x >>= fun a => f a >>= g := by
  obtain ⟨w, r⟩ := x
  cases r with
  | error e => rfl
  | ok a =>
    rw [bind_ok, bind_ok]
    generalize f a = y
    obtain ⟨w', r'⟩ := y
    cases r' with
    | ok c => simp only [bind_ok, List.append_assoc]
    | error e => rfl

theorem bind_unit (x : Logged β ε Unit) : (x >>= fun _ => pure ()) = x := by
  obtain ⟨w, r⟩ := x
  cases r with
  | ok a => exact congrArg₂ mk (List.append_nil w) rfl
  | error e => rfl

theorem of_bind_ok {x : Logged β ε α} {f : α → Logged β ε γ} {c : γ}
    (h : (x >>= f).ret = .ok c) : ∃ a, x.ret = .ok a ∧ (f a).ret = .ok c := by
  rw [bind_ret] at h
  cases hx : x.ret with
  | error e =>
    rw [hx] at h
    cases h
  | ok a =>
    rw [hx] at h
    exact ⟨a, rfl, h⟩

theorem bind_of_ok {x : Logged β ε α} {a : α} (h : x.ret = .ok a) (f : α → Logged β ε γ) :
    x >>= f = ⟨x.log ++ (f a).log, (f a).ret⟩ := by
  obtain ⟨w, r⟩ := x
  cases h
  rfl

def Writes (P : β → Prop) (x : Logged β ε α) : Prop := ∀ b ∈ x.log, P b

section Writes
variable {P : β → Prop}

theorem Writes.silent (x : Except ε α) : Writes P (silent x : Logged β ε α) :=
  fun _ hb => absurd hb List.not_mem_nil

theorem Writes.pure (a : α) : Writes P (Pure.pure a : Logged β ε α) := Writes.silent (.ok a)

theorem Writes.quit (e : ε) : Writes P (quit e : Logged β ε α) := Writes.silent (.error e)

theorem Writes.bind {x : Logged β ε α} {f : α → Logged β ε γ} (hx : Writes P x)
    (hf : ∀ a, x.ret = .ok a → Writes P (f a)) : Writes P (x >>= f) := by
  intro b hb
  rw [bind_log] at hb
  rcases List.mem_append.mp hb with hb | hb
  · exact hx b hb
  · cases hret : x.ret with
    | ok a =>
      rw [hret] at hb
      exact hf a hret b hb
    | error e =>
      rw [hret] at hb
      exact absurd hb List.not_mem_nil

end Writes

end Logged
