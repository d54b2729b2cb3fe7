import Mathlib.Data.List.Basic
import Mathlib.Algebra.BigOperators.Group.List.Basic
import Mathlib.Algebra.Order.Group.Nat
import Mathlib.Algebra.Ring.Nat
import Mathlib.Tactic.Common

/-!
# Consecutive slices

Items of different weights laid end to end, as when a table is appended to and
every owner remembers only where its part starts and how long it is. `located`
pairs each item with its start, `Tiles` says that a list of (start, length)
pairs covers an interval without a gap or an overlap.
-/

namespace Slices

variable {α β : Type*} {w : α → ℕ}

def located (w : α → ℕ) : ℕ → List α → List (ℕ × α)
  | _, [] => []
  | a, x :: xs => (a, x) :: located w (a + w x) xs

def Tiles : ℕ → List (ℕ × ℕ) → ℕ → Prop
  | a, [], b => a = b
  | a, s :: ss, b => s.1 = a ∧ Tiles (a + s.2) ss b

def Covers (s : ℕ × ℕ) (i : ℕ) : Prop := s.1 ≤ i ∧ i < s.1 + s.2

theorem located_append (a : ℕ) (xs ys : List α) :
    located w a (xs ++ ys) = located w a xs ++ located w (a + (xs.map w).sum) ys := by
  induction xs generalizing a with
  | nil => simp [located]
  | cons x xs ih => simp [located, ih, Nat.add_assoc]

theorem located_snoc (a : ℕ) (xs : List α) (x : α) :
    located w a (xs ++ [x]) = located w a xs ++ [(a + (xs.map w).sum, x)] :=
  located_append a xs [x]

@[simp] theorem length_located (a : ℕ) (xs : List α) : (located w a xs).length = xs.length := by
  induction xs generalizing a with
  | nil => rfl
  | cons x xs ih => simp [located, ih]

theorem mem_located {a i : ℕ} {x : α} {xs : List α} (h : (i, x) ∈ located w a xs) :
    ∃ pre post, xs = pre ++ x :: post ∧ i = a + (pre.map w).sum := by
  induction xs generalizing a with
  | nil => simp [located] at h
  | cons y ys ih =>
    rcases List.mem_cons.mp h with he | ht
    · cases he
      exact ⟨[], ys, rfl, rfl⟩
    · obtain ⟨pre, post, rfl, rfl⟩ := ih ht
      exact ⟨y :: pre, post, rfl, by simp [Nat.add_assoc]⟩

theorem le_of_mem_located {a i : ℕ} {x : α} {xs : List α} (h : (i, x) ∈ located w a xs) :
    i + w x ≤ a + (xs.map w).sum := by
  obtain ⟨pre, post, rfl, rfl⟩ := mem_located h
  simp only [List.map_append, List.sum_append, List.map_cons, List.sum_cons]
  omega

theorem getElem?_located (a : ℕ) (xs : List α) (k : ℕ) :
    (located w a xs)[k]? = xs[k]?.map fun x => (a + ((xs.take k).map w).sum, x) := by
  induction xs generalizing a k with
  | nil => rfl
  | cons x xs ih =>
    cases k with
    | zero => rfl
    | succ k => simp [located, ih, Nat.add_assoc]

theorem getElem?_flatMap_located {f : α → List β} {xs : List α} {ys : List β} {i : ℕ} {x : α}
    (h : (i, x) ∈ located (fun x => (f x).length) 0 xs) {j : ℕ} (hj : j < (f x).length) :
    (xs.flatMap f ++ ys)[i + j]? = (f x)[j]? := by
  obtain ⟨pre, post, rfl, rfl⟩ := mem_located h
  have hlen : (pre.flatMap f).length = (pre.map fun x => (f x).length).sum := by
    rw [List.length_flatMap]
  rw [List.flatMap_append, List.flatMap_cons, List.append_assoc, List.getElem?_append_right
    (by omega), hlen, List.append_assoc, Nat.zero_add, Nat.add_sub_cancel_left,
    List.getElem?_append_left hj]

theorem tiles_located (a : ℕ) (xs : List α) :
    Tiles a ((located w a xs).map fun p => (p.1, w p.2)) (a + (xs.map w).sum) := by
  induction xs generalizing a with
  | nil => simp [located, Tiles]
  | cons x xs ih =>
    refine ⟨rfl, ?_⟩
    simpa only [List.map_cons, List.sum_cons, Nat.add_assoc] using ih (a + w x)

theorem Tiles.snoc {a b : ℕ} {ss : List (ℕ × ℕ)} (h : Tiles a ss b) (n : ℕ) :
    Tiles a (ss ++ [(b, n)]) (b + n) := by
  induction ss generalizing a with
  | nil =>
    obtain rfl : a = b := h
    exact ⟨rfl, rfl⟩
  | cons s ss ih => exact ⟨h.1, ih h.2⟩

theorem Tiles.filter {a b : ℕ} {ss : List (ℕ × ℕ)} (h : Tiles a ss b) :
    Tiles a (ss.filter fun s => 0 < s.2) b := by
  induction ss generalizing a with
  | nil => exact h
  | cons s ss ih =>
    obtain ⟨hs, ht⟩ := h
    by_cases h0 : 0 < s.2
    · rw [List.filter_cons_of_pos (by simpa using h0)]
      exact ⟨hs, ih ht⟩
    · rw [List.filter_cons_of_neg (by simpa using h0)]
      obtain h0 : s.2 = 0 := by omega
      exact ih (by simpa only [h0, Nat.add_zero] using ht)

theorem Tiles.bounds {a b : ℕ} {ss : List (ℕ × ℕ)} (h : Tiles a ss b) :
    a ≤ b ∧ ∀ s ∈ ss, a ≤ s.1 ∧ s.1 + s.2 ≤ b := by
  induction ss generalizing a with
  | nil => exact ⟨le_of_eq h, by simp⟩
  | cons s ss ih =>
    obtain ⟨hs, ht⟩ := h
    obtain ⟨hab, hall⟩ := ih ht
    refine ⟨by omega, fun t hmem => ?_⟩
    rcases List.mem_cons.mp hmem with rfl | hmem
    · omega
    · have := hall t hmem
      omega

theorem Tiles.disjoint {a b : ℕ} {ss : List (ℕ × ℕ)} (h : Tiles a ss b) :
    ss.Pairwise fun s t => ∀ i, ¬ (Covers s i ∧ Covers t i) := by
  induction ss generalizing a with
  | nil => exact List.Pairwise.nil
  | cons s ss ih =>
    obtain ⟨hs, ht⟩ := h
    refine List.Pairwise.cons (fun t hmem i hi => ?_) (ih ht)
    have := ht.bounds.2 t hmem
    simp only [Covers] at hi
    omega

theorem Tiles.covers {a b : ℕ} {ss : List (ℕ × ℕ)} (h : Tiles a ss b) (i : ℕ) :
    (∃ s ∈ ss, Covers s i) ↔ a ≤ i ∧ i < b := by
  induction ss generalizing a with
  | nil =>
    have hab : a = b := h
    simp only [List.not_mem_nil, false_and, exists_false, false_iff]
    omega
  | cons s ss ih =>
    obtain ⟨hs, ht⟩ := h
    have hb := ht.bounds.1
    rw [List.exists_mem_cons_iff, ih ht]
    simp only [Covers]
    omega

end Slices
