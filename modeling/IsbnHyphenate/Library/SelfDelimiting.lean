import Mathlib.Data.List.Basic
import Mathlib.Tactic.Common

/-!
# Self-delimiting texts

A code is self-delimiting when the text of a value shows where it ends, whatever
comes behind it. Such codes can be put one after the other, and a list that is
written item by item can be read back. A list of blocks can be read back when
every block starts with a mark that does not occur inside a block.
-/

namespace SelfDelimiting

variable {α β γ : Type*} {f : α → List β} {g : γ → List β}

def Code (f : α → List β) : Prop := ∀ a b s t, f a ++ s = f b ++ t → a = b ∧ s = t

theorem code_letter {f : α → β} (hf : Function.Injective f) (w : α → List β) :
    Code fun a => f a :: w a := by
  intro a b s t h
  rw [List.cons_append, List.cons_append, List.cons.injEq] at h
  obtain rfl := hf h.1
  exact ⟨rfl, List.append_cancel_left h.2⟩

theorem before_delimiter {d : β} {x y s t : List β} (hx : d ∉ x) (hy : d ∉ y)
    (h : x ++ d :: s = y ++ d :: t) : x = y ∧ s = t := by
  induction x generalizing y with
  | nil =>
    cases y with
    | nil => exact ⟨rfl, (List.cons.inj h).2⟩
    | cons b y => exact (hy ((List.cons.inj h).1 ▸ List.mem_cons_self)).elim
  | cons a x ih =>
    cases y with
    | nil => exact (hx ((List.cons.inj h).1 ▸ List.mem_cons_self)).elim
    | cons b y =>
      obtain ⟨rfl, hrest⟩ := List.cons.inj h
      obtain ⟨rfl, hst⟩ := ih (fun hm => hx (List.mem_cons_of_mem _ hm))
        (fun hm => hy (List.mem_cons_of_mem _ hm)) hrest
      exact ⟨rfl, hst⟩

theorem code_until (hf : Function.Injective f) {d : β} (hd : ∀ a, d ∉ f a) (w : List β) :
    Code fun a => f a ++ d :: w := by
  intro a b s t h
  simp only [List.append_assoc, List.cons_append] at h
  obtain ⟨hab, hst⟩ := before_delimiter (hd a) (hd b) h
  exact ⟨hf hab, List.append_cancel_left hst⟩

theorem Code.behind (h : Code f) (w : List β) : Code fun a => w ++ f a := by
  intro a b s t heq
  simp only [List.append_assoc] at heq
  exact h a b s t (List.append_cancel_left heq)

theorem Code.pair (hf : Code f) (hg : Code g) : Code fun p : α × γ => f p.1 ++ g p.2 := by
  rintro ⟨a, c⟩ ⟨b, d⟩ s t h
  simp only [List.append_assoc] at h
  obtain ⟨rfl, hrest⟩ := hf a b _ _ h
  obtain ⟨rfl, hst⟩ := hg c d s t hrest
  exact ⟨rfl, hst⟩

theorem Code.comp (h : Code f) {g : γ → α} (hg : Function.Injective g) :
    Code fun c => f (g c) := by
  intro a b s t heq
  obtain ⟨hab, hst⟩ := h _ _ s t heq
  exact ⟨hg hab, hst⟩

theorem after_delimiter {d : β} {x y s t : List β} (hs : d ∉ s) (ht : d ∉ t)
    (h : x ++ d :: s = y ++ d :: t) : x = y ∧ s = t := by
  have hback : s.reverse ++ d :: x.reverse = t.reverse ++ d :: y.reverse := by
    simpa using congrArg List.reverse h
  obtain ⟨hst, hxy⟩ := before_delimiter (fun hd => hs (List.mem_reverse.mp hd))
    (fun hd => ht (List.mem_reverse.mp hd)) hback
  exact ⟨List.reverse_inj.mp hxy, List.reverse_inj.mp hst⟩

def indexed (line : ℕ → α → List β) : ℕ → List α → List β
  | _, [] => []
  | i, x :: xs => line i x ++ indexed line (i + 1) xs

theorem indexed_append (line : ℕ → α → List β) (i : ℕ) (xs ys : List α) :
    indexed line i (xs ++ ys) = indexed line i xs ++ indexed line (i + xs.length) ys := by
  induction xs generalizing i with
  | nil => rfl
  | cons x xs ih =>
    rw [List.cons_append, indexed, indexed, ih, List.append_assoc, List.length_cons,
      Nat.add_assoc, Nat.add_comm 1]

theorem indexed_const (f : α → List β) (i : ℕ) (xs : List α) :
    indexed (fun _ => f) i xs = xs.flatMap f := by
  induction xs generalizing i with
  | nil => rfl
  | cons x xs ih => rw [indexed, ih, List.flatMap_cons]

/-- The items, then a text whose first letter starts no item. -/
theorem code_indexed {line : ℕ → α → List β} (hline : ∀ i, Code (line i)) {d : β} (w : List β)
    (hmark : ∀ i a, ∃ c v, line i a = c :: v ∧ c ≠ d) (i : ℕ) :
    Code fun xs => indexed line i xs ++ d :: w := by
  intro xs
  induction xs generalizing i with
  | nil =>
    intro ys s t h
    cases ys with
    | nil => exact ⟨rfl, List.append_cancel_left h⟩
    | cons y ys =>
      obtain ⟨c, v, hy, hne⟩ := hmark i y
      simp only [indexed, hy, List.cons_append, List.nil_append] at h
      exact (hne (List.cons.inj h).1.symm).elim
  | cons x xs ih =>
    intro ys s t h
    cases ys with
    | nil =>
      obtain ⟨c, v, hx, hne⟩ := hmark i x
      simp only [indexed, hx, List.cons_append, List.nil_append] at h
      exact (hne (List.cons.inj h).1).elim
    | cons y ys =>
      simp only [indexed, List.append_assoc] at h
      obtain ⟨rfl, hrest⟩ := hline i x y _ _ h
      obtain ⟨rfl, hst⟩ := ih (i + 1) ys s t (by simpa only [List.append_assoc] using hrest)
      exact ⟨rfl, hst⟩

theorem Code.flatMap_injective (h : Code f) (hne : ∀ a, f a ≠ []) :
    Function.Injective (List.flatMap f) := by
  intro xs
  induction xs with
  | nil =>
    intro ys heq
    cases ys with
    | nil => rfl
    | cons y ys => exact (hne y (List.append_eq_nil_iff.mp heq.symm).1).elim
  | cons x xs ih =>
    intro ys heq
    cases ys with
    | nil => exact (hne x (List.append_eq_nil_iff.mp heq).1).elim
    | cons y ys =>
      rw [List.flatMap_cons, List.flatMap_cons] at heq
      obtain ⟨rfl, hrest⟩ := h x y _ _ heq
      rw [ih hrest]

section Blocks
variable {mark : α → β} {body : α → List β} {P : β → Prop}

theorem body_eq (hmark : ∀ a, P (mark a)) {s t : List β} (hs : ∀ x ∈ s, ¬ P x)
    (ht : ∀ x ∈ t, ¬ P x) (xs ys : List α)
    (h : s ++ xs.flatMap (fun a => mark a :: body a) =
      t ++ ys.flatMap fun a => mark a :: body a) :
    s = t ∧ xs.flatMap (fun a => mark a :: body a) = ys.flatMap fun a => mark a :: body a := by
  induction s generalizing t with
  | nil =>
    cases t with
    | nil => exact ⟨rfl, h⟩
    | cons y t =>
      cases xs with
      | nil => cases h
      | cons x xs =>
        obtain ⟨rfl, -⟩ := List.cons.inj h
        exact (ht _ List.mem_cons_self (hmark x)).elim
  | cons x s ih =>
    cases t with
    | nil =>
      cases ys with
      | nil => cases h
      | cons y ys =>
        obtain ⟨rfl, -⟩ := List.cons.inj h
        exact (hs _ List.mem_cons_self (hmark y)).elim
    | cons y t =>
      obtain ⟨rfl, hrest⟩ := List.cons.inj h
      obtain ⟨rfl, hback⟩ := ih (fun z hz => hs z (List.mem_cons_of_mem _ hz))
        (fun z hz => ht z (List.mem_cons_of_mem _ hz)) hrest
      exact ⟨rfl, hback⟩

theorem blocks_injective (hmark : ∀ a, P (mark a)) (hbody : ∀ a, ∀ x ∈ body a, ¬ P x)
    {xs ys : List α} (h : xs.flatMap (fun a => mark a :: body a) =
      ys.flatMap fun a => mark a :: body a) :
    xs.map (fun a => (mark a, body a)) = ys.map fun a => (mark a, body a) := by
  induction xs generalizing ys with
  | nil =>
    cases ys with
    | nil => rfl
    | cons y ys => cases h
  | cons x xs ih =>
    cases ys with
    | nil => cases h
    | cons y ys =>
      obtain ⟨hhead, htail⟩ := List.cons.inj h
      obtain ⟨hbodies, hrest⟩ := body_eq hmark (hbody x) (hbody y) xs ys htail
      rw [List.map_cons, List.map_cons, hhead, hbodies, ih hrest]

end Blocks

end SelfDelimiting
