import IsbnHyphenate.Machine
import Mathlib.Data.List.Induction
import Mathlib.Algebra.Order.Group.Nat

/-!
# The growable vector of vec.c

`base` is NULL or a block of `size` cells; a cell that was never written holds
no value. Memory is taken to be available: `guard_malloc` does not run out.
The predicate `Holds` says which cells from the front are initialised and is
all that the users of a vector need to know about its block.
-/

namespace IsbnHyphenate

structure Vec (α : Type) where
  base : Option (List (Option α))
  len : ℕ
  size : ℕ
  deriving DecidableEq

variable {α : Type}

def vecNew : Vec α := ⟨none, 0, 0⟩

def vecAlloc (vp : Vec α) (nelem : ℕ) : Run (Vec α) :=
  if vp.base ≠ none then .error (.exit 64)
  else if vp.size ≠ 0 then .error (.exit 64)
  else .ok { vp with base := some (List.replicate nelem none), size := nelem }

/-- `realloc` keeps the cells that fit and leaves the new ones unwritten. -/
def guardRealloc (cells : List (Option α)) (nelem : ℕ) : List (Option α) :=
  cells.take nelem ++ List.replicate (nelem - cells.length) none

def growSize (size idx : ℕ) : ℕ :=
  let newSize := (size * 16) / 10
  if idx > newSize then (idx * 16) / 10 else newSize

def vecGrow (vp : Vec α) (idx : ℕ) : Vec α :=
  { vp with base := some (guardRealloc (vp.base.getD []) (growSize vp.size idx))
            size := growSize vp.size idx }

def vecMakeRoom (vp : Vec α) (idx : ℕ) : Run (Vec α) :=
  if vp.base = none then vecAlloc vp 10
  else if idx ≥ vp.size then .ok (vecGrow vp idx) else .ok vp

namespace Vec

def read (vp : Vec α) (i : ℕ) : Option α := (vp.base.getD [])[i]?.join

def write (vp : Vec α) (i : ℕ) (x : α) : Run (Vec α) :=
  let cells := vp.base.getD []
  if i < cells.length then .ok { vp with base := some (cells.set i (some x)) }
  else .error .badWrite

/-- The block has `size` cells and the cells before `n` are initialised. Every
block comes from `vecAlloc vp 10` or a later growth, hence the 10. -/
structure Holds (vp : Vec α) (n : ℕ) : Prop where
  length_eq : (vp.base.getD []).length = vp.size
  alloc : (vp.base = none ∧ vp.size = 0) ∨ (vp.base ≠ none ∧ 10 ≤ vp.size)
  fits : n ≤ vp.size
  init : ∀ i < n, vp.read i ≠ none

theorem holds_new : Holds (vecNew : Vec α) 0 :=
  ⟨rfl, Or.inl ⟨rfl, rfl⟩, le_rfl, fun i hi => absurd hi (Nat.not_lt_zero i)⟩

theorem lt_growSize_iff {size : ℕ} (h0 : 0 < size) (idx : ℕ) :
    idx < growSize size idx ↔ idx ≠ size * 16 / 10 := by
  unfold growSize
  dsimp only
  split_ifs <;> omega

theorem lt_growSize {n size : ℕ} (h10 : 10 ≤ size) (hn : n ≤ size) : n < growSize size n := by
  apply (lt_growSize_iff (by omega) n).mpr
  omega

theorem size_le_growSize (size idx : ℕ) : size ≤ growSize size idx := by
  unfold growSize
  dsimp only
  split_ifs <;> omega

theorem read_grow {vp : Vec α} (hl : (vp.base.getD []).length = vp.size) (idx i : ℕ) :
    (vecGrow vp idx).read i = vp.read i := by
  have hle := size_le_growSize vp.size idx
  simp only [read, vecGrow, guardRealloc, Option.getD_some]
  rw [List.take_of_length_le (by omega)]
  by_cases hi : i < (vp.base.getD []).length
  · rw [List.getElem?_append_left hi]
  · have hge : (vp.base.getD []).length ≤ i := Nat.le_of_not_lt hi
    rw [List.getElem?_append_right hge, List.getElem?_eq_none hge, List.getElem?_replicate]
    split_ifs <;> rfl

theorem makeRoom_alloc {vp : Vec α} (hb : vp.base = none) (hs : vp.size = 0) (idx : ℕ) :
    vecMakeRoom vp idx = .ok { vp with base := some (List.replicate 10 none), size := 10 } := by
  simp [vecMakeRoom, vecAlloc, hb, hs]

theorem makeRoom_grow {vp : Vec α} {idx : ℕ} (hb : vp.base ≠ none) (hi : vp.size ≤ idx) :
    vecMakeRoom vp idx = .ok (vecGrow vp idx) := by
  simp [vecMakeRoom, hb, hi]

theorem makeRoom_keep {vp : Vec α} {idx : ℕ} (hb : vp.base ≠ none) (hi : ¬ vp.size ≤ idx) :
    vecMakeRoom vp idx = .ok vp := by
  simp [vecMakeRoom, hb, hi]

theorem makeRoom {vp : Vec α} {n : ℕ} (h : vp.Holds n) :
    ∃ vp', vecMakeRoom vp n = .ok vp' ∧ vp'.Holds n ∧ n < vp'.size ∧ vp'.len = vp.len ∧
      ∀ i, vp'.read i = vp.read i := by
  rcases h.alloc with ⟨hb, hs⟩ | ⟨hb, hs⟩
  · have hn : n = 0 := by have := h.fits; omega
    refine ⟨_, makeRoom_alloc hb hs n, ⟨by simp, ?_, ?_, ?_⟩, ?_, rfl, ?_⟩
    · exact Or.inr ⟨by simp, le_rfl⟩
    · simp only; omega
    · omega
    · simp only; omega
    · intro i
      simp only [read, hb, Option.getD_some, Option.getD_none, List.getElem?_replicate,
        List.getElem?_nil, Option.join_none]
      split_ifs <;> rfl
  · by_cases hi : vp.size ≤ n
    · refine ⟨vecGrow vp n, makeRoom_grow hb hi, ⟨?_, ?_, ?_, ?_⟩, ?_, rfl,
        read_grow h.length_eq n⟩
      · have := size_le_growSize vp.size n
        simp only [vecGrow, guardRealloc, Option.getD_some, List.length_append, List.length_take,
          List.length_replicate, h.length_eq]
        omega
      · exact Or.inr ⟨by simp [vecGrow], hs.trans (size_le_growSize _ _)⟩
      · exact (lt_growSize hs h.fits).le
      · intro i hin
        rw [read_grow h.length_eq]
        exact h.init i hin
      · exact lt_growSize hs h.fits
    · exact ⟨vp, makeRoom_keep hb hi, h, Nat.lt_of_not_le hi, rfl, fun _ => rfl⟩

theorem makeRoom_reaches {vp : Vec α} (hbase : vp.base = none ↔ vp.size = 0) (idx : ℕ) :
    ∃ vp', vecMakeRoom vp idx = .ok vp' ∧ vp.size ≤ vp'.size ∧
      (idx < vp'.size ↔
        (vp.base = none → idx < 10) ∧ (vp.base ≠ none → idx ≠ vp.size * 16 / 10)) := by
  by_cases hb : vp.base = none
  · have hs := hbase.mp hb
    refine ⟨_, makeRoom_alloc hb hs idx, ?_, ?_⟩
    · simp only [hs, Nat.zero_le]
    · simp [hb]
  · have hs : 0 < vp.size := Nat.pos_of_ne_zero fun hs => hb (hbase.mpr hs)
    by_cases hi : vp.size ≤ idx
    · refine ⟨vecGrow vp idx, makeRoom_grow hb hi, size_le_growSize _ _, ?_⟩
      have hreach : idx < (vecGrow vp idx).size ↔ _ := lt_growSize_iff hs idx
      simpa [hb] using hreach
    · refine ⟨vp, makeRoom_keep hb hi, le_rfl, ?_⟩
      simp only [hb, false_imp_iff, ne_eq, not_false_eq_true, true_imp_iff, true_and]
      omega

theorem write_ok {vp : Vec α} {n i : ℕ} (h : vp.Holds n) (hi : i < vp.size) (x : α) :
    ∃ vp', vp.write i x = .ok vp' ∧ vp'.size = vp.size ∧ vp'.len = vp.len ∧
      (∀ j, vp'.read j = if j = i then some x else vp.read j) ∧ vp'.Holds n ∧
      (i = n → vp'.Holds (n + 1)) := by
  have hl : i < (vp.base.getD []).length := by rw [h.length_eq]; exact hi
  have hb : vp.base ≠ none := by
    intro hb
    simp [hb] at hl
  have hread : ∀ j, (⟨some ((vp.base.getD []).set i (some x)), vp.len, vp.size⟩ : Vec α).read j =
      if j = i then some x else vp.read j := by
    intro j
    simp only [read, Option.getD_some]
    by_cases hj : j = i
    · subst hj
      simp [List.getElem?_set_self hl]
    · simp [List.getElem?_set_ne (Ne.symm hj), hj]
  have hinit : ∀ m, (∀ j < m, j = i ∨ vp.read j ≠ none) → m ≤ vp.size →
      Holds (⟨some ((vp.base.getD []).set i (some x)), vp.len, vp.size⟩ : Vec α) m := by
    intro m hm hms
    refine ⟨by simp [h.length_eq], Or.inr ⟨by simp, ?_⟩, hms, ?_⟩
    · rcases h.alloc with ha | ha
      · exact (hb ha.1).elim
      · exact ha.2
    · intro j hj
      rw [hread]
      rcases hm j hj with rfl | hr
      · simp
      · split_ifs
        · simp
        · exact hr
  refine ⟨⟨some ((vp.base.getD []).set i (some x)), vp.len, vp.size⟩,
    by simp only [write, hl, ↓reduceIte], rfl, rfl, hread, ?_, ?_⟩
  · exact hinit n (fun j hj => Or.inr (h.init j hj)) h.fits
  · intro heq
    subst heq
    refine hinit (i + 1) (fun j hj => ?_) hi
    rcases Nat.lt_succ_iff_lt_or_eq.mp hj with hj | hj
    · exact Or.inr (h.init j hj)
    · exact Or.inl hj

def Is (vp : Vec α) (xs : List α) : Prop :=
  vp.Holds xs.length ∧ ∀ i < xs.length, vp.read i = xs[i]?

theorem is_new : Is (vecNew : Vec α) [] := ⟨holds_new, fun i hi => absurd hi (Nat.not_lt_zero i)⟩

theorem Is.read_eq {vp : Vec α} {xs : List α} (h : vp.Is xs) {i : ℕ} {x : α}
    (hx : xs[i]? = some x) :
    vp.read i = some x := by
  rw [h.2 i (List.getElem?_eq_some_iff.mp hx).1, hx]

theorem Is.read_range {vp : Vec α} {xs : List α} (h : vp.Is xs) :
    (List.range xs.length).filterMap vp.read = xs := by
  have hcells : ∀ ys, ys <+: xs → (List.range ys.length).filterMap vp.read = ys := by
    intro ys
    induction ys using List.reverseRecOn with
    | nil => simp
    | append_singleton ys y ih =>
      intro hsuffix
      rcases hsuffix with ⟨zs, rfl⟩
      have hy : vp.read ys.length = some y := h.read_eq (by simp)
      rw [List.length_append, List.length_singleton, List.range_succ, List.filterMap_append,
        ih ⟨[y] ++ zs, by simp⟩]
      simp [hy]
  exact hcells xs (List.prefix_refl xs)

theorem Is.setLen {vp : Vec α} {xs : List α} (h : vp.Is xs) (len : ℕ) :
    Is { vp with len := len } xs :=
  ⟨⟨h.1.length_eq, h.1.alloc, h.1.fits, h.1.init⟩, h.2⟩

theorem Is.makeRoom {vp : Vec α} {xs : List α} (h : vp.Is xs) :
    ∃ vp', vecMakeRoom vp xs.length = .ok vp' ∧ vp'.Is xs ∧ vp'.len = vp.len := by
  obtain ⟨vp', hm, h', -, hl, hr⟩ := Vec.makeRoom h.1
  exact ⟨vp', hm, ⟨h', fun i hi => (hr i).trans (h.2 i hi)⟩, hl⟩

theorem Is.push {vp : Vec α} {xs : List α} (h : vp.Is xs) (x : α) :
    ∃ vp₁ vp₂, vecMakeRoom vp xs.length = .ok vp₁ ∧ vp₁.write xs.length x = .ok vp₂ ∧
      vp₂.Is (xs ++ [x]) ∧ vp₁.len = vp.len ∧ vp₂.len = vp.len := by
  obtain ⟨vp₁, hm, h₁, hn, hl₁, hr₁⟩ := Vec.makeRoom h.1
  obtain ⟨vp₂, hw, -, hl₂, hr₂, -, h₂⟩ := write_ok h₁ hn x
  refine ⟨vp₁, vp₂, hm, hw, ⟨by simpa using h₂ rfl, fun i hi => ?_⟩, hl₁, hl₂.trans hl₁⟩
  rw [hr₂, hr₁]
  by_cases he : i = xs.length
  · simp [he]
  · have hlt : i < xs.length := by
      rw [List.length_append, List.length_singleton] at hi
      omega
    rw [if_neg he, h.2 i hlt, List.getElem?_append_left hlt]

end Vec

end IsbnHyphenate
