import IsbnHyphenate.Library.Slices

/-!
# Straight-line code that fills a buffer

A script is the list of the copies and single stores that a piece of code makes
into one buffer. What it touches is read off the script, and when its steps lie
end to end the buffer holds the bytes they deliver, one after the other.
-/

namespace CopyScript
open Slices

inductive Step (σ α : Type*) where
  | copy (dst : ℕ) (src : σ) (off count : ℕ)
  | put (dst : ℕ) (b : α)

variable {σ α : Type*}

namespace Step

def dst : Step σ α → ℕ
  | copy dst _ _ _ => dst
  | put dst _ => dst

def size : Step σ α → ℕ
  | copy _ _ _ count => count
  | put _ _ => 1

def bytes (mem : σ → ℕ → α) : Step σ α → List α
  | copy _ src off count => (List.range count).map fun i => mem src (off + i)
  | put _ b => [b]

@[simp] theorem size_copy (dst : ℕ) (src : σ) (off count : ℕ) :
    (copy dst src off count : Step σ α).size = count := rfl

@[simp] theorem size_put (dst : ℕ) (b : α) : (put dst b : Step σ α).size = 1 := rfl

def extent (s : Step σ α) : ℕ × ℕ := (s.dst, s.size)

def source [DecidableEq σ] (src : σ) : Step σ α → Option (ℕ × ℕ)
  | copy _ src' off count => if src' = src then some (off, count) else none
  | put _ _ => none

def write (mem : σ → ℕ → α) (buf : ℕ → Option α) (s : Step σ α) (i : ℕ) : Option α :=
  if s.dst ≤ i ∧ i < s.dst + s.size then (s.bytes mem)[i - s.dst]? else buf i

@[simp] theorem length_bytes (mem : σ → ℕ → α) (s : Step σ α) : (s.bytes mem).length = s.size := by
  cases s with
  | copy dst src off count => simp [bytes, size]
  | put dst b => rfl

end Step

def run (mem : σ → ℕ → α) (script : List (Step σ α)) (buf : ℕ → Option α) : ℕ → Option α :=
  script.foldl (Step.write mem) buf

def writes (script : List (Step σ α)) : List (ℕ × ℕ) := script.map Step.extent

def reads [DecidableEq σ] (src : σ) (script : List (Step σ α)) : List (ℕ × ℕ) :=
  script.filterMap (Step.source src)

@[simp] theorem writes_nil : writes ([] : List (Step σ α)) = [] := rfl

@[simp] theorem writes_copy (dst : ℕ) (src : σ) (off count : ℕ) (script : List (Step σ α)) :
    writes (.copy dst src off count :: script) = (dst, count) :: writes script := rfl

@[simp] theorem writes_put (dst : ℕ) (b : α) (script : List (Step σ α)) :
    writes (.put dst b :: script) = (dst, 1) :: writes script := rfl

section Reads
variable [DecidableEq σ]

@[simp] theorem reads_nil (src : σ) : reads src ([] : List (Step σ α)) = [] := rfl

@[simp] theorem reads_put (src : σ) (dst : ℕ) (b : α) (script : List (Step σ α)) :
    reads src (.put dst b :: script) = reads src script := rfl

@[simp] theorem reads_copy (src src' : σ) (dst off count : ℕ) (script : List (Step σ α)) :
    reads src (.copy dst src' off count :: script) =
      if src' = src then (off, count) :: reads src script else reads src script := by
  by_cases h : src' = src <;> simp [reads, Step.source, h]

end Reads

/-- After steps that lie end to end the buffer holds their bytes in order. -/
theorem run_tiles {mem : σ → ℕ → α} {script : List (Step σ α)} {a b : ℕ}
    (h : Tiles a (writes script) b) (buf : ℕ → Option α) (i : ℕ) :
    run mem script buf i =
      if a ≤ i ∧ i < b then (script.flatMap (Step.bytes mem))[i - a]? else buf i := by
  induction script generalizing a buf with
  | nil =>
    have hab : a = b := h
    rw [if_neg (by omega)]
    rfl
  | cons s script ih =>
    obtain ⟨hdst, hrest⟩ := h
    have hdst' : s.dst = a := hdst
    have hsize : s.extent.2 = s.size := rfl
    have hle := hrest.bounds.1
    rw [hsize] at hrest hle
    rw [run, List.foldl_cons, ← run, ih hrest, List.flatMap_cons, Step.write, hdst']
    by_cases hfirst : a ≤ i ∧ i < a + s.size
    · rw [if_neg (by omega), if_pos hfirst, if_pos (by omega),
        List.getElem?_append_left (by rw [Step.length_bytes]; omega)]
    · rw [if_neg hfirst]
      by_cases hin : a + s.size ≤ i ∧ i < b
      · rw [if_pos hin, if_pos (by omega),
          List.getElem?_append_right (by rw [Step.length_bytes]; omega), Step.length_bytes,
          Nat.sub_sub]
      · rw [if_neg hin, if_neg (by omega)]

end CopyScript
