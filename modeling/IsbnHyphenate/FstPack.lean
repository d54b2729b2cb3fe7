import IsbnHyphenate.FstPrefix
import Mathlib.Tactic.Ring

/-!
# The single-allocation copy

`fst_pack` lays out a vector header, the state headers and the transition
arrays one after the other. Addresses are bytes from the start of the copy. A
state that was not copied has no header at its place: the bytes there belong to
the first transition array, or lie past the block.
-/

namespace IsbnHyphenate
open NumberedTrie

abbrev sizeofFst : ℕ := 32
abbrev sizeofState : ℕ := 16
abbrev sizeofTrans : ℕ := 16

/-- The object that starts at an address. A header whose `transv` still points
into the source arrays has `none` there. -/
inductive Cell where
  | header (transv : Option ℕ) (ntrans : ℕ)
  | trans (t : Trans)
  deriving DecidableEq

abbrev Mem := ℕ → Option Cell

/-- The copy: its vector header, how many bytes were allocated for it and how
many were written, and its contents. -/
structure Packed where
  len : ℕ
  size : ℕ
  base : ℕ
  alloc : ℕ
  used : ℕ
  mem : Mem

namespace Packed

def transvAt (mem : Mem) (base state : ℕ) : Option ℕ :=
  match mem (base + sizeofState * state) with
  | some (.header transv _) => transv
  | _ => none

def view (pk : Packed) : FstView where
  len := pk.len
  ntrans := fun i =>
    match pk.mem (pk.base + sizeofState * i) with
    | some (.header _ ntrans) => some ntrans
    | _ => none
  transv := fun i j => (transvAt pk.mem pk.base i).bind fun p =>
    match pk.mem (p + sizeofTrans * j) with
    | some (.trans t) => some t
    | _ => none

end Packed

def measureStates (fst : FstView) : ℕ → Run ℕ
  | 0 => .ok 0
  | n + 1 => do
    let total ← measureStates fst n
    let ntrans ← fst.readNtrans n
    .ok (total + sizeofState + ntrans * sizeofTrans)

def fstMeasure (fst : Fst) : Run ℕ := measureStates fst.view fst.len

def copyHeaders (src : Fst) (dst : ℕ) : ℕ → Mem → Mem
  | 0, m => m
  | n + 1, m => Function.update (copyHeaders src dst n m) (dst + sizeofState * n)
      ((src.read n).map fun sv => .header none sv.ntrans)

def copyTrans : List Trans → ℕ → Mem → Mem
  | [], _, m => m
  | t :: ts, p, m => copyTrans ts (p + sizeofTrans) (Function.update m p (some (.trans t)))

def setTransv (m : Mem) (a p : ℕ) : Mem :=
  match m a with
  | some (.header _ ntrans) => Function.update m a (some (.header (some p) ntrans))
  | _ => m

def packStates (src : Fst) (dst : ℕ) (start : Mem × ℕ) : ℕ → Run (Mem × ℕ)
  | 0 => .ok start
  | n + 1 => do
    let (m, p) ← packStates src dst start n
    let m := setTransv m (dst + sizeofState * n) p
    match src.read n with
    | none => .error .badRead
    | some sv => .ok (copyTrans sv.transv p m, p + sv.ntrans * sizeofTrans)

def fstPack (src : Fst) (alloc : ℕ) : Run Packed := do
  let nstates := src.len
  let dst := sizeofFst
  let m := copyHeaders src dst nstates fun _ => none
  let (m, p) ← packStates src dst (m, dst + nstates * sizeofState) nstates
  .ok ⟨src.len, src.len, dst, alloc, p, m⟩

def fstCopyAndPack (src : Fst) : Run Packed := do
  let alloc ← fstMeasure src
  fstPack src alloc

section Layout
variable {fst : Fst}

theorem copyTrans_frame (ts : List Trans) (p : ℕ) (m : Mem) {a : ℕ}
    (ha : a < p ∨ p + sizeofTrans * ts.length ≤ a) : copyTrans ts p m a = m a := by
  induction ts generalizing p m with
  | nil => rfl
  | cons t ts ih =>
    simp only [List.length_cons, sizeofTrans] at ha ih
    rw [copyTrans, ih _ _ (by simp only [sizeofTrans]; omega), Function.update_of_ne (by omega)]

theorem copyTrans_at (ts : List Trans) (p : ℕ) (m : Mem) {j : ℕ} (hj : j < ts.length) :
    copyTrans ts p m (p + sizeofTrans * j) = some (.trans ts[j]) := by
  induction ts generalizing p m j with
  | nil => simp at hj
  | cons t ts ih =>
    rw [copyTrans]
    cases j with
    | zero =>
      rw [copyTrans_frame _ _ _ (Or.inl (by simp))]
      exact Function.update_self _ _ _
    | succ j =>
      have hp : p + sizeofTrans * (j + 1) = p + sizeofTrans + sizeofTrans * j := by ring
      rw [hp, ih _ _ (by simpa using hj)]
      rfl

theorem copyTrans_not_header (ts : List Trans) (p : ℕ) (m : Mem) {a : ℕ}
    (h : ∀ o n, m a ≠ some (.header o n)) : ∀ o n, copyTrans ts p m a ≠ some (.header o n) := by
  induction ts generalizing p m with
  | nil => exact h
  | cons t ts ih =>
    refine ih _ _ fun o n => ?_
    by_cases hap : a = p
    · subst hap
      simp
    · rw [Function.update_of_ne hap]
      exact h o n

theorem copyHeaders_at (src : Fst) (dst : ℕ) (m : Mem) (n : ℕ) {i : ℕ} (hi : i < n) :
    copyHeaders src dst n m (dst + sizeofState * i) =
      (src.read i).map fun sv => .header none sv.ntrans := by
  induction n with
  | zero => omega
  | succ n ih =>
    rw [copyHeaders]
    by_cases hin : i = n
    · subst hin
      exact Function.update_self _ _ _
    · rw [Function.update_of_ne (by simpa using hin), ih (by omega)]

theorem copyHeaders_frame (src : Fst) (dst : ℕ) (m : Mem) (n : ℕ) {a : ℕ}
    (ha : dst + sizeofState * n ≤ a) : copyHeaders src dst n m a = m a := by
  induction n with
  | zero => rfl
  | succ n ih =>
    simp only [sizeofState] at ha ih
    rw [copyHeaders, Function.update_of_ne (by simp only [sizeofState]; omega), ih (by omega)]

def offset (fst : Fst) : ℕ → ℕ
  | 0 => sizeofFst + fst.len * sizeofState
  | n + 1 => offset fst n + (Fst.row fst n).length * sizeofTrans

theorem offset_mono (fst : Fst) {i j : ℕ} (h : i ≤ j) : offset fst i ≤ offset fst j := by
  induction j with
  | zero =>
    obtain rfl : i = 0 := by omega
    exact le_rfl
  | succ j ih =>
    rcases Nat.lt_or_ge i (j + 1) with hlt | hge
    · exact (ih (by omega)).trans (Nat.le_add_right _ _)
    · obtain rfl : i = j + 1 := by omega
      exact le_rfl

structure Laid (fst : Fst) (n : ℕ) (m : Mem) : Prop where
  done : ∀ i < n, m (sizeofFst + sizeofState * i) =
    some (.header (some (offset fst i)) (Fst.row fst i).length)
  todo : ∀ i < fst.len, n ≤ i → m (sizeofFst + sizeofState * i) =
    some (.header none (Fst.row fst i).length)
  trans : ∀ i < n, ∀ j, (hj : j < (Fst.row fst i).length) →
    m (offset fst i + sizeofTrans * j) = some (.trans (Fst.row fst i)[j])
  rest : ∀ a, sizeofFst + sizeofState * fst.len ≤ a → ∀ o k, m a ≠ some (.header o k)

theorem laid_start (h : fst.Holds (fst.len + 1)) :
    Laid fst 0 (copyHeaders fst sizeofFst fst.len fun _ => none) := by
  refine ⟨by omega, fun i hi _ => ?_, by omega, fun a ha o k => ?_⟩
  · rw [copyHeaders_at _ _ _ _ hi, Fst.read_row h hi.le]
    rfl
  · rw [copyHeaders_frame _ _ _ _ ha]
    simp

theorem Laid.step {n : ℕ} {m : Mem} (h : Laid fst n m) (hn : n < fst.len) :
    Laid fst (n + 1) (copyTrans (Fst.row fst n) (offset fst n)
      (setTransv m (sizeofFst + sizeofState * n) (offset fst n))) := by
  have hset : setTransv m (sizeofFst + sizeofState * n) (offset fst n) =
      Function.update m (sizeofFst + sizeofState * n)
        (some (.header (some (offset fst n)) (Fst.row fst n).length)) := by
    rw [setTransv, h.todo n hn le_rfl]
  have hoff : ∀ i, 32 + fst.len * 16 ≤ offset fst i :=
    fun i => offset_mono fst (Nat.zero_le i)
  have hhead : ∀ i < fst.len, copyTrans (Fst.row fst n) (offset fst n)
      (setTransv m (sizeofFst + sizeofState * n) (offset fst n)) (sizeofFst + sizeofState * i) =
      if i = n then some (.header (some (offset fst n)) (Fst.row fst n).length)
      else m (sizeofFst + sizeofState * i) := by
    intro i hi
    have := hoff n
    rw [copyTrans_frame _ _ _ (Or.inl (by simp only [sizeofFst, sizeofState]; omega)), hset]
    split_ifs with hin
    · subst hin
      exact Function.update_self _ _ _
    · exact Function.update_of_ne (by simpa using hin) _ _
  refine ⟨fun i hi => ?_, fun i hi hni => ?_, fun i hi j hj => ?_, fun a ha => ?_⟩
  · rw [hhead i (by omega)]
    split_ifs with hin
    · rw [hin]
    · exact h.done i (by omega)
  · rw [hhead i hi, if_neg (by omega)]
    exact h.todo i hi (by omega)
  · by_cases hin : i = n
    · subst hin
      exact copyTrans_at _ _ _ hj
    · have hlt : offset fst (i + 1) ≤ offset fst n := offset_mono fst (by omega)
      have hi0 := hoff i
      simp only [offset, sizeofTrans] at hlt
      rw [copyTrans_frame _ _ _ (Or.inl (by simp only [sizeofTrans]; omega)), hset,
        Function.update_of_ne (by simp only [sizeofFst, sizeofState, sizeofTrans]; omega)]
      exact h.trans i (by omega) j hj
  · refine copyTrans_not_header _ _ _ fun o k => ?_
    simp only [sizeofFst, sizeofState] at ha
    rw [hset, Function.update_of_ne (by simp only [sizeofFst, sizeofState]; omega)]
    exact h.rest a ha o k

theorem packStates_laid (h : fst.Holds (fst.len + 1)) {n : ℕ} (hn : n ≤ fst.len) :
    ∃ m, packStates fst sizeofFst (copyHeaders fst sizeofFst fst.len fun _ => none,
      sizeofFst + fst.len * sizeofState) n = .ok (m, offset fst n) ∧ Laid fst n m := by
  induction n with
  | zero => exact ⟨_, rfl, laid_start h⟩
  | succ n ih =>
    obtain ⟨m, hok, hlaid⟩ := ih (by omega)
    refine ⟨_, ?_, hlaid.step (by omega)⟩
    rw [packStates, hok, run_ok_bind, Fst.read_row h (by omega)]
    rfl

theorem measure_offset (h : fst.Holds (fst.len + 1)) {n : ℕ} (hn : n ≤ fst.len) :
    ∃ total, measureStates fst.view n = .ok total ∧
      offset fst n + n * sizeofState = total + sizeofFst + fst.len * sizeofState := by
  induction n with
  | zero => exact ⟨0, rfl, by simp only [offset]; omega⟩
  | succ n ih =>
    obtain ⟨total, hok, hsum⟩ := ih (by omega)
    have hrow := Fst.view_row h (show n ≤ fst.len by omega)
    refine ⟨_, by rw [measureStates, hok, run_ok_bind, hrow.readNtrans, run_ok_bind], ?_⟩
    simp only [offset, sizeofState, sizeofTrans] at hsum ⊢
    omega

theorem copyAndPack_run (h : fst.Holds (fst.len + 1)) :
    ∃ total m, fstMeasure fst = .ok total ∧ offset fst fst.len = total + sizeofFst ∧
      fstCopyAndPack fst = .ok ⟨fst.len, fst.len, sizeofFst, total, offset fst fst.len, m⟩ ∧
      Laid fst fst.len m := by
  obtain ⟨total, hmeas, hsum⟩ := measure_offset h le_rfl
  obtain ⟨m, hpack, hlaid⟩ := packStates_laid h le_rfl
  refine ⟨total, m, hmeas, by omega, ?_, hlaid⟩
  rw [fstCopyAndPack, fstMeasure, hmeas, run_ok_bind, fstPack]
  simp only [hpack, run_ok_bind]

theorem copyAndPack_shows (h : fst.Holds (fst.len + 1)) :
    ∃ pk, fstCopyAndPack fst = .ok pk ∧ pk.len = fst.len ∧ pk.view.Shows fst.len (Fst.row fst) ∧
      pk.view.ntrans fst.len = none := by
  obtain ⟨total, m, -, -, hrun, hlaid⟩ := copyAndPack_run h
  refine ⟨⟨fst.len, fst.len, sizeofFst, total, offset fst fst.len, m⟩, hrun, rfl, ?_, ?_⟩
  · intro i hi
    refine ⟨?_, fun j hj => ?_⟩
    · simp only [Packed.view, hlaid.done i hi]
    · simp only [Packed.view, Packed.transvAt, hlaid.done i hi, Option.bind_some,
        hlaid.trans i hi j hj, List.getElem?_eq_getElem hj]
  · have hrest := hlaid.rest (sizeofFst + sizeofState * fst.len) le_rfl
    cases hm : m (sizeofFst + sizeofState * fst.len) with
    | none => simp only [Packed.view, hm]
    | some c =>
      cases c with
      | header o k => exact (hrest o k hm).elim
      | trans t => simp only [Packed.view, hm]

end Layout

/-- The block is measured without its vector header, so the last 32 bytes of
every copy are written behind the end of the allocation. -/
theorem fst_pack_overruns (adds : List (CStr × ℕ)) :
    ∃ fst total pk, fstBuild adds = .ok fst ∧ fstMeasure fst = .ok total ∧
      fstCopyAndPack fst = .ok pk ∧ pk.alloc = total ∧ pk.used = total + sizeofFst ∧
      ¬ pk.used ≤ total := by
  obtain ⟨fst, label, hok, hb⟩ := fstBuild_built adds
  obtain ⟨total, m, hmeas, hsize, hrun, -⟩ := copyAndPack_run hb.inv.holds
  refine ⟨fst, total, _, hok, hmeas, hrun, rfl, hsize, ?_⟩
  simp only [hsize, sizeofFst]
  omega

theorem fst_pack_overruns_one :
    (fstBuild [(lit ['a'], 1)] >>= fstMeasure) = .ok 32 ∧
    (fstBuild [(lit ['a'], 1)] >>= fun fst => fstCopyAndPack fst >>= fun pk =>
      .ok (pk.alloc, pk.used, decide (pk.used ≤ pk.alloc))) = .ok (32, 64, false) := by
  decide +kernel

end IsbnHyphenate
