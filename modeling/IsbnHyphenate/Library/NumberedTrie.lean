import Mathlib.Data.List.Basic
import Mathlib.Data.List.Infix
import Mathlib.Logic.Function.Basic
import Mathlib.Order.Basic

/-!
# Tries whose nodes are numbered in order of creation

A trie is a finite set of numbered nodes, a partial edge function and a partial
value on each node. It represents a finite map on strings when the nodes are
labelled one to one by a prefix-closed set of strings holding every key. The
alphabet and the values are arbitrary types; nothing here fixes a storage layout.
-/

namespace NumberedTrie

variable {α β : Type*}

structure Trie (α β : Type*) where
  size : ℕ
  next : ℕ → α → Option ℕ
  value : ℕ → Option β

namespace Trie

def walk (T : Trie α β) : ℕ → List α → Option ℕ
  | i, [] => some i
  | i, c :: s => (T.next i c).bind fun j => walk T j s

def find (T : Trie α β) (s : List α) : Option β := (T.walk 0 s).bind T.value

def Childless (T : Trie α β) (i : ℕ) : Prop := ∀ c, T.next i c = none

open Classical in
/-- The search that stops at the first childless node it enters. -/
noncomputable def descend (T : Trie α β) : ℕ → List α → Option β
  | i, [] => T.value i
  | i, c :: s => if T.Childless i then T.value i else (T.next i c).bind fun j => descend T j s

end Trie

/-- `label` names each node by the string that leads to it from node 0, and `d`
is the finite map stored in the trie. -/
structure Represents (T : Trie α β) (label : ℕ → List α) (d : List α → Option β) : Prop where
  pos : 0 < T.size
  root : label 0 = []
  inj : ∀ i < T.size, ∀ j < T.size, label i = label j → i = j
  parent : ∀ j < T.size, j ≠ 0 → ∃ i < j, ∃ c, label j = label i ++ [c]
  next_iff : ∀ i < T.size, ∀ c j, T.next i c = some j ↔ j < T.size ∧ label j = label i ++ [c]
  value_eq : ∀ i < T.size, T.value i = d (label i)
  stored : ∀ s, d s ≠ none → ∃ i < T.size, label i = s

/-- No node is there for nothing: each is passed on the way to some key. -/
def Tight (T : Trie α β) (label : ℕ → List α) (d : List α → Option β) : Prop :=
  ∀ i < T.size, i ≠ 0 → ∃ s, d s ≠ none ∧ label i <+: s

namespace Represents

variable {T : Trie α β} {label : ℕ → List α} {d : List α → Option β}

theorem next_lt (h : Represents T label d) {i j : ℕ} {c : α} (hi : i < T.size)
    (hn : T.next i c = some j) : i < j := by
  obtain ⟨hj, hl⟩ := (h.next_iff i hi c j).mp hn
  have h0 : j ≠ 0 := by
    intro heq
    subst heq
    simp [h.root] at hl
  obtain ⟨k, hk, e, he⟩ := h.parent j hj h0
  rw [hl] at he
  have hki := h.inj i hi k (hk.trans hj) (List.append_inj_left' he rfl)
  omega

theorem prefix_stored (h : Represents T label d) {j : ℕ} (hj : j < T.size) {s : List α}
    (hs : s <+: label j) : ∃ i < T.size, i ≤ j ∧ label i = s := by
  induction j using Nat.strong_induction_on with
  | _ j ih =>
    by_cases h0 : j = 0
    · subst h0
      rw [h.root, List.prefix_nil] at hs
      exact ⟨0, hj, le_rfl, by rw [h.root, hs]⟩
    · obtain ⟨i, hi, c, hl⟩ := h.parent j hj h0
      rw [hl, List.prefix_concat_iff] at hs
      rcases hs with hs | hs
      · exact ⟨j, hj, le_rfl, by rw [hl, hs]⟩
      · obtain ⟨k, hk, hki, hkl⟩ := ih i hi (hi.trans hj) hs
        exact ⟨k, hk, by omega, hkl⟩

theorem le_of_prefix (h : Represents T label d) {i j : ℕ} (hi : i < T.size) (hj : j < T.size)
    (hp : label i <+: label j) : i ≤ j := by
  obtain ⟨k, hk, hkj, hkl⟩ := h.prefix_stored hj hp
  exact h.inj k hk i hi hkl ▸ hkj

theorem walk_iff (h : Represents T label d) {i j : ℕ} (hi : i < T.size) (s : List α) :
    T.walk i s = some j ↔ j < T.size ∧ label j = label i ++ s := by
  induction s generalizing i with
  | nil =>
    simp only [Trie.walk, Option.some.injEq, List.append_nil]
    constructor
    · intro heq
      subst heq
      exact ⟨hi, rfl⟩
    · intro hnode
      rcases hnode with ⟨hj, hl⟩
      exact h.inj i hi j hj hl.symm
  | cons c s ih =>
    simp only [Trie.walk, Option.bind_eq_some_iff]
    constructor
    · intro hwalk
      rcases hwalk with ⟨k, hk, hw⟩
      obtain ⟨hks, hkl⟩ := (h.next_iff i hi c k).mp hk
      obtain ⟨hj, hl⟩ := (ih hks).mp hw
      exact ⟨hj, by rw [hl, hkl, List.append_assoc, List.singleton_append]⟩
    · intro hnode
      rcases hnode with ⟨hj, hl⟩
      have hp : label i ++ [c] <+: label j := ⟨s, by rw [hl]; simp⟩
      obtain ⟨k, hk, -, hkl⟩ := h.prefix_stored hj hp
      refine ⟨k, (h.next_iff i hi c k).mpr ⟨hk, hkl⟩, (ih hk).mpr ⟨hj, ?_⟩⟩
      rw [hl, hkl, List.append_assoc, List.singleton_append]

theorem find_eq (h : Represents T label d) (s : List α) : T.find s = d s := by
  unfold Trie.find
  cases hw : T.walk 0 s with
  | some i =>
    obtain ⟨hi, hl⟩ := (h.walk_iff h.pos s).mp hw
    rw [h.root, List.nil_append] at hl
    simpa only [Option.bind_some, hl] using h.value_eq i hi
  | none =>
    by_contra hne
    obtain ⟨i, hi, hl⟩ := h.stored s (Ne.symm hne)
    have := (h.walk_iff h.pos s).mpr ⟨hi, by rw [h.root, hl, List.nil_append]⟩
    simp [hw] at this

theorem childless_iff (h : Represents T label d) (ht : Tight T label d) {i : ℕ}
    (hi : i < T.size) :
    T.Childless i ↔ ∀ s, d s ≠ none → label i <+: s → s = label i := by
  constructor
  · rintro hc s hs ⟨r, rfl⟩
    cases r with
    | nil => simp
    | cons c r =>
      obtain ⟨k, hk, hkl⟩ := h.stored _ hs
      have hp : label i ++ [c] <+: label k := ⟨r, by rw [hkl]; simp⟩
      obtain ⟨j, hj, -, hjl⟩ := h.prefix_stored hk hp
      have := (h.next_iff i hi c j).mpr ⟨hj, hjl⟩
      simp [hc c] at this
  · intro hs c
    by_contra hne
    obtain ⟨j, hj⟩ := Option.ne_none_iff_exists'.mp hne
    have hij := h.next_lt hi hj
    obtain ⟨hjs, hjl⟩ := (h.next_iff i hi c j).mp hj
    obtain ⟨s, hds, hps⟩ := ht j hjs (by omega)
    have hip : label i <+: s := (List.prefix_append _ _).trans (hjl ▸ hps)
    have hlen := hps.length_le
    rw [hs s hds hip, hjl] at hlen
    simp only [List.length_append, List.length_singleton] at hlen
    omega

/-- The key that a childless-node search answers with: a stored prefix of the
input that is the whole input or that no other key extends. -/
def Answers (d : List α → Option β) (s p : List α) : Prop :=
  p <+: s ∧ d p ≠ none ∧ (p = s ∨ ∀ q, d q ≠ none → p <+: q → q = p)

theorem descend_eq (h : Represents T label d) (ht : Tight T label d) {i : ℕ}
    (hi : i < T.size) (s : List α) (v : β) :
    T.descend i s = some v ↔
      ∃ r, r <+: s ∧ d (label i ++ r) = some v ∧
        (r = s ∨ ∀ q, d q ≠ none → label i ++ r <+: q → q = label i ++ r) := by
  induction s generalizing i with
  | nil =>
    simp only [Trie.descend, List.prefix_nil, h.value_eq i hi]
    constructor
    · intro hv
      exact ⟨[], rfl, by simpa using hv, Or.inl rfl⟩
    · intro hkey
      rcases hkey with ⟨r, rfl, hv, -⟩
      simpa using hv
  | cons c s ih =>
    simp only [Trie.descend]
    split_ifs with hc
    · have hmax := (h.childless_iff ht hi).mp hc
      rw [h.value_eq i hi]
      constructor
      · intro hv
        exact ⟨[], List.nil_prefix, by simpa using hv, Or.inr (by simpa using hmax)⟩
      · intro hkey
        rcases hkey with ⟨r, -, hv, -⟩
        have := hmax (label i ++ r) (by simp [hv]) (List.prefix_append _ _)
        rwa [this] at hv
    · simp only [Option.bind_eq_some_iff]
      constructor
      · intro hstep
        rcases hstep with ⟨j, hj, hd⟩
        obtain ⟨hjs, hjl⟩ := (h.next_iff i hi c j).mp hj
        obtain ⟨r, hr, hv, hmax⟩ := (ih hjs).mp hd
        rw [hjl, List.append_assoc, List.singleton_append] at hv hmax
        refine ⟨c :: r, List.cons_prefix_cons.mpr ⟨rfl, hr⟩, hv, ?_⟩
        rcases hmax with rfl | hmax
        · exact Or.inl rfl
        · exact Or.inr hmax
      · intro hkey
        rcases hkey with ⟨r, hr, hv, hmax⟩
        cases r with
        | nil =>
          rw [h.childless_iff ht hi] at hc
          rw [List.append_nil] at hmax
          simp only [reduceCtorEq, false_or] at hmax
          exact (hc hmax).elim
        | cons e r =>
          obtain ⟨rfl, hrs⟩ := List.cons_prefix_cons.mp hr
          obtain ⟨k, hk, hkl⟩ := h.stored _ (show d (label i ++ e :: r) ≠ none by simp [hv])
          have hp : label i ++ [e] <+: label k := ⟨r, by rw [hkl]; simp⟩
          obtain ⟨j, hj, -, hjl⟩ := h.prefix_stored hk hp
          refine ⟨j, (h.next_iff i hi e j).mpr ⟨hj, hjl⟩, (ih hj).mpr ⟨r, hrs, ?_, ?_⟩⟩
          · rw [hjl, List.append_assoc, List.singleton_append]
            exact hv
          · rw [hjl, List.append_assoc, List.singleton_append]
            rcases hmax with hmax | hmax
            · exact Or.inl (by simpa using hmax)
            · exact Or.inr hmax

theorem descend_root (h : Represents T label d) (ht : Tight T label d) (s : List α) (v : β) :
    T.descend 0 s = some v ↔ ∃ p, Answers d s p ∧ d p = some v := by
  rw [h.descend_eq ht h.pos, h.root]
  simp only [List.nil_append, Answers]
  constructor
  · intro hkey
    rcases hkey with ⟨r, hr, hv, hm⟩
    exact ⟨r, ⟨hr, by simp [hv], hm⟩, hv⟩
  · intro hkey
    rcases hkey with ⟨r, ⟨hr, -, hm⟩, hv⟩
    exact ⟨r, hr, hv, hm⟩

/-- The search depends on the stored map alone, not on the numbering of the nodes. -/
theorem descend_unique {U : Trie α β} {label' : ℕ → List α} (h : Represents T label d)
    (ht : Tight T label d) (h' : Represents U label' d) (ht' : Tight U label' d) (s : List α) :
    T.descend 0 s = U.descend 0 s := by
  apply Option.ext
  intro v
  exact (h.descend_root ht s v).trans (h'.descend_root ht' s v).symm

end Represents

namespace Trie

def addChild [DecidableEq α] (T : Trie α β) (i : ℕ) (c : α) : Trie α β where
  size := T.size + 1
  next := fun j e => if j = i ∧ e = c then some T.size else if j = T.size then none else T.next j e
  value := Function.update T.value T.size none

def setValue (T : Trie α β) (i : ℕ) (v : β) : Trie α β :=
  { T with value := Function.update T.value i (some v) }

theorem addChild_next_self [DecidableEq α] (T : Trie α β) (i : ℕ) (c : α) :
    (T.addChild i c).next i c = some T.size := if_pos ⟨rfl, rfl⟩

theorem addChild_next_new [DecidableEq α] (T : Trie α β) {i : ℕ} (hi : i ≠ T.size) (c e : α) :
    (T.addChild i c).next T.size e = none :=
  (if_neg fun h => hi h.1.symm).trans (if_pos rfl)

theorem addChild_next_of_ne [DecidableEq α] (T : Trie α β) {i j : ℕ} {c e : α}
    (h : ¬ (j = i ∧ e = c)) (hj : j ≠ T.size) : (T.addChild i c).next j e = T.next j e :=
  (if_neg h).trans (if_neg hj)

end Trie

namespace Represents

variable {T : Trie α β} {label : ℕ → List α} {d : List α → Option β}

theorem label_ne_append (h : Represents T label d) {i : ℕ} {c : α} (hi : i < T.size)
    (hn : T.next i c = none) : ∀ j < T.size, label j ≠ label i ++ [c] := by
  intro j hj hl
  have := (h.next_iff i hi c j).mpr ⟨hj, hl⟩
  simp [hn] at this

theorem addChild_next_iff [DecidableEq α] (h : Represents T label d) {i : ℕ} {c : α}
    (hi : i < T.size) (hn : T.next i c = none) {label' : ℕ → List α}
    (hlab : ∀ j < T.size, label' j = label j) (hnew : label' T.size = label i ++ [c]) {j : ℕ}
    (hj' : j < T.size + 1) (e : α) (k : ℕ) :
    (T.addChild i c).next j e = some k ↔ k < T.size + 1 ∧ label' k = label' j ++ [e] := by
  have hfresh := h.label_ne_append hi hn
  have hcases : ∀ j < T.size + 1, j < T.size ∨ j = T.size := by omega
  rcases hcases j hj' with hj | rfl
  · clear hj'
    by_cases hje : j = i ∧ e = c
    · obtain ⟨rfl, rfl⟩ := hje
      rw [Trie.addChild_next_self, Option.some.injEq]
      constructor
      · intro heq
        subst heq
        exact ⟨Nat.lt_succ_self _, by rw [hnew, hlab j hj]⟩
      · intro hnode
        rcases hnode with ⟨hk, hl⟩
        rcases hcases k hk with hk | rfl
        · rw [hlab k hk, hlab j hj] at hl
          exact (hfresh k hk hl).elim
        · rfl
    · have hjn : j ≠ T.size := by omega
      rw [Trie.addChild_next_of_ne T hje hjn, h.next_iff j hj, hlab j hj]
      constructor
      · intro hnode
        rcases hnode with ⟨hk, hl⟩
        exact ⟨Nat.lt_succ_of_lt hk, by rw [hlab k hk, hl]⟩
      · intro hnode
        rcases hnode with ⟨hk, hl⟩
        rcases hcases k hk with hk | rfl
        · exact ⟨hk, by rw [← hlab k hk, hl]⟩
        · rw [hnew] at hl
          obtain ⟨hl, he⟩ := List.append_inj' hl rfl
          exact (hje ⟨(h.inj i hi j hj hl).symm, (List.singleton_inj.mp he).symm⟩).elim
  · rw [Trie.addChild_next_new T (by omega)]
    simp only [reduceCtorEq, false_iff, not_and]
    rw [hnew]
    intro hk hl
    rcases hcases k hk with hk | rfl
    · rw [hlab k hk] at hl
      obtain ⟨m, hm, -, hml⟩ := h.prefix_stored hk ⟨[e], hl.symm⟩
      exact hfresh m hm hml
    · rw [hnew] at hl
      simp at hl

theorem addChild [DecidableEq α] (h : Represents T label d) {i : ℕ} {c : α} (hi : i < T.size)
    (hn : T.next i c = none) :
    Represents (T.addChild i c) (Function.update label T.size (label i ++ [c])) d := by
  have hfresh := h.label_ne_append hi hn
  have hlab : ∀ j < T.size, Function.update label T.size (label i ++ [c]) j = label j :=
    fun j hj => Function.update_of_ne (by omega) _ _
  have hnew : Function.update label T.size (label i ++ [c]) T.size = label i ++ [c] :=
    Function.update_self _ _ _
  have hcases : ∀ j < T.size + 1, j < T.size ∨ j = T.size := by omega
  refine ⟨Nat.succ_pos _, ?_, ?_, ?_, ?_, ?_, ?_⟩
  · rw [hlab 0 h.pos, h.root]
  · intro j hj k hk hl
    rcases hcases j hj with hj | rfl <;> rcases hcases k hk with hk | rfl
    · rw [hlab j hj, hlab k hk] at hl
      exact h.inj j hj k hk hl
    · rw [hlab j hj, hnew] at hl
      exact (hfresh j hj hl).elim
    · rw [hlab k hk, hnew] at hl
      exact (hfresh k hk hl.symm).elim
    · rfl
  · intro j hj h0
    rcases hcases j hj with hj | rfl
    · obtain ⟨k, hk, e, he⟩ := h.parent j hj h0
      exact ⟨k, hk, e, by rw [hlab j hj, hlab k (hk.trans hj), he]⟩
    · exact ⟨i, hi, c, by rw [hnew, hlab i hi]⟩
  · intro j hj e k
    exact h.addChild_next_iff hi hn hlab hnew hj e k
  · intro j hj'
    rcases hcases j hj' with hj | rfl
    · have hjn : j ≠ T.size := by omega
      rw [hlab j hj, ← h.value_eq j hj]
      exact Function.update_of_ne hjn _ _
    · rw [hnew]
      refine (Function.update_self _ _ _).trans ?_
      by_contra hne
      obtain ⟨j, hj, hl⟩ := h.stored _ (Ne.symm hne)
      exact hfresh j hj hl
  · intro s hs
    obtain ⟨j, hj, hl⟩ := h.stored s hs
    exact ⟨j, Nat.lt_succ_of_lt hj, by rw [hlab j hj, hl]⟩

theorem setValue [DecidableEq α] (h : Represents T label d) {i : ℕ} (hi : i < T.size) (v : β) :
    Represents (T.setValue i v) label (Function.update d (label i) (some v)) := by
  refine ⟨h.pos, h.root, h.inj, h.parent, h.next_iff, ?_, ?_⟩
  · intro j hj
    by_cases hji : j = i
    · subst hji
      simp [Trie.setValue]
    · have hl : label j ≠ label i := fun hl => hji (h.inj j hj i hi hl)
      simpa [Trie.setValue, hji, hl] using h.value_eq j hj
  · intro s hs
    by_cases hsi : s = label i
    · exact ⟨i, hi, hsi.symm⟩
    · rw [Function.update_of_ne hsi] at hs
      exact h.stored s hs

end Represents

theorem represents_empty :
    Represents (⟨1, fun _ _ => none, fun _ => none⟩ : Trie α β) (fun _ => []) fun _ => none := by
  refine ⟨Nat.one_pos, rfl, ?_, ?_, ?_, ?_, ?_⟩
  · intro i hi j hj _
    exact (Nat.lt_one_iff.mp hi).trans (Nat.lt_one_iff.mp hj).symm
  · intro j hj h0
    exact (h0 (Nat.lt_one_iff.mp hj)).elim
  · intro i _ c j
    simp
  · intro i _
    rfl
  · intro s hs
    exact (hs rfl).elim

end NumberedTrie
