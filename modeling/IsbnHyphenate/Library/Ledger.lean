import IsbnHyphenate.Library.Lockstep
import Mathlib.Data.Multiset.AddSub
import Mathlib.Data.Multiset.ZeroCons

/-!
# Who owns which blocks

A heap numbers its blocks as it hands them out and uses no number twice; only a
live block can be read or freed. A program that allocates and frees runs beside a plain
one that does neither. `Accounts` says that the two end alike, and which blocks the
program owns before and behind, whatever else is live.
-/

namespace Ledger
open Lockstep

structure Heap where
  next : ℕ
  live : Multiset ℕ
  nodup : live.Nodup
  below : ∀ b ∈ live, b < next

def Heap.empty : Heap := ⟨0, 0, Multiset.nodup_zero, fun b hb => absurd hb (Multiset.notMem_zero b)⟩

def Heap.alloc (h : Heap) : Heap where
  next := h.next + 1
  live := h.next ::ₘ h.live
  nodup := Multiset.nodup_cons.mpr ⟨fun hmem => lt_irrefl _ (h.below _ hmem), h.nodup⟩
  below b hb := by
    rcases Multiset.mem_cons.mp hb with rfl | hb
    · exact Nat.lt_succ_self _
    · exact Nat.lt_succ_of_lt (h.below b hb)

def Heap.erase (h : Heap) (b : ℕ) : Heap where
  next := h.next
  live := h.live.erase b
  nodup := h.nodup.erase b
  below c hc := h.below c (Multiset.mem_of_mem_erase hc)

theorem Heap.alloc_live (h : Heap) : h.alloc.live = h.next ::ₘ h.live := rfl

theorem Heap.erase_live (h : Heap) (b : ℕ) : (h.erase b).live = h.live.erase b := rfl

variable {ε α β γ δ : Type}

abbrev Held (ε α : Type) := StateT Heap (Except ε) α

def malloc : Held ε ℕ := fun h => .ok (h.next, h.alloc)

/-- `fault` is how the program ends that frees what is not live. -/
def free (fault : ε) (b : ℕ) : Held ε Unit := fun h =>
  if b ∈ h.live then .ok ((), h.erase b) else .error fault

def freeAll (fault : ε) : List ℕ → Held ε Unit
  | [] => pure ()
  | b :: bs => do
    free fault b
    freeAll fault bs

def touch (fault : ε) (b : ℕ) : Held ε Unit := fun h =>
  if b ∈ h.live then .ok ((), h) else .error fault

def quit (e : ε) : Held ε α := fun _ => .error e

def plain (x : Except ε α) : Held ε α := fun h => x.map fun a => (a, h)

def Accounts (own : Multiset ℕ) (x : Held ε α) (y : Except ε β) (Q : α → β → Multiset ℕ → Prop) :
    Prop :=
  ∀ h rest, h.live = own + rest →
    Related (fun p b => ∃ own', Q p.1 b own' ∧ p.2.live = own' + rest) (x h) y

variable {own : Multiset ℕ} {x : Held ε α} {y : Except ε β} {Q : α → β → Multiset ℕ → Prop}

theorem Accounts.bind {R : γ → δ → Multiset ℕ → Prop} {f : α → Held ε γ} {g : β → Except ε δ}
    (hx : Accounts own x y Q) (hf : ∀ a b own', Q a b own' → Accounts own' (f a) (g b) R) :
    Accounts own (x >>= f) (y >>= g) R := by
  intro h rest hlive
  refine (hx h rest hlive).bind fun p b hpost => ?_
  obtain ⟨own', hQ, hlive'⟩ := hpost
  exact hf p.1 b own' hQ p.2 rest hlive'

theorem Accounts.pure {a : α} {b : β} (h : Q a b own) :
    Accounts own (pure a) (.ok b : Except ε β) Q :=
  fun _ _ hlive => .ok ⟨own, h, hlive⟩

theorem Accounts.quit (e : ε) : Accounts own (quit e : Held ε α) (.error e : Except ε β) Q :=
  fun _ _ _ => .error e

theorem Accounts.plain {x : Except ε δ} {f : δ → Held ε α} {g : δ → Except ε β}
    (h : ∀ c, x = .ok c → Accounts own (f c) (g c) Q) :
    Accounts own (plain x >>= f) (x >>= g) Q := by
  intro heap rest hlive
  cases x with
  | error e => exact .error e
  | ok c => exact h c rfl heap rest hlive

theorem Accounts.mono {Q' : α → β → Multiset ℕ → Prop} (h : Accounts own x y Q)
    (hQ : ∀ a b own', Q a b own' → Q' a b own') : Accounts own x y Q' := by
  intro heap rest hlive
  refine (h heap rest hlive).mono fun p b hpost => ?_
  obtain ⟨own', hq, hlive'⟩ := hpost
  exact ⟨own', hQ _ _ _ hq, hlive'⟩

theorem Accounts.ran (h : Accounts own x y Q) :
    Accounts own x y fun a b own' => y = .ok b ∧ Q a b own' := by
  intro heap rest hlive
  have hrun := h heap rest hlive
  generalize x heap = r at hrun ⊢
  cases hrun with
  | error e => exact .error e
  | ok hpost =>
    obtain ⟨own', hq, hlive'⟩ := hpost
    exact .ok ⟨own', ⟨rfl, hq⟩, hlive'⟩

theorem Accounts.frame (h : Accounts own x y Q) (other : Multiset ℕ) :
    Accounts (own + other) x y fun a b own' => ∃ o, own' = o + other ∧ Q a b o := by
  intro heap rest hlive
  rw [Multiset.add_assoc] at hlive
  refine (h heap _ hlive).mono fun p b hpost => ?_
  obtain ⟨o, hq, hlive'⟩ := hpost
  exact ⟨o + other, ⟨o, rfl, hq⟩, hlive'.trans (Multiset.add_assoc _ _ _).symm⟩

theorem Accounts.frame_cons (h : Accounts own x y Q) (c : ℕ) :
    Accounts (c ::ₘ own) x y fun a b own' => ∃ o, own' = c ::ₘ o ∧ Q a b o := by
  have hframe := h.frame {c}
  rw [Multiset.add_comm, Multiset.singleton_add] at hframe
  refine hframe.mono fun a b own' hpost => ?_
  obtain ⟨o, rfl, hq⟩ := hpost
  exact ⟨o, by rw [Multiset.add_comm, Multiset.singleton_add], hq⟩

theorem Accounts.andThen {R : γ → β → Multiset ℕ → Prop} {f : α → Held ε γ}
    (hx : Accounts own x y Q)
    (hf : ∀ a b own', Q a b own' → Accounts own' (f a) (.ok b : Except ε β) R) :
    Accounts own (x >>= f) y R := by
  have hboth := hx.bind hf
  rwa [show y >>= (fun b => (.ok b : Except ε β)) = y from bind_pure y] at hboth

theorem Accounts.malloc {f : ℕ → Held ε α} (h : ∀ b, Accounts (b ::ₘ own) (f b) y Q) :
    Accounts own (malloc >>= f) y Q := by
  intro heap rest hlive
  refine h heap.next heap.alloc rest ?_
  rw [Heap.alloc_live, hlive, Multiset.cons_add]

theorem Accounts.free {fault : ε} {b : ℕ} {f : Unit → Held ε α} (h : Accounts own (f ()) y Q) :
    Accounts (b ::ₘ own) (free fault b >>= f) y Q := by
  intro heap rest hlive
  rw [Multiset.cons_add] at hlive
  have hmem : b ∈ heap.live := hlive ▸ Multiset.mem_cons_self b _
  have hcall : (Ledger.free fault b >>= f) heap = f () (heap.erase b) := by
    have hfree : Ledger.free fault b heap = .ok ((), heap.erase b) := if_pos hmem
    change (Ledger.free fault b heap >>= fun p => f p.1 p.2) = _
    rw [hfree]
    rfl
  rw [hcall]
  refine h (heap.erase b) rest ?_
  rw [Heap.erase_live, hlive, Multiset.erase_cons_head]

theorem Accounts.touch {fault : ε} {b : ℕ} {f : Unit → Held ε α} (hown : b ∈ own)
    (h : Accounts own (f ()) y Q) : Accounts own (touch fault b >>= f) y Q := by
  intro heap rest hlive
  have hmem : b ∈ heap.live := by
    rw [hlive]
    exact Multiset.mem_add.mpr (Or.inl hown)
  have hcall : (Ledger.touch fault b >>= f) heap = f () heap := by
    have htouch : Ledger.touch fault b heap = .ok ((), heap) := if_pos hmem
    change (Ledger.touch fault b heap >>= fun p => f p.1 p.2) = _
    rw [htouch]
    rfl
  rw [hcall]
  exact h heap rest hlive

theorem Accounts.freeAll {fault : ε} (bs : List ℕ) {f : Unit → Held ε α}
    (h : Accounts own (f ()) y Q) : Accounts (bs + own) (freeAll fault bs >>= f) y Q := by
  induction bs with
  | nil =>
    rw [Multiset.coe_nil, Multiset.zero_add]
    exact h
  | cons b bs ih =>
    have hassoc : Ledger.freeAll fault (b :: bs) >>= f =
        Ledger.free fault b >>= fun _ => Ledger.freeAll fault bs >>= f := by
      rw [Ledger.freeAll, bind_assoc]
    rw [hassoc, ← Multiset.cons_coe, Multiset.cons_add]
    exact ih.free

theorem freeAll_append (fault : ε) (bs cs : List ℕ) :
    freeAll fault (bs ++ cs) = freeAll fault bs >>= fun _ => freeAll fault cs := by
  induction bs with
  | nil => rfl
  | cons b bs ih => rw [List.cons_append, freeAll, freeAll, ih, bind_assoc]

end Ledger
