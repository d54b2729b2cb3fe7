import IsbnHyphenate.Vec

/-!
# The vector in machine words

`vec_t` with its sizes as 64-bit words and its block as so many bytes. Where the
products of `vec_grow` do not overflow the code computes the sizes of
`vecMakeRoom`, and it makes room for every index but the ones that the first
block of 10 elements or the factor 16/10 just miss.
-/

namespace IsbnHyphenate

structure VecT where
  base : Option ℕ
  len : UInt64
  size : UInt64
  esize : UInt64

def vecAllocWord (vp : VecT) (nelem : UInt64) : Run VecT :=
  if vp.base ≠ none then .error (.exit 64)
  else if vp.size ≠ 0 then .error (.exit 64)
  else .ok { vp with base := some (nelem * vp.esize).toNat, size := nelem }

def growSizeWord (size idx : UInt64) : UInt64 :=
  let newSize := (size * 16) / 10
  if idx > newSize then (idx * 16) / 10 else newSize

def vecGrowWord (vp : VecT) (idx : UInt64) : VecT :=
  { vp with base := some (growSizeWord vp.size idx * vp.esize).toNat
            size := growSizeWord vp.size idx }

def vecMakeRoomWord (vp : VecT) (idx : UInt64) : Run VecT :=
  if vp.base = none then vecAllocWord vp 10
  else if idx ≥ vp.size then .ok (vecGrowWord vp idx) else .ok vp

namespace VecT

def HasRoom (vp : VecT) (n : ℕ) : Prop := ∃ bytes ∈ vp.base, n * vp.esize.toNat ≤ bytes

structure NoOverflow (vp : VecT) (idx : UInt64) : Prop where
  alloc : vp.base = none → 10 * vp.esize.toNat < sizeMod
  size : vp.base ≠ none → vp.size ≤ idx → vp.size.toNat * 16 < sizeMod
  growth : vp.base ≠ none → vp.size.toNat * 16 / 10 < idx.toNat → idx.toNat * 16 < sizeMod
  bytes : vp.base ≠ none → vp.size ≤ idx →
    growSize vp.size.toNat idx.toNat * vp.esize.toNat < sizeMod

/-- The capacity goes beyond `idx` and has not shrunk, and the element may be
written if the block was as large as `size` says. -/
def MakesRoom (vp : VecT) (idx : UInt64) : Prop :=
  ∃ vp', vecMakeRoomWord vp idx = .ok vp' ∧ idx < vp'.size ∧ vp.size ≤ vp'.size ∧
    (vp.base = none ∨ vp.HasRoom vp.size.toNat → vp'.HasRoom (idx.toNat + 1))

theorem toNat_mul_words {a b : UInt64} (h : a.toNat * b.toNat < sizeMod) :
    (a * b).toNat = a.toNat * b.toNat := by
  rw [UInt64.toNat_mul]
  exact Nat.mod_eq_of_lt h

theorem toNat_times_16_10 {a : UInt64} (h : a.toNat * 16 < sizeMod) :
    (a * 16 / 10).toNat = a.toNat * 16 / 10 := by
  rw [UInt64.toNat_div, toNat_mul_words h]
  rfl

theorem toNat_growSizeWord {size idx : UInt64} (hs : size.toNat * 16 < sizeMod)
    (hi : size.toNat * 16 / 10 < idx.toNat → idx.toNat * 16 < sizeMod) :
    (growSizeWord size idx).toNat = growSize size.toNat idx.toNat := by
  have hnew := toNat_times_16_10 hs
  simp only [growSizeWord, growSize, gt_iff_lt, UInt64.lt_iff_toNat_lt, hnew]
  split_ifs with hlt
  · exact toNat_times_16_10 (hi hlt)
  · exact hnew

variable {α : Type}

structure Models (v : VecT) (vp : Vec α) : Prop where
  base : v.base = none ↔ vp.base = none
  len : v.len.toNat = vp.len
  size : v.size.toNat = vp.size

theorem Models.makeRoom {v : VecT} {vp : Vec α} {idx : UInt64} (h : v.Models vp)
    (hfit : v.NoOverflow idx) :
    (∃ v' vp', vecMakeRoomWord v idx = .ok v' ∧ vecMakeRoom vp idx.toNat = .ok vp' ∧
        v'.Models vp') ∨
      (vecMakeRoomWord v idx = .error (.exit 64) ∧
        vecMakeRoom vp idx.toNat = .error (.exit 64)) := by
  have hsize : vp.size = v.size.toNat := h.size.symm
  by_cases hb : v.base = none
  · have hb' := h.base.mp hb
    by_cases hs : v.size = 0
    · have hs' : vp.size = 0 := by rw [hsize, hs]; rfl
      left
      refine ⟨{ v with base := some (10 * v.esize).toNat, size := 10 }, _, ?_,
        Vec.makeRoom_alloc hb' hs' _, ?_⟩
      · simp [vecMakeRoomWord, vecAllocWord, hb, hs]
      · exact ⟨by simp, h.len, rfl⟩
    · have hs' : vp.size ≠ 0 := by
        rw [hsize]
        exact fun heq => hs (UInt64.toNat_inj.mp heq)
      right
      constructor
      · simp [vecMakeRoomWord, vecAllocWord, hb, hs]
      · simp [vecMakeRoom, vecAlloc, hb', hs']
  · have hb' : vp.base ≠ none := fun heq => hb (h.base.mpr heq)
    left
    by_cases hi : v.size ≤ idx
    · have hi' : vp.size ≤ idx.toNat := by rw [hsize]; exact UInt64.le_iff_toNat_le.mp hi
      refine ⟨vecGrowWord v idx, vecGrow vp idx.toNat, ?_, Vec.makeRoom_grow hb' hi',
        by simp [vecGrowWord, vecGrow], h.len, ?_⟩
      · simp [vecMakeRoomWord, hb, hi]
      · rw [vecGrowWord, vecGrow, hsize]
        exact toNat_growSizeWord (hfit.size hb hi) (hfit.growth hb)
    · have hi' : ¬ vp.size ≤ idx.toNat := by
        rw [hsize]
        exact fun hle => hi (UInt64.le_iff_toNat_le.mpr hle)
      exact ⟨v, vp, by simp [vecMakeRoomWord, hb, hi], Vec.makeRoom_keep hb' hi', h⟩

theorem hasRoom_makeRoom {v v' : VecT} {idx : UInt64} (hfit : v.NoOverflow idx)
    (hrun : vecMakeRoomWord v idx = .ok v') (hroom : v.base = none ∨ v.HasRoom v.size.toNat) :
    v'.HasRoom v'.size.toNat := by
  rw [vecMakeRoomWord] at hrun
  split_ifs at hrun with hb hi
  · rw [vecAllocWord] at hrun
    split_ifs at hrun with hs
    cases hrun
    have hbytes : (10 : UInt64).toNat * v.esize.toNat < sizeMod := hfit.alloc hb
    exact ⟨_, rfl, (toNat_mul_words hbytes).ge⟩
  · cases hrun
    have hsize := toNat_growSizeWord (hfit.size hb hi) (hfit.growth hb)
    have hbytes : (growSizeWord v.size idx).toNat * v.esize.toNat < sizeMod := by
      rw [hsize]
      exact hfit.bytes hb hi
    exact ⟨_, rfl, (toNat_mul_words hbytes).ge⟩
  · cases hrun
    exact hroom.resolve_left hb

theorem HasRoom.mono {v : VecT} {m n : ℕ} (h : v.HasRoom n) (hle : m ≤ n) : v.HasRoom m := by
  obtain ⟨bytes, hbase, hfits⟩ := h
  exact ⟨bytes, hbase, (Nat.mul_le_mul_right _ hle).trans hfits⟩

theorem Models.makesRoom_iff {v : VecT} {vp room : Vec α} {idx : UInt64} (h : v.Models vp)
    (hfit : v.NoOverflow idx) (hroom : vecMakeRoom vp idx.toNat = .ok room)
    (hle : vp.size ≤ room.size) : v.MakesRoom idx ↔ idx.toNat < room.size := by
  rcases h.makeRoom hfit with ⟨v', room', hrun, hroom', hm⟩ | ⟨-, hstop⟩
  · rw [hroom] at hroom'
    cases hroom'
    rw [← h.size, ← hm.size] at hle
    rw [← hm.size]
    constructor
    · intro hmakes
      obtain ⟨v'', hrun', hlt, -⟩ := hmakes
      rw [hrun] at hrun'
      cases hrun'
      exact UInt64.lt_iff_toNat_lt.mp hlt
    · intro hlt
      refine ⟨v', hrun, UInt64.lt_iff_toNat_lt.mpr hlt, UInt64.le_iff_toNat_le.mpr hle, ?_⟩
      exact fun hblock => (hasRoom_makeRoom hfit hrun hblock).mono hlt
  · rw [hroom] at hstop
    cases hstop

def ideal (v : VecT) : Vec Unit := ⟨v.base.map fun _ => [], v.len.toNat, v.size.toNat⟩

theorem models_ideal (v : VecT) : v.Models v.ideal := ⟨Option.map_eq_none_iff.symm, rfl, rfl⟩

end VecT

/-- `vec_make_room` reaches its index if and only if the first block of 10
elements does, or the index is not the one where the grown block ends. -/
theorem vec_make_room_iff {vp : VecT} {idx : UInt64} (hbase : vp.base = none ↔ vp.size = 0)
    (hfit : vp.NoOverflow idx) :
    vp.MakesRoom idx ↔ (vp.base = none → idx.toNat < 10) ∧
      (vp.base ≠ none → idx.toNat ≠ vp.size.toNat * 16 / 10) := by
  have hm := vp.models_ideal
  have hsize : vp.size = 0 ↔ vp.ideal.size = 0 := by
    rw [← UInt64.toNat_inj]
    rfl
  obtain ⟨room, hroom, hle, hreach⟩ :=
    Vec.makeRoom_reaches (hm.base.symm.trans (hbase.trans hsize)) idx.toNat
  rw [hm.makesRoom_iff hfit hroom hle, hreach, ne_eq, ne_eq, ← hm.base]
  rfl

theorem vec_make_room_grows : VecT.MakesRoom ⟨some 160, 9, 10, 16⟩ 10 := by
  have hfit : VecT.NoOverflow ⟨some 160, 9, 10, 16⟩ 10 :=
    ⟨by decide, by decide, by decide, by decide⟩
  exact (vec_make_room_iff (by decide) hfit).mpr (by decide)

/-- `fst_init` asks a new vector for index 10 and gets a block of 10 elements.
Later 10 elements grow to 16, even when index 16 is asked for. -/
theorem vec_make_room_misses :
    (VecT.NoOverflow ⟨none, 0, 0, 16⟩ 10 ∧ ¬ VecT.MakesRoom ⟨none, 0, 0, 16⟩ 10) ∧
      VecT.NoOverflow ⟨some 160, 9, 10, 16⟩ 16 ∧ ¬ VecT.MakesRoom ⟨some 160, 9, 10, 16⟩ 16 := by
  refine ⟨⟨⟨by decide, by decide, by decide, by decide⟩, fun hmakes => ?_⟩,
    ⟨by decide, by decide, by decide, by decide⟩, fun hmakes => ?_⟩
  · obtain ⟨vp', hrun, hlt, -⟩ := hmakes
    cases hrun
    exact absurd hlt (by decide)
  · obtain ⟨vp', hrun, hlt, -⟩ := hmakes
    cases hrun
    exact absurd hlt (by decide)

end IsbnHyphenate
