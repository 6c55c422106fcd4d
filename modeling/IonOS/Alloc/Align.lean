import IonOS.Alloc.Layout

/-!
# Rounding to an alignment

What the aligned search computes for one block: its start rounded up, and
whether the request still fits behind that. None of it looks at more than the
block itself, so the pool and the manager share it.
-/

namespace IonOS.Alloc

open IonOS.Lib

variable {e : Nat} {m : Mem} {x s n align : Nat}

/-! ## Rounding -/

/-- A power of two of at least two words. -/
structure AlignPow (align : Nat) : Prop where
  pow : ∃ k < 64, align = 2 ^ k
  big : 16 ≤ align

theorem AlignPow.le (ha : AlignPow align) : align ≤ 2 ^ 63 := by
  obtain ⟨k, hk, rfl⟩ := ha.pow
  exact Nat.pow_le_pow_right (by decide) (by omega)

theorem AlignPow.dvd (ha : AlignPow align) : align % 16 = 0 := by
  obtain ⟨k, -, rfl⟩ := ha.pow
  have h4 : 2 ^ 4 ≤ 2 ^ k := ha.big
  have hk := (Nat.pow_le_pow_iff_right (by decide)).mp h4
  rw [show k = 4 + (k - 4) by omega, Nat.pow_add]
  exact Nat.mul_mod_right _ _

/-- The source's test for a power of two, which zero passes too, turns the alignment down. -/
def Refused (align : Nat) : Prop := align &&& subW align 1 ≠ 0

instance (align : Nat) : Decidable (Refused align) :=
  inferInstanceAs (Decidable (align &&& subW align 1 ≠ 0))

/-- No power of two is turned down. -/
theorem AlignPow.test (ha : AlignPow align) : align &&& subW align 1 = 0 := by
  have hle := ha.le
  have hbig := ha.big
  rw [subW_of_le (by omega) (by omega)]
  obtain ⟨k, -, rfl⟩ := ha.pow
  rw [Nat.and_two_pow_sub_one_eq_mod, Nat.mod_self]

/-- What passes it and is not too small is one. -/
theorem AlignPow.of_test (ht : align &&& subW align 1 = 0) (hbig : 16 ≤ align)
    (hlt : align < 2 ^ 64) : AlignPow align := by
  rw [subW_of_le (by omega) hlt, Nat.and_sub_one_eq_zero_iff_isPowerOfTwo (by omega)] at ht
  obtain ⟨k, rfl⟩ := ht
  exact ⟨⟨k, (Nat.pow_lt_pow_iff_right (by decide)).mp hlt, rfl⟩, hbig⟩

/-- A power of two that no address of the area is rounded past the end of memory with. -/
structure AlignFits (e align : Nat) : Prop where
  pow : ∃ k, align = 2 ^ k
  big : 16 ≤ align
  nowrap : e + align ≤ 2 ^ 64

theorem AlignFits.toPow (ha : AlignFits e align) (he : 16 ≤ e) : AlignPow align := by
  obtain ⟨k, rfl⟩ := ha.pow
  have hlt : 2 ^ k < 2 ^ 64 := by have := ha.nowrap; omega
  exact ⟨⟨k, (Nat.pow_lt_pow_iff_right (by decide)).mp hlt, rfl⟩, ha.big⟩

/-- Rounding up gives the next multiple, which may be the end of the address space. -/
theorem paddingUp_spec (ha : AlignPow align) (hx : x < 2 ^ 64) (h16 : x % 16 = 0) :
    (paddingUp x align % align = 0 ∧ x ≤ paddingUp x align ∧ paddingUp x align < x + align ∧
      paddingUp x align < 2 ^ 64 ∧ paddingUp x align % 16 = 0) ∨
    (paddingUp x align = 0 ∧ 0 < x ∧ 2 ^ 64 < x + align) := by
  have hbig := ha.big
  have hle := ha.le
  have hpos : 0 < align := by omega
  have hdiv := Nat.div_add_mod (x + align - 1) align
  have hmod := Nat.mod_lt (x + align - 1) hpos
  rw [Nat.mul_comm] at hdiv
  rw [paddingUp, paddingDown]
  by_cases hwrap : x + align - 1 < 2 ^ 64
  · have hsub : subW (addW x align) 1 = x + align - 1 := by
      unfold subW addW
      omega
    have h16' : (x + align - 1) / align * align % 16 = 0 := by
      rw [Nat.mul_mod, ha.dvd, Nat.mul_zero, Nat.zero_mod]
    rw [hsub]
    exact .inl ⟨Nat.mul_mod_left _ _, by omega, by omega, by omega, h16'⟩
  · -- the sum wraps around, and what is left is less than one stretch
    have hsub : subW (addW x align) 1 = x + align - 1 - 2 ^ 64 := by
      unfold subW addW
      omega
    rw [hsub, Nat.div_eq_of_lt (by omega), Nat.zero_mul]
    exact .inr ⟨rfl, by omega, by omega⟩

/-- Without a wrap there is only the first case. -/
theorem AlignFits.rounds (ha : AlignFits e align) (he : 16 ≤ e) (hx : x < e)
    (h16 : x % 16 = 0) : x ≤ paddingUp x align ∧ paddingUp x align < 2 ^ 64 := by
  have hwrap := ha.nowrap
  have hbig := ha.big
  rcases paddingUp_spec (ha.toPow he) (by omega) h16 with h | h
  · exact ⟨h.2.1, h.2.2.2.1⟩
  · omega

/-- **What the search asks of a block**: that the rounded start leaves room for the request. -/
theorem alignedFits_spec (hf : Fits x s) (hs : blkSize m x = s)
    (ha : AlignPow align) (hn : n < 2 ^ 63) (hfit : alignedFits n align m x) :
    paddingUp x align % align = 0 ∧ x ≤ paddingUp x align ∧ paddingUp x align < 2 ^ 64 ∧
      paddingUp x align % 16 = 0 ∧ n + (paddingUp x align - x) ≤ s := by
  have hhigh := hf.high
  have hle := ha.le
  unfold alignedFits alignedSizeOf at hfit
  rw [hs, decide_eq_true_iff] at hfit
  rcases paddingUp_spec ha (by omega) hf.ptrAlign with ⟨h1, h2, h3, h4, h5⟩ | ⟨h0, hpos, hgap⟩
  · rw [subW_of_le h2 h4] at hfit
    have hoff : paddingUp x align - x < 2 ^ 63 := by omega
    unfold toLong at hfit
    rw [if_pos hn, if_pos hoff] at hfit
    split at hfit
    · exact ⟨h1, h2, h4, h5, by omega⟩
    · omega
  · -- a block ends before the end of the address space, so this one does not fit
    exfalso
    have hsub : subW 0 x = 2 ^ 64 - x := by
      unfold subW
      omega
    rw [h0, hsub] at hfit
    unfold toLong at hfit
    rw [if_pos hn, if_pos (by omega)] at hfit
    split at hfit <;> omega

/-- In an area below `2 ^ 63` bytes that is all it asks. -/
theorem alignedFits_of_room (hs : blkSize m x = s)
    (hsmall : s < 2 ^ 63) (hx : x ≤ paddingUp x align) (hlt : paddingUp x align < 2 ^ 64)
    (hroom : n + (paddingUp x align - x) ≤ s) : alignedFits n align m x := by
  unfold alignedFits alignedSizeOf toLong
  rw [hs, subW_of_le hx hlt, decide_eq_true_iff, if_pos (by omega), if_pos (by omega),
    if_pos (by omega)]
  omega

end IonOS.Alloc
