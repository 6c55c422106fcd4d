import IonOS.Libs.Search

/-!
# Updating a range of the bitmap

`set_range` sets single bits up to the first whole byte, whole bytes, and single
bits again. Within the bitmap that is right for every interval. It only checks the
start against the size, so an interval that ends beyond the bitmap is carried out
beyond it, and a start so high that `start + 7` wraps makes it fill bytes from the
beginning.
-/

namespace IonOS.Libs

open IonOS.Lib

namespace Bitmap

variable {b b' : Bitmap} {value : Bool} {start stop size i n length : Nat}

/-- Nothing is written when there is nothing to write. -/
theorem setRange_empty (h : stop ≤ start) : b.setRange start stop value = b := by
  unfold setRange
  rw [if_pos (.inl h)]

/--
**A range update is exact.**

For every bitmap of up to `2 ^ 63` bits and every interval that ends within it, the
bits of the interval have the value, all others are what they were, and a search
afterwards is a search in any bitmap with these bits.
-/
theorem setRange_exact (b : Bitmap) (hsize : b.size ≤ 2 ^ 63) (hstop : stop ≤ b.size) :
    (∀ i, (b.setRange start stop value).get i =
      if start ≤ i ∧ i < stop then value else b.get i) ∧
    (stop ≤ start → b.setRange start stop value = b) ∧
    ∀ b' : Bitmap, b'.size = b.size →
      (∀ i < b.size, b'.get i = if start ≤ i ∧ i < stop then value else b.get i) →
      ∀ v length, 1 ≤ length →
        (b.setRange start stop value).findRange v length = b'.findRange v length := by
  have hget : ∀ i, (b.setRange start stop value).get i =
      if start ≤ i ∧ i < stop then value else b.get i := by
    intro i
    by_cases hempty : stop ≤ start
    · rw [setRange_empty hempty, if_neg (by omega)]
    · exact get_setRange (by omega) (by omega) i
  refine ⟨hget, setRange_empty, fun b' hsize' hb' v length hl => ?_⟩
  refine findRange_congr hl (by rw [setRange_size, hsize']) ?_
  rw [setRange_size]
  exact seen_eq_of_get (fun i hi => (hget i).trans (hb' i (by omega)).symm) v

/-- Clearing all that is set in two bytes. -/
theorem setRange_exact_middle :
    (middle.setRange 3 12 false).findRange true 1 = notFound := by
  have h : (middle.setRange 3 12 false).findRange true 1 = _ :=
    (setRange_exact middle (by decide) (by decide)).2.2 { data := fun _ => 0, size := 16 } rfl ?_
      true 1 (by decide)
  · rw [h]
    decide
  · decide

/-! ## Beyond the bitmap -/

/-- **What an update may do**: it writes no byte beyond those of the bitmap, and changes no bit
outside the interval and none beyond the size, whatever is stored there. -/
def Contained (size start stop : Nat) (value : Bool) : Prop :=
  ∀ data : Nat → UInt8,
    (∀ i, (size + 7) / 8 ≤ i → (setRange ⟨data, size⟩ start stop value).data i = data i) ∧
    ∀ i, ¬ (start ≤ i ∧ i < min stop size) →
      (setRange ⟨data, size⟩ start stop value).get i = (⟨data, size⟩ : Bitmap).get i

/-- A byte whose bits are what they were. -/
theorem data_setRange (hs : start < b.size) (hw : start + 7 < 2 ^ 64) (hi : stop ≤ i * 8) :
    (b.setRange start stop value).data i = b.data i := by
  refine data_eq_of_get fun j _ => ?_
  rw [get_setRange hs hw, if_neg (by omega)]

/-- Every bit is the other value. -/
def opposite (value : Bool) : Nat → UInt8 := fun _ => if value then 0 else 255

theorem get_opposite (size : Nat) (value : Bool) (i : Nat) :
    (⟨opposite value, size⟩ : Bitmap).get i = !value := by
  have hbits : ∀ v : Bool, ∀ j < 8, (if v then (0 : UInt8) else 255).toNat.testBit j = !v := by
    decide
  rw [get_eq]
  exact hbits value _ (Nat.mod_lt _ (by decide))

/-- A start whose rounding wraps makes the update begin at bit 0. -/
theorem get_setRange_wrap (hs : start < b.size) (hw : 2 ^ 64 ≤ start + 7) (hstop : start < stop)
    (hlt : stop < 2 ^ 64) : (b.setRange start stop value).get 0 = value := by
  have hword : addW start 7 / 8 = 0 := by
    unfold addW
    omega
  unfold setRange
  rw [if_neg (by omega), hword]
  dsimp only
  rw [if_neg (by omega), get_setBits, if_neg (by omega), get_setBytes, if_pos (by omega)]

/--
**A range update stays inside** exactly when there is nothing to write, or the
interval ends within the bitmap and does not start in the last seven positions of
the address space.
-/
theorem contained_iff (hsize : size < 2 ^ 64) (hstart : start < 2 ^ 64) (hstop : stop < 2 ^ 64) :
    Contained size start stop value ↔
      stop ≤ start ∨ size ≤ start ∨ stop ≤ size ∧ start + 7 < 2 ^ 64 := by
  by_cases hempty : stop ≤ start
  · refine iff_of_true (fun data => ?_) (.inl hempty)
    rw [setRange_empty hempty]
    exact ⟨fun _ _ => rfl, fun _ _ => rfl⟩
  by_cases hout : size ≤ start
  · refine iff_of_true (fun data => ?_) (.inr (.inl hout))
    rw [setRange_of_le hout]
    exact ⟨fun _ _ => rfl, fun _ _ => rfl⟩
  rw [or_iff_right hempty, or_iff_right hout]
  by_cases hw : start + 7 < 2 ^ 64
  · rw [and_iff_left hw]
    constructor
    · intro hc
      by_contra hover
      -- the last bit of the interval is beyond the size
      have hbit := (hc (opposite value)).2 (stop - 1) (by omega)
      rw [get_setRange (by dsimp only; omega) hw, if_pos (by omega), get_opposite] at hbit
      cases value <;> simp at hbit
    · intro hle data
      refine ⟨fun i hi => data_setRange (by dsimp only; omega) hw (by omega), fun i hi => ?_⟩
      rw [get_setRange (by dsimp only; omega) hw, if_neg (by omega)]
  · refine iff_of_false (fun hc => ?_) fun h => hw h.2
    have hbit := (hc (opposite value)).2 0 (by omega)
    rw [get_setRange_wrap (by dsimp only; omega) (by omega) (by omega) hstop, get_opposite] at hbit
    cases value <;> simp at hbit

/-- The last bit of a bitmap. -/
theorem contained_last : Contained 64 63 64 true :=
  (contained_iff (by decide) (by decide) (by decide)).mpr (.inr (.inr (by decide)))

/-- **Freeing more than there is**: 16 bits of a bitmap of 8, so that a byte behind it is
written. -/
theorem not_contained : ¬ Contained 8 0 16 true := by
  intro h
  have := (h fun _ => 0).1 1 (by decide)
  exact absurd this (by decide)

end Bitmap

end IonOS.Libs
