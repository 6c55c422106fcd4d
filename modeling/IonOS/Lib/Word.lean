import Mathlib.Data.Nat.Bitwise
import Mathlib.Tactic.Ring

/-!
# Machine words as natural numbers

A 64-bit word is a natural number below `2 ^ 64`; arithmetic that can leave that
range is reduced explicitly. Bit masks come in two shapes only: a *field* of `n`
bits starting at bit `lo`, and the complement of such a field. `and_field` turns
the first into division and remainder, which is what the arithmetic decision
procedures understand; everything else here is a case of it.
-/

namespace IonOS.Lib

/-- Addition of 64-bit words. -/
def addW (a b : Nat) : Nat := (a + b) % 2 ^ 64

/-- Subtraction of 64-bit words. -/
def subW (a b : Nat) : Nat := (a + (2 ^ 64 - b % 2 ^ 64)) % 2 ^ 64

/-- Multiplication of 64-bit words. -/
def mulW (a b : Nat) : Nat := a * b % 2 ^ 64

/-- Bitwise complement of a 64-bit word. -/
def notW (a : Nat) : Nat := 2 ^ 64 - 1 - a % 2 ^ 64

theorem addW_of_lt {a b : Nat} (h : a + b < 2 ^ 64) : addW a b = a + b :=
  Nat.mod_eq_of_lt h

theorem subW_of_le {a b : Nat} (h : b ≤ a) (ha : a < 2 ^ 64) : subW a b = a - b := by
  unfold subW; omega

theorem mulW_of_lt {a b : Nat} (h : a * b < 2 ^ 64) : mulW a b = a * b :=
  Nat.mod_eq_of_lt h

theorem addW_lt (a b : Nat) : addW a b < 2 ^ 64 := Nat.mod_lt _ (by decide)

theorem subW_lt (a b : Nat) : subW a b < 2 ^ 64 := Nat.mod_lt _ (by decide)

/-- An `int` as a 64-bit word. -/
def sizeT (i : Int) : Nat := (i % 2 ^ 64).toNat

/-- A word as an `int`. -/
def int32 (a : Nat) : Int := Int.bmod a (2 ^ 32)

theorem sizeT_natCast {n : Nat} (h : n < 2 ^ 64) : sizeT n = n := by
  unfold sizeT; omega

theorem int32_of_lt {n : Nat} (h : n < 2 ^ 31) : int32 n = n := by
  have hmod : (n : Int) % (2 ^ 32 : Nat) = n := by omega
  unfold int32 Int.bmod
  rw [hmod]
  exact if_pos (by omega)

/-! ## Masks -/

/-- Masking with `n` ones from bit `lo` up keeps that field and nothing else. -/
theorem and_field (v lo n : Nat) :
    v &&& (2 ^ lo * (2 ^ n - 1)) = v / 2 ^ lo % 2 ^ n * 2 ^ lo := by
  apply Nat.eq_of_testBit_eq
  intro i
  rw [Nat.testBit_and, Nat.testBit_two_pow_mul, Nat.mul_comm, Nat.testBit_two_pow_mul,
    Nat.testBit_mod_two_pow, Nat.testBit_two_pow_sub_one, Nat.testBit_div_two_pow]
  by_cases hlo : lo ≤ i
  · have hi : i - lo + lo = i := Nat.sub_add_cancel hlo
    simp [hlo, hi, Bool.and_comm]
  · simp [hlo]

/-- Masking with the complement of the low `k` bits rounds down to a multiple of `2 ^ k`. -/
theorem and_notW_low {v k : Nat} (hv : v < 2 ^ 64) (hk : k ≤ 64) :
    v &&& notW (2 ^ k - 1) = v / 2 ^ k * 2 ^ k := by
  have hk' : 2 ^ k ≤ 2 ^ 64 := Nat.pow_le_pow_right (by decide) hk
  have hpos : 0 < 2 ^ k := Nat.two_pow_pos k
  have hmask : notW (2 ^ k - 1) = 2 ^ k * (2 ^ (64 - k) - 1) := by
    have hpow : 2 ^ k * 2 ^ (64 - k) = 2 ^ 64 := by rw [← Nat.pow_add]; congr 1; omega
    unfold notW
    rw [Nat.mod_eq_of_lt (by omega), Nat.mul_sub, hpow]
    omega
  rw [hmask, and_field, Nat.mod_eq_of_lt]
  rw [Nat.div_lt_iff_lt_mul hpos, ← Nat.pow_add]
  rwa [show 64 - k + k = 64 by omega]

/-- Setting bits below `2 ^ k` in a multiple of `2 ^ k` is addition. -/
theorem or_low {v k b : Nat} (hv : v % 2 ^ k = 0) (hb : b < 2 ^ k) : v ||| b = v + b := by
  have hv' : v = 2 ^ k * (v / 2 ^ k) := by
    have := Nat.div_add_mod v (2 ^ k); omega
  rw [hv', ← Nat.two_pow_add_eq_or_of_lt hb]

/-- Setting the lowest bit. -/
theorem or_one (v : Nat) : v ||| 1 = v / 2 * 2 + 1 := by
  have hsplit : v = (v / 2 * 2) ||| (v % 2) := by
    rw [or_low (k := 1) (by omega) (by omega)]; omega
  conv_lhs => rw [hsplit]
  rw [Nat.or_assoc]
  have hbit : v % 2 ||| 1 = 1 := by
    rcases Nat.mod_two_eq_zero_or_one v with h | h <;> rw [h] <;> rfl
  rw [hbit, or_low (k := 1) (by omega) (by omega)]

/-- Clearing the lowest bit. -/
theorem and_notW_one {v : Nat} (hv : v < 2 ^ 64) : v &&& notW 1 = v / 2 * 2 := by
  simpa using and_notW_low (k := 1) hv (by decide)

/-- Clearing the three lowest bits. -/
theorem and_notW_seven {v : Nat} (hv : v < 2 ^ 64) : v &&& notW 7 = v / 8 * 8 := by
  simpa using and_notW_low (k := 3) hv (by decide)

/-- Clearing the four lowest bits. -/
theorem and_notW_fifteen {v : Nat} (hv : v < 2 ^ 64) : v &&& notW 15 = v / 16 * 16 := by
  simpa using and_notW_low (k := 4) hv (by decide)

/-- Testing one bit. -/
theorem and_bit (v k : Nat) : v &&& 2 ^ k = v / 2 ^ k % 2 * 2 ^ k := by
  simpa using and_field v k 1

end IonOS.Lib
