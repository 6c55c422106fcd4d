import Mathlib.Tactic.Ring
import Mathlib.Logic.Function.Basic

/-!
# Byte-addressed memory

Memory is a total function from addresses to bytes. Words are little-endian runs
of bytes, so that two views of the same address range agree by construction. The
two facts every client needs are at the bottom of the word section: a word read
back after it was written is that word, and a read is not affected by a write to
a disjoint range.
-/

namespace IonOS.Lib

/-- Byte-addressed memory. -/
abbrev Mem := Nat → UInt8

namespace Mem

/-- The `n`-byte little-endian number at `a`. -/
def readLE (m : Mem) (a : Nat) : Nat → Nat
  | 0 => 0
  | n + 1 => (m a).toNat + 256 * readLE m (a + 1) n

/-- Store `v` as `n` little-endian bytes at `a`. -/
def writeLE (m : Mem) (a n v : Nat) : Mem := fun x =>
  if a ≤ x ∧ x < a + n then UInt8.ofNat (v / 256 ^ (x - a)) else m x

/-- The 64-bit word at `a`. -/
def read64 (m : Mem) (a : Nat) : Nat := readLE m a 8

/-- Store a 64-bit word at `a`. -/
def write64 (m : Mem) (a v : Nat) : Mem := writeLE m a 8 v

/-! ## Words -/

/-- A read depends only on the bytes it covers. -/
theorem readLE_congr {m m' : Mem} {a n : Nat}
    (h : ∀ x, a ≤ x → x < a + n → m x = m' x) : readLE m a n = readLE m' a n := by
  induction n generalizing a with
  | zero => rfl
  | succ n ih =>
    rw [readLE, readLE, h a (Nat.le_refl _) (by omega),
      ih fun x h1 h2 => h x (by omega) (by omega)]

theorem readLE_lt (m : Mem) (a n : Nat) : readLE m a n < 256 ^ n := by
  induction n generalizing a with
  | zero => simp [readLE]
  | succ n ih =>
    have hb : (m a).toNat < 256 := (m a).toNat_lt
    have := ih (a + 1)
    rw [readLE, Nat.pow_succ]
    omega

/-- Reading `k` bytes at offset `j` inside a freshly written number. -/
theorem readLE_writeLE_inside (m : Mem) (a n v : Nat) {j k : Nat} (h : j + k ≤ n) :
    readLE (writeLE m a n v) (a + j) k = v / 256 ^ j % 256 ^ k := by
  induction k generalizing j with
  | zero => simp [readLE, Nat.mod_one]
  | succ k ih =>
    have hbyte : writeLE m a n v (a + j) = UInt8.ofNat (v / 256 ^ j) := by
      unfold writeLE
      rw [if_pos ⟨by omega, by omega⟩, Nat.add_sub_cancel_left]
    have hdiv : v / 256 ^ (j + 1) = v / 256 ^ j / 256 := by
      rw [Nat.pow_succ, Nat.div_div_eq_div_mul]
    rw [readLE, hbyte, show a + j + 1 = a + (j + 1) by omega, ih (by omega), hdiv,
      UInt8.toNat_ofNat', show 256 ^ (k + 1) = 256 * 256 ^ k from Nat.pow_succ', Nat.mod_mul]

theorem writeLE_of_lt {m : Mem} {a n v x : Nat} (h : x < a) : writeLE m a n v x = m x :=
  if_neg (by omega)

theorem writeLE_of_le {m : Mem} {a n v x : Nat} (h : a + n ≤ x) : writeLE m a n v x = m x :=
  if_neg (by omega)

theorem read64_lt (m : Mem) (a : Nat) : read64 m a < 2 ^ 64 := readLE_lt m a 8

theorem read64_congr {m m' : Mem} {a : Nat} (h : ∀ x, a ≤ x → x < a + 8 → m x = m' x) :
    read64 m a = read64 m' a := readLE_congr h

/-- Cleared memory reads as zero. -/
theorem read64_zero (a : Nat) : read64 (fun _ => 0) a = 0 := by
  have h : ∀ n a, readLE (fun _ => 0) a n = 0 := by
    intro n
    induction n with
    | zero => exact fun _ => rfl
    | succ n ih =>
      intro a
      rw [readLE, ih]
      rfl
  exact h 8 a

/-- **A word reads back as it was written.** -/
theorem read64_write64_same (m : Mem) (a : Nat) {v : Nat} (hv : v < 2 ^ 64) :
    read64 (write64 m a v) a = v := by
  have h := readLE_writeLE_inside m a 8 v (j := 0) (k := 8) (by decide)
  rw [Nat.add_zero, Nat.pow_zero, Nat.div_one, Nat.mod_eq_of_lt (by simpa using hv)] at h
  exact h

/-- **A write is not seen by a read of a disjoint word.** -/
theorem read64_write64_disjoint (m : Mem) {a b : Nat} (v : Nat) (h : a + 8 ≤ b ∨ b + 8 ≤ a) :
    read64 (write64 m a v) b = read64 m b := by
  refine read64_congr fun x h1 h2 => ?_
  rcases h with h | h
  · exact writeLE_of_le (by omega)
  · exact writeLE_of_lt (by omega)

/-- Two aligned words are the same or disjoint. -/
theorem read64_write64_aligned (m : Mem) {a b v : Nat} (ha : a % 8 = 0) (hb : b % 8 = 0)
    (hv : v < 2 ^ 64) : read64 (write64 m a v) b = if b = a then v else read64 m b := by
  split
  · rename_i h; rw [h, read64_write64_same m a hv]
  · exact read64_write64_disjoint m v (by omega)

/-- The aligned form for two words known to differ; the stored value plays no role. -/
theorem read64_write64_ne (m : Mem) {a b : Nat} (v : Nat) (ha : a % 8 = 0) (hb : b % 8 = 0)
    (h : b ≠ a) : read64 (write64 m a v) b = read64 m b :=
  read64_write64_disjoint m v (by omega)

/-- A byte outside the written word keeps its value. -/
theorem write64_other {m : Mem} {a v x : Nat} (h : x < a ∨ a + 8 ≤ x) : write64 m a v x = m x := by
  rcases h with h | h
  · exact writeLE_of_lt h
  · exact writeLE_of_le h

/-- What a store puts into a byte does not depend on the memory, if it puts anything there. -/
theorem write64_cases (m m' : Mem) (a v x : Nat) :
    write64 m' a v x = write64 m a v x ∨
      write64 m' a v x = m' x ∧ write64 m a v x = m x := by
  by_cases hx : a ≤ x ∧ x < a + 8
  · left
    unfold write64 writeLE
    rw [if_pos hx, if_pos hx]
  · right
    exact ⟨if_neg hx, if_neg hx⟩

/-- The low bits of a word are in its first byte. -/
theorem read64_mod_four (m : Mem) (a : Nat) : read64 m a % 4 = (m a).toNat % 4 := by
  unfold read64
  rw [readLE]
  omega

-- words are only ever read through the lemmas above
attribute [irreducible] read64 write64

end Mem

end IonOS.Lib
