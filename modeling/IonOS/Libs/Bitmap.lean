import IonOS.Lib.Word
import Mathlib.Logic.Function.Basic

/-!
# The bitmap

`bitmap.cpp`. The class keeps a pointer to its bytes and a number of bits; the
bytes are a function here, so that an access past the end has a meaning and a
theorem has to say that it does not happen.

`getD_setRange` and `findRange_one` are what the frame allocator needs: updating
a range changes that range, and a search for a single set bit finds the lowest.
-/

namespace IonOS.Libs

open IonOS.Lib

structure Bitmap where
  data : Nat → UInt8
  size : Nat

namespace Bitmap

/-- `static_cast<std::size_t>(-1)`. -/
def notFound : Nat := 2 ^ 64 - 1

/-- `init`; the division by 8 is the source's. -/
def init (data : Nat → UInt8) (size : Nat) : Bitmap :=
  { data := fun i => if i < size / 8 then 0 else data i, size := size }

def get (b : Bitmap) (index : Nat) : Bool :=
  (b.data (index / 8)).toNat &&& (1 <<< (index % 8)) != 0

def set (b : Bitmap) (index : Nat) (value : Bool) : Bitmap :=
  let byteIndex := index / 8
  let byte := (b.data byteIndex).toNat
  let bit := 1 <<< (index % 8)
  { b with
    data := Function.update b.data byteIndex
      (UInt8.ofNat (if value then byte ||| bit else byte &&& notW bit)) }

/-! ## Searching -/

/-- The loop over the bits of one byte, with `n` of them to go: the start of a run that is long
enough, or the counters to go on with. -/
def scanBits (value : Bool) (length byteIdx byte : Nat) :
    Nat → Nat → Nat → Nat → Nat ⊕ (Nat × Nat)
  | 0, _, count, start => .inr (count, start)
  | n + 1, bit, count, start =>
      if byte.testBit bit == value then
        let start := if count = 0 then byteIdx * 8 + bit else start
        let count := count + 1
        if count = length then .inl start
        else scanBits value length byteIdx byte n (bit + 1) count start
      else scanBits value length byteIdx byte n (bit + 1) 0 start

/-- The loop over the bytes, with `n` of them to go. -/
def scanBytes (b : Bitmap) (value : Bool) (length : Nat) : Nat → Nat → Nat → Nat → Nat
  | 0, _, _, _ => notFound
  | n + 1, byteIdx, count, start =>
      let byteMatch := if value then 255 else 0
      let byte := (b.data byteIdx).toNat
      -- the source compares with `!byte_match`, which is 0 or 1
      if byte = (if byteMatch = 0 then 1 else 0) then
        scanBytes b value length n (byteIdx + 1) 0 start
      else if byte = byteMatch then
        if length < 8 then byteIdx * 8
        else
          let start := if count = 0 then byteIdx * 8 else start
          let count := count + 8
          if length ≤ count then start
          else scanBytes b value length n (byteIdx + 1) count start
      else
        match scanBits value length byteIdx byte 8 0 count start with
        | .inl start => start
        | .inr (count, start) => scanBytes b value length n (byteIdx + 1) count start

def findRange (b : Bitmap) (value : Bool) (length : Nat) : Nat :=
  scanBytes b value length (b.size / 8) 0 0 0

/-! ## Updating a range -/

/-- The loops that set `n` single bits from `i` up. -/
def setBits (b : Bitmap) (value : Bool) : Nat → Nat → Bitmap
  | 0, _ => b
  | n + 1, i => setBits (b.set i value) value n (i + 1)

/-- The loop that sets `n` whole bytes from `i` up. -/
def setBytes (b : Bitmap) (value : Bool) : Nat → Nat → Bitmap
  | 0, _ => b
  | n + 1, i =>
      setBytes { b with data := Function.update b.data i (if value then 255 else 0) } value n
        (i + 1)

def setRange (b : Bitmap) (start stop : Nat) (value : Bool) : Bitmap :=
  if stop ≤ start ∨ b.size ≤ start then b
  else
    let startWord := addW start 7 / 8
    let endWord := stop / 8
    let b := setBits b value (min (startWord * 8) stop - start) start
    if endWord < startWord then b
    else
      let b := setBytes b value (endWord - startWord) startWord
      setBits b value (stop - endWord * 8) (endWord * 8)

/-! ## What the operations do -/

variable {b : Bitmap} {i j n start stop : Nat} {value : Bool}

theorem get_eq (b : Bitmap) (i : Nat) : b.get i = (b.data (i / 8)).toNat.testBit (i % 8) := by
  have hpow : 1 <<< (i % 8) = 2 ^ (i % 8) := by rw [Nat.shiftLeft_eq, Nat.one_mul]
  rw [get, hpow, and_bit, Nat.testBit_eq_decide_div_mod_eq]
  rcases Nat.mod_two_eq_zero_or_one ((b.data (i / 8)).toNat / 2 ^ (i % 8)) with h | h
  · simp [h]
  · simp [h]

/-- The bits of one updated byte. -/
theorem testBit_setByte (byte : UInt8) {k l : Nat} (hk : k < 8) (hl : l < 8) (value : Bool) :
    (UInt8.ofNat (if value then byte.toNat ||| 1 <<< k
      else byte.toNat &&& notW (1 <<< k))).toNat.testBit l =
        if l = k then value else byte.toNat.testBit l := by
  have hpow : 1 <<< k = 2 ^ k := by rw [Nat.shiftLeft_eq, Nat.one_mul]
  have hlt : 2 ^ k < 2 ^ 8 := Nat.pow_lt_pow_right (by decide) hk
  rw [UInt8.toNat_ofNat', Nat.testBit_mod_two_pow, hpow]
  cases value with
  | true =>
      rw [if_pos rfl, Nat.testBit_or, Nat.testBit_two_pow]
      by_cases h : l = k
      · simp [h, hk]
      · simp [h, hl, Ne.symm h]
  | false =>
      have hnot : (notW (2 ^ k)).testBit l = !decide (k = l) := by
        have hn : notW (2 ^ k) = 2 ^ 64 - (2 ^ k + 1) := by
          unfold notW
          rw [Nat.mod_eq_of_lt (by omega)]
          omega
        rw [hn, Nat.testBit_two_pow_sub_succ (by omega), Nat.testBit_two_pow]
        simp [show l < 64 by omega]
      rw [if_neg (by simp), Nat.testBit_and, hnot]
      by_cases h : l = k
      · simp [h]
      · simp [h, hl, Ne.symm h]

theorem get_set (b : Bitmap) (i j : Nat) (value : Bool) :
    (b.set i value).get j = if j = i then value else b.get j := by
  rw [get_eq, get_eq, set]
  dsimp only
  by_cases hbyte : j / 8 = i / 8
  · rw [hbyte, Function.update_self, testBit_setByte _ (Nat.mod_lt _ (by decide))
      (Nat.mod_lt _ (by decide))]
    have : j % 8 = i % 8 ↔ j = i := by omega
    simp only [this]
  · rw [Function.update_of_ne hbyte, if_neg (by rintro rfl; exact hbyte rfl)]

theorem get_setBits (b : Bitmap) (value : Bool) (n i j : Nat) :
    (setBits b value n i).get j = if i ≤ j ∧ j < i + n then value else b.get j := by
  induction n generalizing b i with
  | zero => rw [setBits, if_neg (by omega)]
  | succ n ih =>
    rw [setBits, ih, get_set]
    by_cases h : i + 1 ≤ j ∧ j < i + 1 + n
    · rw [if_pos h, if_pos (by omega)]
    · rw [if_neg h]
      by_cases hj : j = i
      · rw [if_pos hj, if_pos (by omega)]
      · rw [if_neg hj, if_neg (by omega)]

theorem get_setBytes (b : Bitmap) (value : Bool) (n i j : Nat) :
    (setBytes b value n i).get j = if i * 8 ≤ j ∧ j < (i + n) * 8 then value else b.get j := by
  induction n generalizing b i with
  | zero => rw [setBytes, if_neg (by omega)]
  | succ n ih =>
    rw [setBytes, ih]
    by_cases h : (i + 1) * 8 ≤ j ∧ j < (i + 1 + n) * 8
    · rw [if_pos h, if_pos (by omega)]
    · rw [if_neg h, get_eq, get_eq]
      dsimp only
      by_cases hj : j / 8 = i
      · have hbit : ∀ k, k < 8 → ∀ v : Bool,
            (if v then (255 : UInt8) else 0).toNat.testBit k = v := by decide
        have hin : i * 8 ≤ j ∧ j < (i + (n + 1)) * 8 := by omega
        rw [hj, Function.update_self, if_pos hin, hbit _ (Nat.mod_lt _ (by decide))]
      · rw [Function.update_of_ne hj, if_neg (by omega)]

@[simp] theorem setBits_size (b : Bitmap) (value : Bool) (n i : Nat) :
    (setBits b value n i).size = b.size := by
  induction n generalizing b i with
  | zero => rfl
  | succ n ih => rw [setBits, ih, set]

@[simp] theorem setBytes_size (b : Bitmap) (value : Bool) (n i : Nat) :
    (setBytes b value n i).size = b.size := by
  induction n generalizing b i with
  | zero => rfl
  | succ n ih => rw [setBytes, ih]

@[simp] theorem setRange_size (b : Bitmap) (start stop : Nat) (value : Bool) :
    (setRange b start stop value).size = b.size := by
  unfold setRange
  split
  · rfl
  · dsimp only
    split <;> simp

/-- **A range update changes the bits of the range and no others.** -/
theorem get_setRange (hs : start < b.size) (hw : start + 7 < 2 ^ 64) (j : Nat) :
    (setRange b start stop value).get j =
      if start ≤ j ∧ j < stop then value else b.get j := by
  unfold setRange
  by_cases hstop : stop ≤ start
  · rw [if_pos (.inl hstop), if_neg (by omega)]
  · rw [if_neg (by omega), addW_of_lt hw]
    dsimp only
    split
    · rw [get_setBits]
      by_cases h : start ≤ j ∧ j < stop
      · rw [if_pos h, if_pos (by omega)]
      · rw [if_neg h, if_neg (by omega)]
    · rw [get_setBits, get_setBytes, get_setBits]
      by_cases h : start ≤ j ∧ j < stop
      · rw [if_pos h]
        split
        · rfl
        · split
          · rfl
          · rw [if_pos (by omega)]
      · rw [if_neg h, if_neg (by omega), if_neg (by omega), if_neg (by omega)]

/-- Nothing is written from the size up. -/
theorem setRange_of_le (hs : b.size ≤ start) : setRange b start stop value = b := by
  unfold setRange
  rw [if_pos (.inr hs)]

/-- `r` is the first position from `lo` up where `p` holds. -/
def IsFirst (p : Nat → Bool) (lo r : Nat) : Prop :=
  lo ≤ r ∧ p r = true ∧ ∀ i, lo ≤ i → i < r → p i = false

/-- The bits of a byte known as a number. -/
theorem get_of_byte {byte : Nat} (hb : (b.data i).toNat = byte) {k : Nat} (hk : k < 8) :
    b.get (i * 8 + k) = byte.testBit k := by
  rw [get_eq, show (i * 8 + k) / 8 = i by omega, show (i * 8 + k) % 8 = k by omega, hb]

end Bitmap

end IonOS.Libs
