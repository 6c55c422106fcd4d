import IonOS.Lib.Memory

/-!
# Memory functions

The byte loops of `klibc.cpp`, each in the order in which the source copies. A
pointer that a program passes to the kernel points into memory of its own, so the
loops that are used on such pointers come in a form for two memories.
-/

namespace IonOS.Libs

open IonOS.Lib

/-- Store one byte. -/
def store8 (m : Mem) (a : Nat) (b : UInt8) : Mem := fun x => if x = a then b else m x

/-- Copy bytes `0 .. n-1` in ascending order. -/
def copyForward (m : Mem) (dest src : Nat) : Nat → Mem
  | 0 => m
  | n + 1 =>
      let m := copyForward m dest src n
      store8 m (dest + n) (m (src + n))

/-- Copy bytes `n-1 .. 0` in descending order. -/
def copyBackward (m : Mem) (dest src : Nat) : Nat → Mem
  | 0 => m
  | n + 1 => copyBackward (store8 m (dest + n) (m (src + n))) dest src n

def memcpy (m : Mem) (dest src n : Nat) : Mem := copyForward m dest src n

def memmove (m : Mem) (dest src n : Nat) : Mem :=
  if dest < src then copyForward m dest src n
  else if src < dest then copyBackward m dest src n
  else m

def memset (m : Mem) (s : Nat) (c : UInt8) : Nat → Mem
  | 0 => m
  | n + 1 => store8 (memset m s c n) (s + n) c

/-- `memcpy` from one memory to another. -/
def memcpyFrom (m : Mem) (dest : Nat) (m' : Mem) (src : Nat) : Nat → Mem
  | 0 => m
  | n + 1 => store8 (memcpyFrom m dest m' src n) (dest + n) (m' (src + n))

/-- `memcmp` of two memories. -/
def memcmp (m : Mem) (s₁ : Nat) (m' : Mem) (s₂ : Nat) : Nat → Int
  | 0 => 0
  | n + 1 =>
      if m s₁ ≠ m' s₂ then if m s₁ < m' s₂ then -1 else 1
      else memcmp m (s₁ + 1) m' (s₂ + 1) n

def strnlen (m : Mem) (s : Nat) : Nat → Nat
  | 0 => 0
  | n + 1 => if m s ≠ 0 then strnlen m (s + 1) n + 1 else 0

/-- `strlen` looks at one page, `PAGE_SIZE` bytes. -/
def strlen (m : Mem) (s : Nat) : Nat := strnlen m s 4096

/-- The `n` bytes at `a`. -/
def bytes (m : Mem) (a : Nat) : Nat → List UInt8
  | 0 => []
  | n + 1 => m a :: bytes m (a + 1) n

/-! ## What the loops do -/

/-- Copying writes the destination range only. -/
theorem memcpy_other {m : Mem} {dest src n x : Nat} (h : x < dest ∨ dest + n ≤ x) :
    memcpy m dest src n x = m x := by
  unfold memcpy
  induction n with
  | zero => rfl
  | succ n ih =>
    have hx : x ≠ dest + n := by omega
    rw [copyForward]
    simp only [store8, hx, if_false]
    exact ih (by omega)

theorem memcpyFrom_other {m m' : Mem} {dest src n x : Nat} (h : x < dest ∨ dest + n ≤ x) :
    memcpyFrom m dest m' src n x = m x := by
  induction n with
  | zero => rfl
  | succ n ih =>
    have hx : x ≠ dest + n := by omega
    simp only [memcpyFrom, store8, hx, if_false]
    exact ih (by omega)

theorem memcpyFrom_inside {m m' : Mem} {dest src n i : Nat} (h : i < n) :
    memcpyFrom m dest m' src n (dest + i) = m' (src + i) := by
  induction n with
  | zero => exact absurd h (Nat.not_lt_zero _)
  | succ n ih =>
    rw [memcpyFrom, store8]
    by_cases hi : i = n
    · rw [hi, if_pos rfl]
    · rw [if_neg (by omega), ih (by omega)]

/-- **`memcpy` copies** when the two ranges do not overlap. -/
theorem memcpy_inside {m : Mem} {dest src n i : Nat} (hap : dest + n ≤ src ∨ src + n ≤ dest)
    (h : i < n) : memcpy m dest src n (dest + i) = m (src + i) := by
  unfold memcpy
  induction n with
  | zero => exact absurd h (Nat.not_lt_zero _)
  | succ n ih =>
    rw [copyForward]
    dsimp only [store8]
    by_cases hi : i = n
    · rw [hi, if_pos rfl]
      exact memcpy_other (by omega)
    · rw [if_neg (by omega)]
      exact ih (by omega) (by omega)

theorem copyForward_other {m : Mem} {dest src n x : Nat} (h : x < dest ∨ dest + n ≤ x) :
    copyForward m dest src n x = m x := memcpy_other h

/-- Forward copying reads what was there before, as long as it copies downwards. -/
theorem copyForward_inside {m : Mem} {dest src n i : Nat} (hle : dest ≤ src) (h : i < n) :
    copyForward m dest src n (dest + i) = m (src + i) := by
  induction n with
  | zero => exact absurd h (Nat.not_lt_zero _)
  | succ n ih =>
    rw [copyForward]
    dsimp only [store8]
    by_cases hi : i = n
    · rw [hi, if_pos rfl, copyForward_other (.inr (by omega))]
    · rw [if_neg (by omega), ih (by omega)]

/-- Backward copying writes the destination range only. -/
theorem copyBackward_other {m : Mem} {dest src n x : Nat} (h : x < dest ∨ dest + n ≤ x) :
    copyBackward m dest src n x = m x := by
  induction n generalizing m with
  | zero => rfl
  | succ n ih =>
    have hx : x ≠ dest + n := by omega
    rw [copyBackward, ih (by omega)]
    exact if_neg hx

/-- Backward copying reads what was there before, as long as it copies upwards: what has been
written lies above what is still to be read. -/
theorem copyBackward_inside {m : Mem} {dest src n i : Nat} (hle : src ≤ dest) (h : i < n) :
    copyBackward m dest src n (dest + i) = m (src + i) := by
  induction n generalizing m with
  | zero => exact absurd h (Nat.not_lt_zero _)
  | succ n ih =>
    rw [copyBackward]
    by_cases hi : i = n
    · -- the byte copied first is not written again
      rw [hi, copyBackward_other (.inr (Nat.le_refl _))]
      exact if_pos rfl
    · have hread : src + i ≠ dest + n := by omega
      rw [ih (by omega)]
      exact if_neg hread

/-- `memmove` writes the destination range only, -/
theorem memmove_other {m : Mem} {dest src n x : Nat} (h : x < dest ∨ dest + n ≤ x) :
    memmove m dest src n x = m x := by
  unfold memmove
  by_cases hlt : dest < src
  · rw [if_pos hlt]
    exact copyForward_other h
  · rw [if_neg hlt]
    by_cases hgt : src < dest
    · rw [if_pos hgt]
      exact copyBackward_other h
    · rw [if_neg hgt]

/-- and there it puts what the source range held. -/
theorem memmove_inside {m : Mem} {dest src n i : Nat} (h : i < n) :
    memmove m dest src n (dest + i) = m (src + i) := by
  unfold memmove
  by_cases hlt : dest < src
  · rw [if_pos hlt]
    exact copyForward_inside (Nat.le_of_lt hlt) h
  · rw [if_neg hlt]
    by_cases hgt : src < dest
    · rw [if_pos hgt]
      exact copyBackward_inside (Nat.le_of_lt hgt) h
    · rw [if_neg hgt, show dest = src by omega]

/-- **`memmove` moves**, whichever way the two ranges overlap: each byte of the destination is what
the source held at its place before, and no other byte is changed. -/
theorem memmove_moves (m : Mem) (dest src n : Nat) :
    (∀ i < n, memmove m dest src n (dest + i) = m (src + i)) ∧
      ∀ x, x < dest ∨ dest + n ≤ x → memmove m dest src n x = m x :=
  ⟨fun _ hi => memmove_inside hi, fun _ hx => memmove_other hx⟩

/-- Clearing writes its range only. -/
theorem memset_other {m : Mem} {s n x : Nat} {c : UInt8} (h : x < s ∨ s + n ≤ x) :
    memset m s c n x = m x := by
  induction n with
  | zero => rfl
  | succ n ih =>
    have hx : x ≠ s + n := by omega
    simp only [memset, store8, hx, if_false]
    exact ih (by omega)

theorem memset_inside {m : Mem} {s n i : Nat} {c : UInt8} (h : i < n) :
    memset m s c n (s + i) = c := by
  induction n with
  | zero => exact absurd h (Nat.not_lt_zero _)
  | succ n ih =>
    rw [memset, store8]
    by_cases hi : i = n
    · rw [hi, if_pos rfl]
    · rw [if_neg (by omega)]
      exact ih (by omega)

/-- The scan stops at the first zero. -/
theorem strnlen_lt_iff {m : Mem} {a n k : Nat} (hk : k ≤ n) :
    strnlen m a n < k ↔ ∃ i < k, m (a + i) = 0 := by
  induction n generalizing a k with
  | zero =>
    obtain rfl : k = 0 := by omega
    simp
  | succ n ih =>
    rw [strnlen]
    by_cases h0 : m a ≠ 0
    · rw [if_pos h0]
      cases k with
      | zero => simp
      | succ k =>
        rw [Nat.add_lt_add_iff_right, ih (by omega)]
        constructor
        · rintro ⟨i, hi, hz⟩
          exact ⟨i + 1, by omega, by rwa [show a + (i + 1) = a + 1 + i by omega]⟩
        · rintro ⟨i, hi, hz⟩
          cases i with
          | zero => exact absurd hz h0
          | succ i => exact ⟨i, by omega, by rwa [show a + 1 + i = a + (i + 1) by omega]⟩
    · rw [if_neg h0]
      constructor
      · intro hpos
        exact ⟨0, hpos, by simpa using h0⟩
      · rintro ⟨i, hi, -⟩
        omega

/-- It counts the bytes before it. -/
theorem strnlen_eq {m : Mem} {a n k : Nat} (hk : k < n) (hzero : m (a + k) = 0)
    (hne : ∀ i < k, m (a + i) ≠ 0) : strnlen m a n = k := by
  have hlt : strnlen m a n < k + 1 := (strnlen_lt_iff hk).mpr ⟨k, Nat.lt_succ_self k, hzero⟩
  have hge : ¬ strnlen m a n < k := by
    intro h
    obtain ⟨i, hi, hz⟩ := (strnlen_lt_iff (Nat.le_of_lt hk)).mp h
    exact hne i hi hz
  omega

@[simp] theorem length_bytes (m : Mem) (a n : Nat) : (bytes m a n).length = n := by
  induction n generalizing a with
  | zero => rfl
  | succ n ih => rw [bytes, List.length_cons, ih]

theorem bytes_congr {m m' : Mem} {a b n : Nat} (h : ∀ i < n, m (a + i) = m' (b + i)) :
    bytes m a n = bytes m' b n := by
  induction n generalizing a b with
  | zero => rfl
  | succ n ih =>
    rw [bytes, bytes, ih fun i hi => ?_]
    · congr 1
      exact h 0 (Nat.succ_pos n)
    · have := h (i + 1) (Nat.succ_lt_succ hi)
      rwa [show a + 1 + i = a + (i + 1) by omega, show b + 1 + i = b + (i + 1) by omega]

theorem bytes_append (m : Mem) (a n k : Nat) :
    bytes m a (n + k) = bytes m a n ++ bytes m (a + n) k := by
  induction n generalizing a with
  | zero => rw [Nat.zero_add, Nat.add_zero, bytes, List.nil_append]
  | succ n ih =>
    rw [Nat.succ_add, bytes, ih, bytes, List.cons_append, Nat.succ_add_eq_add_succ]

/-- **`memcmp` is zero exactly for equal bytes.** -/
theorem memcmp_eq_zero {m m' : Mem} {s₁ s₂ n : Nat} :
    memcmp m s₁ m' s₂ n = 0 ↔ bytes m s₁ n = bytes m' s₂ n := by
  induction n generalizing s₁ s₂ with
  | zero => exact iff_of_true rfl rfl
  | succ n ih =>
    rw [memcmp, bytes, bytes]
    by_cases h : m s₁ = m' s₂
    · rw [if_neg (not_not.mpr h), ih, h]
      exact ⟨fun h => by rw [h], fun h => (List.cons.inj h).2⟩
    · rw [if_pos h]
      refine iff_of_false ?_ fun he => h (List.cons.inj he).1
      split <;> decide

end IonOS.Libs
