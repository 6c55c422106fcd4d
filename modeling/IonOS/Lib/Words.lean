import IonOS.Lib.Memory

/-!
# Words one after another

A stack that grows down leaves what was pushed last at the lowest address. So a run of
pushes is a list of words stored at once, in the opposite order, and a run of pops is
a list of words read.
-/

namespace IonOS.Lib

namespace Mem

variable {m : Mem} {a b k w : Nat} {v : Nat} {vs ws : List Nat}

/-- A word that was copied. -/
theorem read64_copied {m' : Mem} (h : ∀ i < 8, m' (b + i) = m (a + i)) :
    read64 m' b = read64 m a := by
  have hread : ∀ n j, j + n ≤ 8 → readLE m' (b + j) n = readLE m (a + j) n := by
    intro n
    induction n with
    | zero => exact fun j _ => rfl
    | succ n ih =>
      intro j hj
      have htail := ih (j + 1) (by omega)
      rw [← Nat.add_assoc, ← Nat.add_assoc] at htail
      rw [readLE, readLE, h j (by omega), htail]
  unfold read64
  exact hread 8 0 (by decide)

/-- Of two words stored in one place the second stays. -/
theorem write64_write64_same (m : Mem) (a u v : Nat) :
    write64 (write64 m a u) a v = write64 m a v := by
  unfold write64 writeLE
  funext x
  by_cases hx : a ≤ x ∧ x < a + 8
  · rw [if_pos hx, if_pos hx]
  · rw [if_neg hx, if_neg hx, if_neg hx]

/-- The words of a list, from `a` upwards. -/
def storeWords (m : Mem) (a : Nat) : List Nat → Mem
  | [] => m
  | v :: vs => write64 (storeWords m (a + 8) vs) a v

theorem storeWords_cons (m : Mem) (a v : Nat) (vs : List Nat) :
    storeWords m a (v :: vs) = write64 (storeWords m (a + 8) vs) a v := rfl

/-- A byte outside keeps its value. -/
theorem storeWords_other (h : w < a ∨ a + 8 * vs.length ≤ w) : storeWords m a vs w = m w := by
  induction vs generalizing a with
  | nil => rfl
  | cons v vs ih =>
    rw [List.length_cons] at h
    rw [storeWords_cons, write64_other (by omega), ih (by omega)]

/-- **Each word reads back.** -/
theorem read64_storeWords (hvs : ∀ v ∈ vs, v < 2 ^ 64) (hk : k < vs.length) :
    read64 (storeWords m a vs) (a + 8 * k) = vs.getD k 0 := by
  induction vs generalizing a k with
  | nil => exact absurd hk (Nat.not_lt_zero k)
  | cons v vs ih =>
    rw [storeWords_cons]
    cases k with
    | zero => exact read64_write64_same _ _ (hvs v List.mem_cons_self)
    | succ k =>
      rw [read64_write64_disjoint _ _ (by omega), show a + 8 * (k + 1) = a + 8 + 8 * k by omega,
        ih (fun u hu => hvs u (List.mem_cons_of_mem v hu)) (Nat.lt_of_succ_lt_succ hk),
        List.getD_cons_succ]

end Mem

end IonOS.Lib
