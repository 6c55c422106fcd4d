/-!
# Stretches

A *stretch* of a predicate on positions is an interval on which it holds
throughout. The first stretch of a given length is found in one pass, by counting
how many positions in a row have satisfied the predicate. `Scanned` is the
invariant of that pass; the pass may go over one position at a time or over
several that it knows to be good.
-/

namespace IonOS.Lib

variable {p q : Nat → Bool} {n x c k r start : Nat}

/-- `p` holds at the `n` positions from `r` up. -/
def Stretch (p : Nat → Bool) (r n : Nat) : Prop := ∀ i, r ≤ i → i < r + n → p i = true

/-- The first stretch of `n` positions starts at `r`. -/
structure FirstStretch (p : Nat → Bool) (n r : Nat) : Prop where
  here : Stretch p r n
  first : ∀ r' < r, ¬ Stretch p r' n

theorem Stretch.mono (h : Stretch p r n) (hk : k ≤ n) : Stretch p r k :=
  fun i h1 h2 => h i h1 (by omega)

theorem Stretch.congr (h : Stretch p r n) (hpq : ∀ i, r ≤ i → i < r + n → p i = q i) :
    Stretch q r n :=
  fun i h1 h2 => (hpq i h1 h2).symm.trans (h i h1 h2)

theorem Stretch.append (h : Stretch p r n) (h' : Stretch p (r + n) k) : Stretch p r (n + k) := by
  intro i h1 h2
  by_cases hi : i < r + n
  · exact h i h1 hi
  · exact h' i (by omega) (by omega)

/-- A position that is not good ends every stretch over it. -/
theorem not_stretch (hx : p x = false) (h1 : r ≤ x) (h2 : x < r + n) : ¬ Stretch p r n := by
  intro h
  rw [h x h1 h2] at hx
  exact absurd hx (by simp)

namespace FirstStretch

variable {r' : Nat}

theorem unique (h : FirstStretch p n r) (h' : FirstStretch p n r') : r = r' := by
  rcases Nat.lt_trichotomy r r' with hlt | heq | hlt
  · exact absurd h.here (h'.first r hlt)
  · exact heq
  · exact absurd h'.here (h.first r' hlt)

/-- A stretch that survives is still the first when others go. -/
theorem of_le (h : FirstStretch p n r) (hle : ∀ i, q i = true → p i = true)
    (hq : Stretch q r n) : FirstStretch q n r :=
  ⟨hq, fun r' hr' hs => h.first r' hr' fun i h1 h2 => hle i (hs i h1 h2)⟩

end FirstStretch

/-- **The counting pass** up to `x`: the last `c` positions are good, the one before them is not,
and there has been no stretch of `n`. -/
structure Scanned (p : Nat → Bool) (n x c start : Nat) : Prop where
  short : c < n
  le : c ≤ x
  stretch : Stretch p (x - c) c
  edge : c < x → p (x - c - 1) = false
  start_eq : c ≠ 0 → start = x - c
  none : ∀ r, r + n ≤ x → ¬ Stretch p r n

namespace Scanned

theorem init (hn : 0 < n) : Scanned p n 0 0 start where
  short := hn
  le := Nat.le_refl 0
  stretch := fun i h1 h2 => by omega
  edge := fun h => absurd h (Nat.lt_irrefl 0)
  start_eq := fun h => absurd rfl h
  none := fun r hr => by omega

/-- No stretch starts before the ones counted and goes beyond them. -/
theorem no_earlier (h : Scanned p n x c start) (hr : r < x - c) : ¬ Stretch p r n := by
  by_cases hle : r + n ≤ x
  · exact h.none r hle
  · exact not_stretch (h.edge (by omega)) (by omega) (by omega)

/-- A position that is not good starts the count again. -/
theorem miss (h : Scanned p n x c start) (hx : p x = false) (start' : Nat) :
    Scanned p n (x + 1) 0 start' where
  short := Nat.zero_lt_of_lt h.short
  le := Nat.zero_le _
  stretch := fun i h1 h2 => by omega
  edge := fun _ => hx
  start_eq := fun h => absurd rfl h
  none := by
    intro r hr
    by_cases hle : r + n ≤ x
    · exact h.none r hle
    · have := h.short
      exact not_stretch hx (by omega) (by omega)

/-- Positions that are not good, one after another. -/
theorem misses (h : Scanned p n x c start) (hk : 0 < k)
    (hall : ∀ i, x ≤ i → i < x + k → p i = false) (start' : Nat) :
    Scanned p n (x + k) 0 start' := by
  induction k with
  | zero => exact absurd hk (Nat.lt_irrefl 0)
  | succ k ih =>
    by_cases h0 : k = 0
    · subst h0
      exact h.miss (hall x (Nat.le_refl x) (by omega)) start'
    · have hs := ih (by omega) fun i h1 h2 => hall i h1 (by omega)
      exact hs.miss (hall (x + k) (by omega) (by omega)) start'

/-- Good positions are counted. -/
theorem hits (h : Scanned p n x c start) (hall : Stretch p x k) (hlt : c + k < n) :
    Scanned p n (x + k) (c + k) (if c = 0 then x else start) := by
  obtain ⟨-, hle, hs, hedge, hstart, hnone⟩ := id h
  have hsub : x + k - (c + k) = x - c := by omega
  have hback : x - c + c = x := by omega
  have hlong : Stretch p (x - c) (c + k) := hs.append (by rwa [hback])
  refine ⟨hlt, by omega, by rwa [hsub], fun hc => ?_, fun _ => ?_, fun r hr => ?_⟩
  · rw [hsub]
    exact hedge (by omega)
  · rw [hsub]
    by_cases h0 : c = 0
    · rw [if_pos h0, h0, Nat.sub_zero]
    · rw [if_neg h0]
      exact hstart h0
  · exact h.no_earlier (by omega)

/-- **The count is full**: the first stretch starts with the positions counted. -/
theorem first (h : Scanned p n x c start) (hall : Stretch p x k) (hle : n ≤ c + k) :
    FirstStretch p n (x - c) := by
  have hback : x - c + c = x := by
    have := h.le
    omega
  have hlong : Stretch p (x - c) (c + k) := h.stretch.append (by rwa [hback])
  exact ⟨hlong.mono hle, fun r hr => h.no_earlier hr⟩

end Scanned

end IonOS.Lib
