import IonOS.Lib.Runs
import Mathlib.Logic.Function.Basic

/-!
# What is known of a store of blocks

A store has blocks, each with a name, and values at the places of a block. Who uses it knows
some of the values, those that it has written and that nothing has happened to since. That is
a store too, with fewer values in it, so the two are compared by an order: what is known is
right if the store extends it.

Each operation does to what is known what it should do to the store. `Trace.extends` is the
rule: a system in which each step does at least that keeps what is known right.
-/

namespace IonOS.Lib

variable {ι α σ ε : Type}

/-- The values at the places of the blocks, where there are any. -/
abbrev Contents (ι α : Type) := ι → Nat → Option α

namespace Contents

variable {c c' c'' : Contents ι α} {x y : ι} {i n : Nat} {v : α}

/-- What `c` says is so in `c'`. -/
def Extends (c c' : Contents ι α) : Prop := ∀ x i v, c x i = some v → c' x i = some v

theorem Extends.refl (c : Contents ι α) : Extends c c := fun _ _ _ h => h

theorem Extends.trans (h : Extends c c') (h' : Extends c' c'') : Extends c c'' :=
  fun x i v hv => h' x i v (h x i v hv)

/-- No values at all. -/
def empty : Contents ι α := fun _ _ => none

theorem empty_extends (c : Contents ι α) : Extends empty c := fun _ _ _ h => nomatch h

variable [DecidableEq ι]

/-- A new block, with `fill` in it as far as that says anything. -/
def create (c : Contents ι α) (x : ι) (fill : Nat → Option α) : Contents ι α :=
  Function.update c x fill

def discard (c : Contents ι α) (x : ι) : Contents ι α := Function.update c x fun _ => none

/-- The block `x` is given up for `y`, which takes over the first `n` places. -/
def resize (c : Contents ι α) (x y : ι) (n : Nat) : Contents ι α :=
  Function.update (c.discard x) y fun i => if i < n then c x i else none

def write (c : Contents ι α) (x : ι) (i : Nat) (v : α) : Contents ι α :=
  Function.update c x (Function.update (c x) i (some v))

/-- Places of one block: what holds of the others and of this one holds of all. -/
theorem Extends.update {f : Nat → Option α} (hothers : ∀ y, y ≠ x → ∀ i v, c y i = some v →
    c' y i = some v) (hself : ∀ i v, f i = some v → c' x i = some v) :
    Extends (Function.update c x f) c' := by
  intro y i v hv
  by_cases hy : y = x
  · subst hy
    rw [Function.update_self] at hv
    exact hself i v hv
  · rw [Function.update_of_ne hy] at hv
    exact hothers y hy i v hv

/-- More is known of one block. -/
theorem Extends.both {f g : Nat → Option α} (h : Extends c c')
    (hfg : ∀ i v, f i = some v → g i = some v) :
    Extends (Function.update c x f) (Function.update c' x g) := by
  refine Extends.update (fun y hy i v hv => ?_) fun i v hv => ?_
  · rw [Function.update_of_ne hy]
    exact h y i v hv
  · rw [Function.update_self]
    exact hfg i v hv

theorem Extends.create (h : Extends c c') (x : ι) (fill : Nat → Option α) :
    Extends (c.create x fill) (c'.create x fill) := h.both fun _ _ hv => hv

theorem Extends.discard (h : Extends c c') (x : ι) : Extends (c.discard x) (c'.discard x) :=
  h.both fun _ _ hv => hv

theorem Extends.resize (h : Extends c c') (x y : ι) (n : Nat) :
    Extends (c.resize x y n) (c'.resize x y n) := by
  refine (h.discard x).both fun i v hv => ?_
  split at hv
  · rename_i hi
    rw [if_pos hi]
    exact h x i v hv
  · exact nomatch hv

theorem Extends.write (h : Extends c c') (x : ι) (i : Nat) (v : α) :
    Extends (c.write x i v) (c'.write x i v) := by
  refine h.both fun j w hw => ?_
  by_cases hj : j = i
  · subst hj
    rwa [Function.update_self] at hw ⊢
  · rw [Function.update_of_ne hj] at hw ⊢
    exact h x j w hw

end Contents

/-! ## Runs with what was done in them -/

/-- The steps that lead from `s` to `t`, the last one first. -/
inductive Trace (step : σ → ε → σ → Prop) (s : σ) : List ε → σ → Prop where
  | nil : Trace step s [] s
  | cons {es : List ε} {e : ε} {t u : σ} : Trace step s es t → step t e u → Trace step s (e :: es) u

variable {step : σ → ε → σ → Prop} {s t : σ} {es : List ε}

/-- What the last step kept, all of them have. -/
theorem Trace.invariant {inv : σ → Prop} (h : Trace step s es t)
    (hstep : ∀ s e t, inv s → step s e t → inv t) (hs : inv s) : inv t := by
  induction h with
  | nil => exact hs
  | cons _ hst ih => exact hstep _ _ _ ih hst

/-- **What is known stays right.** -/
theorem Trace.extends {inv : σ → Prop} {view : σ → Contents ι α}
    {effect : ε → Contents ι α → Contents ι α} {c : Contents ι α} (h : Trace step s es t)
    (hstep : ∀ s e t, inv s → step s e t → inv t) (hs : inv s)
    (hmono : ∀ e c c', Contents.Extends c c' → Contents.Extends (effect e c) (effect e c'))
    (hview : ∀ s e t, inv s → step s e t → Contents.Extends (effect e (view s)) (view t))
    (hc : c.Extends (view s)) : Contents.Extends (es.foldr effect c) (view t) := by
  induction h with
  | nil => exact hc
  | cons h hst ih => exact (hmono _ _ _ ih).trans (hview _ _ _ (h.invariant hstep hs) hst)

end IonOS.Lib
