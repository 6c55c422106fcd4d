import Mathlib.Logic.Relation

/-!
# Runs of a transition system

States reachable from an initial one, and the one rule by which every fact about
all of them is proved: it holds initially and each step keeps it.
-/

namespace IonOS.Lib

variable {σ : Type}

/-- The states that finitely many steps lead to from an initial state. -/
inductive Reachable (init : σ → Prop) (step : σ → σ → Prop) : σ → Prop where
  | init {s : σ} : init s → Reachable init step s
  | tail {s t : σ} : Reachable init step s → step s t → Reachable init step t

namespace Reachable

variable {init : σ → Prop} {step step' : σ → σ → Prop} {s : σ}

/-- **The invariant rule.** -/
theorem invariant {inv : σ → Prop} (hinit : ∀ s, init s → inv s)
    (hstep : ∀ s t, inv s → step s t → inv t) (h : Reachable init step s) : inv s := by
  induction h with
  | init h => exact hinit _ h
  | tail _ h ih => exact hstep _ _ ih h

/-- The invariant rule for steps that only keep the invariant from reachable states. -/
theorem invariant' {inv : σ → Prop} (hinit : ∀ s, init s → inv s)
    (hstep : ∀ s t, Reachable init step s → inv s → step s t → inv t)
    (h : Reachable init step s) : inv s := by
  induction h with
  | init h => exact hinit _ h
  | tail hr h ih => exact hstep _ _ hr ih h

/-- More steps reach more states. -/
theorem mono (hstep : ∀ s t, step s t → step' s t) (h : Reachable init step s) :
    Reachable init step' s := by
  induction h with
  | init h => exact .init h
  | tail _ h ih => exact .tail ih (hstep _ _ h)

/-- A run of some of the steps carries on a run. -/
theorem follow {t : σ} (hstep : ∀ s t, step' s t → step s t) (h : Reachable init step s)
    (hrun : Relation.ReflTransGen step' s t) : Reachable init step t := by
  induction hrun with
  | refl => exact h
  | tail _ hst ih => exact .tail ih (hstep _ _ hst)

/-- **The simulation rule.** A relation that the initial states satisfy, and that each step either
keeps or carries over to a step of the other system. -/
theorem simulates {τ : Type} {init' : τ → Prop} {step' : τ → τ → Prop} {rel : σ → τ → Prop}
    (hinit : ∀ s, init s → ∃ t, init' t ∧ rel s t)
    (hstep : ∀ s s' t, Reachable init step s → rel s t → step s s' →
      rel s' t ∨ ∃ t', step' t t' ∧ rel s' t')
    (h : Reachable init step s) : ∃ t, Reachable init' step' t ∧ rel s t := by
  induction h with
  | init h =>
    obtain ⟨t, ht, hrel⟩ := hinit _ h
    exact ⟨t, .init ht, hrel⟩
  | tail hr h ih =>
    obtain ⟨t, ht, hrel⟩ := ih
    rcases hstep _ _ t hr hrel h with hrel' | ⟨t', hst, hrel'⟩
    · exact ⟨t, ht, hrel'⟩
    · exact ⟨t', .tail ht hst, hrel'⟩

end Reachable

end IonOS.Lib
