import Mathlib.Logic.Function.Basic

/-!
# Memory seen through a translation

A processor reaches the cells of its memory by a map that is kept in those very cells. A store
goes through the map, and may change it. Where the cells behind the addresses in use are none
that the map is made of, it does not: these addresses are a memory of their own, in which each
has what was stored there last.
-/

namespace IonOS.Lib

variable {A V B : Type}

/-- What is at `v`, if the map leads anywhere from there. -/
def loadBy (tr : (A → B) → V → Option A) (m : A → B) (v : V) : Option B := (tr m v).map m

variable {tr : (A → B) → V → Option A} {m m' : A → B} {S : V → Prop} {v w : V} {a : A} {b : B}

/-- `a` is the cell behind an address of `S`. -/
def Behind (tr : (A → B) → V → Option A) (m : A → B) (S : V → Prop) (a : A) : Prop :=
  ∃ v, S v ∧ tr m v = some a

/-- The addresses of `S` have cells of their own, which the map does not depend on. -/
structure Shielded (tr : (A → B) → V → Option A) (m : A → B) (S : V → Prop) : Prop where
  mapped : ∀ v, S v → ∃ a, tr m v = some a
  inj : ∀ v w a, S v → S w → tr m v = some a → tr m w = some a → v = w
  kept : ∀ m', (∀ a, ¬ Behind tr m S a → m' a = m a) → ∀ v, tr m' v = tr m v

variable [DecidableEq A]

/-- Store through the map; without a cell behind `v` there is a fault. -/
def storeBy (tr : (A → B) → V → Option A) (m : A → B) (v : V) (b : B) : Option (A → B) :=
  (tr m v).map fun a => Function.update m a b

theorem storeBy_eq_some :
    storeBy tr m v b = some m' ↔ ∃ a, tr m v = some a ∧ m' = Function.update m a b := by
  unfold storeBy
  rw [Option.map_eq_some_iff]
  exact exists_congr fun a => and_congr_right fun _ => eq_comm

namespace Shielded

/-- **A store leaves the map alone.** -/
theorem store_kept (h : Shielded tr m S) (hv : S v) (hm : storeBy tr m v b = some m') (w : V) :
    tr m' w = tr m w := by
  obtain ⟨a, ha, rfl⟩ := storeBy_eq_some.mp hm
  refine h.kept _ ?_ w
  intro a' ha'
  have hne : a' ≠ a := by
    rintro rfl
    exact ha' ⟨v, hv, ha⟩
  exact Function.update_of_ne hne _ _

/-- What is stored is there. -/
theorem load_same (h : Shielded tr m S) (hv : S v) (hm : storeBy tr m v b = some m') :
    loadBy tr m' v = some b := by
  unfold loadBy
  rw [h.store_kept hv hm v]
  obtain ⟨a, ha, rfl⟩ := storeBy_eq_some.mp hm
  rw [ha, Option.map_some, Function.update_self]

/-- **Nothing else in `S` changes.** -/
theorem load_other (h : Shielded tr m S) (hv : S v) (hw : S w) (hne : w ≠ v)
    (hm : storeBy tr m v b = some m') : loadBy tr m' w = loadBy tr m w := by
  unfold loadBy
  rw [h.store_kept hv hm w]
  obtain ⟨a, ha, rfl⟩ := storeBy_eq_some.mp hm
  obtain ⟨a', ha'⟩ := h.mapped w hw
  have hcell : a' ≠ a := by
    rintro rfl
    exact hne (h.inj w v a' hw hv ha' ha)
  rw [ha', Option.map_some, Option.map_some, Function.update_of_ne hcell]

end Shielded

end IonOS.Lib
