import IonOS.Lib.Runs

/-!
# Data behind a lock

Any number of actors run sections of code on shared data, one step at a time. What a
lock is for is that at most one of them is in its section. Under that rule the steps
of different sections never mix: the data is what the sections make of it when each
is run from start to end, in the order in which they were entered.
-/

namespace IonOS.Lib

variable {ι σ : Type}

/-! ## Sections -/

/-- What steps make of the data, one after another. -/
def perform (ops : List (σ → σ)) (x : σ) : σ := ops.foldl (fun x op => op x) x

@[simp] theorem perform_nil (x : σ) : perform [] x = x := rfl

@[simp] theorem perform_cons (op : σ → σ) (ops : List (σ → σ)) (x : σ) :
    perform (op :: ops) x = perform ops (op x) := rfl

@[simp] theorem perform_append (ops ops' : List (σ → σ)) (x : σ) :
    perform (ops ++ ops') x = perform ops' (perform ops x) := List.foldl_append

/-- Shared data, with what the one inside has left to do. -/
structure Guarded (ι σ : Type) where
  data : σ
  inside : Option (ι × List (σ → σ))
  /-- The sections that were entered, the last one first. -/
  log : List (ι × List (σ → σ))

/-- What actors do if one of them is inside at a time. `ok` says which sections an actor may enter
with the data as it is. -/
inductive GuardedStep (ok : σ → ι → List (σ → σ) → Prop) : Guarded ι σ → Guarded ι σ → Prop where
  | enter {g : Guarded ι σ} {i : ι} {ops : List (σ → σ)} (hfree : g.inside = none)
      (hok : ok g.data i ops) :
      GuardedStep ok g { g with inside := some (i, ops), log := (i, ops) :: g.log }
  | work {g : Guarded ι σ} {i : ι} {op : σ → σ} {ops : List (σ → σ)}
      (hin : g.inside = some (i, op :: ops)) :
      GuardedStep ok g { g with data := op g.data, inside := some (i, ops) }
  | leave {g : Guarded ι σ} {i : ι} (hin : g.inside = some (i, [])) :
      GuardedStep ok g { g with inside := none }

def GuardedStart (x₀ : σ) (g : Guarded ι σ) : Prop := g = ⟨x₀, none, []⟩

/-! ## One after another -/

/-- Whole sections, each entered with the data that the one before left. -/
inductive Serial (ok : σ → ι → List (σ → σ) → Prop) (x₀ : σ) : List (ι × List (σ → σ)) → σ → Prop
    where
  | nil : Serial ok x₀ [] x₀
  | cons {log : List (ι × List (σ → σ))} {x : σ} {i : ι} {ops : List (σ → σ)}
      (h : Serial ok x₀ log x) (hok : ok x i ops) : Serial ok x₀ ((i, ops) :: log) (perform ops x)

variable {ok : σ → ι → List (σ → σ) → Prop} {x₀ x : σ} {g g' : Guarded ι σ}
  {log : List (ι × List (σ → σ))} {i : ι} {ops : List (σ → σ)}

/-- **The order of entry is the order of effect.** -/
structure Serialized (ok : σ → ι → List (σ → σ) → Prop) (x₀ : σ) (g : Guarded ι σ) : Prop where
  /-- With nobody inside, every section that was entered is done. -/
  free : g.inside = none → Serial ok x₀ g.log g.data
  /-- The one inside has done a part of its section, and nobody else anything since. -/
  busy : ∀ i rest, g.inside = some (i, rest) → ∃ done log x, g.log = (i, done ++ rest) :: log ∧
    Serial ok x₀ log x ∧ ok x i (done ++ rest) ∧ g.data = perform done x

theorem serialized_start (h : GuardedStart x₀ g) : Serialized ok x₀ g := by
  obtain rfl := h
  refine ⟨fun _ => .nil, ?_⟩
  intro i rest hin
  exact nomatch hin

theorem serialized_step (hg : Serialized ok x₀ g) (h : GuardedStep ok g g') :
    Serialized ok x₀ g' := by
  cases h with
  | @enter i ops hfree hok =>
      refine ⟨fun hnone => (nomatch hnone), ?_⟩
      intro j rest hin
      obtain ⟨rfl, rfl⟩ := Prod.mk.inj (Option.some.inj hin)
      exact ⟨[], g.log, g.data, rfl, hg.free hfree, hok, rfl⟩
  | @work i op ops hin =>
      obtain ⟨done, log, x, hlog, hser, hok, hdata⟩ := hg.busy i (op :: ops) hin
      refine ⟨fun hnone => (nomatch hnone), ?_⟩
      intro j rest hin'
      obtain ⟨rfl, rfl⟩ := Prod.mk.inj (Option.some.inj hin')
      have hassoc : done ++ op :: ops = (done ++ [op]) ++ ops := by simp
      refine ⟨done ++ [op], log, x, ?_, hser, ?_, ?_⟩
      · rw [← hassoc]
        exact hlog
      · rw [← hassoc]
        exact hok
      · rw [perform_append, ← hdata]
        rfl
  | @leave i hin =>
      obtain ⟨done, log, x, hlog, hser, hok, hdata⟩ := hg.busy i [] hin
      rw [List.append_nil] at hlog hok
      refine ⟨fun _ => ?_, fun j rest hin' => (nomatch hin')⟩
      dsimp only
      rw [hlog, hdata]
      exact hser.cons hok

/-- **Sections that exclude each other are serial.** -/
theorem serialized_reachable (h : Reachable (GuardedStart x₀) (GuardedStep ok) g) :
    Serialized ok x₀ g :=
  h.invariant (fun _ hg => serialized_start hg) fun _ _ hg hst => serialized_step hg hst

end IonOS.Lib
