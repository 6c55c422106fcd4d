import Mathlib.Data.List.Nodup

/-!
# Singly linked lists

A heap gives some addresses a node, and a node names the address of its successor
or none. A list is followed from a pointer that may be null. It has one reading
only, so a list that ends visits no node twice.
-/

namespace IonOS.Lib

variable {α ν : Type*}

/-- Following `next` from `p` visits exactly `l`, and then ends. -/
inductive Chain (node : α → Option ν) (next : ν → Option α) : Option α → List α → Prop where
  | nil : Chain node next none []
  | cons {x : α} {v : ν} {l : List α} : node x = some v → Chain node next (next v) l →
      Chain node next (some x) (x :: l)

namespace Chain

variable {node node' : α → Option ν} {next : ν → Option α} {p : Option α} {l l' r : List α}
  {x y : α} {v : ν}

theorem unique (h : Chain node next p l) (h' : Chain node next p l') : l = l' := by
  induction h generalizing l' with
  | nil =>
      cases h'
      rfl
  | cons hx _ ih =>
      cases h' with
      | cons hx' hl' =>
          rw [hx] at hx'
          obtain rfl := Option.some.inj hx'
          rw [ih hl']

/-- A node of a list begins a list of its own. -/
theorem drop (h : Chain node next p (l ++ x :: r)) : Chain node next (some x) (x :: r) := by
  induction l generalizing p with
  | nil =>
      cases h with
      | cons hx hr => exact .cons hx hr
  | cons y l ih =>
      cases h with
      | cons _ hl => exact ih hl

theorem head (h : Chain node next (some x) l) : ∃ r, l = x :: r := by
  cases h
  exact ⟨_, rfl⟩

theorem mem (h : Chain node next p l) (hx : x ∈ l) : ∃ v, node x = some v := by
  obtain ⟨a, b, rfl⟩ := List.append_of_mem hx
  cases h.drop with
  | cons hv _ => exact ⟨_, hv⟩

/-- **A list that ends visits no node twice.** -/
theorem nodup (h : Chain node next p l) : l.Nodup := by
  induction h with
  | nil => exact List.nodup_nil
  | @cons x v l hx hl ih =>
      refine List.nodup_cons.mpr ⟨fun hmem => ?_, ih⟩
      -- a second visit would have the same rest, which is shorter
      obtain ⟨a, b, rfl⟩ := List.append_of_mem hmem
      have he := unique (.cons hx hl) hl.drop
      have := congrArg List.length he
      simp only [List.length_cons, List.length_append] at this
      omega

/-- A list depends on the successors of its nodes only. -/
theorem congr (h : Chain node next p l)
    (hl : ∀ x ∈ l, (node' x).map next = (node x).map next) : Chain node' next p l := by
  induction h with
  | nil => exact .nil
  | @cons x v l hx hl' ih =>
      have hn := hl x List.mem_cons_self
      rw [hx] at hn
      obtain ⟨v', hv', he⟩ := Option.map_eq_some_iff.mp hn
      exact .cons hv' (he ▸ ih fun y hy => hl y (List.mem_cons_of_mem _ hy))

/-- **The last node gets a successor**, and the list goes on there. -/
theorem append (h : Chain node next p (l ++ [x]))
    (hl : ∀ z ∈ l, (node' z).map next = (node z).map next) (hx : node' x = some v)
    (hr : Chain node' next (next v) r) : Chain node' next p (l ++ x :: r) := by
  induction l generalizing p with
  | nil =>
      cases h
      exact .cons hx hr
  | cons y l ih =>
      cases h with
      | cons hy h =>
          have hn := hl y List.mem_cons_self
          rw [hy] at hn
          obtain ⟨v', hv', he⟩ := Option.map_eq_some_iff.mp hn
          exact .cons hv' (he ▸ ih h fun z hz => hl z (List.mem_cons_of_mem _ hz))

end Chain

end IonOS.Lib
