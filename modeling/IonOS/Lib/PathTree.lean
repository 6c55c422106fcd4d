import Mathlib.Data.List.Induction
import Mathlib.Data.Option.Basic
import Mathlib.Logic.Function.Basic

/-!
# Trees of nodes in a store

A store gives a node, at some of its indices, an edge; `dst` says where an edge
leads. From a root, a path of indices follows edges to a node or falls off: that
is its `route`. The store is a *tree* down to depth `n` when no two paths of at
most that length lead to the same node.

A route depends on the edges on its way only (`route_congr`). In a tree an edge is
on the way of exactly the paths through it, so a change to one edge (`setEdge`)
touches no other path. `link` hangs a fresh node without edges into the tree.
-/

namespace IonOS.Lib

variable {F I V : Type}

/-- The edges that a path follows and the node it leads to. -/
def route (edge : F → I → Option V) (dst : V → F) (r : F) : List I → Option (List V × F)
  | [] => some ([], r)
  | i :: p => (edge r i).bind fun v => (route edge dst (dst v) p).map fun x => (v :: x.1, x.2)

/-- Where a path leads. -/
def walk (edge : F → I → Option V) (dst : V → F) (r : F) (p : List I) : Option F :=
  (route edge dst r p).map Prod.snd

variable {edge edge' : F → I → Option V} {dst : V → F} {r t f : F} {i : I} {p q : List I} {n : Nat}
  {es : List V} {c : Option V} {v : V}

/-! ## Following a path -/

theorem route_append (edge : F → I → Option V) (dst : V → F) (r : F) (p q : List I) :
    route edge dst r (p ++ q) = (route edge dst r p).bind fun x =>
      (route edge dst x.2 q).map fun y => (x.1 ++ y.1, y.2) := by
  induction p generalizing r with
  | nil =>
      rw [List.nil_append]
      cases h : route edge dst r q <;> simp [route, h]
  | cons i p ih =>
    rw [List.cons_append, route, route]
    cases edge r i with
    | none => rfl
    | some v =>
        simp only [Option.bind_some, ih]
        cases route edge dst (dst v) p with
        | none => rfl
        | some x =>
            simp only [Option.bind_some, Option.map_some]
            cases route edge dst x.2 q <;> rfl

theorem route_concat (edge : F → I → Option V) (dst : V → F) (r : F) (p : List I) (i : I) :
    route edge dst r (p ++ [i]) = (route edge dst r p).bind fun x =>
      (edge x.2 i).map fun v => (x.1 ++ [v], dst v) := by
  rw [route_append]
  cases route edge dst r p with
  | none => rfl
  | some x =>
      simp only [Option.bind_some, route]
      cases edge x.2 i <;> rfl

theorem walk_eq_some : walk edge dst r p = some f ↔ ∃ es, route edge dst r p = some (es, f) := by
  unfold walk
  rw [Option.map_eq_some_iff]
  constructor
  · rintro ⟨⟨es, f'⟩, h, rfl⟩
    exact ⟨es, h⟩
  · rintro ⟨es, h⟩
    exact ⟨_, h, rfl⟩

theorem walk_nil : walk edge dst r [] = some r := rfl

theorem walk_concat (edge : F → I → Option V) (dst : V → F) (r : F) (p : List I) (i : I) :
    walk edge dst r (p ++ [i]) =
      (walk edge dst r p).bind fun t => (edge t i).map dst := by
  unfold walk
  rw [route_concat]
  cases route edge dst r p with
  | none => rfl
  | some x =>
      simp only [Option.bind_some, Option.map_some]
      cases edge x.2 i <;> rfl

/-- **Routes depend on the edges on the way only.** -/
theorem route_congr
    (h : ∀ p i t, p ++ [i] <+: q → walk edge dst r p = some t → edge' t i = edge t i) :
    route edge' dst r q = route edge dst r q := by
  induction q using List.reverseRecOn with
  | nil => rfl
  | append_singleton q i ih =>
    rw [route_concat, route_concat, ih fun p j t hp => h p j t (hp.trans (List.prefix_append _ _))]
    cases hw : route edge dst r q with
    | none => rfl
    | some x =>
        have hx : walk edge dst r q = some x.2 := by rw [walk, hw]; rfl
        simp only [Option.bind_some]
        rw [h q i x.2 (List.prefix_refl _) hx]

/-- Fewer edges, fewer routes. -/
theorem route_mono (h : ∀ t i v, edge' t i = some v → edge t i = some v) {x : List V × F}
    (hr : route edge' dst r p = some x) : route edge dst r p = some x := by
  induction p generalizing r x with
  | nil => exact hr
  | cons i p ih =>
    rw [route] at hr ⊢
    obtain ⟨v, hv, hr⟩ := Option.bind_eq_some_iff.mp hr
    obtain ⟨y, hy, rfl⟩ := Option.map_eq_some_iff.mp hr
    rw [h r i v hv, Option.bind_some, ih hy]
    rfl

theorem walk_mono (h : ∀ t i v, edge' t i = some v → edge t i = some v)
    (hw : walk edge' dst r p = some f) : walk edge dst r p = some f := by
  obtain ⟨es, hr⟩ := walk_eq_some.mp hw
  exact walk_eq_some.mpr ⟨es, route_mono h hr⟩

/-- A path does not go on through an edge that it ends before. -/
theorem not_prefix_self : ¬ p ++ [i] <+: p := fun h => by
  have := h.length_le
  rw [List.length_append, List.length_singleton] at this
  omega

/-! ## Trees -/

/-- No two paths of at most `n` steps lead to the same node. -/
def IsTree (edge : F → I → Option V) (dst : V → F) (r : F) (n : Nat) : Prop :=
  ∀ p q f, p.length ≤ n → q.length ≤ n → walk edge dst r p = some f →
    walk edge dst r q = some f → p = q

/-- The nodes the tree consists of. -/
def InTree (edge : F → I → Option V) (dst : V → F) (r : F) (n : Nat) (f : F) : Prop :=
  ∃ p, p.length ≤ n ∧ walk edge dst r p = some f

theorem IsTree.congr (h : IsTree edge dst r n)
    (hw : ∀ p : List I, p.length ≤ n → walk edge' dst r p = walk edge dst r p) :
    IsTree edge' dst r n := by
  intro p q f hp hq h1 h2
  rw [hw p hp] at h1
  rw [hw q hq] at h2
  exact h p q f hp hq h1 h2

/-! ## Changing one edge -/

variable [DecidableEq F] [DecidableEq I]

/-- The edge of `t` at `i` becomes `c`. -/
def setEdge (edge : F → I → Option V) (t : F) (i : I) (c : Option V) : F → I → Option V :=
  fun x j => if x = t ∧ j = i then c else edge x j

/-- **Paths that avoid an edge do not notice a change to it.** -/
theorem route_setEdge (htree : IsTree edge dst r n) (ht : walk edge dst r p = some t)
    (hp : p.length ≤ n) (hq : q.length ≤ n + 1) (havoid : ¬ p ++ [i] <+: q) :
    route (setEdge edge t i c) dst r q = route edge dst r q := by
  refine route_congr fun p' j x hpre hx => if_neg ?_
  have hlen := hpre.length_le
  rw [List.length_append, List.length_singleton] at hlen
  -- the same edge would mean the same path
  rintro ⟨rfl, rfl⟩
  rw [htree p' p x (by omega) hp hx ht] at hpre
  exact havoid hpre

/-- The path to the edge's own end. -/
theorem route_setEdge_self (htree : IsTree edge dst r n)
    (ht : route edge dst r p = some (es, t)) (hp : p.length ≤ n) :
    route (setEdge edge t i c) dst r (p ++ [i]) = c.map fun v => (es ++ [v], dst v) := by
  have hw : walk edge dst r p = some t := walk_eq_some.mpr ⟨es, ht⟩
  rw [route_concat, route_setEdge htree hw hp (by omega) not_prefix_self, ht]
  simp [setEdge]

/-! ## Linking a fresh node -/

/-- `dst v` becomes the child of `t` at `i`, and has no children itself. -/
def link (edge : F → I → Option V) (dst : V → F) (t : F) (i : I) (v : V) : F → I → Option V :=
  setEdge (fun x j => if x = dst v then none else edge x j) t i (some v)

omit [DecidableEq I] in
/-- A node outside the tree can be cleared. -/
theorem route_clear (hfresh : ¬ InTree edge dst r n f) (hq : q.length ≤ n + 1) :
    route (fun x j => if x = f then none else edge x j) dst r q = route edge dst r q := by
  refine route_congr fun p i t hpre ht => ?_
  have hlen := hpre.length_le
  rw [List.length_append, List.length_singleton] at hlen
  have hne : t ≠ f := fun he => hfresh ⟨p, by omega, he ▸ ht⟩
  rw [if_neg hne]

/-- **Linking a fresh node adds one path.** -/
theorem route_link (htree : IsTree edge dst r n) (ht : route edge dst r p = some (es, t))
    (hp : p.length < n) (hnone : edge t i = none) (hfresh : ¬ InTree edge dst r n (dst v))
    (hq : q.length ≤ n + 1) :
    route (link edge dst t i v) dst r q =
      if q = p ++ [i] then some (es ++ [v], dst v) else route edge dst r q := by
  have hclear : ∀ q : List I, q.length ≤ n + 1 →
      route (fun x j => if x = dst v then none else edge x j) dst r q = route edge dst r q :=
    fun q hq => route_clear hfresh hq
  have htree' : IsTree (fun x j => if x = dst v then none else edge x j) dst r n :=
    htree.congr fun q hq => by rw [walk, walk, hclear q (by omega)]
  have ht' : route (fun x j => if x = dst v then none else edge x j) dst r p = some (es, t) := by
    rw [hclear p (by omega), ht]
  have hw : walk edge dst r p = some t := walk_eq_some.mpr ⟨es, ht⟩
  have htv : t ≠ dst v := fun he => hfresh ⟨p, by omega, he ▸ hw⟩
  by_cases hthrough : p ++ [i] <+: q
  · obtain ⟨s, rfl⟩ := hthrough
    rw [link, route_append, route_setEdge_self htree' ht' (by omega)]
    cases s with
    | nil => simp [route]
    | cons j s =>
        have hne : p ++ [i] ++ j :: s ≠ p ++ [i] := by simp
        rw [if_neg hne, route_append, route_concat, ht]
        simp [route, setEdge, htv.symm, hnone]
  · rw [link, route_setEdge htree' (walk_eq_some.mpr ⟨es, ht'⟩) (by omega) hq hthrough,
      hclear q hq, if_neg]
    rintro rfl
    exact hthrough (List.prefix_refl _)

theorem walk_link (htree : IsTree edge dst r n) (ht : route edge dst r p = some (es, t))
    (hp : p.length < n) (hnone : edge t i = none) (hfresh : ¬ InTree edge dst r n (dst v))
    (hq : q.length ≤ n + 1) :
    walk (link edge dst t i v) dst r q =
      if q = p ++ [i] then some (dst v) else walk edge dst r q := by
  rw [walk, walk, route_link htree ht hp hnone hfresh hq]
  split <;> rfl

/-- **Linking a fresh node keeps the tree a tree.** -/
theorem isTree_link (htree : IsTree edge dst r n) (ht : route edge dst r p = some (es, t))
    (hp : p.length < n) (hnone : edge t i = none) (hfresh : ¬ InTree edge dst r n (dst v)) :
    IsTree (link edge dst t i v) dst r n := by
  intro q q' x hq hq' hw hw'
  rw [walk_link htree ht hp hnone hfresh (by omega)] at hw hw'
  by_cases h : q = p ++ [i]
  · by_cases h' : q' = p ++ [i]
    · rw [h, h']
    · rw [if_pos h] at hw
      rw [if_neg h'] at hw'
      exact absurd ⟨q', hq', (Option.some.inj hw) ▸ hw'⟩ hfresh
  · rw [if_neg h] at hw
    by_cases h' : q' = p ++ [i]
    · rw [if_pos h'] at hw'
      exact absurd ⟨q, hq, (Option.some.inj hw') ▸ hw⟩ hfresh
    · rw [if_neg h'] at hw'
      exact htree q q' x hq hq' hw hw'

/-- The nodes after linking are the old ones and the new one. -/
theorem inTree_link (htree : IsTree edge dst r n) (ht : route edge dst r p = some (es, t))
    (hp : p.length < n) (hnone : edge t i = none) (hfresh : ¬ InTree edge dst r n (dst v))
    {x : F} :
    InTree (link edge dst t i v) dst r n x → x = dst v ∨ InTree edge dst r n x := by
  rintro ⟨q, hq, hw⟩
  rw [walk_link htree ht hp hnone hfresh (by omega)] at hw
  split at hw
  · exact .inl (Option.some.inj hw).symm
  · exact .inr ⟨q, hq, hw⟩

/-! ## What all edges have in common -/

/-- The edges of the first `n` levels satisfy `Q`. -/
def AllEdges (edge : F → I → Option V) (dst : V → F) (r : F) (n : Nat) (Q : V → Prop) : Prop :=
  ∀ p t i v, p.length < n → walk edge dst r p = some t → edge t i = some v → Q v

variable {Q : V → Prop}

omit [DecidableEq F] [DecidableEq I] in
/-- The edges on the way of a path are edges. -/
theorem AllEdges.of_route (h : AllEdges edge dst r n Q) {x : List V × F}
    (hr : route edge dst r q = some x) (hq : q.length ≤ n) : ∀ v ∈ x.1, Q v := by
  induction q using List.reverseRecOn generalizing x with
  | nil =>
      obtain rfl := Option.some.inj hr
      exact fun v hv => nomatch hv
  | append_singleton q i ih =>
    rw [List.length_append, List.length_singleton] at hq
    rw [route_concat] at hr
    obtain ⟨y, hy, hr⟩ := Option.bind_eq_some_iff.mp hr
    obtain ⟨v, hv, rfl⟩ := Option.map_eq_some_iff.mp hr
    intro w hw
    rcases List.mem_append.mp hw with hw | hw
    · exact ih hy (by omega) w hw
    · obtain rfl := List.mem_singleton.mp hw
      exact h q y.2 i w (by omega) (walk_eq_some.mpr ⟨y.1, hy⟩) hv

theorem AllEdges.linked (h : AllEdges edge dst r n Q) (htree : IsTree edge dst r n)
    (ht : route edge dst r p = some (es, t)) (hp : p.length < n)
    (hnone : edge t i = none) (hfresh : ¬ InTree edge dst r n (dst v)) (hv : Q v) :
    AllEdges (link edge dst t i v) dst r n Q := by
  intro q x j w hq hx hw
  rw [walk_link htree ht hp hnone hfresh (by omega)] at hx
  unfold link setEdge at hw
  by_cases hxt : x = t ∧ j = i
  · rw [if_pos hxt] at hw
    exact Option.some.inj hw ▸ hv
  · rw [if_neg hxt] at hw
    dsimp only at hw
    split at hw
    · exact nomatch hw
    · rename_i hxv
      split at hx
      · exact absurd (Option.some.inj hx).symm hxv
      · exact h q x j w hq hx hw

/-- The edges below the `n` levels do not matter. -/
theorem AllEdges.below (h : AllEdges edge dst r n Q) (htree : IsTree edge dst r n)
    (ht : walk edge dst r p = some t) (hp : p.length = n) :
    AllEdges (setEdge edge t i c) dst r n Q := by
  intro q x j w hq hx hw
  have havoid : ¬ p ++ [i] <+: q := fun hpre => by
    have := hpre.length_le
    rw [List.length_append, List.length_singleton] at this
    omega
  rw [walk, route_setEdge htree ht (by omega) (by omega) havoid] at hx
  have hxt : x ≠ t := by
    rintro rfl
    obtain rfl := htree q p x (by omega) (by omega) hx ht
    omega
  rw [setEdge, if_neg fun he => hxt he.1] at hw
  exact h q x j w hq hx hw

/-! ## Stores that agree on a tree -/

section Agree

omit [DecidableEq F] [DecidableEq I]

variable (h : ∀ t, InTree edge dst r n t → ∀ i, edge' t i = edge t i)

include h

/-- **Only the edges of the tree are followed.** -/
theorem route_agree (hq : q.length ≤ n + 1) : route edge' dst r q = route edge dst r q := by
  refine route_congr fun p i t hpre ht => h t ⟨p, ?_, ht⟩ i
  have := hpre.length_le
  rw [List.length_append, List.length_singleton] at this
  omega

theorem walk_agree (hq : q.length ≤ n + 1) : walk edge' dst r q = walk edge dst r q := by
  rw [walk, walk, route_agree h hq]

theorem inTree_agree : InTree edge' dst r n f ↔ InTree edge dst r n f :=
  exists_congr fun p => and_congr_right fun hp => by rw [walk_agree h (Nat.le_succ_of_le hp)]

theorem allEdges_agree (hq : AllEdges edge dst r n Q) : AllEdges edge' dst r n Q := by
  intro p t i v hp ht hv
  rw [walk_agree h (by omega)] at ht
  rw [h t ⟨p, by omega, ht⟩ i] at hv
  exact hq p t i v hp ht hv

end Agree

end IonOS.Lib
