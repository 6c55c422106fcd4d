import IonOS.Alloc.Moves

/-!
# The manager's search

Both allocation functions look through the class lists and then through the list
of large blocks, with a test of their own. Either no node of the large list
passes the test and nothing has happened, or a block that passes it is in hand
now. That it carries the size flag of its area is said here too, because blocks
are split before they are used.
-/

namespace IonOS.Alloc

open IonOS.Lib

variable {f : Mem → Nat → Bool} {h : Heap Mman} {P : Pic} {i x : Nat}

/-- Both matches on the list of large blocks. -/
def Mman.matchLargeBy (f : Mem → Nat → Bool) (h : Heap Mman) : Option (Nat × Heap Mman) := do
  let (ptr, list, m) ← freelistMatchBy f h.mem h.pool.largeBlk
  pure (ptr, { h with mem := m, pool := { h.pool with largeBlk := list } })

/-- Both matches on all lists. -/
def Mman.matchAnyBy (f : Mem → Nat → Bool) (h : Heap Mman) (size : Nat) :
    Option (Nat × Heap Mman) := do
  let (ptr, lists, m) ← freelistsMatchBy f h.mem h.pool.freed size
  let h := { h with mem := m, pool := { h.pool with freed := lists } }
  if ptr ≠ 0 then pure (ptr, h) else Mman.matchLargeBy f h

theorem matchLarge_eq (h : Heap Mman) (size : Nat) :
    Mman.matchLarge h size = Mman.matchLargeBy (sizeFits size) h := by
  unfold Mman.matchLarge Mman.matchLargeBy freelistMatch
  rfl

theorem alignedMatchLarge_eq (h : Heap Mman) (size align : Nat) :
    Mman.alignedMatchLarge h size align = Mman.matchLargeBy (alignedFits size align) h := by
  unfold Mman.alignedMatchLarge Mman.matchLargeBy freelistAlignedMatch
  rfl

theorem matchAny_by (h : Heap Mman) (size : Nat) :
    Mman.matchAny h size = Mman.matchAnyBy (sizeFits size) h size := by
  unfold Mman.matchAny Mman.matchAnyBy freelistsMatch
  simp only [matchLarge_eq]

theorem alignedMatchAny_by (h : Heap Mman) (size align : Nat) :
    Mman.alignedMatchAny h size align = Mman.matchAnyBy (alignedFits size align) h size := by
  unfold Mman.alignedMatchAny Mman.matchAnyBy freelistsAlignedMatch
  simp only [alignedMatchLarge_eq]

/-- **What a search came up with.** -/
inductive Found (f : Mem → Nat → Bool) (h : Heap Mman) (P : Pic) : Nat × Heap Mman → Prop where
  | nothing (hno : ∀ x ∈ P.lists 8, ¬ f h.mem x) : Found f h P (0, h)
  | block (a x s : Nat) (pre post : List Block) (L : Nat → List Nat) (h' : Heap Mman)
      (ha : a ∈ P.bases) (hbs : P.blocks a = pre ++ ⟨x, s, .free⟩ :: post) (hfit : f h.mem x)
      (hs : Steps h P h' (P.edit a (pre ++ ⟨x, s, .hand⟩ :: post) L))
      (hflag : Flagged h'.mem x s (P.size a = size2M)) : Found f h P (x, h')

/-- A node that a list gives up is a block in hand. -/
theorem Spread.take (hl : Spans h P) (hx : x ∈ P.lists i) (hfit : f h.mem x) {h' : Heap Mman}
    (hm : h'.mem = (freelistDetach h.mem (h.pool.heads i) x).2)
    (hhd : h'.pool.heads =
      Function.update h.pool.heads i (freelistDetach h.mem (h.pool.heads i) x).1)
    (hrest : h'.pool.rest = h.pool.rest) (hdel : h'.delmem = h.delmem) :
    x ≠ 0 ∧ Found f h P (x, h') := by
  obtain ⟨a, ha, ⟨y, s, st⟩, hb, rfl, rfl⟩ := hl.nodes i x hx
  obtain ⟨pre, post, hbs⟩ := List.append_of_mem hb
  obtain ⟨h1, h2, h3⟩ := hl.detach ha hbs hx
  have hsteps := Steps.of_eq h1 h2 hm hhd hrest hdel
  refine ⟨hl.free.node_ne hx, .block a y s pre post _ h' ha hbs hfit hsteps ?_⟩
  rw [hm]
  exact h3

/-- The list of large blocks has a block that passes the test, or it has none. -/
theorem matchLargeBy_found (hl : Spans h P) :
    ∃ r, Mman.matchLargeBy f h = some r ∧ Found f h P r ∧
      (r.1 ≠ 0 ↔ ∃ x ∈ P.lists 8, f h.mem x) := by
  have hspec := hl.free.freelistMatchBy_spec (f := f) 8
  rw [heads_large] at hspec
  unfold Mman.matchLargeBy
  rcases hspec with ⟨hno, heq⟩ | ⟨x, hx, hfit, heq⟩
  · rw [heq]
    refine ⟨_, rfl, .nothing hno, fun h0 => absurd rfl h0, ?_⟩
    rintro ⟨x, hx, hfit⟩
    exact absurd hfit (hno x hx)
  · rw [heq]
    let h' : Heap Mman := { h with
      mem := (freelistDetach h.mem h.pool.largeBlk x).2
      pool := { h.pool with largeBlk := (freelistDetach h.mem h.pool.largeBlk x).1 } }
    have hmem : h'.mem = (freelistDetach h.mem (h.pool.heads 8) x).2 := by rw [heads_large]
    obtain ⟨hx0, hfound⟩ := hl.take hx hfit hmem
      (by rw [heads_large]; exact heads_setLarge _ _) rfl rfl
    exact ⟨_, rfl, hfound, fun _ => ⟨x, hx, hfit⟩, fun _ => hx0⟩

/-- What it comes up with was on the list. -/
theorem matchLargeBy_mem (hl : Spans h P) {r : Nat × Heap Mman}
    (hr : Mman.matchLargeBy f h = some r) (h0 : r.1 ≠ 0) : r.1 ∈ P.lists 8 ∧ f h.mem r.1 := by
  have hspec := hl.free.freelistMatchBy_spec (f := f) 8
  rw [heads_large] at hspec
  unfold Mman.matchLargeBy at hr
  rcases hspec with ⟨-, heq⟩ | ⟨x, hx, hfit, heq⟩
  · rw [heq] at hr
    obtain rfl := Option.some.inj hr
    exact absurd rfl h0
  · rw [heq] at hr
    obtain rfl := Option.some.inj hr
    exact ⟨hx, hfit⟩

/-- **The search of the manager.** -/
theorem matchAnyBy_found (hl : Spans h P) (size : Nat) :
    ∃ r, Mman.matchAnyBy f h size = some r ∧ Found f h P r := by
  have hspec := hl.free.freelistsMatchBy_spec (f := f)
    (fun i hi => (heads_class _ (by omega)).symm) size
  unfold Mman.matchAnyBy
  rcases hspec with heq | ⟨i, hi, x, hx, hfit, heq⟩
  · rw [heq]
    obtain ⟨r, hr, hfound, -⟩ := matchLargeBy_found (f := f) hl
    exact ⟨r, hr, hfound⟩
  · have hne : i ≠ 8 := by omega
    rw [heq, freelistsDetach_eq]
    let h' : Heap Mman := { h with
      mem := (freelistDetach h.mem (h.pool.freed i) x).2
      pool := { h.pool with
        freed := Function.update h.pool.freed i (freelistDetach h.mem (h.pool.freed i) x).1 } }
    have hmem : h'.mem = (freelistDetach h.mem (h.pool.heads i) x).2 := by rw [heads_class _ hne]
    obtain ⟨hx0, hfound⟩ := hl.take hx hfit hmem
      (by rw [heads_class _ hne]; exact heads_setFreed _ hne _) rfl rfl
    refine ⟨_, ?_, hfound⟩
    simp only [Option.bind_eq_bind, Option.bind_some, ne_eq, hx0, not_false_eq_true, if_true]
    rfl

/-- A search that comes up with the null pointer has done nothing. -/
theorem Found.null {r : Nat × Heap Mman} (hf : Found f h P r) (hl : Spans h P) (h0 : r.1 = 0) :
    r = (0, h) ∧ ∀ x ∈ P.lists 8, ¬ f h.mem x := by
  cases hf with
  | nothing hno => exact ⟨rfl, hno⟩
  | block a x s pre post L h' ha hbs =>
      have hlow := (hl.fitsOf (b := ⟨x, s, .free⟩) ha (by rw [hbs]; simp)).low
      dsimp only at hlow h0
      omega

end IonOS.Alloc
