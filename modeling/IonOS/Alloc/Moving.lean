import IonOS.Alloc.Giveback

/-!
# Blocks that only move

`mman_realloc` leaves a block as it is, changes its size where it is, or moves it.
A move is an allocation, a store to the new payload and a release, and keeps a
manager in order like these do. A change of size in place is not counted: the pool
goes on with the old size, and with some growth its count reaches zero while a
block is live. Cutting down a page-aligned block by two pages or more moves it into
a block that is too small for what is copied.

So here are the runs in which reallocation does none of this.
-/

namespace IonOS.Alloc

open IonOS.Lib IonOS.Libs

variable {libc : Libc} {h h' g : Heap Mman} {P : Pic} {s t : MmanState} {op : MmanOp}
  {alloc : Heap Mman → Nat → Option (Nat × Heap Mman)} {reqmem : Nat → Nat}
  {man a size n p q : Nat} {live : List Nat}

/-! ## What reallocation does -/

/-- The block grows into the free one behind it. -/
def GrowsHere (h : Heap Mman) (p n : Nat) : Prop :=
  blkSize h.mem p < requestSize n ∧ p % size4k ≠ 0 ∧ blkNext h.mem p ≠ 0 ∧
    blkFreed h.mem (blkNext h.mem p) = true ∧
    requestSize n ≤ addW (addW (blkSize h.mem p) 16) (blkSize h.mem (blkNext h.mem p))

/-- The end of the block is cut off. -/
def CutsHere (h : Heap Mman) (p n : Nat) : Prop :=
  p % size4k ≠ 0 ∧ addW (requestSize n) 64 ≤ blkSize h.mem p ∧ requestSize n ≤ blkSize h.mem p

/-- More is copied than was asked for, as the whole of a block that is cut down is. -/
def Overruns (h : Heap Mman) (p n : Nat) : Prop :=
  p % size4k = 0 ∧ requestSize n ≤ blkSize h.mem p ∧
    2 * size4k ≤ blkSize h.mem p - requestSize n

/-- **The ways of a reallocation** that returns. -/
inductive Realloced (alloc : Heap Mman → Nat → Option (Nat × Heap Mman)) (libc : Libc)
    (h : Heap Mman) (p n : Nat) : Nat → Heap Mman → Prop where
  | kept (hpage : p % size4k = 0) (hle : requestSize n ≤ blkSize h.mem p)
      (hno : ¬ Overruns h p n) : Realloced alloc libc h p n p h
  | cut (hpage : p % size4k ≠ 0) (hle : requestSize n ≤ blkSize h.mem p) :
      Realloced alloc libc h p n p (Mman.trySplitAndFree h p (requestSize n)).2
  | grown (hg : GrowsHere h p n) :
      Realloced alloc libc h p n p
        (Mman.trySplitAndFree (blkMergenext Mman.detach h p).2 p (requestSize n)).2
  | moved (q : Nat) (g h' : Heap Mman)
      (hwhy : blkSize h.mem p < requestSize n ∧ ¬ GrowsHere h p n ∨ Overruns h p n)
      (ha : alloc h (requestSize n) = some (q, g)) (hq : q = 0 → blkSize h.mem p = 0)
      (hf : mmanFree libc { g with mem := memcpy g.mem q p (blkSize h.mem p) } p = some h') :
      Realloced alloc libc h p n q h'

theorem mmanReallocBy_cases (hr : mmanReallocBy alloc libc h p n = some (q, h')) :
    Realloced alloc libc h p n q h' := by
  unfold mmanReallocBy at hr
  dsimp only at hr
  by_cases hstay : requestSize n ≤ blkSize h.mem p ∧
      ¬ (p % size4k = 0 ∧ 2 * size4k ≤ blkSize h.mem p - requestSize n)
  · rw [if_pos hstay] at hr
    by_cases hpage : p % size4k = 0
    · rw [if_pos hpage] at hr
      obtain ⟨rfl, rfl⟩ := Prod.mk.inj (Option.some.inj hr)
      exact .kept hpage hstay.1 fun hover => hstay.2 ⟨hpage, hover.2.2⟩
    · rw [if_neg hpage] at hr
      obtain ⟨rfl, rfl⟩ := Prod.mk.inj (Option.some.inj hr)
      exact .cut hpage hstay.1
  · rw [if_neg hstay] at hr
    by_cases hgrow : p % size4k ≠ 0 ∧ blkNext h.mem p ≠ 0 ∧ blkFreed h.mem (blkNext h.mem p) ∧
        requestSize n ≤ addW (addW (blkSize h.mem p) 16) (blkSize h.mem (blkNext h.mem p))
    · rw [if_pos hgrow] at hr
      obtain ⟨rfl, rfl⟩ := Prod.mk.inj (Option.some.inj hr)
      refine .grown ⟨?_, hgrow⟩
      by_contra hle
      exact hstay ⟨by omega, fun hover => hgrow.1 hover.1⟩
    · rw [if_neg hgrow] at hr
      obtain ⟨⟨q', g⟩, ha, hr⟩ := Option.bind_eq_some_iff.mp hr
      dsimp only at hr
      by_cases hnull : q' = 0 ∧ blkSize h.mem p ≠ 0
      · rw [if_pos hnull] at hr
        exact absurd hr (by simp)
      · rw [if_neg hnull] at hr
        obtain ⟨g', hf, hr⟩ := Option.bind_eq_some_iff.mp hr
        obtain ⟨rfl, rfl⟩ := Prod.mk.inj (Option.some.inj hr)
        refine .moved _ g _ ?_ ha (fun hq => by_contra fun hs => hnull ⟨hq, hs⟩) hf
        by_cases hle : requestSize n ≤ blkSize h.mem p
        · have hover : p % size4k = 0 ∧ 2 * size4k ≤ blkSize h.mem p - requestSize n :=
            not_not.mp fun hno => hstay ⟨hle, hno⟩
          exact .inr ⟨hover.1, hle, hover.2⟩
        · exact .inl ⟨by omega, fun hg => hgrow hg.2⟩

/-! ## Moves -/

/-- In which order the pointers are named does not matter. -/
theorem Orderly.perm (ho : Orderly man a size s P) (hperm : live.Perm s.live) :
    Orderly man a size ⟨s.heap, live⟩ P :=
  ⟨⟨ho.toCharted.perm hperm, ho.balanced, ho.fixed, ho.main_kept⟩, ho.busy⟩

/-- **What a step gives back is empty.** -/
def NothingLeft (s t : MmanState) : Prop :=
  ∃ l, t.heap.delmem = s.heap.delmem ++ l ∧ ∀ e ∈ l, Vacated t e

theorem NothingLeft.same (h : t.heap.delmem = s.heap.delmem) : NothingLeft s t :=
  ⟨[], by rw [h, List.append_nil], by simp⟩

theorem GivesBack.nothingLeft (hb : GivesBack s op t) : NothingLeft s t := by
  by_cases hlast : ∃ p e, op = .free p ∧ LastIn s p e
  · obtain ⟨p, e, hop, he⟩ := hlast
    obtain ⟨hlog, hvac⟩ := hb.last p e hop he
    refine ⟨[e], hlog, fun f hf => ?_⟩
    rw [List.mem_singleton.mp hf]
    exact hvac
  · exact .same (hb.same fun p e hop he => hlast ⟨p, e, hop, he⟩)

/-- **A block that is moved**: allocation, store, release. -/
theorem orderly_moved (ho : Orderly man a size s P) (hp : p ∈ s.live) (hn : n ≤ 2 ^ 64 - 16)
    (hlt : requestSize n < allocLargeBlkSize) (hans : Answers a size s.heap reqmem)
    (hgrow : blkSize s.heap.mem p < requestSize n)
    (ha : mmanAlloc libc reqmem s.heap (requestSize n) = some (q, g))
    (hq : q = 0 → blkSize s.heap.mem p = 0)
    (hf : mmanFree libc { g with mem := memcpy g.mem q p (blkSize s.heap.mem p) } p = some h') :
    Pictured man a size ⟨h', q :: s.live.erase p⟩ ∧ NothingLeft s ⟨h', q :: s.live.erase p⟩ := by
  obtain ⟨c, hc, pre, k, post, hbs⟩ := ho.block hp
  have hmem : (⟨p, k, .live⟩ : Block) ∈ P.blocks c := by rw [hbs]; simp
  have hsize : blkSize s.heap.mem p = k :=
    ho.managed.spans.blkSize_eq (b := ⟨p, k, .live⟩) hc hmem
  have hpos := (ho.managed.spans.sizes c hc _ hmem).2
  have hidem := requestSize_idem hn
  obtain ⟨-, -, -, hmax⟩ := requestSize_spec hn
  rw [hsize] at hgrow hq hf
  dsimp only at hpos
  rcases orderly_alloc ho hmax (by rwa [hidem]) hans ha with
    ⟨hnull, -⟩ | ⟨hq0, hnew, hfit, hlog, P₁, ho₁⟩
  · exact absurd (hq hnull) (by omega)
  rw [hidem] at hfit
  have ho₂ := orderly_store (m := memcpy g.mem q p k) ho₁ fun w hw => by
    have hout := hw.2 q List.mem_cons_self
    dsimp only at hout
    exact memcpy_other (by omega)
  have hne : q ≠ p := fun he => hnew (he ▸ hp)
  have hlive : (q :: s.live).erase p = q :: s.live.erase p :=
    List.erase_cons_tail (by simpa using hne)
  obtain ⟨⟨P', ho'⟩, hback⟩ := givesBack_free ho₂ (List.mem_cons_of_mem _ hp) hf
  dsimp only at ho' hback
  rw [hlive] at ho' hback
  obtain ⟨l, hl, hvac⟩ := hback.nothingLeft
  refine ⟨⟨P', ho'⟩, l, hl.trans ?_, hvac⟩
  show g.delmem ++ l = _
  rw [hlog]

/-! ## Runs -/

/-- Reallocation neither changes a size in place nor copies too much. -/
def MmanOp.Unresized (s : MmanState) : MmanOp → Prop
  | .realloc p n _ => ¬ GrowsHere s.heap p n ∧ ¬ CutsHere s.heap p n ∧ ¬ Overruns s.heap p n
  | _ => True

theorem trySplitAndFree_kept (hno : ¬ CutsHere h p n) (hpage : p % size4k ≠ 0)
    (hle : requestSize n ≤ blkSize h.mem p) : (Mman.trySplitAndFree h p (requestSize n)).2 = h := by
  unfold Mman.trySplitAndFree
  rw [if_neg fun hcut => hno ⟨hpage, hcut, hle⟩]

/-- **One step** of a user whose blocks only move. -/
theorem unresized_step (ho : Orderly man a size s P) (hlegal : op.Legal a size s)
    (hwhole : op.Whole) (hop : op.Unresized s) (hst : MmanStep libc s op t) :
    Pictured man a size t ∧ NothingLeft s t := by
  cases hst with
  | realloc hr =>
      rename_i p n q reqmem h
      obtain ⟨hp, -, hlt, hans⟩ := hlegal
      obtain ⟨hg, hcut, hover⟩ := hop
      have hperm : (p :: s.live.erase p).Perm s.live := (List.perm_cons_erase hp).symm
      obtain ⟨c, hc, pre, k, post, hbs⟩ := ho.block hp
      have hmem : (⟨p, k, .live⟩ : Block) ∈ P.blocks c := by rw [hbs]; simp
      have hlow := (ho.managed.spans.fitsOf hc hmem).low
      dsimp only at hlow
      rw [mmanRealloc, if_neg (by omega)] at hr
      cases mmanReallocBy_cases hr with
      | kept => exact ⟨⟨P, ho.perm hperm⟩, .same rfl⟩
      | cut hpage hle =>
          rw [trySplitAndFree_kept hcut hpage hle]
          exact ⟨⟨P, ho.perm hperm⟩, .same rfl⟩
      | grown hgrow => exact absurd hgrow hg
      | moved q g h' hwhy ha hq hf =>
          have hgrow := (hwhy.resolve_right hover).1
          exact orderly_moved ho hp hwhole hlt hans hgrow ha hq hf
  | alloc hr =>
      obtain ⟨ho', hback⟩ := plain_step ho hlegal ⟨trivial, hwhole⟩ (.alloc hr)
      exact ⟨ho', hback.nothingLeft⟩
  | free hr =>
      obtain ⟨ho', hback⟩ := plain_step ho hlegal ⟨trivial, hwhole⟩ (.free hr)
      exact ⟨ho', hback.nothingLeft⟩
  | store =>
      obtain ⟨ho', hback⟩ := plain_step ho hlegal ⟨trivial, hwhole⟩ (@MmanStep.store libc _ _)
      exact ⟨ho', hback.nothingLeft⟩

/-- What the user asks for does not wrap, and his blocks only move. -/
def MmanOp.Steady (s : MmanState) (op : MmanOp) : Prop := op.Whole ∧ op.Unresized s

theorem pictured_steady (hs : Sound man a size)
    (hrun : Reachable (MmanStart man a size) (UserStep libc a size MmanOp.Steady) s) :
    Pictured man a size s := by
  refine hrun.invariant (fun _ hst => ⟨_, orderly_start hs hst⟩) fun s t ho hst => ?_
  obtain ⟨P, ho⟩ := ho
  obtain ⟨op, hlegal, ⟨hwhole, hop⟩, hst⟩ := hst
  exact (unresized_step ho hlegal hwhole hop hst).1

/--
**No area is given back under a live block**, nor with a block of it on a list, in
any run in which blocks only move.
-/
theorem given_areas_empty (hs : Sound man a size)
    (hrun : Reachable (MmanStart man a size) (UserStep libc a size MmanOp.Steady) s)
    (hst : UserStep libc a size MmanOp.Steady s t) : NothingLeft s t := by
  obtain ⟨P, ho⟩ := pictured_steady hs hrun
  obtain ⟨op, hlegal, ⟨hwhole, hop⟩, hst⟩ := hst
  exact (unresized_step ho hlegal hwhole hop hst).2

/-! ## Two runs -/

/-- The state after a reallocation. -/
def afterRealloc (s : MmanState) (p n : Nat) (reqmem : Nat → Nat) : MmanState :=
  let r := (mmanRealloc noLibc reqmem s.heap p n).getD (0, s.heap)
  ⟨r.2, r.1 :: s.live.erase p⟩

theorem afterRealloc_step (hr : (mmanRealloc noLibc reqmem s.heap p n).isSome) :
    MmanStep noLibc s (.realloc p n reqmem) (afterRealloc s p n reqmem) := by
  obtain ⟨⟨q, h⟩, hr⟩ := Option.isSome_iff_exists.mp hr
  have hstep := MmanStep.realloc (s := s) hr
  rwa [afterRealloc, hr]

/-- Only big areas are to be had. -/
def onePlace (size : Nat) : Nat := if size = size2M then 4194304 else 0

theorem twoState_answers : Answers 65536 size4k twoState.heap onePlace := by
  have hlog : twoState.heap.pool.reqmem = [(131072, size4k)] := by decide +kernel
  have hself : twoState.heap.pool.self = 8192 := by decide +kernel
  intro n hn
  rw [hself]
  rcases hn with rfl | rfl
  · exact .inl (by decide)
  · refine .inr ⟨⟨.inr rfl, by decide, by decide, by decide⟩, fun c k hc => ?_, by decide⟩
    rcases hc with ⟨rfl, rfl⟩ | hout
    · exact .inr (by decide)
    · rw [Outstanding, hlog] at hout
      have hmem : (c, k) ∈ [(131072, size4k)] := List.count_pos_iff.mp (Nat.zero_lt_of_lt hout)
      obtain ⟨rfl, rfl⟩ := Prod.mk.inj (List.mem_singleton.mp hmem)
      exact .inr (by decide)

theorem twoState_steady : Reachable (MmanStart 8192 65536 size4k)
    (UserStep noLibc 65536 size4k MmanOp.Steady) twoState := by
  refine twoState_reachable.mono fun s t hst => ?_
  obtain ⟨op, hlegal, ⟨hno, hwhole⟩, hst⟩ := hst
  refine ⟨op, hlegal, ⟨hwhole, ?_⟩, hst⟩
  cases op with
  | realloc => exact hno.elim
  | _ => trivial

/-- A block that is moved out of its area. -/
theorem given_areas_empty_moved :
    (afterRealloc twoState 131136 5000 onePlace).heap.delmem = [(131072, size4k)] ∧
      Vacated (afterRealloc twoState 131136 5000 onePlace) (131072, size4k) := by
  have hrun : (mmanRealloc noLibc onePlace twoState.heap 131136 5000).isSome := by decide +kernel
  have hlive : 131136 ∈ twoState.live := by decide +kernel
  have hold : twoState.heap.delmem = [] := by decide +kernel
  have hnew : (afterRealloc twoState 131136 5000 onePlace).heap.delmem = [(131072, size4k)] := by
    decide +kernel
  have hstay : MmanOp.Unresized twoState (.realloc 131136 5000 onePlace) := by
    unfold MmanOp.Unresized GrowsHere CutsHere Overruns
    decide +kernel
  obtain ⟨l, hl, hvac⟩ := given_areas_empty freshMman_sound twoState_steady
    ⟨.realloc 131136 5000 onePlace, ⟨hlive, by decide, by decide, twoState_answers⟩,
      ⟨by unfold MmanOp.Whole; decide, hstay⟩, afterRealloc_step hrun⟩
  rw [hold, List.nil_append] at hl
  exact ⟨hnew, hvac _ (by rw [← hl, hnew]; exact List.mem_cons_self)⟩

/-- A second block in the area, which grows. -/
def grownState : MmanState :=
  afterRealloc (afterAlloc twoState 16 fun _ => 0) 131264 128 fun _ => 0

/-- **Growth that is not counted**: the release of the block takes more from the count than it was
put in for, and the area is given back under the other block. -/
theorem given_under_live :
    Reachable (MmanStart 8192 65536 size4k)
      (UserStep noLibc 65536 size4k fun _ => MmanOp.Whole) grownState ∧
      131264 ∈ grownState.live ∧
      MmanStep noLibc grownState (.free 131264) (afterFree grownState 131264) ∧
      ¬ NothingLeft grownState (afterFree grownState 131264) := by
  have halloc : (mmanAlloc noLibc (fun _ => 0) twoState.heap 16).map Prod.fst = some 131264 := by
    decide +kernel
  have hgrow : (mmanRealloc noLibc (fun _ => 0) (afterAlloc twoState 16 fun _ => 0).heap
      131264 128).isSome := by decide +kernel
  have hfree : (mmanFree noLibc grownState.heap 131264).isSome := by decide +kernel
  have hlive : 131264 ∈ (afterAlloc twoState 16 fun _ => 0).live := by decide +kernel
  have hlive' : 131264 ∈ grownState.live := by decide +kernel
  have hold : grownState.heap.delmem = [] := by decide +kernel
  have hnew : (afterFree grownState 131264).heap.delmem = [(131072, size4k)] := by decide +kernel
  have hother : 131136 ∈ (afterFree grownState 131264).live := by decide +kernel
  have htwo : Reachable (MmanStart 8192 65536 size4k)
      (UserStep noLibc 65536 size4k fun _ => MmanOp.Whole) twoState :=
    twoState_steady.mono fun s t ⟨op, hlegal, hsteady, hst⟩ => ⟨op, hlegal, hsteady.1, hst⟩
  have hrun := htwo.tail ⟨.alloc 16 fun _ => 0, ⟨by decide, by decide, answers_null⟩,
    by unfold MmanOp.Whole; decide, afterAlloc_step (by decide) halloc⟩
  have hrun' := hrun.tail ⟨.realloc 131264 128 fun _ => 0,
    ⟨hlive, by decide, by decide, answers_null⟩, by unfold MmanOp.Whole; decide,
    afterRealloc_step hgrow⟩
  refine ⟨hrun', hlive', afterFree_step hfree, ?_⟩
  rintro ⟨l, hl, hvac⟩
  rw [hold, List.nil_append, hnew] at hl
  have := (hvac (131072, size4k) (by rw [← hl]; exact List.mem_cons_self)).1 _ hother
  revert this
  decide

end IonOS.Alloc
