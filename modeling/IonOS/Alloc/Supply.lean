import IonOS.Alloc.Request

/-!
# Allocation from a manager

The end of both allocation functions is the same: the block found is cut down to
the request, marked, and counted in its own pool and in the manager. `Tallied`
says this of any operation on the blocks of one area that counts, so that the
release can use it too.
-/

namespace IonOS.Alloc

open IonOS.Lib

variable {h h' : Heap Mman} {P P' : Pic} {reqmem : Nat → Nat} {f : Nat → Nat}
  {a c n s w x : Nat} {pre post : List Block}

/-! ## Counting -/

/-- **What an operation did** with the blocks of the area at `a`, and `f` to the counts. -/
structure Tallied (f : Nat → Nat) (h : Heap Mman) (P : Pic) (a : Nat) (h' : Heap Mman) (P' : Pic) :
    Prop where
  spans : Spans h' P'
  pooled : Pooled h'.mem h.pool.self P'
  kept : ∀ w, Away P w →
    w < P.poolOf h.pool.self a + 8 ∨ P.poolOf h.pool.self a + 16 ≤ w →
      h'.mem w = h.mem w ∧ Away P' w
  count : poolAllocedSize h'.mem (P.poolOf h.pool.self a) =
    f (poolAllocedSize h.mem (P.poolOf h.pool.self a))
  others : ∀ c ∈ P.bases, c ≠ a → poolAllocedSize h'.mem (P.poolOf h.pool.self c) =
    poolAllocedSize h.mem (P.poolOf h.pool.self c)
  rest : h'.pool.rest = Mman.rest { h.pool with allocedSize := f h.pool.allocedSize }
  delmem : h'.delmem = h.delmem

theorem Tallied.self (ht : Tallied f h P a h' P') : h'.pool.self = h.pool.self :=
  Mman.rest_self (q := { h.pool with allocedSize := f h.pool.allocedSize }) ht.rest

/-- Moving blocks and then storing the new counts. -/
theorem Steps.tallied {bs : List Block} {L : Nat → List Nat} {h₁ : Heap Mman} {pool : Nat}
    (hs : Steps h P h₁ (P.edit a bs L)) (hl : Spans h P) (hp : Pooled h.mem h.pool.self P)
    (ha : a ∈ P.bases) (hpool : pool = P.poolOf h.pool.self a) (hf : ∀ v < 2 ^ 64, f v < 2 ^ 64)
    (hm : h'.mem = h₁.mem.write64 (pool + 8) (f (poolAllocedSize h₁.mem pool)))
    (hh : h'.pool = { h₁.pool with allocedSize := f h₁.pool.allocedSize })
    (hd : h'.delmem = h₁.delmem) : Tallied f h P a h' (P.edit a bs L) := by
  have hp₁ : Pooled h₁.mem h.pool.self (P.edit a bs L) := (hp.moved hl hs.moved).edit _ _ _
  have hcount : ∀ c ∈ P.bases, poolAllocedSize h₁.mem (P.poolOf h.pool.self c) =
      poolAllocedSize h.mem (P.poolOf h.pool.self c) := fun c hc => hp.alloced_moved hl hs.moved hc
  rw [hpool] at hm
  obtain ⟨c1, c2, c3⟩ := hp₁.counted hs.spans ha
    (f (poolAllocedSize h₁.mem (P.poolOf h.pool.self a)))
  rw [Pic.edit_poolOf, ← hm] at c1 c2 c3
  have hrest := hs.rest
  refine ⟨?_, c1, fun w hw hout => ?_, ?_, fun c hc hne => ?_, ?_, hd.trans hs.delmem⟩
  · show Spread h'.mem h'.pool.heads _
    rw [hh]
    exact c2
  · obtain ⟨h1, h2⟩ := hs.moved w hw
    refine ⟨?_, h2⟩
    rw [hm, Mem.write64_other (by omega)]
    exact h1
  · have hlt := hf (poolAllocedSize h₁.mem (P.poolOf h.pool.self a)) (Mem.read64_lt _ _)
    rw [← hcount a ha, hm]
    exact Mem.read64_write64_same _ _ hlt
  · rw [c3 c hc hne]
    exact hcount c hc
  · rw [hh]
    simp only [Mman.rest, Prod.mk.injEq] at hrest ⊢
    obtain ⟨r1, r2, r3, r4, r5, r6, r7⟩ := hrest
    exact ⟨r1, r2, congrArg f r3, r4, r5, r6, r7⟩

/-- Blocks may have been moved before. -/
theorem Tallied.after {bs bs' : List Block} {L L' : Nat → List Nat} {h₁ : Heap Mman}
    (ht : Tallied f h₁ (P.edit a bs L) a h' (P.edit a bs' L')) (hs : Steps h P h₁ (P.edit a bs L))
    (hl : Spans h P) (hp : Pooled h.mem h.pool.self P) (ha : a ∈ P.bases) :
    Tallied f h P a h' (P.edit a bs' L') := by
  have hself : h₁.pool.self = h.pool.self := Mman.rest_self hs.rest
  have hcount : ∀ c ∈ P.bases, poolAllocedSize h₁.mem (P.poolOf h.pool.self c) =
      poolAllocedSize h.mem (P.poolOf h.pool.self c) := fun c hc => hp.alloced_moved hl hs.moved hc
  obtain ⟨t1, t2, t3, t4, t5, t6, t7⟩ := ht
  rw [hself] at t2 t3 t4 t5
  have hrest := hs.rest
  refine ⟨t1, t2, fun w hw hout => ?_, ?_, fun c hc hne => ?_, ?_, t7.trans hs.delmem⟩
  · obtain ⟨h1, h2⟩ := hs.moved w hw
    obtain ⟨h3, h4⟩ := t3 w h2 hout
    exact ⟨h3.trans h1, h4⟩
  · exact t4.trans (congrArg f (hcount a ha))
  · exact (t5 c hc hne).trans (hcount c hc)
  · simp only [Mman.rest, Prod.mk.injEq] at hrest t6 ⊢
    obtain ⟨r1, r2, r3, r4, r5, r6, r7⟩ := hrest
    obtain ⟨q1, q2, q3, q4, q5, q6, q7⟩ := t6
    exact ⟨q1.trans r1, q2.trans r2, q3.trans (congrArg f r3), q4.trans r4, q5.trans r5,
      q6.trans r6, q7.trans r7⟩

/-! ## The end of an allocation -/

/-- **The block found becomes a live one** and is counted. -/
theorem mmanFinish_tallied (hl : Spans h P) (hp : Pooled h.mem h.pool.self P) (ha : a ∈ P.bases)
    (hbs : P.blocks a = pre ++ ⟨x, s, .hand⟩ :: post)
    (hflag : Flagged h.mem x s (P.size a = size2M))
    (h16 : n % 16 = 0) (hmin : 16 ≤ n) (hsz : n ≤ s) :
    ∃ L', Tallied (addW · (splitSize s n)) h P a (mmanFinish h x n)
      (P.edit a (pre ++ ⟨x, splitSize s n, .live⟩ :: (splitRest x s n ++ post)) L') := by
  obtain ⟨L', s1, f1⟩ := trySplitAndFree_steps hl ha hbs hflag h16 hmin hsz
  have hmem : (⟨x, splitSize s n, .hand⟩ : Block) ∈
      (P.edit a (pre ++ ⟨x, splitSize s n, .hand⟩ :: (splitRest x s n ++ post)) L').blocks a := by
    simp
  have hs1 : blkSize (Mman.trySplitAndFree h x n).2.mem x = splitSize s n :=
    s1.spans.blkSize_eq (b := ⟨x, splitSize s n, .hand⟩) ha hmem
  have hf1 : Fits x (splitSize s n) :=
    s1.spans.fitsOf (b := ⟨x, splitSize s n, .hand⟩) ha hmem
  have hflag1 := blkSetalloced_flagged hf1 f1
  obtain ⟨r1, r2⟩ := s1.spans.retag ha (Pic.edit_blocks _ _) (by simp : BlkState.live ≠ .free)
    (blkSetalloced_tagged hf1 (s1.spans.tags a ha _ hmem)) (fun _ => hflag1)
    (flagWrites_other hf1 _ _ _)
  rw [Pic.edit_edit, Pic.edit_lists] at r1 r2
  have s2 : Steps h P { (Mman.trySplitAndFree h x n).2 with
      mem := blkSetalloced (Mman.trySplitAndFree h x n).2.mem x (splitSize s n) }
      (P.edit a (pre ++ ⟨x, splitSize s n, .live⟩ :: (splitRest x s n ++ post)) L') :=
    ⟨r1, s1.moved.trans r2, s1.rest, s1.delmem⟩
  have hpool : blkPoolptr (blkSetalloced (Mman.trySplitAndFree h x n).2.mem x (splitSize s n)) x =
      P.poolOf h.pool.self a :=
    ((hp.moved hl s2.moved).edit _ _ _).poolptr r1 ha
      (b := ⟨x, splitSize s n, .live⟩) (by simp) hflag1
  have heq : mmanFinish h x n =
      { (Mman.trySplitAndFree h x n).2 with
        mem := (blkSetalloced (Mman.trySplitAndFree h x n).2.mem x (splitSize s n)).write64
          (P.poolOf h.pool.self a + 8)
          (addW (poolAllocedSize
            (blkSetalloced (Mman.trySplitAndFree h x n).2.mem x (splitSize s n))
            (P.poolOf h.pool.self a)) (splitSize s n))
        pool := { (Mman.trySplitAndFree h x n).2.pool with
          allocedSize := addW (Mman.trySplitAndFree h x n).2.pool.allocedSize
            (splitSize s n) } } := by
    unfold mmanFinish
    dsimp only
    rw [hs1, hpool]
  rw [heq]
  exact ⟨L', s2.tallied (f := (addW · (splitSize s n))) hl hp ha rfl
    (fun v _ => addW_lt v _) rfl rfl rfl⟩

/-- Nothing is cut off in front of a block that is used from its start. -/
theorem leadBlocks_zero (x : Nat) : leadBlocks x 0 = [] := rfl

/-- **What an allocation did** with a block of the area at `a`. -/
structure Supplied (r : Nat) (h : Heap Mman) (P : Pic) (p k a : Nat) (h' : Heap Mman) (P' : Pic) :
    Prop where
  base : a ∈ P.bases
  edit : ∃ bs L, P' = P.edit a bs L ∧ Takes r (P.blocks a) p k bs
  tallied : Tallied (addW · k) h P a h' P'

/-- **A search that found something** ends with a live block. -/
theorem Found.supplied {g : Mem → Nat → Bool} {r : Nat × Heap Mman} (hf : Found g h P r)
    (hr : r.1 ≠ 0) (hl : Spans h P) (hp : Pooled h.mem h.pool.self P) (h16 : n % 16 = 0)
    (hmin : 16 ≤ n) (hfit : ∀ x, g h.mem x → n ≤ blkSize h.mem x) :
    ∃ k a P', Supplied n h P r.1 k a (mmanFinish r.2 r.1 n) P' ∧
      ∃ s, (⟨r.1, s, .free⟩ : Block) ∈ P.blocks a := by
  cases hf with
  | nothing hno => exact absurd rfl hr
  | block a x s pre post L h' ha hbs hx hs hflag =>
      have hsize : blkSize h.mem x = s := hl.blkSize_eq (b := ⟨x, s, .free⟩) ha (by rw [hbs]; simp)
      have hle : n ≤ s := hsize ▸ hfit x hx
      have hself : h'.pool.self = h.pool.self := Mman.rest_self hs.rest
      have hp' : Pooled h'.mem h'.pool.self (P.edit a (pre ++ ⟨x, s, .hand⟩ :: post) L) := by
        rw [hself]
        exact (hp.moved hl hs.moved).edit _ _ _
      obtain ⟨L', ht⟩ := mmanFinish_tallied hs.spans hp' ha (Pic.edit_blocks _ _) hflag h16 hmin hle
      rw [Pic.edit_edit] at ht
      refine ⟨splitSize s n, a, _, ⟨ha, ⟨_, L', rfl, ?_⟩, ht.after hs hl hp ha⟩, s, by rw [hbs]; simp⟩
      have htake := Takes.intro (r := n) pre post x s x s hle
      rwa [Nat.sub_self, leadBlocks_zero, List.append_nil, ← hbs] at htake

/-! ## `mman_alloc` -/

/-- **The manager that an allocation found its block in**, in the area at `a`: as it was, or with
that area added. -/
inductive Stocked (h : Heap Mman) (P : Pic) (a : Nat) : Heap Mman → Pic → Prop where
  | same : Stocked h P a h P
  | grown (size : Nat) (g : Heap Mman) (hf : Fresh P h.pool.self a size)
      (he : Entered (logged h a size) P a size g) : Stocked h P a g (P.entered a size)

theorem Entered.self {g : Heap Mman} {c size : Nat} (he : Entered h P c size g) :
    g.pool.self = h.pool.self :=
  Mman.rest_self (q := { h.pool with size := addW h.pool.size size }) he.rest

/-- The block of the new area is in no other one. -/
theorem Entered.area_eq {g : Heap Mman} {c d size : Nat} {b : Block} (he : Entered h P c size g)
    (hd : d ∈ (P.entered c size).bases) (hb : b ∈ (P.entered c size).blocks d)
    (hx : b.ptr = c + 64) : d = c := by
  have hnew : (⟨c + 64, size - 80, .free⟩ : Block) ∈ (P.entered c size).blocks c := by
    rw [Pic.entered_blocks]
    exact List.mem_singleton_self _
  exact (he.spans.eq_of_ptr hd hb (Pic.mem_entered.mpr (.inl rfl)) hnew hx).1

/-- What a second search finds is the block of the new area. -/
theorem Entered.second {test : Mem → Nat → Bool} {r : Nat × Heap Mman} {size : Nat}
    (he : Entered h P c size h') (hl : Spans h P) (hf : Fresh P h.pool.self c size)
    (hno : ∀ x ∈ P.lists 8, ¬ test h.mem x)
    (hlocal : ∀ m m' : Mem, ∀ x, blkSize m x = blkSize m' x → test m x = test m' x)
    (hr : Mman.matchLargeBy test h' = some r) (h0 : r.1 ≠ 0) : r.1 = c + 64 := by
  obtain ⟨hmem, hfit⟩ := matchLargeBy_mem he.spans hr h0
  rw [Pic.entered_large] at hmem
  refine (List.mem_cons.mp hmem).resolve_right fun hold => hno _ hold ?_
  rwa [← hlocal _ _ _ (he.others hl hf hold)]

/-- The test of the plain search. -/
theorem le_of_sizeFits {m : Mem} (hf : sizeFits n m x) : n ≤ blkSize m x := by
  unfold sizeFits at hf
  simpa using hf

theorem sizeFits_local {m m' : Mem} (hs : blkSize m x = blkSize m' x) :
    sizeFits n m x = sizeFits n m' x := by
  unfold sizeFits
  rw [hs]

/-- **`mman_alloc`** answers with null and has done nothing, or takes a free block, in an area the
manager had or in a new one. -/
theorem mmanAlloc_spec {libc : Libc} {p : Nat} (hl : Spans h P) (hp : Pooled h.mem h.pool.self P)
    (hc : Conforming reqmem P h.pool.self) (hn : requestSize n < allocLargeBlkSize)
    (hmin : 16 ≤ requestSize n) (hr : mmanAlloc libc reqmem h n = some (p, h')) :
    (p = 0 ∧ h' = h) ∨ (p ≠ 0 ∧ ∃ g Q k a P',
      Stocked h P a g Q ∧ Supplied (requestSize n) g Q p k a h' P') := by
  have hlarge : allocLargeBlkSize = 16384 := rfl
  have h16 := requestSize_mod n
  obtain ⟨r, hmatch, hfound⟩ := matchAnyBy_found (f := sizeFits (requestSize n)) hl (requestSize n)
  rw [← matchAny_by] at hmatch
  obtain ⟨x, h₁⟩ := r
  rw [mmanAlloc, if_neg (Nat.not_le.mpr hn), hmatch] at hr
  simp only [Option.bind_eq_bind, Option.bind_some] at hr
  by_cases hx : x = 0
  · obtain ⟨heq, hnone⟩ := hfound.null hl hx
    obtain ⟨-, rfl⟩ := Prod.mk.inj heq
    rw [if_neg (not_not.mpr hx)] at hr
    rcases mmanReqmem_spec hl hp hc (n := requestSize n) (by omega) with
      hreq | ⟨c, g, hreq, hfresh, he⟩
    · rw [hreq] at hr
      obtain ⟨rfl, rfl⟩ := Prod.mk.inj (Option.some.inj hr)
      exact .inl ⟨rfl, rfl⟩
    · obtain ⟨q, hq, hfound', -⟩ := matchLargeBy_found (f := sizeFits (requestSize n)) he.spans
      rw [← matchLarge_eq] at hq
      rw [hreq] at hr
      simp only [Bool.not_true, Bool.false_eq_true, if_false, hq, Option.bind_some] at hr
      by_cases hq0 : q.1 = 0
      · rw [if_pos hq0] at hr
        exact absurd hr (by simp)
      · rw [if_neg hq0] at hr
        obtain ⟨rfl, rfl⟩ := Prod.mk.inj (Option.some.inj hr)
        obtain ⟨k, a, P', hs, t, ht⟩ := hfound'.supplied hq0 he.spans
          (he.self.symm ▸ he.pooled) h16 hmin fun _ => le_of_sizeFits
        rw [matchLarge_eq] at hq
        have hnew : q.1 = c + 64 := he.second (h := logged h₁ c _) hl hfresh hnone
          (fun _ _ _ => sizeFits_local) hq hq0
        obtain rfl : a = c := he.area_eq hs.base ht hnew
        exact .inr ⟨hq0, g, _, k, a, P', .grown _ g hfresh he, hs⟩
  · rw [if_pos hx] at hr
    obtain ⟨rfl, rfl⟩ := Prod.mk.inj (Option.some.inj hr)
    obtain ⟨k, a, P', hs, -⟩ := hfound.supplied hx hl hp h16 hmin fun _ => le_of_sizeFits
    exact .inr ⟨hx, h, P, k, a, P', .same, hs⟩

end IonOS.Alloc
