import IonOS.Alloc.Mman
import IonOS.Alloc.Resize

/-!
# Reallocation that fails

The four reallocation functions move a block by allocating, copying and releasing,
and none of them looks at what the allocation gave. When there is nothing to move
to, they copy to address zero, and would go on to release the block if that did
not fault. Only an alignment that is refused is noticed before anything happens.

The one block that is copied without a fault has a zero where its size should be.
That can only be a block with memory of its own, in front of which there is no
size at all, and its memory is then given back.
-/

namespace IonOS.Alloc

open IonOS.Lib IonOS.Libs

variable {a : Nat} {h g : Heap Mpool} {m : Mem} {s : PoolState} {p n align : Nat}

/-- **What a failed call owes**: null, and nothing has happened. -/
def Atomic {P : Type} (h : Heap P) (r : Option (Nat × Heap P)) : Prop := r = some (0, h)

/-! ## Pools -/

/-- The block behind `p` is free and makes up for what is missing. -/
def RoomBehind (m : Mem) (p n : Nat) : Prop :=
  NextFree m p ∧ requestSize n ≤ addW (addW (blkSize m p) 16) (blkSize m (blkNext m p))

/-- The block can be resized where it is. -/
def Stays (m : Mem) (p n : Nat) : Prop := requestSize n ≤ blkSize m p ∨ RoomBehind m p n

/-- No block can be obtained. -/
def NoBlock (h : Heap Mpool) (p n : Nat) : Prop :=
  ¬ Stays h.mem p n ∧ ∃ g, mpoolAlloc h (requestSize n) = some (0, g)

/-- No aligned block can be obtained. -/
def NoAlignedBlock (h : Heap Mpool) (p n align : Nat) : Prop :=
  Refused align ∨
    ¬ Stays h.mem p n ∧ ∃ g, mpoolAlignedAlloc h (requestSize n) align = some (0, g)

/-- **Nobody checks what the allocation gave.** -/
theorem reallocBy_failed {alloc : Heap Mpool → Nat → Option (Nat × Heap Mpool)}
    (hsize : blkSize h.mem p ≠ 0) (hstay : ¬ Stays h.mem p n)
    (ha : alloc h (requestSize n) = some (0, g)) : reallocBy alloc h p n = none := by
  obtain ⟨hgt, hroom⟩ := not_or.mp hstay
  have hgrow : ¬ (blkNext h.mem p ≠ 0 ∧ blkFreed h.mem (blkNext h.mem p) ∧
      requestSize n ≤ addW (addW (blkSize h.mem p) 16) (blkSize h.mem (blkNext h.mem p))) :=
    fun ⟨h1, h2, h3⟩ => hroom ⟨⟨h1, h2⟩, h3⟩
  unfold reallocBy
  dsimp only
  rw [if_neg hgt, if_neg hgrow, ha]
  exact if_pos ⟨rfl, hsize⟩

theorem mpoolRealloc_failed (hp : p ≠ 0) (hsize : blkSize h.mem p ≠ 0) (hno : NoBlock h p n) :
    ¬ Atomic h (mpoolRealloc h p n) := by
  obtain ⟨hstay, g, ha⟩ := hno
  rw [Atomic, mpoolRealloc_eq hp, reallocBy_failed hsize hstay ha]
  simp

theorem mpoolAlignedRealloc_failed (hp : p ≠ 0) (hsize : blkSize h.mem p ≠ 0)
    (hno : NoAlignedBlock h p n align) :
    Atomic h (mpoolAlignedRealloc h p n align) ↔ Refused align := by
  by_cases href : align &&& subW align 1 ≠ 0
  · refine iff_of_true ?_ href
    rw [Atomic, mpoolAlignedRealloc, if_neg hp, if_pos href]
  · obtain ⟨hstay, g, ha⟩ := hno.resolve_left href
    refine iff_of_false ?_ href
    by_cases hbig : align < 16
    · rw [mpoolAlignedAlloc, if_neg href, if_pos hbig] at ha
      rw [mpoolAlignedRealloc, if_neg hp, if_neg href, if_pos hbig]
      exact mpoolRealloc_failed hp hsize ⟨hstay, g, ha⟩
    · rw [Atomic, mpoolAlignedRealloc, if_neg hp, if_neg href, if_neg hbig,
        reallocBy_failed hsize hstay ha]
      simp

/-- A pointer held has a block of some size. -/
theorem Ungrown.block {size : Nat} (hu : Ungrown a size s) (hp : p ∈ s.live) :
    p ≠ 0 ∧ blkSize s.heap.mem p ≠ 0 := by
  obtain ⟨h, c, d, l, heq, hi, -⟩ := hu.hushed
  obtain ⟨g, live⟩ := s
  obtain rfl : g = loud h c d l := heq
  obtain ⟨bs, L, hs⟩ := hi.shows
  obtain ⟨b, hb, rfl, -⟩ := (hs.live_iff p).mp hp
  have hmin := (hs.laid.sizes b hb).2
  have hsize := hs.laid.blkSize_eq hb
  refine ⟨hi.nonnull hp, ?_⟩
  show blkSize h.mem b.ptr ≠ 0
  dsimp only at hsize
  omega

/-! ## Managers -/

namespace Mman

variable {libc : Libc} {reqmem : Nat → Nat} {h g : Heap Mman}

/-- A pointer held: an ordinary block, or one with memory of its own. -/
def Holds (h : Heap Mman) (p : Nat) : Prop :=
  p ≠ 0 ∧ (blkSize h.mem p ≠ 0 ∨
    p % size4k = 0 ∧ ∃ blk, blk ≠ 0 ∧ largeBlkFind h p = some blk)

/-- The block can be resized where it is, or is left as it is. -/
def Stays (m : Mem) (p n : Nat) : Prop :=
  requestSize n ≤ blkSize m p ∧ ¬ (p % size4k = 0 ∧ 2 * size4k ≤ blkSize m p - requestSize n) ∨
    p % size4k ≠ 0 ∧ RoomBehind m p n

/-- No block can be obtained. -/
def NoBlock (libc : Libc) (reqmem : Nat → Nat) (h : Heap Mman) (p n : Nat) : Prop :=
  ¬ Stays h.mem p n ∧ ∃ g, mmanAlloc libc reqmem h (requestSize n) = some (0, g)

/-- Nothing has changed, or memory has been asked for. -/
def Asked (h g : Heap Mman) : Prop := g = h ∨ h.pool.reqmem.length < g.pool.reqmem.length

/-- No aligned block can be obtained: memory is asked for in vain, if at all. -/
def NoAlignedBlock (libc : Libc) (reqmem : Nat → Nat) (h : Heap Mman) (p n align : Nat) : Prop :=
  Refused align ∨ ¬ Stays h.mem p n ∧
    ∃ g, mmanAlignedAlloc libc reqmem h (requestSize n) align = some (0, g) ∧ Asked h g

/-! ### Allocations that fail -/

theorem freelistsMatchLoop_null {f : Mem → Nat → Bool} {m m' : Mem} {lists lists' : Nat → Nat}
    {n id : Nat} (hr : freelistsMatchLoop f m lists n id = some (0, lists', m')) :
    lists' = lists ∧ m' = m := by
  induction n generalizing id with
  | zero =>
      simp only [freelistsMatchLoop, Option.some.injEq, Prod.mk.injEq, true_and] at hr
      exact ⟨hr.1.symm, hr.2.symm⟩
  | succ n ih =>
      rw [freelistsMatchLoop] at hr
      cases hf : Links.find (linksOf m).next 0 (f m) walkFuel (lists id) with
      | none => simp [hf] at hr
      | some ptr =>
          rw [hf] at hr
          dsimp only at hr
          by_cases h0 : ptr = 0
          · rw [if_pos h0] at hr
            exact ih hr
          · rw [if_neg h0] at hr
            exact absurd (Prod.mk.inj (Option.some.inj hr)).1 h0

theorem freelistsMatchBy_null {f : Mem → Nat → Bool} {m m' : Mem} {lists lists' : Nat → Nat}
    {size : Nat} (hr : freelistsMatchBy f m lists size = some (0, lists', m')) :
    lists' = lists ∧ m' = m := by
  unfold freelistsMatchBy at hr
  dsimp only at hr
  split at hr
  · simp only [Option.some.injEq, Prod.mk.injEq, true_and] at hr
    exact ⟨hr.1.symm, hr.2.symm⟩
  · exact freelistsMatchLoop_null hr

theorem freelistMatchBy_null {f : Mem → Nat → Bool} {m m' : Mem} {list list' : Nat}
    (hr : freelistMatchBy f m list = some (0, list', m')) : list' = list ∧ m' = m := by
  unfold freelistMatchBy at hr
  cases hf : Links.find (linksOf m).next 0 (f m) walkFuel list with
  | none => simp [hf] at hr
  | some ptr =>
      rw [hf] at hr
      dsimp only at hr
      by_cases h0 : ptr = 0
      · rw [if_pos h0] at hr
        simp only [Option.some.injEq, Prod.mk.injEq, true_and] at hr
        exact ⟨hr.1.symm, hr.2.symm⟩
      · rw [if_neg h0] at hr
        exact absurd (Prod.mk.inj (Option.some.inj hr)).1 h0

/-- Both searches, with what is looked for as an argument. -/
def matchBy (fits : Mem → Nat → Bool) (h : Heap Mman) (size : Nat) : Option (Nat × Heap Mman) := do
  let (ptr, lists, m) ← freelistsMatchBy fits h.mem h.pool.freed size
  let h := { h with mem := m, pool := { h.pool with freed := lists } }
  if ptr ≠ 0 then pure (ptr, h)
  else
    let (ptr, list, m) ← freelistMatchBy fits h.mem h.pool.largeBlk
    pure (ptr, { h with mem := m, pool := { h.pool with largeBlk := list } })

/-- A search that finds nothing changes nothing. -/
theorem matchBy_null {f : Mem → Nat → Bool} {size : Nat} (hr : matchBy f h size = some (0, g)) :
    g = h := by
  unfold matchBy at hr
  obtain ⟨⟨y, lists, m⟩, h1, hr⟩ := Option.bind_eq_some_iff.mp hr
  dsimp only at hr
  by_cases hy : y = 0
  · subst hy
    obtain ⟨rfl, rfl⟩ := freelistsMatchBy_null h1
    rw [if_neg (not_not.mpr rfl)] at hr
    obtain ⟨⟨z, list, m⟩, h2, hr⟩ := Option.bind_eq_some_iff.mp hr
    obtain ⟨rfl, rfl⟩ := Prod.mk.inj (Option.some.inj hr)
    obtain ⟨rfl, rfl⟩ := freelistMatchBy_null h2
    rfl
  · rw [if_pos hy] at hr
    exact absurd (Prod.mk.inj (Option.some.inj hr)).1 hy

theorem callReqmem_asked {size ptr : Nat} (hr : callReqmem reqmem h size = (ptr, g)) :
    ptr = 0 ∧ g = h ∨ ptr ≠ 0 ∧ h.pool.reqmem.length < g.pool.reqmem.length := by
  unfold callReqmem at hr
  dsimp only at hr
  by_cases h0 : reqmem size = 0
  · rw [if_pos h0] at hr
    obtain ⟨rfl, rfl⟩ := Prod.mk.inj hr
    exact .inl ⟨rfl, rfl⟩
  · rw [if_neg h0] at hr
    obtain ⟨rfl, rfl⟩ := Prod.mk.inj hr
    exact .inr ⟨h0, by simp⟩

theorem largeBlkPut_reqmem (libc : Libc) (h : Heap Mman) (ptr size : Nat) :
    (largeBlkPut libc h ptr size).2.pool.reqmem = h.pool.reqmem := by
  unfold largeBlkPut
  dsimp only
  split <;> rfl

/-- A block with memory of its own is asked for, and null only means that it was not had. -/
theorem largeBlkAlloc_asked {size ptr : Nat}
    (hr : largeBlkAlloc libc reqmem h size = some (ptr, g)) :
    ptr = 0 ∧ g = h ∨ h.pool.reqmem.length < g.pool.reqmem.length := by
  unfold largeBlkAlloc at hr
  dsimp only at hr
  split at hr
  · exact absurd hr (by simp)
  · cases hc : callReqmem reqmem h (padding4k size) with
    | mk y h1 =>
      rw [hc] at hr
      dsimp only at hr
      rcases callReqmem_asked hc with ⟨rfl, rfl⟩ | ⟨hy, hlong⟩
      · rw [if_pos rfl] at hr
        obtain ⟨rfl, rfl⟩ := Prod.mk.inj (Option.some.inj hr)
        exact .inl ⟨rfl, rfl⟩
      · rw [if_neg hy] at hr
        have hput := largeBlkPut_reqmem libc h1 y (padding4k size)
        rw [← hput] at hlong
        refine .inr ?_
        split at hr
        · split at hr
          · obtain ⟨-, rfl⟩ := Prod.mk.inj (Option.some.inj hr)
            exact hlong
          · exact absurd hr (by simp)
        · obtain ⟨-, rfl⟩ := Prod.mk.inj (Option.some.inj hr)
          exact hlong

/-- A new area that is not had changes nothing. -/
theorem mmanReqmem_null {size : Nat} (hr : mmanReqmem reqmem h size = (false, g)) : g = h := by
  unfold mmanReqmem at hr
  dsimp only at hr
  split at hr
  · exact (Prod.mk.inj hr).2.symm
  · split at hr
    · exact (Prod.mk.inj hr).2.symm
    · cases hc : callReqmem reqmem h
        (if size4k < addW size (sizeofMmanPool + 4 * 8) then size2M else size4k) with
      | mk y h1 =>
        rw [hc] at hr
        dsimp only at hr
        split at hr
        · rename_i hy
          rcases callReqmem_asked hc with ⟨-, rfl⟩ | ⟨hne, -⟩
          · exact (Prod.mk.inj hr).2.symm
          · exact absurd hy hne
        · exact absurd (Prod.mk.inj hr).1 (by simp)

/-- **An allocation that gives null**. -/
theorem mmanAlloc_null {size : Nat} (hr : mmanAlloc libc reqmem h size = some (0, g)) :
    Asked h g := by
  unfold mmanAlloc at hr
  dsimp only at hr
  split at hr
  · rcases largeBlkAlloc_asked hr with ⟨-, rfl⟩ | hlong
    · exact .inl rfl
    · exact .inr hlong
  · obtain ⟨⟨y, h1⟩, hmatch, hr⟩ := Option.bind_eq_some_iff.mp hr
    dsimp only at hr
    by_cases hy : y = 0
    · subst hy
      rw [matchBy_null hmatch, if_neg (not_not.mpr rfl)] at hr
      cases hc : mmanReqmem reqmem h (requestSize size) with
      | mk ok h2 =>
        rw [hc] at hr
        cases ok with
        | false =>
            obtain ⟨-, rfl⟩ := Prod.mk.inj (Option.some.inj hr)
            exact .inl (mmanReqmem_null hc)
        | true =>
            obtain ⟨⟨z, h3⟩, -, hr⟩ := Option.bind_eq_some_iff.mp hr
            dsimp only at hr
            split at hr
            · exact absurd hr (by simp)
            · rename_i hz
              exact absurd (Prod.mk.inj (Option.some.inj hr)).1 hz
    · rw [if_pos hy] at hr
      exact absurd (Prod.mk.inj (Option.some.inj hr)).1 hy

/-! ### Releases ask for nothing -/

theorem detach_reqmem (h : Heap Mman) (x : Nat) :
    (detach h x).pool.reqmem = h.pool.reqmem := by
  unfold detach
  dsimp only
  split <;> rfl

theorem doFree_reqmem (h : Heap Mman) (x : Nat) :
    (doFree h x).pool.reqmem = h.pool.reqmem := by
  unfold doFree putLarge
  dsimp only
  split <;> rfl

theorem blkTrymerge_reqmem (h : Heap Mman) (x : Nat) :
    (blkTrymerge detach h x).2.pool.reqmem = h.pool.reqmem := by
  have hnext : ∀ (h : Heap Mman) (x : Nat),
      (blkMergenext detach h x).2.pool.reqmem = h.pool.reqmem := fun h x =>
    detach_reqmem h (blkNext h.mem x)
  have hprev : ∀ (h : Heap Mman) (x : Nat),
      (blkMergeprev detach h x).2.pool.reqmem = h.pool.reqmem := fun h x =>
    detach_reqmem h (blkPrev h.mem x)
  unfold blkTrymerge
  dsimp only
  split <;> split <;> split <;> simp [hnext, hprev]

theorem mmanDelmem_reqmem {pool : Nat} {b : Bool} (hr : mmanDelmem h pool = some (b, g)) :
    g.pool.reqmem = h.pool.reqmem := by
  unfold mmanDelmem at hr
  split at hr
  · rw [← (Prod.mk.inj (Option.some.inj hr)).2]
  · obtain ⟨prev, -, hr⟩ := Option.bind_eq_some_iff.mp hr
    split at hr
    · rw [← (Prod.mk.inj (Option.some.inj hr)).2]
    · rw [← (Prod.mk.inj (Option.some.inj hr)).2]

theorem mmanReleaseEnd_reqmem {pool x : Nat} (hr : mmanReleaseEnd h pool x = some g) :
    g.pool.reqmem = h.pool.reqmem := by
  unfold mmanReleaseEnd at hr
  split at hr
  · obtain ⟨⟨gone, h1⟩, hdel, hr⟩ := Option.bind_eq_some_iff.mp hr
    have hkeep := mmanDelmem_reqmem hdel
    rw [← Option.some.inj hr]
    split
    · exact hkeep
    · exact (doFree_reqmem _ _).trans hkeep
  · rw [← Option.some.inj hr]
    exact doFree_reqmem _ _

theorem mmanRelease_reqmem {x : Nat} (hr : mmanRelease h x = some g) :
    g.pool.reqmem = h.pool.reqmem :=
  (mmanReleaseEnd_reqmem hr).trans (blkTrymerge_reqmem (debit h x) x)

theorem largeBlkFree_reqmem {x : Nat} {b : Bool} (hr : largeBlkFree libc h x = some (b, g)) :
    g.pool.reqmem = h.pool.reqmem := by
  unfold largeBlkFree at hr
  obtain ⟨blk, -, hr⟩ := Option.bind_eq_some_iff.mp hr
  split at hr
  · rw [← (Prod.mk.inj (Option.some.inj hr)).2]
  · split at hr
    · exact absurd hr (by simp)
    · rw [← (Prod.mk.inj (Option.some.inj hr)).2]

theorem mmanFree_reqmem {x : Nat} (hr : mmanFree libc h x = some g) :
    g.pool.reqmem = h.pool.reqmem := by
  unfold mmanFree at hr
  split at hr
  · rw [← Option.some.inj hr]
  · split at hr
    · obtain ⟨⟨gone, h1⟩, hfree, hr⟩ := Option.bind_eq_some_iff.mp hr
      have hkeep := largeBlkFree_reqmem hfree
      dsimp only at hr
      split at hr
      · rw [← Option.some.inj hr]
        exact hkeep
      · exact (mmanRelease_reqmem hr).trans hkeep
    · exact mmanRelease_reqmem hr

/-- A block with memory of its own goes back to where it came from. -/
theorem mmanFree_large {blk : Nat} (hp : p ≠ 0) (hpage : p % size4k = 0) (hblk : blk ≠ 0)
    (hfind : largeBlkFind h p = some blk) (hr : mmanFree libc h p = some g) :
    h.delmem.length < g.delmem.length := by
  rw [mmanFree, if_neg hp, if_pos hpage] at hr
  obtain ⟨⟨gone, h1⟩, hfree, hr⟩ := Option.bind_eq_some_iff.mp hr
  unfold largeBlkFree at hfree
  rw [hfind, Option.bind_eq_bind, Option.bind_some, if_neg hblk] at hfree
  split at hfree
  · exact absurd hfree (by simp)
  · obtain ⟨rfl, rfl⟩ := Prod.mk.inj (Option.some.inj hfree)
    obtain rfl := Option.some.inj hr
    simp

/-! ### Moving to nowhere -/

/-- **Nobody checks what the allocation gave.** -/
theorem mmanReallocBy_failed {alloc : Heap Mman → Nat → Option (Nat × Heap Mman)}
    (hheld : Holds h p) (hstay : ¬ Stays h.mem p n)
    (ha : alloc h (requestSize n) = some (0, g)) (hasked : Asked h g) :
    ¬ Atomic h (mmanReallocBy alloc libc h p n) := by
  obtain ⟨hp, hsize⟩ := hheld
  obtain ⟨hfit, hroom⟩ := not_or.mp hstay
  have hgrow : ¬ (p % size4k ≠ 0 ∧ blkNext h.mem p ≠ 0 ∧ blkFreed h.mem (blkNext h.mem p) ∧
      requestSize n ≤ addW (addW (blkSize h.mem p) 16) (blkSize h.mem (blkNext h.mem p))) :=
    fun ⟨h1, h2, h3, h4⟩ => hroom ⟨h1, ⟨h2, h3⟩, h4⟩
  unfold mmanReallocBy
  dsimp only
  rw [if_neg hfit, if_neg hgrow, ha, Option.bind_eq_bind, Option.bind_some]
  by_cases h0 : blkSize h.mem p ≠ 0
  · rw [if_pos ⟨rfl, h0⟩]
    simp [Atomic]
  · -- nothing is copied, and the memory goes back
    rw [if_neg fun hc => h0 hc.2, not_not.mp h0]
    obtain ⟨hpage, blk, hblk, hfind⟩ := hsize.resolve_left h0
    rintro hatomic
    obtain ⟨h1, hfree, heq⟩ := Option.bind_eq_some_iff.mp hatomic
    obtain ⟨-, rfl⟩ := Prod.mk.inj (Option.some.inj heq)
    rcases hasked with rfl | hlong
    · have := mmanFree_large hp hpage hblk hfind hfree
      exact Nat.lt_irrefl _ this
    · have hkeep := mmanFree_reqmem hfree
      dsimp only at hkeep
      rw [hkeep] at hlong
      exact Nat.lt_irrefl _ hlong

theorem mmanRealloc_failed (hheld : Holds h p) (hno : NoBlock libc reqmem h p n) :
    ¬ Atomic h (mmanRealloc libc reqmem h p n) := by
  obtain ⟨hstay, g, ha⟩ := hno
  rw [mmanRealloc, if_neg hheld.1]
  exact mmanReallocBy_failed hheld hstay ha (mmanAlloc_null ha)

theorem mmanAlignedRealloc_failed (hheld : Holds h p)
    (hno : NoAlignedBlock libc reqmem h p n align) :
    Atomic h (mmanAlignedRealloc libc reqmem h p n align) ↔ Refused align := by
  by_cases href : align &&& subW align 1 ≠ 0
  · refine iff_of_true ?_ href
    rw [Atomic, mmanAlignedRealloc, if_neg hheld.1, if_pos href]
  · obtain ⟨hstay, g, ha, hasked⟩ := hno.resolve_left href
    refine iff_of_false ?_ href
    by_cases hbig : align < 16
    · rw [mmanAlignedAlloc, if_neg href, if_pos hbig] at ha
      rw [mmanAlignedRealloc, if_neg hheld.1, if_neg href, if_pos hbig]
      exact mmanRealloc_failed hheld ⟨hstay, g, ha⟩
    · rw [mmanAlignedRealloc, if_neg hheld.1, if_neg href, if_neg hbig]
      exact mmanReallocBy_failed hheld hstay ha hasked

end Mman

/--
**A reallocation that fails is atomic just if it is refused for its alignment.**

For every consistent pool and every manager, every pointer held, and every size
and alignment for which no block can be obtained. Without an alignment it never
is.
-/
theorem realloc_atomic_iff {size : Nat} :
    (∀ s, Ungrown a size s → ∀ p ∈ s.live, ∀ n,
      (NoBlock s.heap p n → ¬ Atomic s.heap (mpoolRealloc s.heap p n)) ∧
      ∀ align, NoAlignedBlock s.heap p n align →
        (Atomic s.heap (mpoolAlignedRealloc s.heap p n align) ↔ Refused align)) ∧
    ∀ libc reqmem (h : Heap Mman) p, Mman.Holds h p → ∀ n,
      (Mman.NoBlock libc reqmem h p n → ¬ Atomic h (mmanRealloc libc reqmem h p n)) ∧
      ∀ align, Mman.NoAlignedBlock libc reqmem h p n align →
        (Atomic h (mmanAlignedRealloc libc reqmem h p n align) ↔ Refused align) := by
  refine ⟨fun s hu p hp n => ?_, fun libc reqmem h p hheld n => ?_⟩
  · obtain ⟨hp0, hsize⟩ := hu.block hp
    exact ⟨mpoolRealloc_failed hp0 hsize, fun align => mpoolAlignedRealloc_failed hp0 hsize⟩
  · exact ⟨Mman.mmanRealloc_failed hheld, fun align => Mman.mmanAlignedRealloc_failed hheld⟩

/-- The smallest pool, full, has no more to give. -/
theorem fullHeap_noBlock : NoBlock fullHeap 65552 20000 := by
  have hblk : blkSize fullHeap.mem 65552 = 16384 ∧ blkNext fullHeap.mem 65552 = 0 := by
    decide +kernel
  have halloc : (mpoolAlloc fullHeap (requestSize 20000)).map Prod.fst = some 0 := by
    decide +kernel
  obtain ⟨⟨q, g⟩, hr, rfl⟩ := Option.map_eq_some_iff.mp halloc
  refine ⟨?_, g, hr⟩
  rintro (hle | ⟨⟨hne, -⟩, -⟩)
  · rw [hblk.1] at hle
    exact absurd hle (by decide)
  · exact hne hblk.2

theorem fullHeap_ungrown : Ungrown 65536 16416 ⟨fullHeap, [65552]⟩ :=
  ungrown_reachable fullHeap_place (fullHeap_reachable.mono fun _ _ h => .pool h)

/-- Refusing an alignment of 24 is atomic in the smallest pool. -/
theorem realloc_atomic_refused : Atomic fullHeap (mpoolAlignedRealloc fullHeap 65552 20000 24) := by
  have href : Refused 24 := by decide
  exact ((realloc_atomic_iff.1 _ fullHeap_ungrown 65552 (by simp) 20000).2 24 (.inl href)).mpr href

/-- **A reallocation that cannot be had**: the only block of a full pool, from 16384 bytes to
20000. -/
theorem realloc_not_atomic : Reachable (PoolStart 65536 16416) PoolStep ⟨fullHeap, [65552]⟩ ∧
    NoBlock fullHeap 65552 20000 ∧ mpoolRealloc fullHeap 65552 20000 = none ∧
    ¬ Atomic fullHeap (mpoolRealloc fullHeap 65552 20000) := by
  obtain ⟨hstay, g, ha⟩ := fullHeap_noBlock
  obtain ⟨hp, hsize⟩ := fullHeap_ungrown.block (p := 65552) (by simp)
  have hnone := reallocBy_failed hsize hstay ha
  rw [← mpoolRealloc_eq hp] at hnone
  exact ⟨fullHeap_reachable, fullHeap_noBlock, hnone,
    mpoolRealloc_failed hp hsize fullHeap_noBlock⟩

end IonOS.Alloc
