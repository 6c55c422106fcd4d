import IonOS.Alloc.Coalesce

/-!
# Growing the heap

When no free block fits, `mpool_reqmem` asks the callback for memory behind the
area. The answer the callback owes is the address it was asked for, the end of
the area; the code compares the answer with the *start* of the area and refuses
it. So a pool with a callback that keeps its contract never grows, and apart from
the memory it hands straight back it does exactly what a pool without one does.

That is a simulation: `loud` adds callbacks and a log to a pool without, and
every operation commutes with it. The facts about pools without callbacks carry
over.
-/

namespace IonOS.Alloc

open IonOS.Lib IonOS.Libs

variable {a e : Nat} {h : Heap Mpool} {c : Option (Nat → Nat → Nat)} {d : Bool}
  {l : List (Nat × Nat)} {f : Mem → Nat → Bool} {s : PoolState} {n p q x align : Nat}

/-! ## Adding callbacks -/

/-- A heap with these callbacks and this log. -/
def loud (h : Heap Mpool) (c : Option (Nat → Nat → Nat)) (d : Bool) (l : List (Nat × Nat)) :
    Heap Mpool :=
  { h with pool := { h.pool with cbReqmem := c, cbDelmem := d }, delmem := l }

@[simp] theorem loud_mem : (loud h c d l).mem = h.mem := rfl

/-- **The documented contract** of `cb_reqmem`: the address asked for, or null. -/
def Conforms (c : Option (Nat → Nat → Nat)) (tail : Nat) : Prop :=
  ∀ f, c = some f → ∀ n, f tail n = tail ∨ f tail n = 0

/-- Where the pool's memory is. -/
def Mpool.spot (p : Mpool) : Nat × Nat := (p.ptr, p.size)

theorem Mpool.rest_spot {p q : Mpool} (h : p.rest = q.rest) : p.spot = q.spot := by
  simp only [Mpool.rest, Prod.mk.injEq] at h
  simp only [Mpool.spot, h.1, h.2.1]

/-! ## Operations that do not ask for memory -/

theorem detach_loud : detach (loud h c d l) x = loud (detach h x) c d l := by
  unfold detach
  dsimp only [loud]
  split <;> rfl

theorem doFree_loud : doFree (loud h c d l) x = loud (doFree h x) c d l := by
  unfold doFree putLarge
  dsimp only [loud]
  split <;> rfl

theorem trySplitAndFree_loud :
    (trySplitAndFree (loud h c d l) x n).2 = loud (trySplitAndFree h x n).2 c d l := by
  unfold trySplitAndFree
  rw [loud_mem]
  split
  · exact doFree_loud (h := { h with mem := (blkSplit h.mem x n).2 })
  · rfl

theorem finishAlloc_loud : finishAlloc (loud h c d l) x n = loud (finishAlloc h x n) c d l := by
  unfold finishAlloc
  dsimp only
  rw [trySplitAndFree_loud]
  generalize (trySplitAndFree h x n).2 = g
  rfl

theorem cutLead_loud :
    cutLead (loud h c d l) x n = ((cutLead h x n).1, loud (cutLead h x n).2 c d l) := by
  unfold cutLead
  rw [loud_mem]
  split
  · exact Prod.ext rfl (doFree_loud (h := { h with mem := (blkSplit h.mem x (subW n 16)).2 }))
  · rfl

theorem placeAligned_loud {offset : Nat} : placeAligned (loud h c d l) x n offset =
    ((placeAligned h x n offset).1, loud (placeAligned h x n offset).2 c d l) := by
  unfold placeAligned
  rw [cutLead_loud]
  generalize cutLead h x offset = r
  exact Prod.ext rfl finishAlloc_loud

theorem blkMergenext_loud : blkMergenext detach (loud h c d l) x =
    ((blkMergenext detach h x).1, loud (blkMergenext detach h x).2 c d l) := by
  unfold blkMergenext
  dsimp only
  rw [loud_mem, detach_loud]
  rfl

theorem blkMergeprev_loud : blkMergeprev detach (loud h c d l) x =
    ((blkMergeprev detach h x).1, loud (blkMergeprev detach h x).2 c d l) := by
  unfold blkMergeprev
  dsimp only
  rw [loud_mem, detach_loud]
  rfl

/-- The two merges of `blk_trymerge`, one after the other. -/
def tryNext (h : Heap Mpool) (x : Nat) : Nat × Heap Mpool :=
  if nextFree h.mem x (blkSize h.mem x) then blkMergenext detach h x else (x, h)

def tryPrev (r : Nat × Heap Mpool) : Nat × Heap Mpool :=
  if prevFree r.2.mem r.1 then blkMergeprev detach r.2 r.1 else r

theorem blkTrymerge_eq (h : Heap Mpool) (x : Nat) : blkTrymerge detach h x =
    ((tryPrev (tryNext h x)).1,
      if blkAreaIs2M h.mem x then
        { (tryPrev (tryNext h x)).2 with
          mem := blkSetArea2M (tryPrev (tryNext h x)).2.mem (tryPrev (tryNext h x)).1
            (blkSize (tryPrev (tryNext h x)).2.mem (tryPrev (tryNext h x)).1) }
      else (tryPrev (tryNext h x)).2) := rfl

theorem tryNext_loud :
    tryNext (loud h c d l) x = ((tryNext h x).1, loud (tryNext h x).2 c d l) := by
  unfold tryNext
  rw [loud_mem]
  split
  · exact blkMergenext_loud
  · rfl

theorem tryPrev_loud {g : Heap Mpool} :
    tryPrev (x, loud g c d l) = ((tryPrev (x, g)).1, loud (tryPrev (x, g)).2 c d l) := by
  unfold tryPrev
  dsimp only
  rw [loud_mem]
  split
  · exact blkMergeprev_loud
  · rfl

theorem blkTrymerge_loud : blkTrymerge detach (loud h c d l) x =
    ((blkTrymerge detach h x).1, loud (blkTrymerge detach h x).2 c d l) := by
  rw [blkTrymerge_eq, blkTrymerge_eq, tryNext_loud, tryPrev_loud]
  dsimp only
  rw [loud_mem]
  split
  · rfl
  · rfl

theorem mpoolFree_loud : mpoolFree (loud h c d l) x = loud (mpoolFree h x) c d l := by
  by_cases h0 : x = 0
  · unfold mpoolFree
    rw [if_pos h0, if_pos h0]
  · have heq : ∀ h : Heap Mpool, mpoolFree h x = doFree
        (blkTrymerge detach { h with pool := h.pool.debit (blkSize h.mem x) } x).2
        (blkTrymerge detach { h with pool := h.pool.debit (blkSize h.mem x) } x).1 := by
      intro h
      unfold mpoolFree
      rw [if_neg h0]
      rfl
    have hdebit : { loud h c d l with
        pool := (loud h c d l).pool.debit (blkSize (loud h c d l).mem x) } =
        loud { h with pool := h.pool.debit (blkSize h.mem x) } c d l := rfl
    rw [heq, heq h, hdebit, blkTrymerge_loud]
    exact doFree_loud

/-! ## Asking for memory -/

/-- An answer other than the start of the area is refused. -/
theorem mpoolReqmem_refused {g : Nat → Nat → Nat} (hcb : h.pool.cbReqmem = some g)
    (hmem : g (addW h.pool.ptr h.pool.size) (padding16k n) = 0 ∨
      g (addW h.pool.ptr h.pool.size) (padding16k n) ≠ h.pool.ptr) :
    ∃ l', mpoolReqmem h n = some (false, { h with delmem := l' }) := by
  rw [mpoolReqmem, hcb]
  by_cases h0 : g (addW h.pool.ptr h.pool.size) (padding16k n) = 0
  · exact ⟨h.delmem, if_pos h0⟩
  · have hne := hmem.resolve_left h0
    by_cases hd : h.pool.cbDelmem = true
    · refine ⟨h.delmem ++ [(g (addW h.pool.ptr h.pool.size) (padding16k n), padding16k n)], ?_⟩
      exact (if_neg h0).trans ((if_pos hne).trans (by rw [if_pos hd]))
    · exact ⟨h.delmem, (if_neg h0).trans ((if_pos hne).trans (by rw [if_neg hd]))⟩

/-- **So is what the contract asks for**: it is the end of the area and not its start. -/
theorem mpoolReqmem_loud (hc : Conforms c (addW h.pool.ptr h.pool.size))
    (hne : addW h.pool.ptr h.pool.size ≠ h.pool.ptr) (n : Nat) :
    ∃ l', mpoolReqmem (loud h c d l) n = some (false, loud h c d l') := by
  cases c with
  | none => exact ⟨l, rfl⟩
  | some g =>
      refine mpoolReqmem_refused (h := loud h (some g) d l) rfl ?_
      rcases hc g rfl (padding16k n) with ht | h0
      · exact .inr (by rw [show (loud h (some g) d l).pool.ptr = h.pool.ptr from rfl]; rwa [← ht] at hne)
      · exact .inl h0

theorem matchAny_spot {size : Nat} {r : Nat × Heap Mpool}
    (hr : matchAny f h size = some r) :
    r.2.pool.spot = h.pool.spot ∧ r.2.pool.cbReqmem = h.pool.cbReqmem := by
  unfold matchAny at hr
  obtain ⟨⟨y, lists, m⟩, -, hr⟩ := Option.bind_eq_some_iff.mp hr
  dsimp only at hr
  split at hr
  · obtain rfl := Option.some.inj hr
    exact ⟨rfl, rfl⟩
  · obtain ⟨⟨z, list, m'⟩, -, hr⟩ := Option.bind_eq_some_iff.mp hr
    obtain rfl := Option.some.inj hr
    exact ⟨rfl, rfl⟩

theorem matchAny_loud {size : Nat} : matchAny f (loud h c d l) size =
    (matchAny f h size).map fun r => (r.1, loud r.2 c d l) := by
  unfold matchAny
  dsimp only [loud]
  cases freelistsMatchBy f h.mem h.pool.freed size with
  | none => rfl
  | some r =>
      obtain ⟨y, lists, m⟩ := r
      simp only [Option.bind_eq_bind, Option.bind_some]
      split
      · rfl
      · cases freelistMatchBy f m h.pool.largeBlk with
        | none => rfl
        | some r => rfl

/-- A pool that may ask, is refused, and has something other than its start at its end. -/
structure Stuck (c : Option (Nat → Nat → Nat)) (p : Mpool) : Prop where
  conforms : Conforms c (addW p.ptr p.size)
  apart : addW p.ptr p.size ≠ p.ptr
  quiet : p.cbReqmem = none

theorem Stuck.of_spot {p q : Mpool} (h : Stuck c p) (hs : q.spot = p.spot)
    (hcb : q.cbReqmem = p.cbReqmem) : Stuck c q := by
  obtain ⟨h1, h2⟩ := Prod.mk.inj hs
  obtain ⟨h3, h4, h5⟩ := h
  exact ⟨by rwa [h1, h2], by rwa [h1, h2], hcb.trans h5⟩

theorem matchOrReqmem_loud (hs : Stuck c h.pool) (size want : Nat) :
    ∃ l', matchOrReqmem f (loud h c d l) size want =
      (matchOrReqmem f h size want).map fun r => (r.1, loud r.2 c d l') := by
  unfold matchOrReqmem
  rw [matchAny_loud]
  cases hm : matchAny f h size with
  | none => exact ⟨l, rfl⟩
  | some r =>
      obtain ⟨y, g⟩ := r
      obtain ⟨hspot, hcb⟩ := matchAny_spot hm
      have hstuck := hs.of_spot hspot hcb
      simp only [Option.map_some, Option.bind_eq_bind, Option.bind_some]
      by_cases hy : y = 0
      · have hquiet : mpoolReqmem g want = some (false, g) := by
          rw [mpoolReqmem, hstuck.quiet]
        obtain ⟨l', hreq⟩ := mpoolReqmem_loud (d := d) (l := l) hstuck.conforms hstuck.apart want
        rw [if_neg (not_not.mpr hy), if_neg (not_not.mpr hy), hquiet, hreq]
        exact ⟨l', rfl⟩
      · rw [if_pos hy, if_pos hy]
        exact ⟨l, rfl⟩

theorem mpoolAlloc_loud (hs : Stuck c h.pool) (n : Nat) :
    ∃ l', mpoolAlloc (loud h c d l) n =
      (mpoolAlloc h n).map fun r => (r.1, loud r.2 c d l') := by
  obtain ⟨l', hm⟩ := matchOrReqmem_loud (f := sizeFits (requestSize n)) (d := d) (l := l) hs
    (requestSize n) (requestSize n)
  refine ⟨l', ?_⟩
  unfold mpoolAlloc
  dsimp only
  rw [hm]
  cases matchOrReqmem (sizeFits (requestSize n)) h (requestSize n) (requestSize n) with
  | none => rfl
  | some r =>
      obtain ⟨y, g⟩ := r
      simp only [Option.map_some, Option.bind_eq_bind, Option.bind_some]
      split
      · rfl
      · rw [finishAlloc_loud]
        rfl

theorem mpoolAlignedAlloc_loud (hs : Stuck c h.pool) (n align : Nat) :
    ∃ l', mpoolAlignedAlloc (loud h c d l) n align =
      (mpoolAlignedAlloc h n align).map fun r => (r.1, loud r.2 c d l') := by
  unfold mpoolAlignedAlloc
  split
  · exact ⟨l, rfl⟩
  split
  · exact mpoolAlloc_loud hs n
  obtain ⟨l', hm⟩ := matchOrReqmem_loud (f := alignedFits (requestSize n) align) (d := d) (l := l)
    hs (requestSize n) (addW (requestSize n) align)
  refine ⟨l', ?_⟩
  dsimp only
  rw [hm]
  cases matchOrReqmem (alignedFits (requestSize n) align) h (requestSize n)
      (addW (requestSize n) align) with
  | none => rfl
  | some r =>
      obtain ⟨y, g⟩ := r
      simp only [Option.map_some, Option.bind_eq_bind, Option.bind_some]
      split
      · rfl
      · rw [placeAligned_loud]
        rfl

theorem reallocBy_loud {alloc : Heap Mpool → Nat → Option (Nat × Heap Mpool)}
    (ha : ∀ r, ∃ l', alloc (loud h c d l) r = (alloc h r).map fun r => (r.1, loud r.2 c d l'))
    (x n : Nat) : ∃ l', reallocBy alloc (loud h c d l) x n =
      (reallocBy alloc h x n).map fun r => (r.1, loud r.2 c d l') := by
  unfold reallocBy
  dsimp only
  rw [loud_mem]
  split
  · exact ⟨l, by rw [trySplitAndFree_loud]; rfl⟩
  split
  · exact ⟨l, by rw [blkMergenext_loud]; dsimp only; rw [trySplitAndFree_loud]; rfl⟩
  obtain ⟨l', hal⟩ := ha (requestSize n)
  refine ⟨l', ?_⟩
  rw [hal]
  cases alloc h (requestSize n) with
  | none => rfl
  | some r =>
      obtain ⟨y, g⟩ := r
      simp only [Option.map_some, Option.bind_eq_bind, Option.bind_some]
      split
      · rfl
      · have hf := mpoolFree_loud (h := { g with mem := memcpy g.mem y x (blkSize h.mem x) })
          (c := c) (d := d) (l := l') (x := x)
        exact congrArg (fun g => some (y, g)) hf

theorem mpoolRealloc_loud (hs : Stuck c h.pool) (x n : Nat) :
    ∃ l', mpoolRealloc (loud h c d l) x n =
      (mpoolRealloc h x n).map fun r => (r.1, loud r.2 c d l') := by
  by_cases h0 : x = 0
  · unfold mpoolRealloc
    rw [if_pos h0, if_pos h0]
    exact mpoolAlloc_loud hs n
  · rw [mpoolRealloc_eq h0, mpoolRealloc_eq h0]
    exact reallocBy_loud (mpoolAlloc_loud hs) x n

theorem mpoolAlignedRealloc_loud (hs : Stuck c h.pool) (x n align : Nat) :
    ∃ l', mpoolAlignedRealloc (loud h c d l) x n align =
      (mpoolAlignedRealloc h x n align).map fun r => (r.1, loud r.2 c d l') := by
  unfold mpoolAlignedRealloc
  split
  · exact mpoolAlignedAlloc_loud hs n align
  split
  · exact ⟨l, rfl⟩
  split
  · exact mpoolRealloc_loud hs x n
  · exact reallocBy_loud (fun r => mpoolAlignedAlloc_loud hs r align) x n

/-! ## Runs with callbacks -/

/-- What the user of a pool can do who may also set callbacks that keep their contract. -/
inductive CallbackStep : PoolState → PoolState → Prop where
  | pool {s t : PoolState} (hs : PoolStep s t) : CallbackStep s t
  /-- `mpool_setcb`. -/
  | setcb {s : PoolState} {reqmem : Option (Nat → Nat → Nat)} {delmem : Bool}
      (hc : Conforms reqmem (addW s.heap.pool.ptr s.heap.pool.size)) :
      CallbackStep s ⟨mpoolSetcb s.heap reqmem delmem, s.live⟩

/-- **A pool that never grew**: without its callbacks it is an ordinary pool of its first size. -/
structure Ungrown (a size : Nat) (s : PoolState) : Prop where
  hushed : ∃ h c d l, s.heap = loud h c d l ∧ Inv a (a + size) ⟨h, s.live⟩ ∧
    Stuck c h.pool ∧ h.pool.spot = (a, size)

theorem Allocated.spot {bs bs' : List Block} {L' : Nat → List Nat} {r k : Nat} {h' : Heap Mpool}
    (ha : Allocated a e h bs r p h' k bs' L') : h'.pool.spot = h.pool.spot :=
  Mpool.rest_spot (q := h.pool.credit k) ha.rest

theorem Freed.spot {bs bs' : List Block} {L' : Nat → List Nat} {k : Nat} {h' : Heap Mpool}
    (hf : Freed a e h bs p k h' bs' L') : h'.pool.spot = h.pool.spot :=
  Mpool.rest_spot (q := h.pool.debit k) hf.rest

theorem alloc_spot {s : PoolState} (hi : Inv a e s) (hn : n ≤ 2 ^ 64 - 16)
    (hr : mpoolAlloc s.heap n = some (p, h)) : h.pool.spot = s.heap.pool.spot := by
  obtain ⟨bs, L, hs⟩ := hi.shows
  rcases mpoolAlloc_laid hs.laid hi.quiet hn with ⟨-, hr'⟩ | ⟨p', h', k, bs', L', hr', ha⟩
  · rw [(Prod.mk.inj (Option.some.inj (hr'.symm.trans hr))).2]
  · rw [← (Prod.mk.inj (Option.some.inj (hr'.symm.trans hr))).2]
    exact ha.spot

theorem realloc_spot {s : PoolState} (hi : Inv a e s) (hp : p ∈ s.live) (hn : n ≤ 2 ^ 64 - 16)
    (hr : mpoolRealloc s.heap p n = some (q, h)) : h.pool.spot = s.heap.pool.spot := by
  obtain ⟨bs, L, hs⟩ := hi.shows
  obtain ⟨pre, k, post, rfl⟩ := hs.block hp
  have hlow := (hs.laid.fitsOf (b := ⟨p, k, .live⟩) (by simp)).low
  dsimp only at hlow
  rw [mpoolRealloc_eq (by omega)] at hr
  rcases reallocBy_cases hs.laid hs.settled hn (mpoolAlloc_again hs.laid hi.quiet hn) with
    ⟨-, h', k', bs', L', hr', hres⟩ | ⟨-, -, hr'⟩ | ⟨-, q', h1, k', bs1, L1, h', bs', L', -, hr', hrel⟩
  · rw [← (Prod.mk.inj (Option.some.inj (hr'.symm.trans hr))).2]
    exact Mpool.rest_spot hres.rest
  · exact absurd (hr'.symm.trans hr) (by simp)
  · rw [← (Prod.mk.inj (Option.some.inj (hr'.symm.trans hr))).2]
    exact hrel.freed.spot.trans hrel.allocated.spot

theorem ungrown_init {pool size : Nat} (hplace : PoolPlace pool a size)
    (hs : PoolStart a size s) : Ungrown a size s := by
  have hi := inv_reachable hplace (.init hs)
  have hspot : s.heap.pool.spot = (a, size) :=
    congrArg (fun r => (r.1, r.2.1)) (start_rest hplace hs)
  obtain ⟨hptr, hsize⟩ := Prod.mk.inj hspot
  refine ⟨s.heap, none, s.heap.pool.cbDelmem, s.heap.delmem, ?_, hi, ⟨nofun, ?_, hi.quiet⟩, hspot⟩
  · rw [← hi.quiet]
    rfl
  · have hbig := hplace.big
    have hfits := hplace.fits
    have hapart := hplace.apart
    have hpool := hplace.pool_fits
    rw [hptr, hsize]
    unfold addW
    omega

/-- Steps of a pool without callbacks, seen with callbacks. -/
theorem ungrown_step {size : Nat} {s t : PoolState} (hu : Ungrown a size s)
    (hst : CallbackStep s t) : Ungrown a size t := by
  obtain ⟨h, c, d, l, heq, hi, hstuck, hspot⟩ := hu.hushed
  obtain ⟨g, live⟩ := s
  obtain rfl : g = loud h c d l := heq
  cases hst with
  | setcb hc =>
      exact ⟨h, _, _, _, rfl, hi, ⟨hc, hstuck.apart, hstuck.quiet⟩, hspot⟩
  | pool hst =>
    cases hst with
    | @alloc n p g hn hr =>
        obtain ⟨l', hal⟩ := mpoolAlloc_loud (d := d) (l := l) hstuck n
        obtain ⟨⟨p', h'⟩, hr', heq⟩ := Option.map_eq_some_iff.mp (hal.symm.trans hr)
        obtain ⟨rfl, rfl⟩ := Prod.mk.inj heq
        have hspot' := alloc_spot hi hn hr'
        have hi' := inv_alloc hi hn hr'
        exact ⟨h', c, d, l', rfl, hi', hstuck.of_spot hspot' (hi'.quiet.trans hi.quiet.symm),
          hspot'.trans hspot⟩
    | @free p hp =>
        have hi' := inv_free hi hp
        have hspot' : (mpoolFree h p).pool.spot = h.pool.spot := by
          obtain ⟨bs, L, hs⟩ := hi.shows
          obtain ⟨pre, k, post, rfl⟩ := hs.block hp
          obtain ⟨bs', L', hf⟩ := mpoolFree_laid hs.laid hs.settled
          exact hf.spot
        exact ⟨mpoolFree h p, c, d, l, mpoolFree_loud, hi',
          hstuck.of_spot hspot' (hi'.quiet.trans hi.quiet.symm), hspot'.trans hspot⟩
    | @realloc n p q g hp hn hr =>
        obtain ⟨l', hal⟩ := mpoolRealloc_loud (d := d) (l := l) hstuck p n
        obtain ⟨⟨q', h'⟩, hr', heq⟩ := Option.map_eq_some_iff.mp (hal.symm.trans hr)
        obtain ⟨rfl, rfl⟩ := Prod.mk.inj heq
        have hspot' := realloc_spot hi hp hn hr'
        have hi' := inv_realloc hi hp hn hr'
        exact ⟨h', c, d, l', rfl, hi', hstuck.of_spot hspot' (hi'.quiet.trans hi.quiet.symm),
          hspot'.trans hspot⟩
    | @store m hm =>
        exact ⟨{ h with mem := m }, c, d, l, rfl, inv_store hi hm, hstuck, hspot⟩

theorem ungrown_reachable {pool size : Nat} (hplace : PoolPlace pool a size)
    (hrun : Reachable (PoolStart a size) CallbackStep s) : Ungrown a size s :=
  hrun.invariant (fun _ hs => ungrown_init hplace hs) fun _ _ hu hst => ungrown_step hu hst

/-! ## No growth -/

/-- **What the callback is for**: a block big enough, in a heap that is consistent and bigger by
what was asked for, all of it kept. -/
def Grown (a : Nat) (s : PoolState) (n : Nat) : Prop :=
  ∃ p h, mpoolAlloc s.heap n = some (p, h) ∧ p ≠ 0 ∧ n ≤ mpoolMsize h p ∧
    h.pool.size = s.heap.pool.size + padding16k (requestSize n) ∧ h.delmem = s.heap.delmem ∧
    ∃ ps L, HeapSafe a (a + h.pool.size) h (p :: s.live) ps L

/-- No free block fits the request. -/
def NoFit (a : Nat) (s : PoolState) (n : Nat) : Prop :=
  ∀ ps, Tiling id (fun p => blkSize s.heap.mem p + 16) (a + 16) ps (a + s.heap.pool.size) →
    ∀ p ∈ ps, blkFreed s.heap.mem p → blkSize s.heap.mem p < requestSize n

/-- Without a callback an allocation that finds no block does nothing. -/
theorem alloc_noFit {size : Nat} {s : PoolState} (hi : Inv a (a + size) s)
    (hspot : s.heap.pool.spot = (a, size)) (hno : NoFit a s n) :
    mpoolAlloc s.heap n = some (0, s.heap) := by
  obtain ⟨bs, L, hs⟩ := hi.shows
  have hpick : pick (sizeFits (requestSize n) s.heap.mem) L (requestSize n) = none := by
    cases hp : pick (sizeFits (requestSize n) s.heap.mem) L (requestSize n) with
    | none => rfl
    | some x =>
        obtain ⟨i, -, hx, hfit⟩ := pick_mem hp
        obtain ⟨b, hb, rfl, hst, -⟩ := hs.laid.node hx
        obtain ⟨hsize, hfreed⟩ := hs.marked b hb
        have htil : Tiling id (fun p => blkSize s.heap.mem p + 16) (a + 16) (bs.map Block.ptr)
            (a + s.heap.pool.size) := by
          rw [show s.heap.pool.size = size from congrArg Prod.snd hspot]
          exact hs.laid.tiling.map (fun _ _ => rfl) fun b hb => by rw [(hs.marked b hb).1]; rfl
        have hlt := hno _ htil b.ptr (List.mem_map_of_mem hb) (hfreed.mpr hst)
        rw [sizeFits, decide_eq_true_iff] at hfit
        omega
  have heq := mpoolAlloc_eq hs.laid hi.quiet n
  rwa [hpick] at heq

/--
**The heap never grows.**

In every state that a run leads to, with callbacks set that answer with the
address they are asked for, a request that no free block fits gives null, and so
nothing of what growth promises.
-/
theorem growth_never {pool size : Nat} {f : Nat → Nat → Nat} (hplace : PoolPlace pool a size)
    (hrun : Reachable (PoolStart a size) CallbackStep s)
    (hcb : s.heap.pool.cbReqmem = some f)
    (hf : ∀ n, f (addW s.heap.pool.ptr s.heap.pool.size) n =
      addW s.heap.pool.ptr s.heap.pool.size) (hno : NoFit a s n) :
    (∃ h, mpoolAlloc s.heap n = some (0, h)) ∧ ¬ Grown a s n := by
  obtain ⟨h, c, d, l, heq, hi, hstuck, hspot⟩ := (ungrown_reachable hplace hrun).hushed
  obtain ⟨g, live⟩ := s
  obtain rfl : g = loud h c d l := heq
  obtain ⟨l', hal⟩ := mpoolAlloc_loud (d := d) (l := l) hstuck n
  rw [alloc_noFit (s := ⟨h, live⟩) hi hspot hno] at hal
  refine ⟨⟨_, hal⟩, ?_⟩
  rintro ⟨p, h', hr, hp0, -⟩
  exact hp0 (Prod.mk.inj (Option.some.inj (hr.symm.trans hal))).1

/-! ### The smallest pool, full -/

/-- The smallest pool with all of its space in one live block. -/
def fullHeap : Heap Mpool :=
  ((mpoolAlloc (mpoolInit emptyHeap 65536 16416).2 16384).getD (0, emptyHeap)).2

theorem fullHeap_alloc :
    mpoolAlloc (mpoolInit emptyHeap 65536 16416).2 16384 = some (65552, fullHeap) := by
  have halloc : (mpoolAlloc (mpoolInit emptyHeap 65536 16416).2 16384).map Prod.fst =
      some 65552 := by decide +kernel
  obtain ⟨⟨p, h⟩, hr, rfl⟩ := Option.map_eq_some_iff.mp halloc
  rw [fullHeap, hr]
  rfl

theorem fullHeap_place : PoolPlace 4096 65536 16416 := by constructor <;> decide

/-- A run that ends there. -/
theorem fullHeap_reachable :
    Reachable (PoolStart 65536 16416) PoolStep ⟨fullHeap, [65552]⟩ := by
  have hinit : (mpoolInit emptyHeap 65536 16416).1 = true := by decide +kernel
  have hstart : Reachable (PoolStart 65536 16416) PoolStep
      ⟨(mpoolInit emptyHeap 65536 16416).2, []⟩ :=
    .init ⟨⟨emptyHeap, Prod.ext hinit rfl⟩, rfl⟩
  exact hstart.tail (.took (n := 16384) (by decide) fullHeap_alloc (by decide))

theorem fullHeap_tail : fullHeap.pool.ptr = 65536 ∧ fullHeap.pool.size = 16416 ∧
    addW fullHeap.pool.ptr fullHeap.pool.size = 81952 := by decide +kernel

/-- Nothing is free there. -/
theorem fullHeap_noFit {reqmem : Option (Nat → Nat → Nat)} {delmem : Bool} (n : Nat) :
    NoFit 65536 ⟨mpoolSetcb fullHeap reqmem delmem, [65552]⟩ n := by
  have hblk : blkSize fullHeap.mem 65552 = 16384 ∧ blkFreed fullHeap.mem 65552 = false := by
    decide +kernel
  have hone : Tiling id (fun p => blkSize fullHeap.mem p + 16) 65552 [65552] 81952 := by
    refine ⟨rfl, ?_⟩
    show 65552 + (blkSize fullHeap.mem 65552 + 16) = 81952
    rw [hblk.1]
  intro ps hps p hp hfree
  have hend : 65536 + fullHeap.pool.size = 81952 := by rw [fullHeap_tail.2.1]
  have hps' : Tiling id (fun p => blkSize fullHeap.mem p + 16) 65552 ps 81952 := by
    rw [← hend]
    exact hps
  rw [Tiling.unique (fun _ => Nat.succ_pos _) hps' hone] at hp
  obtain rfl := List.mem_singleton.mp hp
  exact absurd (hblk.2.symm.trans hfree) (by simp)

/-- The theorem at the smallest pool, whose callback gives what it is asked for. -/
theorem growth_never_full :
    ¬ Grown 65536 ⟨mpoolSetcb fullHeap (some fun tail _ => tail) true, [65552]⟩ 16 := by
  have hrun : Reachable (PoolStart 65536 16416) CallbackStep
      ⟨mpoolSetcb fullHeap (some fun tail _ => tail) true, [65552]⟩ :=
    (fullHeap_reachable.mono fun _ _ h => .pool h).tail (.setcb fun f hf n => .inl (by
      obtain rfl := Option.some.inj hf
      rfl))
  exact (growth_never fullHeap_place hrun rfl (fun _ => rfl) (fullHeap_noFit 16)).2

/-- **The memory asked for is refused**: a full pool, a callback that gives what it is asked
for, and a request of 16 bytes, which is answered with null. -/
theorem growth_refused :
    Reachable (PoolStart 65536 16416) CallbackStep
        ⟨mpoolSetcb fullHeap (some fun tail _ => tail) true, [65552]⟩ ∧
      NoFit 65536 ⟨mpoolSetcb fullHeap (some fun tail _ => tail) true, [65552]⟩ 16 ∧
      (mpoolAlloc (mpoolSetcb fullHeap (some fun tail _ => tail) true) 16).map
        (fun r => (r.1, r.2.pool.size, r.2.delmem)) = some (0, 16416, [(81952, 16384)]) ∧
      ¬ Grown 65536 ⟨mpoolSetcb fullHeap (some fun tail _ => tail) true, [65552]⟩ 16 := by
  have halloc : (mpoolAlloc (mpoolSetcb fullHeap (some fun tail _ => tail) true) 16).map
      (fun r => (r.1, r.2.pool.size, r.2.delmem)) = some (0, 16416, [(81952, 16384)]) := by
    decide +kernel
  refine ⟨(fullHeap_reachable.mono fun _ _ h => .pool h).tail (.setcb fun f hf n => .inl (by
    obtain rfl := Option.some.inj hf
    rfl)), fullHeap_noFit 16, halloc, ?_⟩
  rintro ⟨p, h, hr, hp0, -⟩
  rw [hr, Option.map_some, Option.some.injEq, Prod.mk.injEq] at halloc
  exact hp0 halloc.1

end IonOS.Alloc
