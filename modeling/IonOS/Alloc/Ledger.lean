import IonOS.Alloc.Damage
import IonOS.Alloc.Heap

/-!
# The books over whole runs

A pool's user may do everything here: allocate, also aligned, release, reallocate,
store, and set callbacks. The counter stays right as long as no reallocation
changes the size of a block where it is and no call runs into what makes an
allocation harmful: a size that wraps, or the gap of 16. That this is the exact
condition for a reallocation is `reallocBy_books` and `gap_books`; here it is
followed through runs, first for a pool without callbacks (`Booked`), then with
them (`Ledger`).
-/

namespace IonOS.Alloc

open IonOS.Lib IonOS.Libs

variable {a e : Nat} {h h' : Heap Mpool} {m : Mem} {bs bs' pre post : List Block}
  {L L' : Nat → List Nat} {s : PoolState} {p q n k r x align : Nat}

/-! ## Runs with all operations -/

/-- **An aligned reallocation that keeps the books**: it is turned down, or leaves the size of the
block alone and does no harm where it moves it. -/
def Fair (h : Heap Mpool) (p n align : Nat) : Prop :=
  Refused align ∨ ¬ SizeChanges h p n ∧
    (16 ≤ align → mpoolMsize h p < requestSize n → AlignedClean h n align)

/-- The pool after an aligned reallocation of `p` that gave `q`. -/
def PoolState.moved (s : PoolState) (p q : Nat) (h : Heap Mpool) : PoolState :=
  ⟨h, if q = 0 then s.live else q :: s.live.erase p⟩

/-- Everything the user of a pool can do, short of changing the size of a block in place. -/
inductive BookedStep : PoolState → PoolState → Prop where
  /-- `mpool_alloc`. -/
  | alloc {s : PoolState} {n p : Nat} {h : Heap Mpool} (hm : Mallocs s.heap n)
      (hr : mpoolAlloc s.heap n = some (p, h)) :
      BookedStep s ⟨h, if p = 0 then s.live else p :: s.live⟩
  /-- `mpool_aligned_alloc`. -/
  | aligned {s : PoolState} {n align p : Nat} {h : Heap Mpool} (ha : align < 2 ^ 64)
      (hc : (Request.alignedAlloc align n).Clean s.heap)
      (hr : mpoolAlignedAlloc s.heap n align = some (p, h)) :
      BookedStep s ⟨h, if p = 0 then s.live else p :: s.live⟩
  /-- `mpool_free`. -/
  | free {s : PoolState} {p : Nat} (hp : p ∈ s.live) :
      BookedStep s ⟨mpoolFree s.heap p, s.live.erase p⟩
  /-- `mpool_realloc`, when it returns. -/
  | realloc {s : PoolState} {n p q : Nat} {h : Heap Mpool} (hp : p ∈ s.live) (hn : n < 2 ^ 64)
      (hsize : ¬ SizeChanges s.heap p n) (hr : mpoolRealloc s.heap p n = some (q, h)) :
      BookedStep s ⟨h, q :: s.live.erase p⟩
  /-- `mpool_aligned_realloc`, when it returns. -/
  | alignedRealloc {s : PoolState} {n align p q : Nat} {h : Heap Mpool} (hp : p ∈ s.live)
      (hn : n < 2 ^ 64) (ha : align < 2 ^ 64) (hf : Fair s.heap p n align)
      (hr : mpoolAlignedRealloc s.heap p n align = some (q, h)) :
      BookedStep s (s.moved p q h)
  /-- Stores into payloads. -/
  | store {s : PoolState} {m : Mem}
      (hm : ∀ w, (∀ p ∈ s.live, w < p ∨ p + mpoolMsize s.heap p ≤ w) → m w = s.heap.mem w) :
      BookedStep s ⟨{ s.heap with mem := m }, s.live⟩
  /-- `mpool_setcb`. -/
  | setcb {s : PoolState} {reqmem : Option (Nat → Nat → Nat)} {delmem : Bool}
      (hc : Conforms reqmem (addW s.heap.pool.ptr s.heap.pool.size)) :
      BookedStep s ⟨mpoolSetcb s.heap reqmem delmem, s.live⟩

/-- The invariant of these runs, for a pool without callbacks: all that `mpool_alloc` and the
others promise, the memory where it was, and the books. -/
structure Booked (a e : Nat) (s : PoolState) (spot : Nat × Nat) : Prop where
  inv : Inv a e s
  spot_eq : s.heap.pool.spot = spot
  books : Books s

variable {spot : Nat × Nat}

theorem Booked.allocated (hb : Booked a e s spot) (hs : Shows a e s bs L)
    (ha : Allocated a e s.heap bs r p h k bs' L') : Booked a e ⟨h, p :: s.live⟩ spot :=
  ⟨(hs.allocated ha).inv (ha.cb.trans hb.inv.quiet)
      (List.nodup_cons.mpr ⟨hs.not_held ha, hb.inv.nodup⟩),
    ha.spot.trans hb.spot_eq, hs.books_allocated hb.inv.nodup hb.books ha⟩

theorem booked_alloc (hb : Booked a e s spot) (hm : Mallocs s.heap n)
    (hr : mpoolAlloc s.heap n = some (p, h)) :
    Booked a e ⟨h, if p = 0 then s.live else p :: s.live⟩ spot := by
  by_cases hn : n ≤ 2 ^ 64 - 16
  · obtain ⟨bs, L, hs⟩ := hb.inv.shows
    rcases mpoolAlloc_laid hs.laid hb.inv.quiet hn with ⟨-, hr'⟩ | ⟨p', h', k, bs', L', hr', ha⟩
    · obtain ⟨rfl, rfl⟩ := Prod.mk.inj (Option.some.inj (hr'.symm.trans hr))
      exact hb
    · obtain ⟨rfl, rfl⟩ := Prod.mk.inj (Option.some.inj (hr'.symm.trans hr))
      rw [if_neg ha.nonnull]
      exact hb.allocated hs ha
  · -- what wraps finds nothing
    obtain ⟨q, h', hr', hnull, hsame⟩ := mpoolAlloc_null_iff hb.inv n
    obtain ⟨rfl, rfl⟩ := Prod.mk.inj (Option.some.inj (hr'.symm.trans hr))
    have hq := hnull.mpr (hm.resolve_left hn)
    rw [if_pos hq, hsame hq]
    exact hb

/-- The aligned search, when it is harmless. -/
theorem booked_search (hb : Booked a e s spot) (hpow : AlignPow align)
    (hc : AlignedClean s.heap n align) (hr : mpoolAlignedAlloc s.heap n align = some (p, h)) :
    Booked a e ⟨h, if p = 0 then s.live else p :: s.live⟩ spot := by
  unfold AlignedClean at hc
  split at hc
  · rename_i hn
    obtain ⟨bs, L, hs⟩ := hb.inv.shows
    rcases mpoolAlignedAlloc_laid hs.laid hb.inv.quiet hn hpow hc with ⟨-, hr'⟩ |
      ⟨p', h', k, bs', L', hr', -, ha⟩
    · obtain ⟨rfl, rfl⟩ := Prod.mk.inj (Option.some.inj (hr'.symm.trans hr))
      exact hb
    · obtain ⟨rfl, rfl⟩ := Prod.mk.inj (Option.some.inj (hr'.symm.trans hr))
      rw [if_neg ha.nonnull]
      exact hb.allocated hs ha
  · obtain ⟨x, _, hx, -⟩ | ⟨-, hr'⟩ := mpoolAlignedAlloc_ptr hb.inv hpow n
    · exact absurd hx (hc x)
    · obtain ⟨rfl, rfl⟩ := Prod.mk.inj (Option.some.inj (hr'.symm.trans hr))
      exact hb

theorem booked_aligned (hb : Booked a e s spot) (halign : align < 2 ^ 64)
    (hc : (Request.alignedAlloc align n).Clean s.heap)
    (hr : mpoolAlignedAlloc s.heap n align = some (p, h)) :
    Booked a e ⟨h, if p = 0 then s.live else p :: s.live⟩ spot := by
  by_cases href : Refused align
  · rw [mpoolAlignedAlloc_refused href] at hr
    obtain ⟨rfl, rfl⟩ := Prod.mk.inj (Option.some.inj hr)
    exact hb
  · obtain ⟨-, hm⟩ := hc.resolve_left href
    by_cases hbig : align < 16
    · rw [if_pos hbig] at hm
      rw [mpoolAlignedAlloc_small href hbig] at hr
      exact booked_alloc hb hm hr
    · rw [if_neg hbig] at hm
      have hpow := AlignPow.of_test (not_not.mp href) (by omega) halign
      exact booked_search hb hpow hm hr

theorem booked_free (hb : Booked a e s spot) (hp : p ∈ s.live) :
    Booked a e ⟨mpoolFree s.heap p, s.live.erase p⟩ spot := by
  obtain ⟨bs, L, hs⟩ := hb.inv.shows
  obtain ⟨pre, k, post, rfl⟩ := hs.block hp
  obtain ⟨bs', L', hf⟩ := mpoolFree_laid hs.laid hs.settled
  exact ⟨inv_free hb.inv hp, hf.spot.trans hb.spot_eq, hs.books_freed hb.inv.nodup hb.books hf⟩

theorem booked_store (hb : Booked a e s spot)
    (hm : ∀ w, (∀ p ∈ s.live, w < p ∨ p + mpoolMsize s.heap p ≤ w) → m w = s.heap.mem w) :
    Booked a e ⟨{ s.heap with mem := m }, s.live⟩ spot := by
  obtain ⟨bs, L, hs⟩ := hb.inv.shows
  exact ⟨inv_store hb.inv hm, hb.spot_eq, (hs.stored_same hb.inv.nodup hm).1.mpr hb.books⟩

/-- The order of the pointers held does not matter. -/
theorem Booked.perm {live : List Nat} (hb : Booked a e s spot) (hp : live.Perm s.live) :
    Booked a e ⟨s.heap, live⟩ spot := by
  obtain ⟨bs, L, hs⟩ := hb.inv.shows
  refine ⟨Shows.inv ⟨hs.laid, hs.settled, fun q => ?_⟩ hb.inv.quiet (hp.symm.nodup hb.inv.nodup),
    hb.spot_eq, ?_⟩
  · rw [hp.mem_iff]
    exact hs.live_iff q
  · show s.heap.pool.allocedSize = (live.map (mpoolMsize s.heap)).sum
    rw [(hp.map _).sum_nat]
    exact hb.books

theorem booked_reallocBy {alloc : Heap Mpool → Nat → Option (Nat × Heap Mpool)}
    (hb : Booked a e s spot) (hs : Shows a e s (pre ++ ⟨p, k, .live⟩ :: post) L)
    (hp : p ∈ s.live) (hn : n < 2 ^ 64) (hsize : ¬ SizeChanges s.heap p n)
    (ha : k < requestSize n → n ≤ 2 ^ 64 - 16 →
      alloc s.heap (requestSize n) = some (0, s.heap) ∨ ∃ q h1 k1 bs1 L1,
        alloc s.heap (requestSize n) = some (q, h1) ∧
          Allocated a e s.heap (pre ++ ⟨p, k, .live⟩ :: post) (requestSize n) q h1 k1 bs1 L1)
    (hr : reallocBy alloc s.heap p n = some (q, h)) :
    q ≠ 0 ∧ Booked a e ⟨h, q :: s.live.erase p⟩ spot := by
  have hmsize := hs.msize_eq (b := ⟨p, k, .live⟩) (by simp)
  dsimp only at hmsize
  have hblk : blkSize s.heap.mem p = k := hs.laid.blkSize_eq (b := ⟨p, k, .live⟩) (by simp)
  by_cases hle : requestSize n ≤ k
  · -- nothing to do
    have hkeep : ¬ requestSize n + 64 ≤ k := fun hcut => hsize (.inl (by rwa [CutsOff, hmsize]))
    have hsame : (trySplitAndFree s.heap p (requestSize n)).2 = s.heap := by
      have hroom := hs.laid.area.room
      have hbd := hs.laid.bounds (b := ⟨p, k, .live⟩) (by simp)
      dsimp only at hbd
      rw [trySplitAndFree, hblk, addW_of_lt (by omega), if_neg hkeep]
    rw [reallocBy_fits hblk hle, hsame] at hr
    obtain ⟨rfl, rfl⟩ := Prod.mk.inj (Option.some.inj hr)
    exact ⟨hb.inv.nonnull hp, hb.perm (List.perm_cons_erase hp).symm⟩
  · have hwrap : n ≤ 2 ^ 64 - 16 := by
      by_contra hwrap
      rw [requestSize_wrap (by omega) hn] at hle
      exact hle (Nat.zero_le _)
    have hgt : k < requestSize n := by omega
    rcases reallocBy_cases hs.laid hs.settled hwrap (ha hgt hwrap) with ⟨hin, -⟩ | ⟨-, -, hr'⟩ |
      ⟨-, q', h1, k1, bs1, L1, h', bs', L', -, hr', hrel⟩
    · exact absurd (.inr ((growsNext_iff hs hgt).mpr (hin.resolve_left hle))) hsize
    · exact absurd (hr'.symm.trans hr) (by simp)
    · obtain ⟨rfl, rfl⟩ := Prod.mk.inj (Option.some.inj (hr'.symm.trans hr))
      exact ⟨hrel.allocated.nonnull, inv_reallocBy hb.inv hs hp hwrap (ha hgt hwrap) hr,
        (hrel.freed.spot.trans hrel.allocated.spot).trans hb.spot_eq,
        hs.books_relocated hb.inv.nodup hb.books hp hrel⟩

theorem booked_realloc (hb : Booked a e s spot) (hp : p ∈ s.live) (hn : n < 2 ^ 64)
    (hsize : ¬ SizeChanges s.heap p n) (hr : mpoolRealloc s.heap p n = some (q, h)) :
    q ≠ 0 ∧ Booked a e ⟨h, q :: s.live.erase p⟩ spot := by
  obtain ⟨bs, L, hs⟩ := hb.inv.shows
  obtain ⟨pre, k, post, rfl⟩ := hs.block hp
  rw [mpoolRealloc_eq (hb.inv.nonnull hp)] at hr
  exact booked_reallocBy hb hs hp hn hsize
    (fun _ hle => mpoolAlloc_again hs.laid hb.inv.quiet hle) hr

/-- The aligned search looks for the rounded size either way. -/
theorem settles_again (hn : n ≤ 2 ^ 64 - 16) :
    Settles h (requestSize n) align x ↔ Settles h n align x := by
  unfold Settles
  rw [requestSize_idem hn]

/-- What `mpool_aligned_realloc` moves to, when that does no harm. -/
theorem aligned_again (hi : Inv a e s) (hs : Shows a e s bs L) (hpow : AlignPow align)
    (hc : AlignedClean s.heap n align) (hn : n ≤ 2 ^ 64 - 16) :
    mpoolAlignedAlloc s.heap (requestSize n) align = some (0, s.heap) ∨ ∃ q h1 k1 bs1 L1,
      mpoolAlignedAlloc s.heap (requestSize n) align = some (q, h1) ∧
        Allocated a e s.heap bs (requestSize n) q h1 k1 bs1 L1 := by
  unfold AlignedClean at hc
  split at hc
  · rename_i hn63
    exact mpoolAlignedAlloc_again hs.laid hi.quiet hn63 hpow hc
  · obtain ⟨x, _, hx, -⟩ | ⟨-, hr⟩ := mpoolAlignedAlloc_ptr hi hpow (requestSize n)
    · exact absurd ((settles_again hn).mp hx) (hc x)
    · exact .inl hr

/-- The three cases of `mpool_aligned_realloc` on a pointer held. -/
theorem mpoolAlignedRealloc_eq (hp : p ≠ 0) (halign : align < 2 ^ 64) :
    (Refused align ∧ mpoolAlignedRealloc h p n align = some (0, h)) ∨
      (¬ Refused align ∧ align < 16 ∧ mpoolAlignedRealloc h p n align = mpoolRealloc h p n) ∨
      (¬ Refused align ∧ AlignPow align ∧ mpoolAlignedRealloc h p n align =
        reallocBy (fun h size => mpoolAlignedAlloc h size align) h p n) := by
  by_cases href : align &&& subW align 1 ≠ 0
  · exact .inl ⟨href, by rw [mpoolAlignedRealloc, if_neg hp, if_pos href]⟩
  · by_cases hbig : align < 16
    · refine .inr (.inl ⟨href, hbig, ?_⟩)
      rw [mpoolAlignedRealloc, if_neg hp, if_neg href, if_pos hbig]
    · refine .inr (.inr ⟨href, AlignPow.of_test (not_not.mp href) (by omega) halign, ?_⟩)
      rw [mpoolAlignedRealloc, if_neg hp, if_neg href, if_neg hbig]

theorem booked_alignedRealloc (hb : Booked a e s spot) (hp : p ∈ s.live) (hn : n < 2 ^ 64)
    (halign : align < 2 ^ 64) (hf : Fair s.heap p n align)
    (hr : mpoolAlignedRealloc s.heap p n align = some (q, h)) :
    Booked a e (s.moved p q h) spot := by
  unfold PoolState.moved
  rcases mpoolAlignedRealloc_eq (n := n) (h := s.heap) (hb.inv.nonnull hp) halign with
    ⟨-, heq⟩ | ⟨hok, -, heq⟩ | ⟨hok, hpow, heq⟩
  · obtain ⟨rfl, rfl⟩ := Prod.mk.inj (Option.some.inj (heq.symm.trans hr))
    exact hb
  · obtain ⟨hstay, -⟩ := hf.resolve_left hok
    obtain ⟨hq, hb'⟩ := booked_realloc hb hp hn hstay (heq.symm.trans hr)
    rwa [if_neg hq]
  · obtain ⟨hstay, hclean⟩ := hf.resolve_left hok
    obtain ⟨bs, L, hs⟩ := hb.inv.shows
    obtain ⟨pre, k, post, rfl⟩ := hs.block hp
    have hk := hs.msize_eq (b := ⟨p, k, .live⟩) (by simp)
    dsimp only at hk
    obtain ⟨hq, hb'⟩ := booked_reallocBy hb hs hp hn hstay
      (fun hgt hwrap => aligned_again hb.inv hs hpow (hclean hpow.big (by omega)) hwrap)
      (heq.symm.trans hr)
    rwa [if_neg hq]

/-- **A pool whose counter is right**, seen with its callbacks. -/
structure Ledger (a size : Nat) (s : PoolState) : Prop where
  hushed : ∃ h c d l, s.heap = loud h c d l ∧ Booked a (a + size) ⟨h, s.live⟩ (a, size) ∧
    Stuck c h.pool

theorem Ledger.ungrown {size : Nat} (hl : Ledger a size s) : Ungrown a size s := by
  obtain ⟨h, c, d, l, heq, hb, hstuck⟩ := hl.hushed
  exact ⟨h, c, d, l, heq, hb.inv, hstuck, hb.spot_eq⟩

theorem Ledger.books {size : Nat} (hl : Ledger a size s) : Books s := by
  obtain ⟨h, c, d, l, heq, hb, -⟩ := hl.hushed
  obtain ⟨g, live⟩ := s
  obtain rfl : g = loud h c d l := heq
  exact hb.books

theorem Ungrown.ledger {size : Nat} (hu : Ungrown a size s) (hb : Books s) : Ledger a size s := by
  obtain ⟨h, c, d, l, heq, hi, hstuck, hspot⟩ := hu.hushed
  obtain ⟨g, live⟩ := s
  obtain rfl : g = loud h c d l := heq
  exact ⟨h, c, d, l, rfl, ⟨hi, hspot, hb⟩, hstuck⟩

/-- What an operation leaves, with the callbacks back on. -/
theorem ledger_of {size : Nat} {live live' : List Nat} {c : Option (Nat → Nat → Nat)} {d : Bool}
    {l : List (Nat × Nat)} (hb : Booked a (a + size) ⟨h, live⟩ (a, size))
    (hb' : Booked a (a + size) ⟨h', live'⟩ (a, size)) (hstuck : Stuck c h.pool) :
    Ledger a size ⟨loud h' c d l, live'⟩ :=
  ⟨h', c, d, l, rfl, hb', hstuck.of_spot (hb'.spot_eq.trans hb.spot_eq.symm)
    (hb'.inv.quiet.trans hb.inv.quiet.symm)⟩

theorem ledger_step {size : Nat} {t : PoolState} (hl : Ledger a size s) (hst : BookedStep s t) :
    Ledger a size t := by
  obtain ⟨g, c, d, l, heq, hb, hstuck⟩ := hl.hushed
  obtain ⟨h0, live⟩ := s
  obtain rfl : h0 = loud g c d l := heq
  cases hst with
  | @alloc n p h hm hr =>
      obtain ⟨h', l', hr', rfl⟩ := loud_some (f := fun h => mpoolAlloc h n)
        (mpoolAlloc_loud hstuck n) hr
      have hb' := booked_alloc hb hm hr'
      exact ledger_of hb hb' hstuck
  | @aligned n align p h ha hc hr =>
      obtain ⟨h', l', hr', rfl⟩ := loud_some (f := fun h => mpoolAlignedAlloc h n align)
        (mpoolAlignedAlloc_loud hstuck n align) hr
      have hb' := booked_aligned hb ha hc hr'
      exact ledger_of hb hb' hstuck
  | @free p hp =>
      have hfree := ledger_of (c := c) (d := d) (l := l) hb (booked_free hb hp) hstuck
      rwa [← mpoolFree_loud] at hfree
  | @realloc n p q h hp hn hsize hr =>
      obtain ⟨h', l', hr', rfl⟩ := loud_some (f := fun h => mpoolRealloc h p n)
        (mpoolRealloc_loud hstuck p n) hr
      exact ledger_of hb (booked_realloc hb hp hn hsize hr').2 hstuck
  | @alignedRealloc n align p q h hp hn ha hf hr =>
      obtain ⟨h', l', hr', rfl⟩ := loud_some (f := fun h => mpoolAlignedRealloc h p n align)
        (mpoolAlignedRealloc_loud hstuck p n align) hr
      have hb' := booked_alignedRealloc hb hp hn ha hf hr'
      exact ledger_of hb hb' hstuck
  | @store m hm =>
      have hb' : Booked a (a + size) ⟨{ g with mem := m }, live⟩ (a, size) := booked_store hb hm
      exact ledger_of hb hb' hstuck
  | setcb hc => exact ⟨g, _, _, _, rfl, hb, hc, hstuck.apart, hstuck.quiet⟩

theorem ledger_reachable {pool size : Nat} (hplace : PoolPlace pool a size)
    (hrun : Reachable (PoolStart a size) BookedStep s) : Ledger a size s :=
  hrun.invariant (fun _ hs => (ungrown_init hplace hs).ledger (neat_init hplace hs).books)
    fun _ _ hl hst => ledger_step hl hst

/-- A live block is part of the sum. -/
theorem Books.msize_le (hb : Books s) (hp : p ∈ s.live) :
    mpoolMsize s.heap p ≤ s.heap.pool.allocedSize := by
  rw [Books, ((List.perm_cons_erase hp).map _).sum_nat, List.map_cons, List.sum_cons] at hb
  omega

/-- A plain reallocation keeps the books just if the size stays. -/
theorem realloc_books (hi : Inv a e s) (hb : Books s) (hp : p ∈ s.live) (hn : n < 2 ^ 64)
    (hr : mpoolRealloc s.heap p n = some (q, h)) :
    q ≠ 0 ∧ (Books ⟨h, q :: s.live.erase p⟩ ↔ ¬ SizeChanges s.heap p n) := by
  obtain ⟨bs, L, hs⟩ := hi.shows
  obtain ⟨pre, k, post, rfl⟩ := hs.block hp
  rw [mpoolRealloc_eq (hi.nonnull hp)] at hr
  exact reallocBy_books hs hi.nodup hb hp hn
    (fun _ hle => mpoolAlloc_again hs.laid hi.quiet hle) hr

/-- An aligned reallocation loses the books when it changes the size in place. -/
theorem alignedRealloc_lost (hb : Booked a e s spot) (hp : p ∈ s.live) (hn : n < 2 ^ 64)
    (halign : align < 2 ^ 64) (hok : ¬ Refused align) (hc : SizeChanges s.heap p n)
    (hr : mpoolAlignedRealloc s.heap p n align = some (q, h)) : ¬ Books (s.moved p q h) := by
  unfold PoolState.moved
  rcases mpoolAlignedRealloc_eq (n := n) (h := s.heap) (hb.inv.nonnull hp) halign with
    ⟨href, -⟩ | ⟨-, -, heq⟩ | ⟨-, -, heq⟩
  · exact absurd href hok
  · obtain ⟨hq, hiff⟩ := realloc_books hb.inv hb.books hp hn (heq.symm.trans hr)
    rw [if_neg hq, hiff, not_not]
    exact hc
  · obtain ⟨bs, L, hs⟩ := hb.inv.shows
    obtain ⟨pre, k, post, rfl⟩ := hs.block hp
    rw [heq] at hr
    rw [if_neg (reallocBy_nonnull hs hp hn hr)]
    exact reallocBy_lost hs hb.inv.nodup hb.books hp hn hc hr

/-- **What keeps the books is fair**, if the block it gives has bytes. -/
theorem alignedRealloc_fair (hb : Booked a e s spot) (hp : p ∈ s.live) (hn : n ≤ 2 ^ 63 - 16)
    (halign : align < 2 ^ 64) (hr : mpoolAlignedRealloc s.heap p n align = some (q, h))
    (hbooks : Books (s.moved p q h)) (hsize : q ≠ 0 → mpoolMsize h q ≠ 0) :
    Fair s.heap p n align := by
  by_cases href : Refused align
  · exact .inl href
  have hstay : ¬ SizeChanges s.heap p n := fun hc =>
    alignedRealloc_lost hb hp (by omega) halign href hc hr hbooks
  refine .inr ⟨hstay, fun hbig hgt => ?_⟩
  rcases mpoolAlignedRealloc_eq (n := n) (h := s.heap) (hb.inv.nonnull hp) halign with
    ⟨href', -⟩ | ⟨-, hsmall, -⟩ | ⟨-, hpow, heq⟩
  · exact absurd href' href
  · omega
  · obtain ⟨bs, L, hs⟩ := hb.inv.shows
    obtain ⟨pre, k, post, rfl⟩ := hs.block hp
    rw [heq] at hr
    have hq := reallocBy_nonnull hs hp (by omega) hr
    unfold PoolState.moved at hbooks
    rw [if_neg hq] at hbooks
    unfold AlignedClean
    rw [if_pos hn]
    by_contra hgap
    exact hsize hq (gap_books hb.inv hb.books hp hn hpow hgt (fun hg => hstay (.inr hg)) hgap hr
      hbooks)

/-- In a consistent pool a pointer held has bytes. -/
theorem Ungrown.msize_pos {size : Nat} (hu : Ungrown a size s) (hp : p ∈ s.live) :
    mpoolMsize s.heap p ≠ 0 := by
  obtain ⟨g, c, d, l, heq, hi, -⟩ := hu.hushed
  obtain ⟨h0, live⟩ := s
  obtain rfl : h0 = loud g c d l := heq
  obtain ⟨bs, L, hs⟩ := hi.shows
  obtain ⟨b, hb, rfl, -⟩ := (hs.live_iff p).mp hp
  have hmin := (hs.laid.sizes b hb).2
  have hsize : mpoolMsize (loud g c d l) b.ptr = b.size := hs.msize_eq hb
  dsimp only
  omega

/--
**Reallocation keeps the books exactly when it does not resize in place** and, if
it is to be aligned, does not move into the gap of 16.

For every consistent pool whose counter is right, every pointer held and every
size. An aligned request for more than `2 ^ 63 - 16` bytes is negative as a `long`;
it keeps the books if the search takes no block for it, and else takes one that is
too small. In a run whose calls all meet the condition, and whose allocations are
harmless, the counter is right in every state, no release makes it wrap, and it is
zero when nothing is live.
-/
theorem realloc_books_iff {pool size : Nat} (hplace : PoolPlace pool a size) :
    (∀ s, Reachable (PoolStart a size) BookedStep s → Ungrown a size s ∧ Books s ∧
      (∀ p ∈ s.live, mpoolMsize s.heap p ≤ s.heap.pool.allocedSize) ∧
      (s.live = [] → s.heap.pool.allocedSize = 0)) ∧
    ∀ s, Ungrown a size s → Books s → ∀ p ∈ s.live, ∀ n < 2 ^ 64,
      (∀ q h, mpoolRealloc s.heap p n = some (q, h) →
        (Books ⟨h, q :: s.live.erase p⟩ ↔ ¬ SizeChanges s.heap p n)) ∧
      ∀ align < 2 ^ 64, ∀ q h, mpoolAlignedRealloc s.heap p n align = some (q, h) →
        (n ≤ 2 ^ 63 - 16 → (Ungrown a size (s.moved p q h) ∧ Books (s.moved p q h) ↔
          Fair s.heap p n align)) ∧
        (Fair s.heap p n align → Ungrown a size (s.moved p q h) ∧ Books (s.moved p q h)) ∧
        (¬ Refused align → SizeChanges s.heap p n → ¬ Books (s.moved p q h)) := by
  refine ⟨fun s hrun => ?_, fun s hu hb p hp n hn => ⟨fun q h hr => ?_, ?_⟩⟩
  · have hl := ledger_reachable hplace hrun
    refine ⟨hl.ungrown, hl.books, fun p hp => hl.books.msize_le hp, fun hlive => ?_⟩
    have hb := hl.books
    rwa [Books, hlive] at hb
  · obtain ⟨g, c, d, l, heq, hi, hstuck, -⟩ := hu.hushed
    obtain ⟨h0, live⟩ := s
    obtain rfl : h0 = loud g c d l := heq
    obtain ⟨h', l', hr', rfl⟩ := loud_some (f := fun h => mpoolRealloc h p n)
      (mpoolRealloc_loud hstuck p n) hr
    exact (realloc_books hi hb hp hn hr').2
  · intro align halign q h hr
    have hl := hu.ledger hb
    have hkeeps : Fair s.heap p n align → Ungrown a size (s.moved p q h) ∧
        Books (s.moved p q h) := by
      intro hf
      have hl' := ledger_step hl (.alignedRealloc hp hn halign hf hr)
      exact ⟨hl'.ungrown, hl'.books⟩
    -- the callbacks change nothing, so the lemmas are about the pool without them
    obtain ⟨g, c, d, l, heq, hbk, hstuck⟩ := hl.hushed
    obtain ⟨h0, live⟩ := s
    obtain rfl : h0 = loud g c d l := heq
    obtain ⟨h', l', hr', rfl⟩ := loud_some (f := fun h => mpoolAlignedRealloc h p n align)
      (mpoolAlignedRealloc_loud hstuck p n align) hr
    refine ⟨fun hn63 => ⟨?_, hkeeps⟩, hkeeps, fun hok hc => ?_⟩
    · rintro ⟨hu', hb'⟩
      -- a block of size 0 is what moving into the gap of 16 leaves
      have hsize : q ≠ 0 → mpoolMsize h' q ≠ 0 := fun hq =>
        hu'.msize_pos (p := q) (by simp [PoolState.moved, hq])
      have hfair := alignedRealloc_fair hbk hp hn63 halign hr' hb' hsize
      exact hfair
    · have hlost := alignedRealloc_lost hbk hp hn halign hok hc hr'
      exact hlost

/-- In the smallest pool, 128 bytes cut down to 16. -/
theorem realloc_books_iff_small :
    ∃ h, mpoolRealloc roomyHeap 65552 16 = some (65552, h) ∧
      (Books ⟨h, [65552]⟩ ↔ ¬ SizeChanges roomyHeap 65552 16) := by
  have hbooks : Books ⟨roomyHeap, [65552]⟩ := by
    show roomyHeap.pool.allocedSize = ([65552].map (mpoolMsize roomyHeap)).sum
    decide +kernel
  have hiff := (realloc_books_iff fullHeap_place).2 _ roomyHeap_ungrown hbooks 65552 (by simp)
  obtain ⟨h, hr, -⟩ := roomyHeap_cut
  exact ⟨h, hr, (hiff 16 (by decide)).1 65552 h hr⟩

/-- **Cutting a block down is not told to the counter**: 128 bytes to 16. -/
theorem realloc_books_lost : Reachable (PoolStart 65536 16416) PoolStep ⟨roomyHeap, [65552]⟩ ∧
    Books ⟨roomyHeap, [65552]⟩ ∧
    ∃ h, mpoolRealloc roomyHeap 65552 16 = some (65552, h) ∧ ¬ Books ⟨h, [65552]⟩ := by
  have hbooks : Books ⟨roomyHeap, [65552]⟩ := by
    show roomyHeap.pool.allocedSize = ([65552].map (mpoolMsize roomyHeap)).sum
    decide +kernel
  obtain ⟨h, hr, ⟨h1, -, -⟩, -, h2⟩ := roomyHeap_cut
  refine ⟨roomyHeap_reachable, hbooks, h, hr, ?_⟩
  show ¬ h.pool.allocedSize = ([65552].map (mpoolMsize h)).sum
  rw [h2]
  simp [mpoolMsize, h1]

end IonOS.Alloc
