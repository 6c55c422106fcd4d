import IonOS.Alloc.Safety

/-!
# The books and the free space of a pool

Two things the layout invariant does not say. The counter `alloced_size` is the
sum of the live block sizes, which is `Books`; and free blocks do not lie next to
each other, which is `Tidy`. Both are stated in the source's own macros, and both
can be read off the picture: the blocks of a state are determined by its head
words, so that it does not matter through which picture one looks.

Allocations and releases keep both, in any order. When nothing is live any more,
the pool is what it was at the start.
-/

namespace IonOS.Alloc

open IonOS.Lib IonOS.Libs

variable {a e : Nat} {h : Heap Mpool} {m : Mem} {bs bs' : List Block} {L L' : Nat → List Nat}
  {s : PoolState} {p q n k r x : Nat}

/-! ## Free neighbours -/

/-- **No two physically adjacent blocks are both free.** -/
def Tidy (a e : Nat) (m : Mem) : Prop :=
  ∃ ps, Tiling id (fun p => blkSize m p + 16) (a + 16) ps e ∧
    ps.IsChain fun p q => ¬ (blkFreed m p ∧ blkFreed m q)

/-- The head words say what the blocks are. -/
def Marked (m : Mem) (bs : List Block) : Prop :=
  ∀ b ∈ bs, blkSize m b.ptr = b.size ∧ (blkFreed m b.ptr = true ↔ b.st = .free)

/-- Through whatever picture one looks. -/
theorem tidy_iff (htil : Tiling Block.ptr Block.len (a + 16) bs e) (hm : Marked m bs) :
    Tidy a e m ↔ Coalesced bs := by
  have htil' : Tiling id (fun p => blkSize m p + 16) (a + 16) (bs.map Block.ptr) e :=
    htil.map (fun _ _ => rfl) fun b hb => by rw [(hm b hb).1]; rfl
  have hchain : ((bs.map Block.ptr).IsChain fun p q => ¬ (blkFreed m p ∧ blkFreed m q)) ↔
      Coalesced bs := by
    rw [List.isChain_map]
    refine List.IsChain.iff_of_mem_imp ?_
    intro b c hb hc
    rw [(hm b hb).2, (hm c hc).2]
  constructor
  · rintro ⟨ps, hps, hc⟩
    obtain rfl := Tiling.unique (fun _ => Nat.succ_pos _) hps htil'
    exact hchain.mp hc
  · intro hc
    exact ⟨_, htil', hchain.mpr hc⟩

theorem Shows.marked (hs : Shows a e s bs L) : Marked s.heap.mem bs := by
  intro b hb
  have hf := hs.laid.fitsOf hb
  have hlow := hf.low
  have hhigh := hf.high
  refine ⟨hs.laid.blkSize_eq hb, ?_⟩
  rw [(hs.laid.tags b hb).blkFreed (by omega) (by omega) (hs.settled b hb), decide_eq_true_iff]

theorem Shows.tidy_iff (hs : Shows a e s bs L) : Tidy a e s.heap.mem ↔ Coalesced bs :=
  Alloc.tidy_iff hs.laid.tiling hs.marked

/-! ## The counter -/

/-- **The counter is the sum of the sizes of the live blocks.** -/
def Books (s : PoolState) : Prop :=
  s.heap.pool.allocedSize = (s.live.map (mpoolMsize s.heap)).sum

/-- The sizes of a list of blocks, added up over the pointers held. -/
theorem live_sum {f : Nat → Nat} {live : List Nat} (hnd : live.Nodup)
    (hptr : (bs.map Block.ptr).Nodup) (hlive : ∀ p, p ∈ live ↔ LiveAt bs p)
    (hf : ∀ b ∈ bs, b.st = .live → f b.ptr = b.size) : (live.map f).sum = liveSize bs := by
  have hperm : live.Perm ((bs.filter fun b => b.st = .live).map Block.ptr) := by
    refine (List.perm_ext_iff_of_nodup hnd ((List.filter_sublist.map _).nodup hptr)).mpr fun p => ?_
    rw [hlive p, List.mem_map]
    constructor
    · rintro ⟨b, hb, rfl, hl⟩
      exact ⟨b, by simp [hb, hl], rfl⟩
    · rintro ⟨b, hb, rfl⟩
      obtain ⟨hb, hl⟩ := List.mem_filter.mp hb
      exact ⟨b, hb, rfl, by simpa using hl⟩
  rw [(hperm.map f).sum_nat, List.map_map]
  clear hperm hlive hptr
  induction bs with
  | nil => rfl
  | cons b bs ih =>
    have hrest := ih fun c hc => hf c (by simp [hc])
    by_cases hl : b.st = .live
    · rw [List.filter_cons_of_pos (by simpa using hl), List.map_cons, List.sum_cons, hrest,
        liveSize_cons, if_pos hl, Function.comp_apply, hf b (by simp) hl]
    · rw [List.filter_cons_of_neg (by simpa using hl), hrest, liveSize_cons, if_neg hl, Nat.zero_add]

/-- Blocks that tile an area start at different addresses. -/
theorem tiling_nodup (h : Tiling Block.ptr Block.len a bs e) : (bs.map Block.ptr).Nodup := by
  induction bs generalizing a with
  | nil => exact List.nodup_nil
  | cons b bs ih =>
    rw [List.map_cons, List.nodup_cons]
    refine ⟨fun hmem => ?_, ih h.2⟩
    obtain ⟨c, hc, hcb⟩ := List.mem_map.mp hmem
    have hlow := (h.2.bounds hc).1
    have hb := h.1
    have hlen : b.len = b.size + 16 := rfl
    omega

theorem Shows.live_sum (hs : Shows a e s bs L) (hnd : s.live.Nodup) :
    (s.live.map (mpoolMsize s.heap)).sum = liveSize bs :=
  Alloc.live_sum hnd (tiling_nodup hs.laid.tiling) hs.live_iff fun _ hb _ => hs.msize_eq hb

theorem Shows.books_iff (hs : Shows a e s bs L) (hnd : s.live.Nodup) :
    Books s ↔ s.heap.pool.allocedSize = liveSize bs := by
  rw [Books, hs.live_sum hnd]

/-- What is in use is less than the address space. -/
theorem Shows.liveSize_lt (hs : Shows a e s bs L) : liveSize bs + 64 ≤ 2 ^ 64 := by
  have hle := liveSize_le hs.laid.tiling
  have hroom := hs.laid.area.room
  omega

/-! ## Single operations -/

theorem Mpool.rest_alloced {p q : Mpool} (h : p.rest = q.rest) : p.allocedSize = q.allocedSize :=
  congrArg (fun r => r.2.2.1) h

/-- Taking a block credits it. -/
theorem Shows.books_allocated (hs : Shows a e s bs L) (hnd : s.live.Nodup) (hb : Books s)
    (ha : Allocated a e s.heap bs r p h k bs' L') : Books ⟨h, p :: s.live⟩ := by
  have hs' := hs.allocated ha
  have hnd' : (p :: s.live).Nodup := List.nodup_cons.mpr ⟨hs.not_held ha, hnd⟩
  have hlt := hs'.liveSize_lt
  have hsum := ha.takes.liveSize_eq
  have hcount : h.pool.allocedSize = addW s.heap.pool.allocedSize k :=
    Mpool.rest_alloced (q := s.heap.pool.credit k) ha.rest
  rw [hs.books_iff hnd] at hb
  rw [hs'.books_iff hnd']
  show h.pool.allocedSize = liveSize bs'
  rw [hcount, hb, addW_of_lt (by omega), hsum]

/-- Giving a block back debits it. -/
theorem Shows.books_freed (hs : Shows a e s bs L) (hnd : s.live.Nodup) (hb : Books s)
    (hf : Freed a e s.heap bs p k h bs' L') : Books ⟨h, s.live.erase p⟩ := by
  have hs' := hs.freed hnd hf
  have hlt := hs.liveSize_lt
  have hsum := hf.releases.liveSize_eq
  have hcount : h.pool.allocedSize = subW s.heap.pool.allocedSize k :=
    Mpool.rest_alloced (q := s.heap.pool.debit k) hf.rest
  rw [hs.books_iff hnd] at hb
  rw [hs'.books_iff (hnd.erase p)]
  show h.pool.allocedSize = liveSize bs'
  rw [hcount, hb, subW_of_le (by omega) (by omega)]
  omega

/-- Stores into payloads change neither sizes nor flags. -/
theorem Shows.stored_same (hs : Shows a e s bs L) (hnd : s.live.Nodup)
    (hm : ∀ w, (∀ p ∈ s.live, w < p ∨ p + mpoolMsize s.heap p ≤ w) → m w = s.heap.mem w) :
    (Books ⟨{ s.heap with mem := m }, s.live⟩ ↔ Books s) ∧
      (Tidy a e m ↔ Tidy a e s.heap.mem) := by
  have hs' := hs.stored hm
  exact ⟨(hs'.books_iff hnd).trans (hs.books_iff hnd).symm, hs'.tidy_iff.trans hs.tidy_iff.symm⟩

/-! ## Runs of allocations and releases -/

/-- What the user of a pool does who never resizes a block. -/
inductive AllocFreeStep : PoolState → PoolState → Prop where
  /-- `mpool_alloc`. -/
  | alloc {s : PoolState} {n p : Nat} {h : Heap Mpool} (hn : n ≤ 2 ^ 64 - 16)
      (hr : mpoolAlloc s.heap n = some (p, h)) :
      AllocFreeStep s ⟨h, if p = 0 then s.live else p :: s.live⟩
  /-- `mpool_free`. -/
  | free {s : PoolState} {p : Nat} (hp : p ∈ s.live) :
      AllocFreeStep s ⟨mpoolFree s.heap p, s.live.erase p⟩
  /-- Stores into payloads. -/
  | store {s : PoolState} {m : Mem}
      (hm : ∀ w, (∀ p ∈ s.live, w < p ∨ p + mpoolMsize s.heap p ≤ w) → m w = s.heap.mem w) :
      AllocFreeStep s ⟨{ s.heap with mem := m }, s.live⟩

theorem AllocFreeStep.poolStep {s t : PoolState} (h : AllocFreeStep s t) : PoolStep s t := by
  cases h with
  | alloc hn hr => exact .alloc hn hr
  | free hp => exact .free hp
  | store hm => exact .store hm

/-- The counter is right and no free space is left unmerged. -/
structure Neat (a e : Nat) (s : PoolState) : Prop where
  inv : Inv a e s
  books : Books s
  tidy : Tidy a e s.heap.mem

theorem neat_init {size : Nat} {pool : Nat} (hplace : PoolPlace pool a size)
    (hs : PoolStart a size s) : Neat a (a + size) s := by
  have hi := inv_reachable hplace (.init hs)
  have hrest := start_rest hplace hs
  obtain ⟨⟨h0, hinit⟩, hlive⟩ := hs
  obtain ⟨halign, hnonnull, hsize, hbig, hfits, -, hpool, hapart⟩ := hplace
  obtain ⟨h', L, hinit', hl, -⟩ := mpoolInit_laid h0 halign hnonnull hsize hbig (by omega) hfits
  obtain ⟨h, live⟩ := s
  obtain rfl : live = [] := hlive
  obtain rfl : h' = h := congrArg Prod.snd (hinit'.symm.trans hinit)
  have hshow : Shows a (a + size) ⟨h', []⟩ [⟨a + 16, size - 32, .free⟩] L :=
    ⟨hl, by simp [Settled], fun p => by simp [LiveAt]⟩
  have hzero : h'.pool.allocedSize = 0 := congrArg (fun r => r.2.2.1) hrest
  exact ⟨hi, hzero, hshow.tidy_iff.mpr (List.IsChain.singleton _)⟩

theorem neat_alloc (hn : Neat a e s) (hle : n ≤ 2 ^ 64 - 16)
    (hr : mpoolAlloc s.heap n = some (p, h)) :
    Neat a e ⟨h, if p = 0 then s.live else p :: s.live⟩ := by
  have hi := inv_alloc hn.inv hle hr
  obtain ⟨bs, L, hs⟩ := hn.inv.shows
  rcases mpoolAlloc_laid hs.laid hn.inv.quiet hle with ⟨-, hr'⟩ | ⟨p', h', k, bs', L', hr', ha⟩
  · obtain ⟨rfl, rfl⟩ := Prod.mk.inj (Option.some.inj (hr'.symm.trans hr))
    exact hn
  · obtain ⟨rfl, rfl⟩ := Prod.mk.inj (Option.some.inj (hr'.symm.trans hr))
    rw [if_neg ha.nonnull] at hi ⊢
    exact ⟨hi, hs.books_allocated hn.inv.nodup hn.books ha,
      (hs.allocated ha).tidy_iff.mpr (ha.takes.coalesced (hs.tidy_iff.mp hn.tidy))⟩

theorem neat_free (hn : Neat a e s) (hp : p ∈ s.live) :
    Neat a e ⟨mpoolFree s.heap p, s.live.erase p⟩ := by
  have hi := inv_free hn.inv hp
  obtain ⟨bs, L, hs⟩ := hn.inv.shows
  obtain ⟨pre, k, post, rfl⟩ := hs.block hp
  obtain ⟨bs', L', hf⟩ := mpoolFree_laid hs.laid hs.settled
  exact ⟨hi, hs.books_freed hn.inv.nodup hn.books hf, (hs.freed hn.inv.nodup hf).tidy_iff.mpr
    (hf.releases.coalesced (hs.tidy_iff.mp hn.tidy))⟩

theorem neat_step {s t : PoolState} (hn : Neat a e s) (hst : AllocFreeStep s t) : Neat a e t := by
  cases hst with
  | alloc hle hr => exact neat_alloc hn hle hr
  | free hp => exact neat_free hn hp
  | store hm =>
      obtain ⟨bs, L, hs⟩ := hn.inv.shows
      obtain ⟨hb, ht⟩ := hs.stored_same hn.inv.nodup hm
      exact ⟨inv_store hn.inv hm, hb.mpr hn.books, ht.mpr hn.tidy⟩

theorem neat_reachable {pool size : Nat} (hplace : PoolPlace pool a size)
    (hrun : Reachable (PoolStart a size) AllocFreeStep s) : Neat a (a + size) s :=
  hrun.invariant (fun _ hs => neat_init hplace hs) fun _ _ hn hst => neat_step hn hst

/-! ## Nothing live -/

/-- **One free block**: all of the area but its markers and the tags, on the large list. -/
structure OneFree (a size : Nat) (h : Heap Mpool) : Prop where
  blkSize_eq : blkSize h.mem (a + 16) = size - 32
  freed : blkFreed h.mem (a + 16) = true
  /-- It is the only node of the list of large blocks. -/
  large : h.pool.largeBlk = a + 16 ∧ h.mem.read64 (a + 16) = 0
  classes : ∀ i < 8, h.pool.freed i = 0
  alloced : h.pool.allocedSize = 0

/-- Blocks that are all free and have no free neighbours are at most one. -/
theorem coalesced_one (hc : Coalesced bs) (hfree : ∀ b ∈ bs, b.st = .free) (hne : bs ≠ []) :
    ∃ b, bs = [b] := by
  cases bs with
  | nil => exact absurd rfl hne
  | cons b bs =>
      cases bs with
      | nil => exact ⟨b, rfl⟩
      | cons c bs =>
          have hbusy := (coalesced_cons.mp hc).1 (hfree b (by simp))
          exact absurd (hfree c (by simp)) (hbusy c (by simp))

theorem neat_empty {size : Nat} (hbig : 16416 ≤ size) (hn : Neat a (a + size) s)
    (hlive : s.live = []) : OneFree a size s.heap := by
  obtain ⟨bs, L, hs⟩ := hn.inv.shows
  have hfree : ∀ b ∈ bs, b.st = .free := by
    intro b hb
    have hno : b.st ≠ .live := fun hl => by
      have := (hs.live_iff b.ptr).mpr ⟨b, hb, rfl, hl⟩
      rw [hlive] at this
      exact absurd this (by simp)
    have hset := hs.settled b hb
    cases hst : b.st with
    | free => rfl
    | live => exact absurd hst hno
    | hand => exact absurd hst hset
  have hne : bs ≠ [] := by
    rintro rfl
    have hend : a + 16 = a + size := hs.laid.tiling
    omega
  obtain ⟨b, rfl⟩ := coalesced_one (hs.tidy_iff.mp hn.tidy) hfree hne
  obtain ⟨y, t, st⟩ := b
  obtain rfl : st = .free := hfree ⟨y, t, st⟩ (by simp)
  obtain ⟨rfl, hend⟩ := hs.laid.tiling
  have hend' : a + 16 + (t + 16) = a + size := hend
  obtain rfl : t = size - 32 := by omega
  obtain ⟨hsize, hfreed⟩ := hs.marked ⟨a + 16, size - 32, .free⟩ (by simp)
  have hlarge : listOf (size - 32) = 8 := listOf_large (by
    unfold freelistsSize2id freelistMaxblksize
    rw [if_neg (by omega), if_neg (by omega), if_pos (by omega)]
    decide)
  have hmem : ∀ i y, y ∈ L i ↔ y = a + 16 ∧ i = 8 := by
    intro i y
    rw [hs.laid.listed]
    constructor
    · rintro ⟨b, hb, rfl, -, hi⟩
      obtain rfl : b = _ := List.mem_singleton.mp hb
      exact ⟨rfl, by rw [← hi, ← hlarge]⟩
    · rintro ⟨rfl, rfl⟩
      exact ⟨⟨a + 16, size - 32, .free⟩, by simp, rfl, rfl, hlarge⟩
  have hone : L 8 = [a + 16] := by
    have hnd := (hs.laid.lists 8).nodup
    have hperm : (L 8).Perm [a + 16] :=
      (List.perm_ext_iff_of_nodup hnd (List.nodup_singleton _)).mpr fun y => by
        rw [hmem]
        simp
    exact List.perm_singleton.mp hperm
  have hlist := hs.laid.lists 8
  rw [hone, listHead_large] at hlist
  refine ⟨hsize, hfreed.mpr rfl, ⟨hlist.head, hlist.linked⟩, fun i hi => ?_, ?_⟩
  · have hnil : L i = [] := List.eq_nil_iff_forall_not_mem.mpr fun y hy => by
      have := ((hmem i y).mp hy).2
      omega
    have hhead := (hs.laid.lists i).head
    rw [hnil, listHead_class _ (by omega)] at hhead
    exact hhead
  · have hbooks := hn.books
    rw [Books, hlive] at hbooks
    exact hbooks

/--
**Full coalescing.**

In every state that allocations and releases lead to, the counter is right and no
two adjacent blocks are both free. When the last live block has been released, in
whatever order, the pool is one free block again.
-/
theorem full_coalescing {pool size : Nat} (hplace : PoolPlace pool a size)
    (hrun : Reachable (PoolStart a size) AllocFreeStep s) :
    (∃ ps L, HeapSafe a (a + size) s.heap s.live ps L ∧
      ps.IsChain fun p q => ¬ (blkFreed s.heap.mem p ∧ blkFreed s.heap.mem q)) ∧
      s.heap.pool.allocedSize = (s.live.map (mpoolMsize s.heap)).sum ∧
      (s.live = [] → OneFree a size s.heap ∧ ∃ L, HeapSafe a (a + size) s.heap [] [a + 16] L) := by
  have hn := neat_reachable hplace hrun
  obtain ⟨ps, L, hsafe⟩ := heapSafe_of_inv hn.inv
  refine ⟨⟨ps, L, hsafe, ?_⟩, hn.books, fun hlive => ?_⟩
  · obtain ⟨qs, hqs, hc⟩ := hn.tidy
    rwa [Tiling.unique (fun _ => Nat.succ_pos _) hsafe.tiling hqs]
  · have hone := neat_empty hplace.big hn hlive
    have htil : Tiling id (fun p => blkSize s.heap.mem p + 16) (a + 16) [a + 16] (a + size) := by
      refine ⟨rfl, ?_⟩
      have hbig := hplace.big
      show a + 16 + (blkSize s.heap.mem (a + 16) + 16) = a + size
      rw [hone.blkSize_eq]
      omega
    rw [Tiling.unique (fun _ => Nat.succ_pos _) hsafe.tiling htil, hlive] at hsafe
    exact ⟨hone, L, hsafe⟩

/-- The smallest pool the theorem covers, after an allocation and its release. -/
theorem full_coalescing_once :
    ∃ h, mpoolAlloc (mpoolInit emptyHeap 65536 16416).2 24 = some (65552, h) ∧
      OneFree 65536 16416 (mpoolFree h 65552) := by
  have hplace : PoolPlace 4096 65536 16416 := by constructor <;> decide
  have hinit : (mpoolInit emptyHeap 65536 16416).1 = true := by decide +kernel
  have halloc : (mpoolAlloc (mpoolInit emptyHeap 65536 16416).2 24).map Prod.fst =
      some 65552 := by decide +kernel
  obtain ⟨⟨p, h⟩, hr, rfl⟩ := Option.map_eq_some_iff.mp halloc
  have hstart : Reachable (PoolStart 65536 16416) AllocFreeStep
      ⟨(mpoolInit emptyHeap 65536 16416).2, []⟩ :=
    .init ⟨⟨emptyHeap, Prod.ext hinit rfl⟩, rfl⟩
  have hfree : Reachable (PoolStart 65536 16416) AllocFreeStep ⟨mpoolFree h 65552, []⟩ :=
    (hstart.tail (.alloc (by decide) hr)).tail (.free (p := 65552) (by simp))
  exact ⟨h, hr, ((full_coalescing hplace hfree).2.2 rfl).1⟩

end IonOS.Alloc
