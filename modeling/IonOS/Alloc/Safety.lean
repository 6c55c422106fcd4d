import IonOS.Alloc.Ops
import IonOS.Lib.Runs

/-!
# Heap safety over whole runs

The pool together with the pointers its user holds. The user may call
`mpool_alloc`, and `mpool_realloc` and `mpool_free` on pointers held, in any
order, and may store whatever it likes into the payloads in between.

`Inv` says that there is a settled layout whose live blocks are the pointers
held. It is enough to say in terms of the source's own macros what the heap looks
like in every state of every run: that is `HeapSafe`.
-/

namespace IonOS.Alloc

open IonOS.Lib IonOS.Libs

variable {a e : Nat} {h : Heap Mpool} {m : Mem} {hd : Nat → Nat} {bs bs' pre post : List Block}
  {L L' : Nat → List Nat} {x n k r : Nat} {st : BlkState}

/-! ## Runs -/

/-- A pool and the pointers its user holds. -/
structure PoolState where
  heap : Heap Mpool
  live : List Nat

/-- What the user of a pool can do. -/
inductive PoolStep : PoolState → PoolState → Prop where
  /-- `mpool_alloc`. -/
  | alloc {s : PoolState} {n p : Nat} {h : Heap Mpool} (hn : n ≤ 2 ^ 64 - 16)
      (hr : mpoolAlloc s.heap n = some (p, h)) :
      PoolStep s ⟨h, if p = 0 then s.live else p :: s.live⟩
  /-- `mpool_free`. -/
  | free {s : PoolState} {p : Nat} (hp : p ∈ s.live) :
      PoolStep s ⟨mpoolFree s.heap p, s.live.erase p⟩
  /-- `mpool_realloc`, when it returns. -/
  | realloc {s : PoolState} {n p q : Nat} {h : Heap Mpool} (hp : p ∈ s.live)
      (hn : n ≤ 2 ^ 64 - 16) (hr : mpoolRealloc s.heap p n = some (q, h)) :
      PoolStep s ⟨h, q :: s.live.erase p⟩
  /-- Stores into payloads. -/
  | store {s : PoolState} {m : Mem}
      (hm : ∀ w, (∀ p ∈ s.live, w < p ∨ p + mpoolMsize s.heap p ≤ w) → m w = s.heap.mem w) :
      PoolStep s ⟨{ s.heap with mem := m }, s.live⟩

/-- `mpool_alloc`, when it gives a block. -/
theorem PoolStep.took {s : PoolState} {p : Nat} (hn : n ≤ 2 ^ 64 - 16)
    (hr : mpoolAlloc s.heap n = some (p, h)) (hp : p ≠ 0) : PoolStep s ⟨h, p :: s.live⟩ := by
  have hstep := PoolStep.alloc hn hr
  rwa [if_neg hp] at hstep

/-- **The invariant**: a settled layout whose live blocks are the pointers held. -/
structure Inv (a e : Nat) (s : PoolState) : Prop where
  laid : ∃ bs L, Laid a e s.heap bs L ∧ Settled bs ∧ ∀ p, p ∈ s.live ↔ LiveAt bs p
  quiet : s.heap.pool.cbReqmem = none
  nodup : s.live.Nodup

/-- **The picture of a state**: a settled layout whose live blocks are the pointers held. -/
structure Shows (a e : Nat) (s : PoolState) (bs : List Block) (L : Nat → List Nat) : Prop where
  laid : Laid a e s.heap bs L
  settled : Settled bs
  live_iff : ∀ p, p ∈ s.live ↔ LiveAt bs p

theorem Inv.shows {s : PoolState} (hi : Inv a e s) : ∃ bs L, Shows a e s bs L := by
  obtain ⟨bs, L, hl, hset, hlive⟩ := hi.laid
  exact ⟨bs, L, hl, hset, hlive⟩

namespace Shows

variable {s : PoolState} {p q : Nat}

/-- **A pointer held is a block.** -/
theorem block (hs : Shows a e s bs L) (hp : p ∈ s.live) :
    ∃ pre k post, bs = pre ++ ⟨p, k, .live⟩ :: post := by
  obtain ⟨⟨y, k, bst⟩, hb, rfl, rfl⟩ := (hs.live_iff p).mp hp
  obtain ⟨pre, post, rfl⟩ := List.append_of_mem hb
  exact ⟨pre, k, post, rfl⟩

/-- The size the user reads is the one in the picture. -/
theorem msize_eq (hs : Shows a e s bs L) {b : Block} (hb : b ∈ bs) :
    mpoolMsize s.heap b.ptr = b.size := by
  have := (hs.laid.fitsOf hb).low
  rw [mpoolMsize, if_neg (by omega), hs.laid.blkSize_eq hb]

theorem allocated (hs : Shows a e s bs L) (ha : Allocated a e s.heap bs r p h k bs' L') :
    Shows a e ⟨h, p :: s.live⟩ bs' L' := by
  refine ⟨ha.laid, ha.takes.settled hs.settled, fun q => ?_⟩
  rw [ha.takes.liveAt_iff, List.mem_cons, hs.live_iff q]

theorem not_held (hs : Shows a e s bs L) (ha : Allocated a e s.heap bs r p h k bs' L') :
    p ∉ s.live :=
  fun hp => ha.takes.fresh ha.laid ((hs.live_iff p).mp hp)

theorem freed (hs : Shows a e s bs L) (hnd : s.live.Nodup)
    (hf : Freed a e s.heap bs p k h bs' L') : Shows a e ⟨h, s.live.erase p⟩ bs' L' := by
  refine ⟨hf.laid, hf.releases.settled hs.settled, fun q => ?_⟩
  have hno := hf.releases.gone hs.laid
  rw [hnd.mem_erase_iff, hs.live_iff q, hf.releases.liveAt_iff]
  constructor
  · rintro ⟨hq, he | hq'⟩
    · exact absurd he hq
    · exact hq'
  · intro hq
    exact ⟨fun he => hno (he ▸ hq), .inr hq⟩

theorem resized (hs : Shows a e s bs L) (hp : p ∈ s.live)
    (hr : Resized a e s.heap bs r p x h k bs' L') :
    Shows a e ⟨h, p :: s.live.erase p⟩ bs' L' := by
  refine ⟨hr.laid, hr.resizes.settled hs.settled, fun q => ?_⟩
  have hperm := (List.perm_cons_erase hp).mem_iff (a := q)
  rw [hr.resizes.liveAt_iff, ← hs.live_iff q, hperm]

/-- Moving a block: the picture after the copy, and the one after the release. -/
theorem relocated {h1 : Heap Mpool} {bs1 : List Block} {L1 : Nat → List Nat} {k1 : Nat}
    (hs : Shows a e s bs L) (hnd : s.live.Nodup) (hp : p ∈ s.live)
    (hr : Relocated a e s.heap bs r p k q h1 k1 bs1 L1 h bs' L') :
    q ≠ p ∧ (q :: s.live).Nodup ∧
      Shows a e ⟨{ h1 with mem := memcpy h1.mem q p k }, q :: s.live⟩ bs1 L1 ∧
      Shows a e ⟨h, q :: s.live.erase p⟩ bs' L' := by
  obtain ⟨hsmall, hall, hfree⟩ := hr
  have hk := hall.takes.le_size
  have hnew := hs.not_held hall
  have hne : q ≠ p := fun he => hnew (he ▸ hp)
  have hnd' : (q :: s.live).Nodup := List.nodup_cons.mpr ⟨hnew, hnd⟩
  have hs1 := hs.allocated hall
  have hs2 : Shows a e ⟨{ h1 with mem := memcpy h1.mem q p k }, q :: s.live⟩ bs1 L1 :=
    ⟨hall.copied (by omega), hs1.settled, hs1.live_iff⟩
  have hs3 := hs2.freed hnd' hfree
  rw [List.erase_cons_tail (by simpa using hne)] at hs3
  exact ⟨hne, hnd', hs2, hs3⟩

/-- What is stored into payloads does not matter. -/
theorem stored (hs : Shows a e s bs L)
    (hm : ∀ w, (∀ p ∈ s.live, w < p ∨ p + mpoolMsize s.heap p ≤ w) → m w = s.heap.mem w) :
    Shows a e ⟨{ s.heap with mem := m }, s.live⟩ bs L := by
  refine ⟨hs.laid.userStore fun w hw => hm w fun p hp => ?_, hs.settled, hs.live_iff⟩
  obtain ⟨b, hb, rfl, hst⟩ := (hs.live_iff p).mp hp
  rw [hs.msize_eq hb]
  exact hw b hb hst

/-- A state with this picture, once the callback and the list of pointers are in order. -/
theorem inv (hs : Shows a e s bs L) (hcb : s.heap.pool.cbReqmem = none) (hnd : s.live.Nodup) :
    Inv a e s :=
  ⟨⟨bs, L, hs.laid, hs.settled, hs.live_iff⟩, hcb, hnd⟩

end Shows

theorem inv_init {h0 : Heap Mpool} {size : Nat} (ha : a % 16 = 0) (hpos : a ≠ 0)
    (h16 : size % 16 = 0) (hbig : 16416 ≤ size) (hroom : size + 48 ≤ 2 ^ 64)
    (hend : a + size ≤ 2 ^ 64) (hinit : mpoolInit h0 a size = (true, h)) :
    Inv a (a + size) ⟨h, []⟩ := by
  obtain ⟨h', L, hinit', hl, hcb⟩ := mpoolInit_laid h0 ha hpos h16 hbig hroom hend
  obtain rfl : h' = h := congrArg Prod.snd (hinit'.symm.trans hinit)
  refine ⟨⟨_, L, hl, by simp [Settled], fun p => ?_⟩, hcb, List.nodup_nil⟩
  simp [LiveAt]

theorem inv_alloc {s : PoolState} {p : Nat} (hi : Inv a e s) (hn : n ≤ 2 ^ 64 - 16)
    (hr : mpoolAlloc s.heap n = some (p, h)) :
    Inv a e ⟨h, if p = 0 then s.live else p :: s.live⟩ := by
  obtain ⟨bs, L, hs⟩ := hi.shows
  rcases mpoolAlloc_laid hs.laid hi.quiet hn with ⟨-, hr'⟩ | ⟨p', h', k, bs', L', hr', hall⟩
  · obtain ⟨rfl, rfl⟩ := Prod.mk.inj (Option.some.inj (hr'.symm.trans hr))
    exact hi
  · obtain ⟨rfl, rfl⟩ := Prod.mk.inj (Option.some.inj (hr'.symm.trans hr))
    rw [if_neg hall.nonnull]
    exact (hs.allocated hall).inv (hall.cb.trans hi.quiet)
      (List.nodup_cons.mpr ⟨hs.not_held hall, hi.nodup⟩)

theorem inv_free {s : PoolState} {p : Nat} (hi : Inv a e s) (hp : p ∈ s.live) :
    Inv a e ⟨mpoolFree s.heap p, s.live.erase p⟩ := by
  obtain ⟨bs, L, hs⟩ := hi.shows
  obtain ⟨pre, k, post, rfl⟩ := hs.block hp
  obtain ⟨bs', L', hf⟩ := mpoolFree_laid hs.laid hs.settled
  exact (hs.freed hi.nodup hf).inv (hf.cb.trans hi.quiet) (hi.nodup.erase p)

theorem inv_store {s : PoolState} (hi : Inv a e s)
    (hm : ∀ w, (∀ p ∈ s.live, w < p ∨ p + mpoolMsize s.heap p ≤ w) → m w = s.heap.mem w) :
    Inv a e ⟨{ s.heap with mem := m }, s.live⟩ := by
  obtain ⟨bs, L, hs⟩ := hi.shows
  exact (hs.stored hm).inv hi.quiet hi.nodup

/-- A block handed out is at least as big as what was asked for. -/
theorem alloc_msize {s : PoolState} {p : Nat} (hi : Inv a e s) (hn : n ≤ 2 ^ 64 - 16)
    (hr : mpoolAlloc s.heap n = some (p, h)) (hp0 : p ≠ 0) :
    requestSize n ≤ mpoolMsize h p := by
  obtain ⟨bs, L, hs⟩ := hi.shows
  rcases mpoolAlloc_laid hs.laid hi.quiet hn with ⟨-, hr'⟩ | ⟨p', h', k, bs', L', hr', hall⟩
  · exact absurd (congrArg Prod.fst (Option.some.inj (hr'.symm.trans hr))).symm hp0
  · obtain ⟨rfl, rfl⟩ := Prod.mk.inj (Option.some.inj (hr'.symm.trans hr))
    have hsz := (hs.allocated hall).msize_eq hall.takes.mem
    dsimp only at hsz
    rw [hsz]
    exact hall.takes.le_size

/-- Resizing and moving keep the invariant, whatever allocation is moved to. -/
theorem inv_reallocBy {alloc : Heap Mpool → Nat → Option (Nat × Heap Mpool)} {s : PoolState}
    {p q : Nat} (hi : Inv a e s) (hs : Shows a e s bs L) (hp : p ∈ s.live)
    (hn : n ≤ 2 ^ 64 - 16)
    (ha : alloc s.heap (requestSize n) = some (0, s.heap) ∨ ∃ q h1 k bs1 L1,
      alloc s.heap (requestSize n) = some (q, h1) ∧
        Allocated a e s.heap bs (requestSize n) q h1 k bs1 L1)
    (hr : reallocBy alloc s.heap p n = some (q, h)) : Inv a e ⟨h, q :: s.live.erase p⟩ := by
  obtain ⟨pre, k, post, rfl⟩ := hs.block hp
  rcases reallocBy_cases hs.laid hs.settled hn ha with ⟨-, h', k', bs', L', hr', hres⟩ |
    ⟨-, -, hr'⟩ | ⟨-, q', h1, k', bs1, L1, h', bs', L', -, hr', hrel⟩
  · obtain ⟨rfl, rfl⟩ := Prod.mk.inj (Option.some.inj (hr'.symm.trans hr))
    exact (hs.resized hp hres).inv (hres.cb.trans hi.quiet)
      (List.nodup_cons.mpr ⟨hi.nodup.not_mem_erase, hi.nodup.erase p⟩)
  · exact absurd (hr'.symm.trans hr) (by simp)
  · obtain ⟨rfl, rfl⟩ := Prod.mk.inj (Option.some.inj (hr'.symm.trans hr))
    obtain ⟨hne, hnd, -, hs3⟩ := hs.relocated hi.nodup hp hrel
    have hcb := (hrel.freed.cb.trans hrel.allocated.cb).trans hi.quiet
    refine hs3.inv hcb ?_
    have herase := hnd.erase p
    rwa [List.erase_cons_tail (by simpa using hne)] at herase

theorem inv_realloc {s : PoolState} {p q : Nat} (hi : Inv a e s) (hp : p ∈ s.live)
    (hn : n ≤ 2 ^ 64 - 16) (hr : mpoolRealloc s.heap p n = some (q, h)) :
    Inv a e ⟨h, q :: s.live.erase p⟩ := by
  obtain ⟨bs, L, hs⟩ := hi.shows
  obtain ⟨b, hb, rfl, -⟩ := (hs.live_iff p).mp hp
  have hlow := (hs.laid.fitsOf hb).low
  rw [mpoolRealloc_eq (by omega)] at hr
  exact inv_reallocBy hi hs hp hn (mpoolAlloc_again hs.laid hi.quiet hn) hr

/-- **The invariant is preserved by every step.** -/
theorem inv_step {s t : PoolState} (hi : Inv a e s) (hs : PoolStep s t) : Inv a e t := by
  cases hs with
  | alloc hn hr => exact inv_alloc hi hn hr
  | free hp => exact inv_free hi hp
  | realloc hp hn hr => exact inv_realloc hi hp hn hr
  | store hm => exact inv_store hi hm

/-! ## What the heap looks like -/

/-- **A consistent heap**, in terms of the source's own macros. -/
structure HeapSafe (a e : Nat) (h : Heap Mpool) (live ps : List Nat) (L : Nat → List Nat) :
    Prop where
  /-- The blocks given by the head words tile the area exactly. -/
  tiling : Tiling id (fun p => blkSize h.mem p + 16) (a + 16) ps e
  markers : h.mem.read64 a &&& areaFlag ≠ 0 ∧ h.mem.read64 (e - 8) &&& areaFlag ≠ 0
  /-- Head and tail word agree on size and free flag. -/
  tags : ∀ p ∈ ps, blkTail h.mem p (blkSize h.mem p) &&& notW flagBits = blkSize h.mem p ∧
    blkTail h.mem p (blkSize h.mem p) &&& freeFlag = blkHead h.mem p &&& freeFlag
  sizes : ∀ p ∈ ps, p % 16 = 0 ∧ blkSize h.mem p % 16 = 0 ∧ 16 ≤ blkSize h.mem p
  /-- `L i` is what following `next` from the `i`th list head gives. -/
  lists : ∀ i, (linksOf h.mem).IsList 0 (listHead h.pool i) (L i)
  /-- A free block is once on the list `_detach` selects for its size, and on no other; a
  block that is not free is on none. -/
  listed : ∀ p ∈ ps, ∀ i, (L i).count p =
    if blkFreed h.mem p ∧ listOf (blkSize h.mem p) = i then 1 else 0
  /-- Every node is a block. -/
  nodes : ∀ i, ∀ p ∈ L i, p ∈ ps
  live_iff : ∀ p, p ∈ live ↔ p ∈ ps ∧ blkFreed h.mem p = false
  live_nodup : live.Nodup
  /-- Live payloads lie inside the area. -/
  inside : ∀ p ∈ live, a + 16 ≤ p ∧ p + mpoolMsize h p + 16 ≤ e
  /-- No tag of any block lies in a live payload. -/
  noTag : ∀ p ∈ live, ∀ q ∈ ps, (q ≤ p ∨ p + mpoolMsize h p + 8 ≤ q) ∧
    (q + blkSize h.mem q + 8 ≤ p ∨ p + mpoolMsize h p ≤ q + blkSize h.mem q)
  /-- Live payloads are pairwise disjoint. -/
  disjoint : ∀ p ∈ live, ∀ q ∈ live, p ≠ q →
    p + mpoolMsize h p ≤ q ∨ q + mpoolMsize h q ≤ p

/-- Which lists a block of a settled layout is on. -/
theorem count_listed (hl : Layout a e m hd bs L) {b : Block} (hb : b ∈ bs) (i : Nat) :
    (L i).count b.ptr = if b.st = .free ∧ listOf b.size = i then 1 else 0 := by
  have hmem : b.ptr ∈ L i ↔ b.st = .free ∧ listOf b.size = i := by
    rw [hl.listed]
    constructor
    · rintro ⟨c, hc, hcp, hcf, hci⟩
      obtain rfl := hl.eq_of_ptr hc hb hcp
      exact ⟨hcf, hci⟩
    · rintro ⟨hf, hi⟩
      exact ⟨b, hb, rfl, hf, hi⟩
  split
  · rename_i h
    exact List.count_eq_one_of_mem (hl.lists i).nodup (hmem.mpr h)
  · rename_i h
    exact List.count_eq_zero.mpr fun hm => h (hmem.mp hm)

theorem marker_set {w : Nat} (hw : w / 2 % 2 = 1) : w &&& areaFlag ≠ 0 := by
  have := and_areaFlag w
  rw [hw] at this
  simpa using this

theorem IsTag.freeFlag_eq {w w' size size' : Nat} (ht : IsTag w size st)
    (ht' : IsTag w' size' st) (hst : st ≠ .hand) : w &&& Alloc.freeFlag = w' &&& Alloc.freeFlag := by
  have hbit : ∀ v, v &&& Alloc.freeFlag = v % 2 := fun v => Nat.and_one_is_mod v
  rw [hbit, hbit]
  cases st with
  | free => rw [ht.free rfl, ht'.free rfl]
  | live => rw [ht.live rfl, ht'.live rfl]
  | hand => exact absurd rfl hst

/-- **A settled layout is a consistent heap.** -/
theorem heapSafe_of_inv {s : PoolState} (hi : Inv a e s) :
    ∃ ps L, HeapSafe a e s.heap s.live ps L := by
  obtain ⟨bs, L, hl, hset, hlive⟩ := hi.laid
  have hfit := fun {b : Block} (hb : b ∈ bs) => hl.fitsOf hb
  have hfreed : ∀ b ∈ bs, blkFreed s.heap.mem b.ptr = decide (b.st = .free) := fun b hb => by
    have := (hfit hb).low
    have := (hfit hb).high
    exact (hl.tags b hb).blkFreed (by omega) (by omega) (hset b hb)
  have hmsize : ∀ b ∈ bs, mpoolMsize s.heap b.ptr = b.size := fun b hb => by
    have := (hfit hb).low
    rw [mpoolMsize, if_neg (by omega), hl.blkSize_eq hb]
  have hall : ∀ {P : Nat → Prop}, (∀ b ∈ bs, P b.ptr) → ∀ p ∈ bs.map Block.ptr, P p := by
    intro P h p hp
    obtain ⟨b, hb, rfl⟩ := List.mem_map.mp hp
    exact h b hb
  have hlives : ∀ {P : Nat → Prop}, (∀ b ∈ bs, b.st = .live → P b.ptr) → ∀ p ∈ s.live, P p := by
    intro P h p hp
    obtain ⟨b, hb, rfl, hst⟩ := (hlive p).mp hp
    exact h b hb hst
  refine ⟨bs.map Block.ptr, L, ?_, ?_, hall fun b hb => ?_, hall fun b hb => ?_, hl.lists,
    hall fun b hb i => ?_, fun i p hp => ?_, fun p => ?_, hi.nodup, hlives fun b hb hst => ?_,
    hlives fun b hb hst => hall fun c hc => ?_,
    hlives fun b hb hst => hlives fun c hc hst' hne => ?_⟩
  · exact hl.tiling.map (fun _ _ => rfl) fun b hb => by
      rw [hl.blkSize_eq hb]; rfl
  · exact ⟨marker_set hl.first, marker_set hl.last⟩
  · have := (hfit hb).low
    have := (hfit hb).high
    have htag := hl.tags b hb
    rw [hl.blkSize_eq hb, blkTail_eq _ (by omega), blkHead_eq _ (by omega) (by omega)]
    exact ⟨(and_notW_seven (Mem.read64_lt _ _)).trans htag.tail.size,
      htag.tail.freeFlag_eq htag.head (hset b hb)⟩
  · rw [hl.blkSize_eq hb]
    exact ⟨(hfit hb).ptrAlign, hl.sizes b hb⟩
  · rw [count_listed hl hb, hfreed b hb, hl.blkSize_eq hb]
    simp
  · obtain ⟨b, hb, rfl, -⟩ := hl.node hp
    exact List.mem_map_of_mem hb
  · rw [hlive p]
    constructor
    · rintro ⟨b, hb, rfl, hst⟩
      exact ⟨List.mem_map_of_mem hb, by rw [hfreed b hb, hst]; rfl⟩
    · rintro ⟨hp, hf⟩
      obtain ⟨b, hb, rfl⟩ := List.mem_map.mp hp
      refine ⟨b, hb, rfl, ?_⟩
      have h1 := hset b hb
      rw [hfreed b hb] at hf
      have hbusy : b.st ≠ .free := of_decide_eq_false hf
      cases hbst : b.st with
      | free => exact absurd hbst hbusy
      | live => rfl
      | hand => exact absurd hbst h1
  · rw [hmsize b hb]
    exact hl.bounds hb
  · rw [hmsize b hb, hl.blkSize_eq hc]
    rcases hl.apart hb hc with rfl | h | h <;> omega
  · rw [hmsize b hb, hmsize c hc]
    rcases hl.apart hb hc with rfl | h | h
    · exact absurd rfl hne
    · omega
    · omega

/-! ## The runs of a pool -/

/-- Where a pool may be set up: its area and its own 112 bytes are different parts of the
address space, as they are for any two objects. -/
structure PoolPlace (pool a size : Nat) : Prop where
  align : a % 16 = 0
  nonnull : a ≠ 0
  sizeAlign : size % 16 = 0
  big : 16416 ≤ size
  fits : a + size ≤ 2 ^ 64
  pool_nonnull : pool ≠ 0
  pool_fits : pool + 112 ≤ 2 ^ 64
  apart : pool + 112 ≤ a ∨ a + size ≤ pool

/-- The states in which a pool may start. -/
def PoolStart (a size : Nat) (s : PoolState) : Prop :=
  (∃ h0, mpoolInit h0 a size = (true, s.heap)) ∧ s.live = []

/-- The fields of a pool that was just set up. -/
theorem start_rest {pool a size : Nat} {s : PoolState} (hplace : PoolPlace pool a size)
    (hs : PoolStart a size s) : s.heap.pool.rest = (a, size, 0, none, false) := by
  obtain ⟨⟨h0, hinit⟩, -⟩ := hs
  have hmask : size &&& (2 * 8 - 1) = 0 := by
    rw [show 2 * 8 - 1 = 2 ^ 4 - 1 from rfl, Nat.and_two_pow_sub_one_eq_mod]
    exact hplace.sizeAlign
  have hbig := hplace.big
  have hnonnull := hplace.nonnull
  rw [mpoolInit, if_neg (by omega), if_neg (not_not.mpr hmask)] at hinit
  rw [← (Prod.mk.inj hinit).2]
  rfl

theorem inv_reachable {pool a size : Nat} {s : PoolState} (hplace : PoolPlace pool a size)
    (hrun : Reachable (PoolStart a size) PoolStep s) : Inv a (a + size) s := by
  refine hrun.invariant (fun s hs => ?_) fun s t hi hst => inv_step hi hst
  obtain ⟨⟨h0, hinit⟩, hlive⟩ := hs
  obtain ⟨h, live⟩ := s
  obtain rfl : live = [] := hlive
  have := hplace.apart
  have := hplace.pool_fits
  have := hplace.fits
  exact inv_init hplace.align hplace.nonnull hplace.sizeAlign hplace.big (by omega)
    hplace.fits hinit

/-- Allocation always returns. -/
theorem alloc_returns {s : PoolState} (hi : Inv a e s) (hn : n ≤ 2 ^ 64 - 16) :
    ∃ p h, mpoolAlloc s.heap n = some (p, h) := by
  obtain ⟨bs, L, hs⟩ := hi.shows
  rcases mpoolAlloc_laid hs.laid hi.quiet hn with ⟨-, hr⟩ | ⟨p, h', k, bs', L', hr, -⟩
  · exact ⟨_, _, hr⟩
  · exact ⟨_, _, hr⟩

/-- Reallocation of a pointer held returns unless the allocation inside fails. -/
theorem realloc_returns {s : PoolState} {p : Nat} (hi : Inv a e s) (hp : p ∈ s.live)
    (hn : n ≤ 2 ^ 64 - 16) :
    (∃ q h, mpoolRealloc s.heap p n = some (q, h)) ∨
      mpoolAlloc s.heap (requestSize n) = some (0, s.heap) := by
  obtain ⟨bs, L, hs⟩ := hi.shows
  obtain ⟨pre, k, post, rfl⟩ := hs.block hp
  have hlow := (hs.laid.fitsOf (b := ⟨p, k, .live⟩) (by simp)).low
  dsimp only at hlow
  rw [mpoolRealloc_eq (by omega)]
  rcases reallocBy_cases hs.laid hs.settled hn (mpoolAlloc_again hs.laid hi.quiet hn) with
    ⟨-, _, _, _, _, hr, -⟩ | ⟨-, ha, -⟩ | ⟨-, _, _, _, _, _, _, _, _, -, hr, -⟩
  · exact .inl ⟨_, _, hr⟩
  · exact .inr ha
  · exact .inl ⟨_, _, hr⟩

/--
**Heap safety over whole runs.**

In every state that allocations, reallocations, releases and stores by the user
lead to, the heap is consistent and every operation returns.
-/
theorem heap_safe {pool a size : Nat} {s : PoolState} (hplace : PoolPlace pool a size)
    (hrun : Reachable (PoolStart a size) PoolStep s) :
    (∃ ps L, HeapSafe a (a + size) s.heap s.live ps L) ∧
      ∀ n ≤ 2 ^ 64 - 16, (∃ p h, mpoolAlloc s.heap n = some (p, h)) ∧
        ∀ p ∈ s.live, (∃ q h, mpoolRealloc s.heap p n = some (q, h)) ∨
          mpoolAlloc s.heap (requestSize n) = some (0, s.heap) := by
  have hi := inv_reachable hplace hrun
  exact ⟨heapSafe_of_inv hi, fun n hn => ⟨alloc_returns hi hn, fun p hp =>
    realloc_returns hi hp hn⟩⟩

/-- A heap nobody has used yet. -/
def emptyHeap : Heap Mpool :=
  { mem := fun _ => 0, pool := ⟨0, 0, 0, none, false, 0, fun _ => 0⟩, delmem := [] }

/-- The smallest pool the theorem covers, after one allocation. -/
theorem heap_safe_after_alloc :
    ∃ s : PoolState, s.live = [65552] ∧
      ∃ ps L, HeapSafe 65536 (65536 + 16416) s.heap s.live ps L := by
  have hplace : PoolPlace 4096 65536 16416 := by constructor <;> decide
  have hinit : (mpoolInit emptyHeap 65536 16416).1 = true := by decide +kernel
  have halloc : (mpoolAlloc (mpoolInit emptyHeap 65536 16416).2 24).map Prod.fst =
      some 65552 := by decide +kernel
  obtain ⟨⟨p, h⟩, hr, rfl⟩ := Option.map_eq_some_iff.mp halloc
  have hstart : Reachable (PoolStart 65536 16416) PoolStep
      ⟨(mpoolInit emptyHeap 65536 16416).2, []⟩ :=
    .init ⟨⟨emptyHeap, Prod.ext hinit rfl⟩, rfl⟩
  exact ⟨⟨h, [65552]⟩, rfl, (heap_safe hplace (hstart.tail (.alloc (by decide) hr))).1⟩

end IonOS.Alloc
