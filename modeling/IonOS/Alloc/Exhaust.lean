import IonOS.Alloc.Aligned
import IonOS.Alloc.Coalesce

/-!
# Exact exhaustion

The search skips every list below the class of the request. Nothing is missed by
that, because the class of a size does not go down when the size goes up, and a
free block that fits is at least as big as the request. So the allocation
functions give null exactly when no free block is good enough, and then they have
done nothing.
-/

namespace IonOS.Alloc

open IonOS.Lib

variable {a e : Nat} {h : Heap Mpool} {m : Mem} {hd : Nat → Nat} {bs : List Block}
  {L : Nat → List Nat} {s : PoolState} {n r t align : Nat}

/-! ## Classes go up with sizes -/

theorem freelistsSize2id_mid (h1 : 256 ≤ t) (h2 : t < 16384) :
    freelistsSize2id t = (t.log2 : Int) - 6 := by
  have hmod : t % 2 ^ 32 = t := Nat.mod_eq_of_lt (by omega)
  unfold freelistsSize2id builtinClz freelistMaxblksize
  rw [if_neg (by omega), if_neg (by omega), if_neg (by omega), hmod]
  omega

theorem log2_mid (h1 : 256 ≤ t) (h2 : t < 16384) : 8 ≤ t.log2 ∧ t.log2 < 14 :=
  ⟨(Nat.le_log2 (by omega)).mpr (by omega), (Nat.log2_lt (by omega)).mpr (by omega)⟩

/-- The list of a size in terms of the class bounds. -/
theorem listOf_eq (t : Nat) : listOf t =
    if t < 64 then 0 else if t < 256 then 1 else if t < 16384 then t.log2 - 6 else 8 := by
  by_cases h1 : t < 64
  · rw [if_pos h1]
    unfold listOf freelistsSize2id
    rw [if_pos h1]
    rfl
  by_cases h2 : t < 256
  · rw [if_neg h1, if_pos h2]
    unfold listOf freelistsSize2id
    rw [if_neg h1, if_pos h2]
    rfl
  by_cases h3 : t < 16384
  · have hlog := log2_mid (by omega) h3
    rw [if_neg h1, if_neg h2, if_pos h3]
    unfold listOf
    rw [freelistsSize2id_mid (by omega) h3, if_neg (by omega)]
    omega
  · rw [if_neg h1, if_neg h2, if_neg h3]
    refine listOf_large ?_
    unfold freelistsSize2id freelistMaxblksize
    rw [if_neg h1, if_neg h2, if_pos (by omega)]
    decide

/-- **Bigger blocks are on later lists.** -/
theorem listOf_mono (h : r ≤ t) : listOf r ≤ listOf t := by
  rw [listOf_eq, listOf_eq]
  by_cases hr : r < 256
  · -- the first two classes
    have hlog : 256 ≤ t → t < 16384 → 8 ≤ t.log2 := fun h1 h2 => (log2_mid h1 h2).1
    split_ifs <;> omega
  by_cases ht : t < 16384
  · have hlog : r.log2 ≤ t.log2 :=
      (Nat.le_log2 (by omega)).mpr ((Nat.log2_self_le (by omega)).trans h)
    rw [if_neg (by omega), if_neg hr, if_pos (by omega), if_neg (by omega), if_neg (by omega),
      if_pos ht]
    omega
  · have hlog : r < 16384 → r.log2 < 14 := fun h2 => (log2_mid (by omega) h2).2
    split_ifs <;> omega

theorem listOf_le (t : Nat) : listOf t ≤ 8 := by
  by_cases hid : freelistsSize2id t < 0
  · rw [listOf_large hid]
  · have hlt := freelistsSize2id_lt t
    rw [(listOf_class hid).1]
    omega

/-- The lists looked at are those from the class of the request up. -/
theorem mem_searchLists (h : listOf r ≤ listOf t) : listOf t ∈ searchLists r := by
  have hle := listOf_le t
  unfold searchLists classLists
  by_cases h8 : listOf t = 8
  · simp [h8]
  · have hnum : freelistNum = 8 := rfl
    have hid : ¬ freelistsSize2id r < 0 := fun hneg => by
      rw [listOf_large hneg] at h
      omega
    rw [if_neg hid, List.mem_append, List.mem_range'_1]
    exact .inl ⟨h, by omega⟩

/-! ## The search is complete -/

/-- **The search comes up empty exactly when no free block is good enough.** -/
theorem pick_eq_none_iff (hl : Layout a e m hd bs L) {f : Nat → Bool}
    (hbig : ∀ b ∈ bs, b.st = .free → f b.ptr → r ≤ b.size) :
    pick f L r = none ↔ ∀ b ∈ bs, b.st = .free → ¬ f b.ptr := by
  unfold pick
  rw [List.findSome?_eq_none_iff]
  constructor
  · intro hnone b hb hst hf
    have hmem : b.ptr ∈ L (listOf b.size) := (hl.listed _ _).mpr ⟨b, hb, rfl, hst, rfl⟩
    have hlist := hnone _ (mem_searchLists (listOf_mono (hbig b hb hst hf)))
    exact List.find?_eq_none.mp hlist b.ptr hmem hf
  · intro hno i hi
    refine List.find?_eq_none.mpr ?_
    intro x hx hf
    obtain ⟨b, hb, rfl, hst, -⟩ := hl.node hx
    exact hno b hb hst hf

/-- Any description of the blocks of a state is its picture. -/
theorem Shows.blocks_eq {ps : List Nat} (hs : Shows a e s bs L)
    (hps : Tiling id (fun p => blkSize s.heap.mem p + 16) (a + 16) ps e) :
    ps = bs.map Block.ptr := by
  refine Tiling.unique (fun _ => Nat.succ_pos _) hps ?_
  exact hs.laid.tiling.map (fun _ _ => rfl) fun b hb => by rw [(hs.marked b hb).1]; rfl

/-- What holds of all free blocks, through the picture and through the macros. -/
theorem Shows.forall_free (hs : Shows a e s bs L) {P : Nat → Nat → Prop} :
    (∀ p ∈ bs.map Block.ptr, blkFreed s.heap.mem p → P p (blkSize s.heap.mem p)) ↔
      ∀ b ∈ bs, b.st = .free → P b.ptr b.size := by
  constructor
  · intro hall b hb hst
    obtain ⟨hsize, hfreed⟩ := hs.marked b hb
    have := hall b.ptr (List.mem_map_of_mem hb) (hfreed.mpr hst)
    rwa [hsize] at this
  · intro hall p hp hf
    obtain ⟨b, hb, rfl⟩ := List.mem_map.mp hp
    obtain ⟨hsize, hfreed⟩ := hs.marked b hb
    rw [hsize]
    exact hall b hb (hfreed.mp hf)

/-! ## The two allocation functions -/

/-- What is looked for is the request rounded up, and at least two words. -/
theorem requestSize_max (hn : n ≤ 2 ^ 64 - 16) :
    requestSize n = max 16 ((n + 15) / 16 * 16) := by
  rw [requestSize_eq hn]
  split <;> omega

/-- **`mpool_alloc` gives null** just if no free block is big enough. -/
theorem alloc_null_iff (hs : Shows a e s bs L) (hcb : s.heap.pool.cbReqmem = none)
    (hn : n ≤ 2 ^ 64 - 16) :
    (mpoolAlloc s.heap n = some (0, s.heap) ↔
      ∀ b ∈ bs, b.st = .free → b.size < requestSize n) ∧
      ∀ h, mpoolAlloc s.heap n = some (0, h) → h = s.heap := by
  have hfit : ∀ b ∈ bs, sizeFits (requestSize n) s.heap.mem b.ptr = true ↔
      requestSize n ≤ b.size := by
    intro b hb
    rw [sizeFits, decide_eq_true_iff, hs.laid.blkSize_eq hb]
  have hpick := pick_eq_none_iff (r := requestSize n) hs.laid
    (f := sizeFits (requestSize n) s.heap.mem) fun b hb _ hf => (hfit b hb).mp hf
  have hno : (∀ b ∈ bs, b.st = .free → ¬ sizeFits (requestSize n) s.heap.mem b.ptr) ↔
      ∀ b ∈ bs, b.st = .free → b.size < requestSize n := by
    refine forall_congr' fun b => forall_congr' fun hb => forall_congr' fun _ => ?_
    rw [hfit b hb, not_le]
  rw [← hno, ← hpick]
  rcases mpoolAlloc_laid hs.laid hcb hn with ⟨hp, hr⟩ | ⟨p, h', k, bs', L', hr, ha⟩
  · refine ⟨⟨fun _ => hp, fun _ => hr⟩, fun h hr' => ?_⟩
    exact (Prod.mk.inj (Option.some.inj (hr'.symm.trans hr))).2
  · have hne : ∀ h, mpoolAlloc s.heap n ≠ some (0, h) := by
      intro h hr'
      exact ha.nonnull (Prod.mk.inj (Option.some.inj (hr.symm.trans hr'))).1
    refine ⟨⟨fun hr' => absurd hr' (hne _), fun hp => ?_⟩, fun h hr' => absurd hr' (hne h)⟩
    -- an empty search would have given null
    have heq := mpoolAlloc_eq hs.laid hcb n
    rwa [hp] at heq

/-- **`mpool_aligned_alloc` gives null** just if no free block has room behind its first
aligned address. -/
theorem alignedAlloc_null_iff (hs : Shows a e s bs L) (hcb : s.heap.pool.cbReqmem = none)
    (hsmall : e < a + 2 ^ 63) (ha : AlignFits e align) (hn : n ≤ 2 ^ 63 - 16) :
    (mpoolAlignedAlloc s.heap n align = some (0, s.heap) ↔
      ∀ b ∈ bs, b.st = .free → b.size < requestSize n + (paddingUp b.ptr align - b.ptr)) ∧
      ∀ h, mpoolAlignedAlloc s.heap n align = some (0, h) → h = s.heap := by
  have hend : 16 ≤ e := by
    have := hs.laid.area.pos
    have := hs.laid.tiling.le
    omega
  have hpow := ha.toPow hend
  have hfit : ∀ b ∈ bs, alignedFits (requestSize n) align s.heap.mem b.ptr = true ↔
      requestSize n + (paddingUp b.ptr align - b.ptr) ≤ b.size := by
    rintro ⟨x, t, st⟩ hb
    obtain ⟨pre, post, rfl⟩ := List.append_of_mem hb
    have hbd := hs.laid.bounds hb
    have hf := hs.laid.fitsOf hb
    dsimp only at hbd
    obtain ⟨h1, h2⟩ := ha.rounds hend (x := x) (by omega) hf.ptrAlign
    constructor
    · intro hfit
      exact (alignedFits_spec hf (hs.laid.blkSize_eq hb) hpow (requestSize_lt hn) hfit).2.2.2.2
    · intro hroom
      exact alignedFits_of_room (s := t) (hs.laid.blkSize_eq hb) (by omega) h1 h2 hroom
  have hpick := pick_eq_none_iff (r := requestSize n) hs.laid
    (f := alignedFits (requestSize n) align s.heap.mem) fun b hb _ hf => by
      have := (hfit b hb).mp hf
      omega
  have hno : (∀ b ∈ bs, b.st = .free → ¬ alignedFits (requestSize n) align s.heap.mem b.ptr) ↔
      ∀ b ∈ bs, b.st = .free → b.size < requestSize n + (paddingUp b.ptr align - b.ptr) := by
    refine forall_congr' fun b => forall_congr' fun hb => forall_congr' fun _ => ?_
    rw [hfit b hb, not_le]
  rw [← hno, ← hpick]
  have heq := mpoolAlignedAlloc_eq (n := n) hs.laid hcb hpow
  cases hp : pick (alignedFits (requestSize n) align s.heap.mem) L (requestSize n) with
  | none =>
      rw [hp] at heq
      refine ⟨⟨fun _ => rfl, fun _ => heq⟩, fun h hr => ?_⟩
      exact (Prod.mk.inj (Option.some.inj (hr.symm.trans heq))).2
  | some x =>
      -- whatever block was picked, what is handed out is not null
      have hne : ∀ h, mpoolAlignedAlloc s.heap n align ≠ some (0, h) := by
        intro h hr
        by_cases hgap : GapOk s.heap n align
        · rcases mpoolAlignedAlloc_laid hs.laid hcb hn hpow hgap with ⟨hp', -⟩ |
            ⟨p, h', k, bs', L', hr', -, hall⟩
          · exact absurd (hp'.symm.trans hp) (by simp)
          · exact hall.nonnull (Prod.mk.inj (Option.some.inj (hr'.symm.trans hr))).1
        · obtain ⟨p, h', hr', hp0, -⟩ := mpoolAlignedAlloc_zero hs.laid hcb hn hpow hgap
          exact hp0 (Prod.mk.inj (Option.some.inj (hr'.symm.trans hr))).1
      exact ⟨⟨fun hr => absurd hr (hne _), fun hp' => absurd hp' (by simp)⟩,
        fun h hr => absurd hr (hne h)⟩

/--
**Exact exhaustion.**

In every state that a run leads to, an allocation gives null if and only if no
free block has the size looked for, an aligned one if and only if no free block
has that much room behind its first aligned address; and null means that nothing
has changed. For the aligned search, which compares sizes as `long`, the area is
one object of the language and so less than `2 ^ 63` bytes.
-/
theorem exhaustion_exact {pool size : Nat} (hplace : PoolPlace pool a size)
    (hrun : Reachable (PoolStart a size) PoolStep s) :
    ∃ ps L, HeapSafe a (a + size) s.heap s.live ps L ∧
      (∀ n ≤ 2 ^ 64 - 16,
        (mpoolAlloc s.heap n = some (0, s.heap) ↔ ∀ p ∈ ps, blkFreed s.heap.mem p →
          blkSize s.heap.mem p < max 16 ((n + 15) / 16 * 16)) ∧
        ∀ h, mpoolAlloc s.heap n = some (0, h) → h = s.heap) ∧
      (size < 2 ^ 63 → ∀ align, AlignFits (a + size) align → ∀ n ≤ 2 ^ 63 - 16,
        (mpoolAlignedAlloc s.heap n align = some (0, s.heap) ↔ ∀ p ∈ ps, blkFreed s.heap.mem p →
          blkSize s.heap.mem p < max 16 ((n + 15) / 16 * 16) + (paddingUp p align - p)) ∧
        ∀ h, mpoolAlignedAlloc s.heap n align = some (0, h) → h = s.heap) := by
  have hi := inv_reachable hplace hrun
  obtain ⟨ps, L', hsafe⟩ := heapSafe_of_inv hi
  obtain ⟨bs, L, hs⟩ := hi.shows
  refine ⟨ps, L', hsafe, fun n hn => ?_, fun hsmall align ha n hn => ?_⟩
  · obtain ⟨hiff, hsame⟩ := alloc_null_iff hs hi.quiet hn
    refine ⟨?_, hsame⟩
    rw [hs.blocks_eq hsafe.tiling, hs.forall_free (P := fun _ t => t < max 16 _),
      ← requestSize_max hn]
    exact hiff
  · obtain ⟨hiff, hsame⟩ := alignedAlloc_null_iff hs hi.quiet (by omega) ha hn
    refine ⟨?_, hsame⟩
    rw [hs.blocks_eq hsafe.tiling,
      hs.forall_free (P := fun p t => t < max 16 _ + (paddingUp p align - p)),
      ← requestSize_max (by omega)]
    exact hiff

/-- In the smallest pool before any allocation, what is there can be had and no more. -/
theorem exhaustion_exact_fresh :
    ∃ ps L, HeapSafe 65536 (65536 + 16416) (mpoolInit emptyHeap 65536 16416).2 [] ps L ∧
      ∀ n ≤ 2 ^ 64 - 16, (mpoolAlloc (mpoolInit emptyHeap 65536 16416).2 n =
          some (0, (mpoolInit emptyHeap 65536 16416).2) ↔
        ∀ p ∈ ps, blkFreed (mpoolInit emptyHeap 65536 16416).2.mem p →
          blkSize (mpoolInit emptyHeap 65536 16416).2.mem p < max 16 ((n + 15) / 16 * 16)) := by
  have hplace : PoolPlace 4096 65536 16416 := by constructor <;> decide
  have hinit : (mpoolInit emptyHeap 65536 16416).1 = true := by decide +kernel
  have hstart : Reachable (PoolStart 65536 16416) PoolStep
      ⟨(mpoolInit emptyHeap 65536 16416).2, []⟩ :=
    .init ⟨⟨emptyHeap, Prod.ext hinit rfl⟩, rfl⟩
  obtain ⟨ps, L, hsafe, halloc, -⟩ := exhaustion_exact hplace hstart
  exact ⟨ps, L, hsafe, fun n hn => (halloc n hn).1⟩

end IonOS.Alloc
