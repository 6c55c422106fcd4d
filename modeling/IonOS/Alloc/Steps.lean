import IonOS.Alloc.Lists

/-!
# The allocator's building blocks, one by one

Each function of the allocator, as a move on the picture: which blocks it turns
into which. Whole operations never look at tags or links again; they chain these
statements.
-/

namespace IonOS.Alloc

open IonOS.Lib

/-! ## List numbers and list heads -/

theorem freelistsSize2id_lt (size : Nat) : freelistsSize2id size < 8 := by
  unfold freelistsSize2id builtinClz freelistMaxblksize
  split
  · decide
  · split
    · decide
    · split
      · decide
      · have hmod : size % 2 ^ 32 = size := Nat.mod_eq_of_lt (by omega)
        have hlog : size.log2 < 14 := (Nat.log2_lt (by omega)).mpr (by omega)
        rw [hmod]
        omega

theorem listOf_large {size : Nat} (h : freelistsSize2id size < 0) : listOf size = 8 := by
  rw [listOf, if_pos h]

theorem listOf_class {size : Nat} (h : ¬ freelistsSize2id size < 0) :
    listOf size = (freelistsSize2id size).toNat ∧ listOf size ≠ 8 := by
  have := freelistsSize2id_lt size
  rw [listOf, if_neg h]
  exact ⟨rfl, by omega⟩

@[simp] theorem listHead_large (p : Mpool) : listHead p 8 = p.largeBlk := by simp [listHead]

@[simp] theorem listHead_class (p : Mpool) {i : Nat} (h : i ≠ 8) : listHead p i = p.freed i := by
  simp [listHead, h]

theorem listHead_setLarge (p : Mpool) (v : Nat) :
    listHead { p with largeBlk := v } = Function.update (listHead p) 8 v := by
  simp [listHead]

theorem listHead_setFreed (p : Mpool) {i : Nat} (h : i ≠ 8) (v : Nat) :
    listHead { p with freed := Function.update p.freed i v } =
      Function.update (listHead p) i v := by
  simp [listHead, Function.update_comm h]

/-- What of a pool the list operations never touch. -/
def Mpool.rest (p : Mpool) : Nat × Nat × Nat × Option (Nat → Nat → Nat) × Bool :=
  (p.ptr, p.size, p.allocedSize, p.cbReqmem, p.cbDelmem)

theorem Mpool.rest_cb {p q : Mpool} (h : p.rest = q.rest) : p.cbReqmem = q.cbReqmem :=
  congrArg (fun r => r.2.2.2.1) h

/-- The books after a block of `n` bytes came into use. -/
def Mpool.credit (p : Mpool) (n : Nat) : Mpool := { p with allocedSize := addW p.allocedSize n }

/-- The books after a block of `n` bytes was given back. -/
def Mpool.debit (p : Mpool) (n : Nat) : Mpool := { p with allocedSize := subW p.allocedSize n }

theorem listHead_credit (p : Mpool) (n : Nat) : listHead (p.credit n) = listHead p := rfl

theorem Mpool.rest_credit {p q : Mpool} (h : p.rest = q.rest) (n : Nat) :
    (p.credit n).rest = (q.credit n).rest := by
  simp only [Mpool.rest, Mpool.credit, Prod.mk.injEq] at h ⊢
  exact ⟨h.1, h.2.1, by rw [h.2.2.1], h.2.2.2⟩

/-- The layout of a heap. -/
abbrev Laid (a e : Nat) (h : Heap Mpool) (bs : List Block) (L : Nat → List Nat) : Prop :=
  Layout a e h.mem (listHead h.pool) bs L

variable {a e : Nat} {h : Heap Mpool} {bs pre post : List Block} {L : Nat → List Nat} {x s w : Nat}
  {st : BlkState}

/-! ## What a move leaves alone -/

/-- The byte at `w` is in no block but live ones. -/
def Outside (bs : List Block) (w : Nat) : Prop :=
  ∀ b ∈ bs, b.st ≠ .live → w + 8 < b.ptr ∨ b.ptr + b.size + 8 ≤ w

/-- Nothing was stored outside the blocks that were not live, and no more of them are so now. -/
def Kept (m : Mem) (bs : List Block) (m' : Mem) (bs' : List Block) : Prop :=
  ∀ w, Outside bs w → m' w = m w ∧ Outside bs' w

theorem Kept.refl (m : Mem) (bs : List Block) : Kept m bs m bs := fun _ hw => ⟨rfl, hw⟩

theorem Kept.trans {m m' m'' : Mem} {bs bs' bs'' : List Block} (h : Kept m bs m' bs')
    (h' : Kept m' bs' m'' bs'') : Kept m bs m'' bs'' := by
  intro w hw
  obtain ⟨h1, h2⟩ := h w hw
  obtain ⟨h3, h4⟩ := h' w h2
  exact ⟨h3.trans h1, h4⟩

theorem outside_append {cs : List Block} :
    Outside (bs ++ cs) w ↔ Outside bs w ∧ Outside cs w := by
  simp only [Outside, List.mem_append, or_imp, forall_and]

theorem outside_cons {b : Block} :
    Outside (b :: bs) w ↔
      (b.st ≠ .live → w + 8 < b.ptr ∨ b.ptr + b.size + 8 ≤ w) ∧ Outside bs w := by
  simp only [Outside, List.mem_cons, forall_eq_or_imp]

/-- What is outside a block in hand is outside it in any state. -/
theorem Outside.of_hand (hw : Outside (pre ++ ⟨x, s, .hand⟩ :: post) w) :
    Outside (pre ++ ⟨x, s, st⟩ :: post) w := by
  simp only [outside_append, outside_cons] at hw ⊢
  exact ⟨hw.1, fun _ => hw.2.1 (by simp), hw.2.2⟩

/-- A byte that is in no free block is in no list node. -/
theorem Outside.node {m : Mem} {hd : Nat → Nat} (hw : Outside bs w) (hl : Layout a e m hd bs L)
    {i y : Nat} (hy : y ∈ L i) : w < y ∨ y + 16 ≤ w := by
  obtain ⟨b, hb, rfl, hf, -⟩ := hl.node hy
  have := (hl.sizes b hb).2
  have := hw b hb (by rw [hf]; simp)
  omega

/-- `detach` in terms of the list its block belongs to. -/
theorem detach_eq (hs : blkSize h.mem x = s) :
    (detach h x).mem = (freelistDetach h.mem (listHead h.pool (listOf s)) x).2 ∧
      listHead (detach h x).pool = Function.update (listHead h.pool) (listOf s)
        (freelistDetach h.mem (listHead h.pool (listOf s)) x).1 ∧
      (detach h x).pool.rest = h.pool.rest := by
  unfold detach
  rw [hs]
  by_cases hid : freelistsSize2id s < 0
  · rw [if_pos hid, listOf_large hid, listHead_large]
    exact ⟨rfl, listHead_setLarge _ _, rfl⟩
  · obtain ⟨hlist, hne⟩ := listOf_class hid
    rw [if_neg hid, freelistsDetach_eq, ← hlist, listHead_class _ hne]
    exact ⟨rfl, listHead_setFreed _ hne _, rfl⟩

/-- **`_detach` takes a free block into the hand.** -/
theorem detach_laid (hl : Laid a e h (pre ++ ⟨x, s, .free⟩ :: post) L) :
    Laid a e (detach h x) (pre ++ ⟨x, s, .hand⟩ :: post)
      (Function.update L (listOf s) ((L (listOf s)).erase x)) ∧
      (detach h x).pool.rest = h.pool.rest ∧
      Kept h.mem (pre ++ ⟨x, s, .free⟩ :: post) (detach h x).mem
        (pre ++ ⟨x, s, .hand⟩ :: post) := by
  have hs : blkSize h.mem x = s := hl.blkSize_eq (b := ⟨x, s, .free⟩) (by simp)
  obtain ⟨hm, hhd, hrest⟩ := detach_eq hs
  refine ⟨?_, hrest, fun w hw => ⟨?_, ?_⟩⟩
  · show Layout a e (detach h x).mem (listHead (detach h x).pool) _ _
    rw [hm, hhd]
    exact hl.detach
  · have hx : x ∈ L (listOf s) := (hl.listed _ _).mpr ⟨⟨x, s, .free⟩, by simp, rfl, rfl, rfl⟩
    rw [hm]
    exact (hl.wellFormed (listOf s)).detach_writes hx w fun y hy =>
      hw.node hl (List.mem_of_mem_erase hy)
  · simpa [outside_append, outside_cons] using hw

/-! ## Flags -/

/-- A block in hand or in use may change its state by storing to its own tags. -/
theorem retag {m' : Mem} {hd : Nat → Nat} {m : Mem}
    (hl : Layout a e m hd (pre ++ ⟨x, s, st⟩ :: post) L) {st' : BlkState}
    (hst : st ≠ .free) (hst' : st' ≠ .free) (htag : Tagged m' ⟨x, s, st'⟩)
    (hm : ∀ w, w + 8 < x ∨ x + s + 8 ≤ w → m' w = m w) :
    Layout a e m' hd (pre ++ ⟨x, s, st'⟩ :: post) L := by
  have hlow := (hl.fitsOf (b := ⟨x, s, st⟩) (by simp)).low
  have hone : ∀ st : BlkState, Tiling Block.ptr Block.len x [⟨x, s, st⟩] (x + (s + 16)) :=
    fun _ => ⟨rfl, rfl⟩
  have := Layout.replace [⟨x, s, st⟩] [⟨x, s, st'⟩] m' (by simpa using hl)
    (hone st) (by simp) (hone st') (by simpa using hst) (by simpa using hst')
    (by simpa using hl.sizes ⟨x, s, st⟩ (by simp)) (by simpa using htag)
    (fun w hw => hm w (by omega))
  simpa using this

/-- Forgetting that a live block is live. -/
theorem takeLive (hl : Laid a e h (pre ++ ⟨x, s, .live⟩ :: post) L) :
    Laid a e h (pre ++ ⟨x, s, .hand⟩ :: post) L :=
  retag hl (by simp) (by simp) (hl.tags ⟨x, s, .live⟩ (by simp)).hand fun _ _ => rfl

/-- The stores of a flag setter stay inside the block's tags. -/
theorem flagWrites_other (hf : Fits x s) (m : Mem) (v w : Nat) :
    ∀ y, y + 8 < x ∨ x + s + 8 ≤ y →
      (m.write64 (subW x 8) v).write64 (addW x s) w y = m y :=
  fun _ hy => tagWrites_other hf m v w hy

theorem setalloced_laid (hl : Laid a e h (pre ++ ⟨x, s, .hand⟩ :: post) L) :
    Layout a e (blkSetalloced h.mem x s) (listHead h.pool) (pre ++ ⟨x, s, .live⟩ :: post) L := by
  have hf : Fits x s := hl.fitsOf (b := ⟨x, s, .hand⟩) (by simp)
  exact retag hl (by simp) (by simp)
    (blkSetalloced_tagged hf (hl.tags ⟨x, s, .hand⟩ (by simp))) (flagWrites_other hf _ _ _)

theorem setArea2M_laid {m : Mem} {hd : Nat → Nat} (hst : st ≠ .free)
    (hl : Layout a e m hd (pre ++ ⟨x, s, st⟩ :: post) L) :
    Layout a e (blkSetArea2M m x s) hd (pre ++ ⟨x, s, st⟩ :: post) L := by
  have hf : Fits x s := hl.fitsOf (b := ⟨x, s, st⟩) (by simp)
  exact retag hl hst hst
    (blkSetArea2M_tagged hf (hl.tags ⟨x, s, st⟩ (by simp))) (flagWrites_other hf _ _ _)

/-! ## Freeing a block in hand -/

/-- `doFree` in terms of the list its block belongs to. -/
theorem doFree_eq {m : Mem} (hm : m = blkSetfreed h.mem x (blkSize h.mem x))
    (hs : blkSize m x = s) :
    (doFree h x).mem = (freelistPut m (listHead h.pool (listOf s)) x).2 ∧
      listHead (doFree h x).pool = Function.update (listHead h.pool) (listOf s)
        (freelistPut m (listHead h.pool (listOf s)) x).1 ∧
      (doFree h x).pool.rest = h.pool.rest := by
  unfold doFree
  dsimp only
  rw [← hm, freelistsPut, hs]
  by_cases hid : freelistsSize2id s < 0
  · rw [if_pos hid, listOf_large hid, listHead_large]
    exact ⟨rfl, listHead_setLarge _ _, rfl⟩
  · obtain ⟨hlist, hne⟩ := listOf_class hid
    rw [if_neg hid, ← hlist, listHead_class _ hne]
    exact ⟨rfl, listHead_setFreed _ hne _, rfl⟩

/-- **`do_free` puts a block in hand on its list.** -/
theorem doFree_laid (hl : Laid a e h (pre ++ ⟨x, s, .hand⟩ :: post) L) :
    Laid a e (doFree h x) (pre ++ ⟨x, s, .free⟩ :: post)
      (Function.update L (listOf s) (x :: L (listOf s))) ∧
      (doFree h x).pool.rest = h.pool.rest ∧
      Kept h.mem (pre ++ ⟨x, s, .hand⟩ :: post) (doFree h x).mem
        (pre ++ ⟨x, s, .free⟩ :: post) := by
  have hf : Fits x s := hl.fitsOf (b := ⟨x, s, .hand⟩) (by simp)
  have hs : blkSize h.mem x = s := hl.blkSize_eq (b := ⟨x, s, .hand⟩) (by simp)
  have htag := blkSetfreed_tagged hf (hl.tags ⟨x, s, .hand⟩ (by simp))
  have hl1 : Layout a e (blkSetfreed h.mem x s) (listHead h.pool) _ L :=
    retag hl (by simp) (by simp) htag.hand (flagWrites_other hf _ _ _)
  have hs1 : blkSize (blkSetfreed h.mem x s) x = s :=
    hl1.blkSize_eq (b := ⟨x, s, .hand⟩) (by simp)
  obtain ⟨hm, hhd, hrest⟩ := doFree_eq (h := h) (m := blkSetfreed h.mem x s) (by rw [hs]) hs1
  refine ⟨?_, hrest, fun w hw => ⟨?_, ?_⟩⟩
  · show Layout a e (doFree h x).mem (listHead (doFree h x).pool) _ _
    rw [hm, hhd]
    exact hl1.put htag
  · have hx := hw ⟨x, s, .hand⟩ (by simp) (by simp)
    have hmin := (hl.sizes ⟨x, s, .hand⟩ (by simp)).2
    dsimp only at hx hmin
    rw [hm, freelistPut_other (hl1.lists _) (hl1.head_lt _) (by omega) fun y hy => hw.node hl hy]
    exact flagWrites_other hf _ _ _ w (by omega)
  · simpa [outside_append, outside_cons] using hw

/-! ## Splitting -/

/-- What `blk_split` stores: fresh tags for both parts, the area flag carried over. Those of the
second part are the ones of a live block. -/
theorem blkSplit_tagged {m : Mem} {size : Nat} (hf : Fits x s) (hs : blkSize m x = s)
    (h16 : size % 16 = 0) (hsz : size + 16 ≤ s) (hst : st ≠ .free) :
    (blkSplit m x size).1 = x + size + 16 ∧
      Tagged (blkSplit m x size).2 ⟨x, size, st⟩ ∧
      Tagged (blkSplit m x size).2 ⟨x + size + 16, s - size - 16, .live⟩ ∧
      ∀ w, w + 8 < x ∨ x + s + 8 ≤ w → (blkSplit m x size).2 w = m w := by
  obtain ⟨h1, h2, h3, h4⟩ := hf
  have hoff : addW size 16 = size + 16 := addW_of_lt (by omega)
  have hrem : subW s (size + 16) = s - size - 16 := by
    rw [subW_of_le (by omega) (by omega)]; omega
  have hadd : addW x (size + 16) = x + size + 16 := by
    rw [addW_of_lt (by omega)]; omega
  have hf1 : Fits x size := ⟨h1, h16, h3, by omega⟩
  have hf2 : Fits (x + size + 16) (s - size - 16) := ⟨by omega, by omega, by omega, by omega⟩
  -- the tags of the first part survive the stores for the second
  have keep : ∀ {m : Mem} (v w : Nat), Tagged m ⟨x, size, st⟩ →
      Tagged ((m.write64 (subW (x + size + 16) 8) v).write64
        (addW (x + size + 16) (s - size - 16)) w) ⟨x, size, st⟩ := by
    intro m v w ht
    refine ht.congr ?_ ?_
    · refine Mem.read64_congr fun y _ hy => tagWrites_other hf2 m v w (.inl ?_)
      dsimp only at hy
      omega
    · refine Mem.read64_congr fun y _ hy => tagWrites_other hf2 m v w (.inl ?_)
      dsimp only at hy
      omega
  unfold blkSplit
  dsimp only
  rw [hs, hoff, hrem, hadd]
  refine ⟨rfl, ?_⟩
  by_cases h2M : blkAreaIs2M m x
  · rw [if_pos h2M, if_pos h2M]
    have hfirst := blkSetArea2M_tagged hf1 (blkSetsize_tagged hf1 m hst)
    refine ⟨keep _ _ (keep _ _ hfirst),
      blkSetArea2M_tagged hf2 (blkSetsize_tagged hf2 _ (by simp)), fun w hw => ?_⟩
    rw [blkSetArea2M, tagWrites_other hf2 _ _ _ (by omega), blkSetsize,
      tagWrites_other hf2 _ _ _ (by omega), blkSetArea2M, tagWrites_other hf1 _ _ _ (by omega),
      blkSetsize, tagWrites_other hf1 _ _ _ (by omega)]
  · rw [if_neg h2M, if_neg h2M]
    refine ⟨keep _ _ (blkSetsize_tagged hf1 m hst), blkSetsize_tagged hf2 _ (by simp),
      fun w hw => ?_⟩
    rw [blkSetsize, tagWrites_other hf2 _ _ _ (by omega), blkSetsize,
      tagWrites_other hf1 _ _ _ (by omega)]

/-- **Cutting a block in two.** The second part stays in hand. -/
theorem blkSplit_laid {size : Nat} (hst : st ≠ .free)
    (hl : Laid a e h (pre ++ ⟨x, s, st⟩ :: post) L)
    (h16 : size % 16 = 0) (hmin : 16 ≤ size) (hsz : size + 32 ≤ s) :
    (blkSplit h.mem x size).1 = x + size + 16 ∧
      Layout a e (blkSplit h.mem x size).2 (listHead h.pool)
        ((pre ++ [⟨x, size, st⟩]) ++ ⟨x + size + 16, s - size - 16, .hand⟩ :: post) L ∧
      Kept h.mem (pre ++ ⟨x, s, .hand⟩ :: post) (blkSplit h.mem x size).2
        ((pre ++ [⟨x, size, .hand⟩]) ++ ⟨x + size + 16, s - size - 16, .hand⟩ :: post) := by
  have hf : Fits x s := hl.fitsOf (b := ⟨x, s, st⟩) (by simp)
  have hs : blkSize h.mem x = s := hl.blkSize_eq (b := ⟨x, s, st⟩) (by simp)
  have h16s := hf.sizeAlign
  have hlow := hf.low
  obtain ⟨hptr, ht1, ht2, hm⟩ := blkSplit_tagged hf hs h16 (by omega) hst
  refine ⟨hptr, ?_, fun w hw => ?_⟩
  · have := Layout.replace (p := x) (q := x + (s + 16)) [⟨x, s, st⟩]
      [⟨x, size, st⟩, ⟨x + size + 16, s - size - 16, .hand⟩]
      (blkSplit h.mem x size).2 (by simpa using hl)
      ⟨rfl, rfl⟩ (by simp) ⟨rfl, rfl, by show x + (size + 16) + (s - size - 16 + 16) = _; omega⟩
      (by simpa using hst) (by simpa using hst)
      (by simp only [List.mem_cons, List.not_mem_nil, or_false, forall_eq_or_imp, forall_eq]
          omega)
      (by simpa using ⟨ht1, ht2.hand⟩) (fun w hw => hm w (by omega))
    simpa using this
  · simp only [outside_append, outside_cons, ne_eq, reduceCtorEq, not_false_eq_true,
      forall_const] at hw ⊢
    have hx := hw.2.1
    exact ⟨hm w hx, ⟨hw.1, by omega, by simp [Outside]⟩, by omega, hw.2.2⟩

/-- The size a block keeps when `trySplitAndFree` is through with it. -/
def splitSize (s size : Nat) : Nat := if size + 64 ≤ s then size else s

/-- The free block `trySplitAndFree` cuts off, if any. -/
def splitRest (x s size : Nat) : List Block :=
  if size + 64 ≤ s then [⟨x + size + 16, s - size - 16, .free⟩] else []

theorem splitRest_free {size : Nat} {b : Block} (hb : b ∈ splitRest x s size) : b.st = .free := by
  unfold splitRest at hb
  split at hb
  · obtain rfl : b = _ := by simpa using hb
    rfl
  · exact absurd hb (by simp)

/-- **Cutting off what is not needed.** -/
theorem trySplitAndFree_laid {size : Nat} (hst : st ≠ .free)
    (hl : Laid a e h (pre ++ ⟨x, s, st⟩ :: post) L)
    (h16 : size % 16 = 0) (hmin : 16 ≤ size) (hsz : size ≤ s) :
    ∃ L', Laid a e (trySplitAndFree h x size).2
        (pre ++ ⟨x, splitSize s size, st⟩ :: (splitRest x s size ++ post)) L' ∧
      (trySplitAndFree h x size).2.pool.rest = h.pool.rest ∧
      Kept h.mem (pre ++ ⟨x, s, .hand⟩ :: post) (trySplitAndFree h x size).2.mem
        (pre ++ ⟨x, splitSize s size, .hand⟩ :: (splitRest x s size ++ post)) := by
  have hs : blkSize h.mem x = s := hl.blkSize_eq (b := ⟨x, s, st⟩) (by simp)
  have hroom := hl.area.room
  have hbd := hl.bounds (b := ⟨x, s, st⟩) (by simp)
  dsimp only at hbd
  unfold trySplitAndFree splitSize splitRest
  rw [hs, addW_of_lt (by omega)]
  by_cases hc : size + 64 ≤ s
  · rw [if_pos hc, if_pos hc, if_pos hc]
    obtain ⟨hptr, hl1, hk1⟩ := blkSplit_laid hst hl h16 hmin (by omega)
    dsimp only
    rw [hptr]
    obtain ⟨hl2, hrest, hk2⟩ :=
      doFree_laid (h := { h with mem := (blkSplit h.mem x size).2 }) hl1
    refine ⟨_, by simpa using hl2, hrest, fun w hw => ?_⟩
    obtain ⟨h1, hout⟩ := hk1 w hw
    have hout' : Outside ((pre ++ [⟨x, size, st⟩]) ++ ⟨x + size + 16, s - size - 16, .hand⟩ ::
        post) w := by
      simpa using Outside.of_hand (by simpa using hout)
    refine ⟨(hk2 w hout').1.trans h1, ?_⟩
    simpa [outside_append, outside_cons] using hout
  · rw [if_neg hc, if_neg hc, if_neg hc]
    exact ⟨L, hl, rfl, Kept.refl _ _⟩

/-- Marking the block of an allocation. -/
theorem finishAlloc_laid {size : Nat}
    (hl : Laid a e h (pre ++ ⟨x, s, .hand⟩ :: post) L)
    (h16 : size % 16 = 0) (hmin : 16 ≤ size) (hsz : size ≤ s) :
    ∃ L', Laid a e (finishAlloc h x size)
        (pre ++ ⟨x, splitSize s size, .live⟩ :: (splitRest x s size ++ post)) L' ∧
      (finishAlloc h x size).pool.rest = (h.pool.credit (splitSize s size)).rest ∧
      Kept h.mem (pre ++ ⟨x, s, .hand⟩ :: post) (finishAlloc h x size).mem
        (pre ++ ⟨x, splitSize s size, .live⟩ :: (splitRest x s size ++ post)) := by
  obtain ⟨L', hl1, hrest, hk1⟩ := trySplitAndFree_laid (by simp) hl h16 hmin hsz
  have hs1 : blkSize (trySplitAndFree h x size).2.mem x = splitSize s size :=
    hl1.blkSize_eq (b := ⟨x, splitSize s size, .hand⟩) (by simp)
  have hf1 : Fits x (splitSize s size) :=
    hl1.fitsOf (b := ⟨x, splitSize s size, .hand⟩) (by simp)
  have hmem : (finishAlloc h x size).mem =
      blkSetalloced (trySplitAndFree h x size).2.mem x (splitSize s size) := by
    unfold finishAlloc
    dsimp only
    rw [hs1]
  have hpool : (finishAlloc h x size).pool =
      (trySplitAndFree h x size).2.pool.credit (splitSize s size) := by
    unfold finishAlloc
    dsimp only
    rw [hs1]
    rfl
  refine ⟨L', ?_, ?_, fun w hw => ?_⟩
  · show Layout a e (finishAlloc h x size).mem (listHead (finishAlloc h x size).pool) _ _
    rw [hmem, hpool, listHead_credit]
    exact setalloced_laid hl1
  · rw [hpool]
    exact Mpool.rest_credit hrest _
  · obtain ⟨h1, hout⟩ := hk1 w hw
    have hx := hout ⟨x, splitSize s size, .hand⟩ (by simp) (by simp)
    rw [hmem]
    exact ⟨(flagWrites_other hf1 _ _ _ w (by dsimp only at hx; omega)).trans h1, hout.of_hand⟩

end IonOS.Alloc
