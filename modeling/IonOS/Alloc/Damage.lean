import IonOS.Alloc.Resize

/-!
# What a move into the gap of 16 leaves

An aligned reallocation that moves its block may meet the gap of 16. The block it
hands out starts where the list node of the empty block in front of it ends, so its
head word is a link. The release that follows goes on as if nothing had happened:
it looks at the neighbours of the old block and at list nodes, and never at the
stretch that is damaged but for two flags in its last word.

So it does what it would do had the gap been 32, and there the stretch is a free
block and a live one, as in any layout. `Twin` is the comparison. What it tells is
how the books stand: if the counter is the sum of the sizes, the new block has none.
-/

namespace IonOS.Alloc

open IonOS.Lib IonOS.Libs

variable {a e : Nat} {h g g' : Heap Mpool} {m m' : Mem} {bs pre post : List Block}
  {L L' : Nat → List Nat} {s : PoolState} {x y p q k n t w align size : Nat}

/-! ## Memories that differ in one stretch -/

/-- The same bytes outside the block of `size` bytes at `x` and its tags, and the same flags in
its tail. -/
structure Alike (x size : Nat) (m m' : Mem) : Prop where
  byte : ∀ v, v + 8 < x ∨ x + size + 8 ≤ v → m' v = m v
  flags : (m' (x + size)).toNat % 4 = (m (x + size)).toNat % 4

/-- A block clear of the stretch. -/
def Spared (x size y k : Nat) : Prop := y + k + 16 ≤ x ∨ x + size + 16 ≤ y

namespace Alike

theorem word (ha : Alike x size m m') (hw : w + 16 ≤ x ∨ x + size + 8 ≤ w) :
    m'.read64 w = m.read64 w :=
  Mem.read64_congr fun v h1 h2 => ha.byte v (by omega)

theorem tail (ha : Alike x size m m') :
    m'.read64 (x + size) % 4 = m.read64 (x + size) % 4 := by
  rw [Mem.read64_mod_four, Mem.read64_mod_four, ha.flags]

/-- The same store to both, wherever it goes. -/
theorem write (ha : Alike x size m m') (w v : Nat) :
    Alike x size (m.write64 w v) (m'.write64 w v) := by
  refine ⟨fun u hu => ?_, ?_⟩
  · rcases Mem.write64_cases m m' w v u with he | ⟨h1, h2⟩
    · exact he
    · rw [h1, h2]
      exact ha.byte u hu
  · rcases Mem.write64_cases m m' w v (x + size) with he | ⟨h1, h2⟩
    · rw [he]
    · rw [h1, h2]
      exact ha.flags

/-! ### Tags -/

theorem head (ha : Alike x size m m') (hf : Fits y k) (hs : Spared x size y k) :
    blkHead m' y = blkHead m y := by
  obtain ⟨-, -, hlow, hhigh⟩ := hf
  unfold Spared at hs
  rw [blkHead_eq m' (by omega) (by omega), blkHead_eq m (by omega) (by omega)]
  exact ha.word (by omega)

theorem blkSize (ha : Alike x size m m') (hf : Fits y k) (hs : Spared x size y k) :
    Alloc.blkSize m' y = Alloc.blkSize m y := by
  unfold Alloc.blkSize
  rw [ha.head hf hs]

theorem is2M (ha : Alike x size m m') (hf : Fits y k) (hs : Spared x size y k) :
    blkAreaIs2M m' y = blkAreaIs2M m y := by
  unfold blkAreaIs2M
  rw [ha.head hf hs]

theorem setsize (ha : Alike x size m m') (y k : Nat) :
    Alike x size (blkSetsize m y k) (blkSetsize m' y k) := (ha.write _ _).write _ _

/-- The flag setters store what they read. -/
theorem setTags (ha : Alike x size m m') (hf : Fits y k) (hs : Spared x size y k)
    (f : Nat → Nat) :
    Alike x size
      ((m.write64 (subW y 8) (f (blkHead m y))).write64 (addW y k)
        (f (blkTail (m.write64 (subW y 8) (f (blkHead m y))) y k)))
      ((m'.write64 (subW y 8) (f (blkHead m' y))).write64 (addW y k)
        (f (blkTail (m'.write64 (subW y 8) (f (blkHead m' y))) y k))) := by
  obtain ⟨-, -, hlow, hhigh⟩ := id hf
  rw [ha.head hf hs]
  have h1 := ha.write (subW y 8) (f (blkHead m y))
  -- the tail is read after the head has been stored
  unfold Spared at hs
  rw [blkTail_eq _ (by omega), blkTail_eq _ (by omega), h1.word (by omega)]
  exact h1.write _ _

theorem setfreed (ha : Alike x size m m') (hf : Fits y k) (hs : Spared x size y k) :
    Alike x size (blkSetfreed m y k) (blkSetfreed m' y k) := ha.setTags hf hs (· ||| freeFlag)

theorem setArea2M (ha : Alike x size m m') (hf : Fits y k) (hs : Spared x size y k) :
    Alike x size (blkSetArea2M m y k) (blkSetArea2M m' y k) := ha.setTags hf hs (· ||| sizeFlag)

/-! ### Lists -/

theorem put (ha : Alike x size m m') (hy : y + 16 ≤ x ∨ x + size + 8 ≤ y) (list : Nat) :
    Alike x size (freelistPut m list y).2 (freelistPut m' list y).2 := by
  have h1 := (ha.write y list).write (y + 8) 0
  have hread := h1.word hy
  unfold freelistPut
  dsimp only
  rw [hread]
  split
  · exact h1.write _ _
  · exact h1

/-- Putting the stretch's own node on a list. -/
theorem putOwn (ha : Alike x size m m') {list : Nat} (hlt : list < 2 ^ 64) :
    Alike x size (freelistPut m list x).2 (freelistPut m' list x).2 := by
  have h1 := (ha.write x list).write (x + 8) 0
  unfold freelistPut
  dsimp only
  rw [put_words m x hlt, put_words m' x hlt]
  split
  · exact h1.write _ _
  · exact h1

theorem unlink (ha : Alike x size m m') (hy : y + 24 ≤ x ∨ x + size + 8 ≤ y) :
    Alike x size (freelistUnlink m y) (freelistUnlink m' y) := by
  have hnext := ha.word (w := y) (by omega)
  have hprev := ha.word (w := y + 8) (by omega)
  have h1 : Alike x size
      (if m.read64 y ≠ 0 then m.write64 (m.read64 y + 8) (m.read64 (y + 8)) else m)
      (if m'.read64 y ≠ 0 then m'.write64 (m'.read64 y + 8) (m'.read64 (y + 8)) else m') := by
    rw [hnext, hprev]
    split
    · exact ha.write _ _
    · exact ha
  unfold freelistUnlink
  dsimp only
  generalize (if m.read64 y ≠ 0 then m.write64 (m.read64 y + 8) (m.read64 (y + 8)) else m) = m1
    at h1 ⊢
  generalize (if m'.read64 y ≠ 0 then m'.write64 (m'.read64 y + 8) (m'.read64 (y + 8)) else m')
    = m1' at h1 ⊢
  rw [h1.word (w := y) (by omega), h1.word (w := y + 8) (by omega)]
  split
  · exact h1.write _ _
  · exact h1

theorem listDetach (ha : Alike x size m m') (hy : y + 24 ≤ x ∨ x + size + 8 ≤ y) (list : Nat) :
    (freelistDetach m' list y).1 = (freelistDetach m list y).1 ∧
      Alike x size (freelistDetach m list y).2 (freelistDetach m' list y).2 := by
  unfold freelistDetach
  split
  · exact ⟨ha.word (by omega), ha⟩
  · exact ⟨rfl, ha.unlink hy⟩

end Alike

/-! ## Pools on such memories -/

/-- The same pool on two such memories. -/
structure Twin (x size : Nat) (g g' : Heap Mpool) : Prop where
  mem : Alike x size g.mem g'.mem
  pool : g'.pool = g.pool

namespace Twin

theorem detach (ht : Twin x size g g') (hf : Fits y k) (hk : 16 ≤ k) (hs : Spared x size y k) :
    Twin x size (Alloc.detach g y) (Alloc.detach g' y) := by
  have hnode : y + 24 ≤ x ∨ x + size + 8 ≤ y := by
    unfold Spared at hs
    omega
  unfold Alloc.detach
  dsimp only
  rw [ht.mem.blkSize hf hs, ht.pool]
  -- the same list in both, as it goes by the size
  by_cases hid : freelistsSize2id (Alloc.blkSize g.mem y) < 0
  · obtain ⟨h1, h2⟩ := ht.mem.listDetach hnode g.pool.largeBlk
    rw [if_pos hid, if_pos hid]
    exact ⟨h2, by dsimp only; rw [h1]⟩
  · obtain ⟨h1, h2⟩ := ht.mem.listDetach hnode
      (g.pool.freed (freelistsSize2id (Alloc.blkSize g.mem y)).toNat)
    rw [if_neg hid, if_neg hid, freelistsDetach_eq, freelistsDetach_eq]
    exact ⟨h2, by dsimp only; rw [h1]⟩

theorem doFree (ht : Twin x size g g') (hf : Fits y k) (hk : Alloc.blkSize g.mem y = k)
    (hs : Spared x size y k) : Twin x size (Alloc.doFree g y) (Alloc.doFree g' y) := by
  have hk' : Alloc.blkSize g'.mem y = k := (ht.mem.blkSize hf hs).trans hk
  have h1 := ht.mem.setfreed hf hs
  have hput := h1.put (y := y) (by unfold Spared at hs; omega)
  have hsize := h1.blkSize hf hs
  have hfst : ∀ (m : Mem) (list : Nat), (freelistPut m list y).1 = y := fun _ _ => rfl
  unfold Alloc.doFree putLarge
  dsimp only
  simp only [hk, hk', ht.pool]
  -- from here on only the two memories count, not where they come from
  generalize blkSetfreed g.mem y k = m1 at *
  generalize blkSetfreed g'.mem y k = m1' at *
  unfold freelistsPut
  simp only [hsize, hfst]
  by_cases hid : freelistsSize2id (Alloc.blkSize m1 y) < 0
  · simp only [hid, if_true, Bool.not_false]
    exact ⟨hput g.pool.largeBlk, by simp only⟩
  · simp only [hid, if_false, Bool.not_true, Bool.false_eq_true]
    exact ⟨hput _, by simp only⟩

/-- What is behind a block that does not end where the stretch begins. -/
theorem nexthead (ht : Twin x size g g') (hf : Fits y k) (hs : Spared x size y k)
    (hx : x % 16 = 0) (hne : y + k + 16 ≠ x) :
    blkNexthead g'.mem y k = blkNexthead g.mem y k := by
  obtain ⟨hy16, hk16, -, hhigh⟩ := hf
  unfold Spared at hs
  rw [blkNexthead_eq _ (by omega), blkNexthead_eq _ (by omega)]
  exact ht.mem.word (by omega)

theorem nextFree (ht : Twin x size g g') (hf : Fits y k) (hs : Spared x size y k)
    (hx : x % 16 = 0) (hne : y + k + 16 ≠ x) :
    Alloc.nextFree g'.mem y k = Alloc.nextFree g.mem y k := by
  rw [Alloc.nextFree, Alloc.nextFree, blkNonext, blkNonext, ht.nexthead hf hs hx hne]

/-- In front of a block there may be the damaged tail, whose flags are as they were. -/
theorem prevFree (ht : Twin x size g g') (hf : Fits y k) (hs : Spared x size y k)
    (hx : x % 16 = 0) (hsize : size % 16 = 0) :
    Alloc.prevFree g'.mem y = Alloc.prevFree g.mem y := by
  obtain ⟨hy16, -, hlow, hhigh⟩ := hf
  unfold Spared at hs
  have hword : g'.mem.read64 (y - 16) % 4 = g.mem.read64 (y - 16) % 4 := by
    -- the word in front is the stretch's tail, or clear of it
    by_cases hy : y - 16 = x + size
    · rw [hy]
      exact ht.mem.tail
    · rw [ht.mem.word (by omega)]
  have harea : g'.mem.read64 (y - 16) / 2 % 2 = g.mem.read64 (y - 16) / 2 % 2 := by omega
  have hfree : g'.mem.read64 (y - 16) % 2 = g.mem.read64 (y - 16) % 2 := by omega
  rw [Alloc.prevFree, Alloc.prevFree, blkNoprev, blkNoprev, blkPrevtail_eq _ hlow (by omega),
    blkPrevtail_eq _ hlow (by omega), and_areaFlag, and_areaFlag, and_freeFlag, and_freeFlag,
    harea, hfree]

variable {st : BlkState}

theorem mergenext (ht : Twin x size g g') (hx : x % 16 = 0)
    (hl : Laid a e g (pre ++ ⟨y, k, st⟩ :: ⟨w, t, .free⟩ :: post) L)
    (hs : Spared x size y k) (hne : y + k + 16 ≠ x) (hw : Spared x size w t) :
    (blkMergenext Alloc.detach g' y).1 = (blkMergenext Alloc.detach g y).1 ∧
      Twin x size (blkMergenext Alloc.detach g y).2 (blkMergenext Alloc.detach g' y).2 := by
  have hf : Fits y k := hl.fitsOf (b := ⟨y, k, st⟩) (by simp)
  have hfw : Fits w t := hl.fitsOf (b := ⟨w, t, .free⟩) (by simp)
  have hmin := (hl.sizes ⟨w, t, .free⟩ (by simp)).2
  have hk : Alloc.blkSize g.mem y = k := hl.blkSize_eq (b := ⟨y, k, st⟩) (by simp)
  have hk' : Alloc.blkSize g'.mem y = k := (ht.mem.blkSize hf hs).trans hk
  have hnext : blkNext g.mem y = w := blkNext_eq hl
  have hnext' : blkNext g'.mem y = w := by
    rw [← hnext, blkNext, blkNext, hk', hk, blkNonext, blkNonext, ht.nexthead hf hs hx hne]
  have hd := ht.detach hfw hmin hw
  unfold blkMergenext
  dsimp only
  rw [hnext, hnext', hk, hk', ht.mem.blkSize hfw hw]
  exact ⟨rfl, hd.mem.setsize _ _, hd.pool⟩

theorem mergeprev (ht : Twin x size g g')
    (hl : Laid a e g (pre ++ ⟨w, t, .free⟩ :: ⟨y, k, st⟩ :: post) L)
    (hs : Spared x size y k) (hw : Spared x size w t) :
    (blkMergeprev Alloc.detach g' y).1 = (blkMergeprev Alloc.detach g y).1 ∧
      Twin x size (blkMergeprev Alloc.detach g y).2 (blkMergeprev Alloc.detach g' y).2 := by
  have hf : Fits y k := hl.fitsOf (b := ⟨y, k, st⟩) (by simp)
  have hfw : Fits w t := hl.fitsOf (b := ⟨w, t, .free⟩) (by simp)
  have hmin := (hl.sizes ⟨w, t, .free⟩ (by simp)).2
  have hptr := (prevtail_block hl).1
  dsimp only at hmin hptr
  obtain ⟨-, -, hlow, hhigh⟩ := id hf
  have hprev : blkPrev g.mem y = w := blkPrev_eq hl
  have htail : blkPrevtail g'.mem y = blkPrevtail g.mem y := by
    rw [blkPrevtail_eq _ hlow (by omega), blkPrevtail_eq _ hlow (by omega)]
    refine ht.mem.word ?_
    unfold Spared at hw
    omega
  have hprev' : blkPrev g'.mem y = w := by
    rw [← hprev, blkPrev, blkPrev, blkNoprev, blkNoprev, htail]
  have hd := ht.detach hfw hmin hw
  unfold blkMergeprev
  dsimp only
  rw [hprev, hprev', ht.mem.blkSize hf hs, ht.mem.blkSize hfw hw]
  exact ⟨rfl, hd.mem.setsize _ _, hd.pool⟩

/-- The first half of `blk_trymerge`. -/
theorem tryNext (ht : Twin x size g g') (hx : x % 16 = 0)
    (hl : Laid a e g (pre ++ ⟨p, k, .hand⟩ :: post) L) (hpost : ∀ b ∈ post, b.st ≠ .hand)
    (hs : Spared x size p k) (hne : p + k + 16 ≠ x)
    (hnext : ∀ b ∈ post.head?, b.st = .free → Spared x size b.ptr b.size) :
    ∃ g1 g1' k1 post1 L1, Alloc.tryNext g p = (p, g1) ∧ Alloc.tryNext g' p = (p, g1') ∧
      Twin x size g1 g1' ∧ Laid a e g1 (pre ++ ⟨p, k1, .hand⟩ :: post1) L1 ∧
      Spared x size p k1 := by
  have hf : Fits p k := hl.fitsOf (b := ⟨p, k, .hand⟩) (by simp)
  have hk : Alloc.blkSize g.mem p = k := hl.blkSize_eq (b := ⟨p, k, .hand⟩) (by simp)
  unfold Alloc.tryNext
  rw [ht.mem.blkSize hf hs, hk, ht.nextFree hf hs hx hne]
  cases post with
  | nil =>
      rw [nextFree_nil hl]
      exact ⟨g, g', k, [], L, rfl, rfl, ht, hl, hs⟩
  | cons b post =>
      rw [nextFree_cons hl (hpost b (by simp))]
      obtain ⟨w, t, bst⟩ := b
      -- a free neighbour is merged in both, and what comes of it is clear of the stretch
      by_cases hb : bst = .free
      · subst hb
        have hw : Spared x size w t := hnext ⟨w, t, .free⟩ (by simp) rfl
        have hptr := (nexthead_block hl).1
        obtain ⟨h1, h2⟩ := ht.mergenext hx hl hs hne hw
        obtain ⟨L', hl', hp1, -, -⟩ := blkMergenext_laid (by simp) hl
        refine ⟨_, _, k + 16 + t, post, L', Prod.ext hp1 rfl, Prod.ext (h1.trans hp1) rfl, h2,
          hl', ?_⟩
        unfold Spared at hs hw ⊢
        dsimp only at hptr
        omega
      · rw [if_neg (by simpa using hb), if_neg (by simpa using hb)]
        exact ⟨g, g', k, _, L, rfl, rfl, ht, hl, hs⟩

/-- The second half. -/
theorem tryPrev (ht : Twin x size g g') (hx : x % 16 = 0) (hsize : size % 16 = 0)
    (hl : Laid a e g (pre ++ ⟨p, k, .hand⟩ :: post) L) (hpre : ∀ b ∈ pre, b.st ≠ .hand)
    (hs : Spared x size p k)
    (hprev : ∀ b ∈ pre, b.st = .free → b.ptr + b.size + 16 = p → Spared x size b.ptr b.size) :
    ∃ p1 g1 g1' k1 pre1 L1, Alloc.tryPrev (p, g) = (p1, g1) ∧ Alloc.tryPrev (p, g') = (p1, g1') ∧
      Twin x size g1 g1' ∧ Laid a e g1 (pre1 ++ ⟨p1, k1, .hand⟩ :: post) L1 ∧
      Spared x size p1 k1 := by
  have hf : Fits p k := hl.fitsOf (b := ⟨p, k, .hand⟩) (by simp)
  unfold Alloc.tryPrev
  dsimp only
  rw [ht.prevFree hf hs hx hsize]
  rcases List.eq_nil_or_concat pre with rfl | ⟨pre, b, rfl⟩
  · rw [prevFree_nil hl]
    exact ⟨p, g, g', k, [], L, rfl, rfl, ht, hl, hs⟩
  · rw [List.concat_eq_append] at *
    have hl0 := hl
    rw [List.append_assoc, List.singleton_append] at hl
    rw [prevFree_cons hl (hpre b (by simp))]
    obtain ⟨w, t, bst⟩ := b
    by_cases hb : bst = .free
    · subst hb
      have hptr := (prevtail_block hl).1
      dsimp only at hptr
      have hw : Spared x size w t := hprev ⟨w, t, .free⟩ (by simp) rfl hptr.symm
      obtain ⟨h1, h2⟩ := ht.mergeprev hl hs hw
      obtain ⟨L', hl', hp1, -, -⟩ := blkMergeprev_laid (by simp) hl
      refine ⟨w, _, _, t + 16 + k, pre, L', Prod.ext hp1 rfl, Prod.ext (h1.trans hp1) rfl, h2,
        hl', ?_⟩
      unfold Spared at hs hw ⊢
      omega
    · rw [if_neg (by simpa using hb), if_neg (by simpa using hb)]
      exact ⟨p, g, g', k, _, L, rfl, rfl, ht, hl0, hs⟩

/-- **A release does the same** when the block and its free neighbours are clear of the stretch. -/
theorem free (ht : Twin x size g g') (hx : x % 16 = 0) (hsize : size % 16 = 0)
    (hl : Laid a e g (pre ++ ⟨p, k, .live⟩ :: post) L)
    (hset : Settled (pre ++ ⟨p, k, .live⟩ :: post)) (hs : Spared x size p k)
    (hne : p + k + 16 ≠ x)
    (hnext : ∀ b ∈ post, b.st = .free → b.ptr = p + k + 16 → Spared x size b.ptr b.size)
    (hprev : ∀ b ∈ pre, b.st = .free → b.ptr + b.size + 16 = p → Spared x size b.ptr b.size) :
    Twin x size (mpoolFree g p) (mpoolFree g' p) := by
  have hf : Fits p k := hl.fitsOf (b := ⟨p, k, .live⟩) (by simp)
  have hk : Alloc.blkSize g.mem p = k := hl.blkSize_eq (b := ⟨p, k, .live⟩) (by simp)
  have hp0 : p ≠ 0 := by
    have := hf.low
    omega
  have hl1 : Laid a e { g with pool := g.pool.debit k } (pre ++ ⟨p, k, .hand⟩ :: post) L :=
    takeLive hl
  have ht1 : Twin x size { g with pool := g.pool.debit k } { g' with pool := g'.pool.debit k } :=
    ⟨ht.mem, by dsimp only; rw [ht.pool]⟩
  -- merging, behind and then in front
  obtain ⟨g1, g1', k1, post1, L1, he1, he1', ht2, hl2, hs2⟩ := ht1.tryNext hx hl1
    (fun b hb => hset b (by simp [hb])) hs hne fun b hb hst => by
      have hptr : b.ptr = p + k + 16 := by
        cases post with
        | nil => exact absurd hb (by simp)
        | cons c post =>
            obtain rfl : c = b := by simpa using hb
            exact (nexthead_block hl).1
      exact hnext b (List.mem_of_mem_head? hb) hst hptr
  obtain ⟨p2, g2, g2', k2, pre2, L2, he2, he2', ht3, hl3, hs3⟩ := ht2.tryPrev hx hsize hl2
    (fun b hb => hset b (by simp [hb])) hs2 hprev
  have hf2 : Fits p2 k2 := hl3.fitsOf (b := ⟨p2, k2, .hand⟩) (by simp)
  have hk2 : Alloc.blkSize g2.mem p2 = k2 := hl3.blkSize_eq (b := ⟨p2, k2, .hand⟩) (by simp)
  have hk2' : Alloc.blkSize g2'.mem p2 = k2 := (ht3.mem.blkSize hf2 hs3).trans hk2
  -- what `mpool_free` comes to, for either heap
  have heq : ∀ h h2 : Heap Mpool, Alloc.blkSize h.mem p = k →
      Alloc.tryPrev (Alloc.tryNext { h with pool := h.pool.debit k } p) = (p2, h2) →
      Alloc.blkSize h2.mem p2 = k2 →
      mpoolFree h p = Alloc.doFree (if blkAreaIs2M h.mem p then
        { h2 with mem := blkSetArea2M h2.mem p2 k2 } else h2) p2 := by
    intro h h2 hk he hk2
    have htry := blkTrymerge_eq { h with pool := h.pool.debit k } p
    rw [he] at htry
    dsimp only at htry
    rw [hk2] at htry
    unfold mpoolFree
    rw [if_neg hp0, hk]
    show Alloc.doFree (blkTrymerge Alloc.detach { h with pool := h.pool.debit k } p).2
      (blkTrymerge Alloc.detach { h with pool := h.pool.debit k } p).1 = _
    rw [htry]
  rw [heq g g2 hk (by rw [he1, he2]) hk2,
    heq g' g2' ((ht.mem.blkSize hf hs).trans hk) (by rw [he1', he2']) hk2', ht.mem.is2M hf hs]
  split
  · have htag := blkSetArea2M_tagged hf2 (hl3.tags ⟨p2, k2, .hand⟩ (by simp))
    have hlow := hf2.low
    have hhigh := hf2.high
    exact Twin.doFree ⟨ht3.mem.setArea2M hf2 hs3, ht3.pool⟩ hf2
      (htag.blkSize (by dsimp only; omega) (by dsimp only; omega)) hs3
  · exact ht3.doFree hf2 hk2 hs3

end Twin

/-! ## The gap of 16 -/

/-- The flags of a tail that says live. -/
theorem IsTag.low (ht : IsTag w k .live) : w % 4 = 0 := by
  have harea := ht.area
  have hlive := ht.live rfl
  omega

/-- **What is left by an allocation in the gap of 16**, and a copy into it: but for the stretch
that was a free block, what a gap of 32 leaves. -/
theorem gap_twin (hl : Laid a e h (pre ++ ⟨x, size, .hand⟩ :: post) L) (hsize : 48 ≤ size)
    (hn : n + 64 < 2 ^ 64) (hk : k + 16 ≤ size) (p : Nat) :
    ∃ g L', Laid a e g (pre ++ ⟨x, 16, .free⟩ :: ⟨x + 32, size - 32, .live⟩ :: post) L' ∧
      g.pool.rest = (h.pool.credit 0).rest ∧
      Twin x size g { finishAlloc (cutLead h x 16).2 (x + 16) n with
        mem := memcpy (finishAlloc (cutLead h x 16).2 (x + 16) n).mem (x + 16) p k } := by
  have hf : Fits x size := hl.fitsOf (b := ⟨x, size, .hand⟩) (by simp)
  obtain ⟨hx16, hs16, hlow, hhigh⟩ := hf
  have hf1 : Fits (x + 16) 0 := ⟨by omega, by omega, by omega, by omega⟩
  have hf2 : Fits (x + 32) (size - 32) := ⟨by omega, by omega, by omega, by omega⟩
  -- the cut as it is, with a gap of 16, and as it would be with one of 32
  obtain ⟨-, hzero⟩ := cutLead_zero hl (by omega)
  obtain ⟨-, m1, hm1, hhd1, hrest1, hout1, htag1⟩ :=
    cutLead_put hl (by decide : 16 % 16 = 0) (by decide) (by omega)
  obtain ⟨-, m2, hm2, hhd2, -, hout2, htag2⟩ :=
    cutLead_put hl (by decide : 32 % 16 = 0) (by decide) (by omega)
  obtain ⟨L', -, hl2, -, -⟩ := cutLead_laid hl (by decide : 32 % 16 = 0) (by decide) (by omega)
  obtain ⟨-, hal, hlt⟩ := listHead_ne hl (listOf 0)
  have hlive := setalloced_laid hl2
  -- both put the node of the part in front on the same list
  have hput : Alike x size (freelistPut m2 (listHead h.pool (listOf 0)) x).2
      (freelistPut m1 (listHead h.pool (listOf 0)) x).2 := by
    refine Alike.putOwn ⟨fun v hv => (hout1 v hv).trans (hout2 v hv).symm, ?_⟩ hlt
    rw [← Mem.read64_mod_four, ← Mem.read64_mod_four, htag1.low, htag2.low]
  have hset1 : ∀ v, v + 8 < x + 16 ∨ x + 16 + 0 + 8 ≤ v →
      blkSetalloced (cutLead h x 16).2.mem (x + 16) 0 v = (cutLead h x 16).2.mem v :=
    flagWrites_other hf1 _ _ _
  have hset2 : ∀ v, v + 8 < x + 32 ∨ x + 32 + (size - 32) + 8 ≤ v →
      blkSetalloced (cutLead h x 32).2.mem (x + 32) (size - 32) v = (cutLead h x 32).2.mem v :=
    flagWrites_other hf2 _ _ _
  have hempty := finishAlloc_empty (h := (cutLead h x 16).2) (x := x + 16) (n := n) (by omega)
    (by omega) hn (by rwa [show x + 16 - 8 = x + 8 by omega])
  rw [hempty]
  refine ⟨⟨blkSetalloced (cutLead h x 32).2.mem (x + 32) (size - 32),
    (cutLead h x 16).2.pool.credit 0, h.delmem⟩, L', ?_, ?_, ⟨?_, ?_⟩, rfl⟩
  · show Layout a e _ (listHead ((cutLead h x 16).2.pool.credit 0)) _ _
    rw [listHead_credit, hhd1, show listOf (16 - 16) = listOf (32 - 16) by decide, ← hhd2]
    simpa [leadBlocks] using hlive
  · exact Mpool.rest_credit hrest1 0
  · intro v hv
    dsimp only
    rw [memcpy_other (by omega), hset1 v (by omega), hset2 v (by omega), hm1, hm2]
    exact hput.byte v hv
  · -- the copy ends before the tail, and both tails say live
    dsimp only
    have hg := (hlive.tags ⟨x + 32, size - 32, .live⟩ (by simp)).tail.low
    dsimp only at hg
    rw [show x + 32 + (size - 32) = x + size by omega] at hg
    have hcopy : (memcpy (blkSetalloced (cutLead h x 16).2.mem (x + 16) 0) (x + 16) p k).read64
        (x + size) = m1.read64 (x + size) := by
      rw [← freelistPut_aligned (m := m1) hx16 hal hlt (by omega) (by omega), ← hm1]
      refine Mem.read64_congr fun v h1 h2 => ?_
      rw [memcpy_other (by omega), hset1 v (by omega)]
    rw [← Mem.read64_mod_four, ← Mem.read64_mod_four, hcopy, hg, htag1.low]

/-- A block that does not grow does not end where a free block with the room begins. -/
theorem Shows.not_behind (hs : Shows a e s (pre ++ ⟨p, k, .live⟩ :: post) L)
    (hstay : ¬ GrowsNext s.heap p n) (hk : k < requestSize n)
    (hx : (⟨x, size, .free⟩ : Block) ∈ pre ++ ⟨p, k, .live⟩ :: post)
    (hroom : requestSize n ≤ size) : p + k + 16 ≠ x := by
  intro hend
  refine hstay ((growsNext_iff hs hk).mpr ?_)
  have hbd := hs.laid.bounds hx
  dsimp only at hbd
  cases post with
  | nil =>
      have hlast : p + (k + 16) = e := hs.laid.tiling.last_end
      omega
  | cons b post =>
      have hptr := (nexthead_block hs.laid).1
      obtain rfl : b = ⟨x, size, .free⟩ :=
        hs.laid.eq_of_ptr (by simp) hx (by dsimp only; omega)
      simp only [growsInto, decide_eq_true_eq]
      omega

/-- The other blocks are clear of it. -/
theorem Layout.spared {hd : Nat → Nat} {st : BlkState}
    (hl : Layout a e m hd (pre ++ ⟨x, size, st⟩ :: post) L) {b : Block} (hb : b ∈ pre ++ post) :
    Spared x size b.ptr b.size := by
  have hb' : b ∈ pre ++ ⟨x, size, st⟩ :: post := by
    rcases List.mem_append.mp hb with hb | hb <;> simp [hb]
  rcases hl.apart hb' (c := ⟨x, size, st⟩) (by simp) with rfl | h | h
  · exact absurd rfl (hl.ptr_ne hb)
  · exact .inl h
  · exact .inr h

/-- A live block is one of the others. -/
theorem live_side {b : Block} (hb : b ∈ pre ++ ⟨x, size, .free⟩ :: post) (hst : b.st = .live) :
    b ∈ pre ++ post := by
  simp only [List.mem_append, List.mem_cons] at hb ⊢
  rcases hb with hb | rfl | hb
  · exact .inl hb
  · exact absurd hst (by simp)
  · exact .inr hb

/-- The blocks had the gap been 32. -/
def widened (pre : List Block) (x size : Nat) (post : List Block) : List Block :=
  pre ++ ⟨x, 16, .free⟩ :: ⟨x + 32, size - 32, .live⟩ :: post

/-- Those that are not of the stretch. -/
theorem mem_widened {b : Block} (hb : b ∈ widened pre x size post) :
    b = ⟨x, 16, .free⟩ ∨ b.st = .live ∨ b ∈ pre ++ post := by
  simp only [widened, List.mem_append, List.mem_cons] at hb ⊢
  rcases hb with hb | rfl | rfl | hb
  · exact .inr (.inr (.inl hb))
  · exact .inl rfl
  · exact .inr (.inl rfl)
  · exact .inr (.inr (.inr hb))

/-- **Releasing a block that is not next to the damage.** -/
theorem gap_free (hl : Laid a e g (widened pre x size post) L') (ht : Twin x size g g')
    (hset : Settled (pre ++ ⟨x, size, .free⟩ :: post)) (hx : x % 16 = 0) (hsize : size % 16 = 0)
    (hmin : 48 ≤ size) (hside : ∀ b ∈ pre ++ post, Spared x size b.ptr b.size)
    (hp : (⟨p, k, .live⟩ : Block) ∈ pre ++ post) (hne : p + k + 16 ≠ x) :
    Twin x size (mpoolFree g p) (mpoolFree g' p) ∧
      ∃ bs' L', Freed a e g (widened pre x size post) p k (mpoolFree g p) bs' L' := by
  have hpm : (⟨p, k, .live⟩ : Block) ∈ widened pre x size post := by
    simp only [widened, List.mem_append, List.mem_cons] at hp ⊢
    tauto
  have hset' : Settled (widened pre x size post) := by
    intro b hb
    rcases mem_widened hb with rfl | hst | hb
    · simp
    · rw [hst]
      simp
    · exact hset.sides b hb
  have hsp := hside _ hp
  unfold Spared at hsp
  dsimp only at hsp
  obtain ⟨pre', post', hbs⟩ := List.append_of_mem hpm
  -- the free neighbours are others than the part in front of the gap
  have hnear : ∀ b ∈ widened pre x size post, b.st = .free →
      b.ptr = p + k + 16 ∨ b.ptr + b.size + 16 = p → Spared x size b.ptr b.size := by
    intro b hb hst hnear
    rcases mem_widened hb with rfl | hst' | hb
    · dsimp only at hnear
      omega
    · exact absurd (hst.symm.trans hst') (by simp)
    · exact hside b hb
  rw [hbs] at hl hset' hnear ⊢
  refine ⟨ht.free hx hsize hl hset' hsp hne (fun b hb hst hptr => ?_) (fun b hb hst hptr => ?_),
    mpoolFree_laid hl hset'⟩
  · exact hnear b (by simp [hb]) hst (.inl hptr)
  · exact hnear b (by simp [hb]) hst (.inr hptr)

/-- **A move into the gap of 16**, beside the same release in the heap with the wider gap. -/
theorem gap_moved (hs : Shows a e s (pre ++ ⟨x, size, .free⟩ :: post) L)
    (hquiet : s.heap.pool.cbReqmem = none)
    (hpick : pick (alignedFits (requestSize n) align s.heap.mem) L (requestSize n) = some x)
    (hup : paddingUp x align = x + 16) (hp : (⟨p, k, .live⟩ : Block) ∈ pre ++ post)
    (hn : n ≤ 2 ^ 63 - 16) (ha : AlignPow align) (hgt : k < requestSize n)
    (hstay : ¬ GrowsNext s.heap p n)
    (hr : reallocBy (fun h size => mpoolAlignedAlloc h size align) s.heap p n = some (q, h)) :
    ∃ g bs' L', Twin x size (mpoolFree g p) h ∧
      Freed a e g (widened pre x size post) p k (mpoolFree g p) bs' L' ∧
      g.pool.rest = (s.heap.pool.credit 0).rest := by
  obtain ⟨h16, hmin, -, -⟩ := requestSize_spec (n := n) (by omega)
  have hr63 := requestSize_lt hn
  have hf : Fits x size := hs.laid.fitsOf (b := ⟨x, size, .free⟩) (by simp)
  have hsz : blkSize s.heap.mem x = size := hs.laid.blkSize_eq (b := ⟨x, size, .free⟩) (by simp)
  obtain ⟨_, -, -, hfit⟩ := pick_mem hpick
  have hroom := (alignedFits_spec hf hsz ha hr63 hfit).2.2.2.2
  obtain ⟨hx16, hs16, hxlow, hxhigh⟩ := hf
  rw [hup] at hroom
  -- the block that moves
  have hpm : (⟨p, k, .live⟩ : Block) ∈ pre ++ ⟨x, size, .free⟩ :: post := by
    simp only [List.mem_append, List.mem_cons] at hp ⊢
    tauto
  have hk := hs.laid.sizes _ hpm
  dsimp only at hk
  obtain ⟨pre', post', hbs⟩ := List.append_of_mem hpm
  have hs' := hs
  rw [hbs] at hs'
  have hpost : Settled post' := fun b hb => hs'.settled b (by simp [hb])
  have hne : p + k + 16 ≠ x :=
    hs'.not_behind hstay hgt (hbs ▸ by simp : (⟨x, size, .free⟩ : Block) ∈ _) (by omega)
  have hgrow : ¬ growsInto k (requestSize n) post' := fun hg =>
    hstay ((growsNext_iff hs' hgt).mpr hg)
  -- where it moves to
  have hinner := mpoolAlignedAlloc_eq (n := requestSize n) hs.laid hquiet ha
  rw [requestSize_idem (by omega), hpick] at hinner
  dsimp only at hinner
  obtain ⟨hl1, hr1, -⟩ := detach_laid hs.laid
  rw [hup, subW_of_le (by omega) (by omega), show x + 16 - x = 16 by omega, placeAligned_eq,
    (cutLead_zero hl1 (by omega)).1] at hinner
  have hmove : reallocBy (fun h size => mpoolAlignedAlloc h size align) s.heap p n = _ :=
    reallocBy_moves hs'.laid hpost (by omega) hgrow
  rw [hinner, Option.bind_some, if_neg (by dsimp only; omega)] at hmove
  obtain ⟨rfl, rfl⟩ := Prod.mk.inj (Option.some.inj (hmove.symm.trans hr))
  obtain ⟨g, L1, hl2, hrest, ht⟩ := gap_twin (n := requestSize n) (k := k) hl1 (by omega)
    (by omega) (by omega) p
  obtain ⟨ht', bs', L', hfree⟩ := gap_free hl2 ht hs.settled hx16 hs16 (by omega)
    (fun b hb => hs.laid.spared hb) hp hne
  exact ⟨g, bs', L', ht', hfree, hrest.trans (Mpool.rest_credit hr1 0)⟩

/-- The other blocks in use have the sizes they had. -/
theorem gap_sizes (hs : Shows a e s (pre ++ ⟨x, size, .free⟩ :: post) L) (hnd : s.live.Nodup)
    (ht : Twin x size (mpoolFree g p) h)
    (hf : Freed a e g (widened pre x size post) p k (mpoolFree g p) bs L')
    (hy : y ∈ s.live.erase p) : mpoolMsize h y = mpoolMsize s.heap y := by
  obtain ⟨hyp, hyl⟩ := hnd.mem_erase_iff.mp hy
  obtain ⟨b, hb, rfl, hst⟩ := (hs.live_iff y).mp hyl
  have hside := live_side hb hst
  have hwide : b ∈ widened pre x size post := by
    simp only [widened, List.mem_append, List.mem_cons] at hside ⊢
    tauto
  have hb' : b ∈ bs := ((hf.releases.live_iff hst).mp hwide).resolve_left fun he => hyp (by rw [he])
  rw [mpoolMsize, mpoolMsize, ht.mem.blkSize (hs.laid.fitsOf hb) (hs.laid.spared hside),
    hf.laid.blkSize_eq hb', hs.laid.blkSize_eq hb]

/--
**A move into the gap of 16 loses the books**, unless the new block has no bytes at
all: the release debits the old block, and the allocation credited nothing.
-/
theorem gap_books (hi : Inv a e s) (hb : Books s) (hp : p ∈ s.live) (hn : n ≤ 2 ^ 63 - 16)
    (ha : AlignPow align) (hgt : mpoolMsize s.heap p < requestSize n)
    (hstay : ¬ GrowsNext s.heap p n) (hgap : ¬ GapOk s.heap n align)
    (hr : reallocBy (fun h size => mpoolAlignedAlloc h size align) s.heap p n = some (q, h))
    (hb' : Books ⟨h, q :: s.live.erase p⟩) : mpoolMsize h q = 0 := by
  obtain ⟨bs, L, hs⟩ := hi.shows
  rw [gapOk_iff hs.laid] at hgap
  push Not at hgap
  obtain ⟨x, hpick, hgap⟩ := hgap
  obtain ⟨pre, size, post, rfl, -⟩ := pick_block hs.laid hpick
  obtain ⟨⟨y, k, st⟩, hpm, rfl, rfl⟩ := (hs.live_iff p).mp hp
  dsimp only at *
  have hk : mpoolMsize s.heap y = k := hs.msize_eq hpm
  rw [hk] at hgt
  obtain ⟨g, bs', L', ht, hf, hrest⟩ := gap_moved hs hi.quiet hpick hgap (live_side hpm rfl) hn ha
    hgt hstay hr
  have hsum : ((s.live.erase y).map (mpoolMsize h)).sum =
      ((s.live.erase y).map (mpoolMsize s.heap)).sum :=
    congrArg List.sum (List.map_congr_left fun z hz => gap_sizes hs hi.nodup ht hf hz)
  -- nothing was credited for the new block, and the old one is debited
  have hcount : h.pool.allocedSize = subW (addW s.heap.pool.allocedSize 0) k := by
    rw [ht.pool, Mpool.rest_alloced (q := g.pool.debit k) hf.rest]
    show subW g.pool.allocedSize k = _
    rw [Mpool.rest_alloced (q := s.heap.pool.credit 0) hrest]
    rfl
  have hlt := hs.liveSize_lt
  have hlive := (hs.books_iff hi.nodup).mp hb
  have hold : s.heap.pool.allocedSize = k + ((s.live.erase y).map (mpoolMsize s.heap)).sum := by
    rw [Books, ((List.perm_cons_erase hp).map _).sum_nat, List.map_cons, List.sum_cons, hk] at hb
    exact hb
  have hnew : h.pool.allocedSize =
      mpoolMsize h q + ((s.live.erase y).map (mpoolMsize s.heap)).sum := by
    rw [Books, List.map_cons, List.sum_cons, hsum] at hb'
    exact hb'
  rw [hcount, addW_of_lt (by omega), subW_of_le (by omega) (by omega)] at hnew
  omega

end IonOS.Alloc
