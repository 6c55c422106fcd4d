import IonOS.Alloc.Steps

/-!
# Merging with the neighbours

What the looks past either end of a block see, and the three merge functions as
moves on the picture.
-/

namespace IonOS.Alloc

open IonOS.Lib

variable {a e : Nat} {h : Heap Mpool} {m : Mem} {hd : Nat → Nat} {pre post : List Block}
  {L : Nat → List Nat} {x s y t w : Nat} {st : BlkState}

/-! ## Looking at the neighbours -/

theorem IsTag.noArea {w size : Nat} {st : BlkState} (ht : IsTag w size st) :
    (w &&& areaFlag != 0) = false := by
  have := ht.area
  rw [and_areaFlag, decide_eq_false_iff_not]
  omega

theorem IsTag.freeFlag {w size : Nat} {st : BlkState} (ht : IsTag w size st) (hst : st ≠ .hand) :
    (w &&& freeFlag != 0) = decide (st = .free) := by
  rw [and_freeFlag]
  cases st with
  | free => simp [ht.free rfl]
  | live => simp [ht.live rfl]
  | hand => exact absurd rfl hst

/-- Behind a block is the head of the next one. -/
theorem nexthead_block {b : Block}
    (hl : Layout a e m hd (pre ++ ⟨x, s, st⟩ :: b :: post) L) :
    b.ptr = x + s + 16 ∧ IsTag (blkNexthead m x s) b.size b.st := by
  have hptr : b.ptr = x + (s + 16) := hl.tiling.next_start
  have hbd := hl.bounds (b := b) (by simp)
  have hfit := hl.area.fits
  have hsz := (hl.sizes b (by simp)).2
  have htag := (hl.tags b (by simp)).head
  refine ⟨by omega, ?_⟩
  rw [blkNexthead_eq m (by omega)]
  rwa [show b.ptr - 8 = x + s + 8 by omega] at htag

/-- Behind the last block is the end marker. -/
theorem nonext_last (hl : Layout a e m hd (pre ++ [⟨x, s, st⟩]) L) : blkNonext m x s = true := by
  have hend : x + (s + 16) = e := hl.tiling.last_end
  have hfit := hl.area.fits
  have hlast := hl.last
  rw [blkNonext, blkNexthead_eq m (by omega), and_areaFlag, decide_eq_true_iff]
  rwa [show e - 8 = x + s + 8 by omega] at hlast

/-- In front of a block is the tail of the one before. -/
theorem prevtail_block {b : Block}
    (hl : Layout a e m hd (pre ++ b :: ⟨x, s, st⟩ :: post) L) :
    x = b.ptr + b.size + 16 ∧ IsTag (blkPrevtail m x) b.size b.st := by
  have hptr : x = b.ptr + (b.size + 16) := hl.tiling.next_start
  have hbd := hl.bounds (b := ⟨x, s, st⟩) (by simp)
  dsimp only at hbd
  have hfit := hl.area.fits
  have htag := (hl.tags b (by simp)).tail
  refine ⟨by omega, ?_⟩
  rw [blkPrevtail_eq m (by omega) (by omega)]
  rwa [show b.ptr + b.size = x - 16 by omega] at htag

/-- The block behind. -/
theorem blkNext_eq {b : Block} (hl : Layout a e m hd (pre ++ ⟨x, s, st⟩ :: b :: post) L) :
    blkNext m x = b.ptr := by
  have hs : blkSize m x = s := hl.blkSize_eq (b := ⟨x, s, st⟩) (by simp)
  obtain ⟨hy, htag⟩ := nexthead_block hl
  have hbd := hl.bounds (b := b) (by simp)
  have hfit := hl.area.fits
  rw [blkNext, hs, blkNonext, if_neg (by rw [htag.noArea]; simp),
    addW_of_lt (a := x) (by omega), addW_of_lt (by omega), hy]

/-- The block in front. -/
theorem blkPrev_eq {b : Block} (hl : Layout a e m hd (pre ++ b :: ⟨x, s, st⟩ :: post) L) :
    blkPrev m x = b.ptr := by
  obtain ⟨hx, htag⟩ := prevtail_block hl
  have hbd := hl.bounds (b := ⟨x, s, st⟩) (by simp)
  dsimp only at hbd
  have hfit := hl.area.fits
  have hval : blkPrevtail m x &&& notW flagBits = b.size :=
    (and_notW_seven (Mem.read64_lt _ _)).trans htag.size
  rw [blkPrev, blkNoprev, if_neg (by rw [htag.noArea]; simp), hval,
    subW_of_le (a := x) (by omega) (by omega), subW_of_le (by omega) (by omega)]
  omega

/-- In front of the first block is the start marker. -/
theorem noprev_first (hl : Layout a e m hd (⟨x, s, st⟩ :: post) L) : blkNoprev m x = true := by
  have hptr : x = a + 16 := hl.tiling.1
  have hbd := hl.bounds (b := ⟨x, s, st⟩) (by simp)
  dsimp only at hbd
  have hfit := hl.area.fits
  have hfirst := hl.first
  rw [blkNoprev, blkPrevtail_eq m (by omega) (by omega), and_areaFlag, decide_eq_true_iff]
  rwa [show x - 16 = a by omega]

/-! ## Joining two blocks -/

/-- Writing one pair of tags around two adjacent blocks makes them one. -/
theorem join_laid {st st' st'' : BlkState}
    (hl : Layout a e m hd (pre ++ ⟨y, t, st⟩ :: ⟨x, s, st'⟩ :: post) L)
    (hst : st ≠ .free) (hst' : st' ≠ .free) (hst'' : st'' ≠ .free) :
    Layout a e (blkSetsize m y (t + 16 + s)) hd (pre ++ ⟨y, t + 16 + s, st''⟩ :: post) L := by
  have hx : x = y + (t + 16) := hl.tiling.next_start
  obtain ⟨h1, h2, h3, -⟩ := hl.fitsOf (b := ⟨y, t, st⟩) (by simp)
  obtain ⟨-, h6, -, h8⟩ := hl.fitsOf (b := ⟨x, s, st'⟩) (by simp)
  have hsz := (hl.sizes ⟨y, t, st⟩ (by simp)).2
  dsimp only at h1 h2 h3 h6 h8 hsz
  have hf : Fits y (t + 16 + s) := ⟨h1, by omega, h3, by omega⟩
  have := Layout.replace (p := y) (q := x + (s + 16)) [⟨y, t, st⟩, ⟨x, s, st'⟩]
    [⟨y, t + 16 + s, st''⟩] (blkSetsize m y (t + 16 + s)) (by simpa using hl)
    ⟨rfl, hx, by show y + (t + 16) + (s + 16) = _; omega⟩ (by simp) ⟨rfl, by show y + (t + 16 + s + 16) = _; omega⟩
    (by simp [hst, hst']) (by simpa using hst'')
    (by simp only [List.mem_singleton, forall_eq]; omega)
    (by simpa using blkSetsize_tagged hf m hst'')
    (fun w hw => tagWrites_other hf m _ _ (by omega))
  simpa using this

/-- The stores of a join stay inside the two blocks. -/
theorem join_other {st st' : BlkState}
    (hl : Layout a e m hd (pre ++ ⟨y, t, st⟩ :: ⟨x, s, st'⟩ :: post) L)
    (hw : w + 8 < y ∨ x + s + 8 ≤ w) : blkSetsize m y (t + 16 + s) w = m w := by
  have hx : x = y + (t + 16) := hl.tiling.next_start
  obtain ⟨h1, h2, h3, -⟩ := hl.fitsOf (b := ⟨y, t, st⟩) (by simp)
  obtain ⟨-, h6, -, h8⟩ := hl.fitsOf (b := ⟨x, s, st'⟩) (by simp)
  dsimp only at h1 h2 h3 h6 h8
  have hf : Fits y (t + 16 + s) := ⟨h1, by omega, h3, by omega⟩
  exact tagWrites_other hf m _ _ (by omega)

/-- `blk_mergenext` removes the block behind from its list and writes the joint tags. -/
theorem blkMergenext_eq
    (hl : Laid a e h (pre ++ ⟨x, s, st⟩ :: ⟨y, t, .free⟩ :: post) L) :
    blkMergenext detach h x =
      (x, { detach h y with mem := blkSetsize (detach h y).mem x (s + 16 + t) }) := by
  have hs : blkSize h.mem x = s := hl.blkSize_eq (b := ⟨x, s, st⟩) (by simp)
  have ht : blkSize h.mem y = t := hl.blkSize_eq (b := ⟨y, t, .free⟩) (by simp)
  have hy := (nexthead_block hl).1
  dsimp only at hy
  have hbd := hl.bounds (b := ⟨y, t, .free⟩) (by simp)
  dsimp only at hbd
  have hroom := hl.area.room
  have hlow := (hl.bounds (b := ⟨x, s, st⟩) (by simp)).1
  dsimp only at hlow
  have hsize : addW (addW s t) 16 = s + 16 + t := by
    rw [addW_of_lt (a := s) (by omega), addW_of_lt (by omega)]; omega
  unfold blkMergenext
  dsimp only
  rw [blkNext_eq hl, hs, ht, hsize]

/-- **`blk_mergenext` swallows the free block behind.** -/
theorem blkMergenext_laid (hst : st ≠ .free)
    (hl : Laid a e h (pre ++ ⟨x, s, st⟩ :: ⟨y, t, .free⟩ :: post) L) :
    ∃ L', Laid a e (blkMergenext detach h x).2 (pre ++ ⟨x, s + 16 + t, st⟩ :: post) L' ∧
      (blkMergenext detach h x).1 = x ∧
      (blkMergenext detach h x).2.pool.rest = h.pool.rest ∧
      Kept h.mem (pre ++ ⟨x, s, .hand⟩ :: ⟨y, t, .free⟩ :: post) (blkMergenext detach h x).2.mem
        (pre ++ ⟨x, s + 16 + t, .hand⟩ :: post) := by
  have hl0 : Laid a e h ((pre ++ [⟨x, s, st⟩]) ++ ⟨y, t, .free⟩ :: post) L := by simpa using hl
  obtain ⟨hl1, hrest, hk1⟩ := detach_laid hl0
  have hl1' : Laid a e (detach h y) (pre ++ ⟨x, s, st⟩ :: ⟨y, t, .hand⟩ :: post)
      (Function.update L (listOf t) ((L (listOf t)).erase y)) := by simpa using hl1
  rw [blkMergenext_eq hl]
  refine ⟨_, join_laid hl1' hst (by simp) hst, rfl, hrest, fun w hw => ?_⟩
  have hout : Outside ((pre ++ [⟨x, s, st⟩]) ++ ⟨y, t, .free⟩ :: post) w := by
    simpa using hw.of_hand
  have hptr : y = x + (s + 16) := hl.tiling.next_start
  simp only [outside_append, outside_cons, ne_eq, reduceCtorEq, not_false_eq_true,
    forall_const] at hw ⊢
  exact ⟨(join_other hl1' (by omega)).trans (hk1 w hout).1, hw.1, by omega, hw.2.2.2⟩

/-- **`blk_mergeprev` is swallowed by the free block in front.** -/
theorem blkMergeprev_laid (hst : st ≠ .free)
    (hl : Laid a e h (pre ++ ⟨y, t, .free⟩ :: ⟨x, s, st⟩ :: post) L) :
    ∃ L', Laid a e (blkMergeprev detach h x).2 (pre ++ ⟨y, t + 16 + s, .hand⟩ :: post) L' ∧
      (blkMergeprev detach h x).1 = y ∧
      (blkMergeprev detach h x).2.pool.rest = h.pool.rest ∧
      Kept h.mem (pre ++ ⟨y, t, .free⟩ :: ⟨x, s, .hand⟩ :: post) (blkMergeprev detach h x).2.mem
        (pre ++ ⟨y, t + 16 + s, .hand⟩ :: post) := by
  have hs : blkSize h.mem x = s := hl.blkSize_eq (b := ⟨x, s, st⟩) (by simp)
  have ht : blkSize h.mem y = t := hl.blkSize_eq (b := ⟨y, t, .free⟩) (by simp)
  have hx := (prevtail_block hl).1
  dsimp only at hx
  have hbd := hl.bounds (b := ⟨x, s, st⟩) (by simp)
  dsimp only at hbd
  have hroom := hl.area.room
  have hlow := (hl.bounds (b := ⟨y, t, .free⟩) (by simp)).1
  dsimp only at hlow
  have hsize : addW (addW s t) 16 = t + 16 + s := by
    rw [addW_of_lt (a := s) (by omega), addW_of_lt (by omega)]; omega
  obtain ⟨hl1, hrest, hk1⟩ := detach_laid hl
  have heq : blkMergeprev detach h x =
      (y, { detach h y with mem := blkSetsize (detach h y).mem y (t + 16 + s) }) := by
    unfold blkMergeprev
    dsimp only
    rw [blkPrev_eq hl, hs, ht, hsize]
  rw [heq]
  refine ⟨_, join_laid hl1 (by simp) hst (by simp), rfl, hrest, fun w hw => ?_⟩
  have hout : Outside (pre ++ ⟨y, t, .free⟩ :: ⟨x, s, st⟩ :: post) w := by
    have h' : Outside ((pre ++ [⟨y, t, .free⟩]) ++ ⟨x, s, .hand⟩ :: post) w := by simpa using hw
    simpa using h'.of_hand
  simp only [outside_append, outside_cons, ne_eq, reduceCtorEq, not_false_eq_true,
    forall_const] at hw ⊢
  exact ⟨(join_other hl1 (by omega)).trans (hk1 w hout).1, hw.1, by omega, hw.2.2.2⟩

/-! ## Merging whatever can be merged -/

/-- `post'` is `post` without the free block it may start with. -/
inductive Absorbed : List Block → List Block → Prop where
  | keep (post : List Block) (h : ∀ b ∈ post.head?, b.st ≠ .free) : Absorbed post post
  | drop (b : Block) (post : List Block) (h : b.st = .free) : Absorbed (b :: post) post

theorem Absorbed.mem_iff {post post' : List Block} (h : Absorbed post post') {b : Block}
    (hb : b.st ≠ .free) : b ∈ post' ↔ b ∈ post := by
  cases h with
  | keep => rfl
  | drop c _ hc =>
      rw [List.mem_cons]
      exact ⟨.inr, fun h => h.resolve_left fun he => hb (he ▸ hc)⟩

/-- The block behind, as `blk_trymerge` tests for it. -/
def nextFree (m : Mem) (ptr size : Nat) : Bool :=
  !blkNonext m ptr size && blkNexthead m ptr size &&& freeFlag != 0

/-- The block in front, as `blk_trymerge` tests for it. -/
def prevFree (m : Mem) (ptr : Nat) : Bool :=
  !blkNoprev m ptr && blkPrevtail m ptr &&& freeFlag != 0

theorem nextFree_nil (hl : Layout a e m hd (pre ++ [⟨x, s, st⟩]) L) :
    nextFree m x s = false := by
  rw [nextFree, nonext_last hl]; rfl

theorem nextFree_cons {b : Block} (hl : Layout a e m hd (pre ++ ⟨x, s, st⟩ :: b :: post) L)
    (hb : b.st ≠ .hand) : nextFree m x s = decide (b.st = .free) := by
  obtain ⟨-, htag⟩ := nexthead_block hl
  rw [nextFree, blkNonext, htag.noArea, htag.freeFlag hb]
  rfl

theorem prevFree_nil (hl : Layout a e m hd (⟨x, s, st⟩ :: post) L) : prevFree m x = false := by
  rw [prevFree, noprev_first hl]; rfl

theorem prevFree_cons {b : Block} (hl : Layout a e m hd (pre ++ b :: ⟨x, s, st⟩ :: post) L)
    (hb : b.st ≠ .hand) : prevFree m x = decide (b.st = .free) := by
  obtain ⟨-, htag⟩ := prevtail_block hl
  rw [prevFree, blkNoprev, htag.noArea, htag.freeFlag hb]
  rfl

/-- The first half of `blk_trymerge`. -/
theorem tryNext_laid (hst : st ≠ .free) (hl : Laid a e h (pre ++ ⟨x, s, st⟩ :: post) L)
    (hpost : ∀ b ∈ post, b.st ≠ .hand) :
    ∃ h' s' post' L',
      (if nextFree h.mem x s then blkMergenext detach h x else (x, h)) = (x, h') ∧
      Absorbed post post' ∧ Laid a e h' (pre ++ ⟨x, s', st⟩ :: post') L' ∧
      h'.pool.rest = h.pool.rest ∧
      Kept h.mem (pre ++ ⟨x, s, .hand⟩ :: post) h'.mem (pre ++ ⟨x, s', .hand⟩ :: post') := by
  cases post with
  | nil =>
      rw [nextFree_nil hl]
      exact ⟨h, s, [], L, rfl, .keep _ (by simp), hl, rfl, Kept.refl _ _⟩
  | cons b post =>
      rw [nextFree_cons hl (hpost b (by simp))]
      obtain ⟨y, t, bst⟩ := b
      by_cases hb : bst = .free
      · subst hb
        obtain ⟨L', hl', hx, hrest, hk⟩ := blkMergenext_laid hst hl
        exact ⟨(blkMergenext detach h x).2, s + 16 + t, post, L', by rw [← hx]; rfl,
          .drop _ _ rfl, hl', hrest, hk⟩
      · rw [if_neg (by simpa using hb)]
        exact ⟨h, s, _, L, rfl, .keep _ (by simpa using hb), hl, rfl, Kept.refl _ _⟩

/-- The second half of `blk_trymerge`. -/
theorem tryPrev_laid (hl : Laid a e h (pre ++ ⟨x, s, .hand⟩ :: post) L)
    (hpre : ∀ b ∈ pre, b.st ≠ .hand) :
    ∃ x' h' s' pre' L',
      (if prevFree h.mem x then blkMergeprev detach h x else (x, h)) = (x', h') ∧
      Absorbed pre.reverse pre'.reverse ∧ Laid a e h' (pre' ++ ⟨x', s', .hand⟩ :: post) L' ∧
      h'.pool.rest = h.pool.rest ∧
      Kept h.mem (pre ++ ⟨x, s, .hand⟩ :: post) h'.mem (pre' ++ ⟨x', s', .hand⟩ :: post) := by
  rcases List.eq_nil_or_concat pre with rfl | ⟨pre, b, rfl⟩
  · rw [prevFree_nil hl]
    exact ⟨x, h, s, [], L, rfl, .keep _ (by simp), hl, rfl, Kept.refl _ _⟩
  · rw [List.concat_eq_append] at *
    rw [List.append_assoc, List.singleton_append] at hl
    rw [prevFree_cons hl (hpre b (by simp))]
    obtain ⟨y, t, bst⟩ := b
    by_cases hb : bst = .free
    · subst hb
      obtain ⟨L', hl', hx, hrest, hk⟩ := blkMergeprev_laid (by simp) hl
      refine ⟨y, (blkMergeprev detach h x).2, t + 16 + s, pre, L', by rw [← hx]; rfl, ?_, hl',
        hrest, by simpa using hk⟩
      rw [List.reverse_append]
      exact .drop _ _ rfl
    · rw [if_neg (by simpa using hb)]
      refine ⟨x, h, s, pre ++ [⟨y, t, bst⟩], L, rfl, .keep _ ?_, by simpa using hl, rfl,
        Kept.refl _ _⟩
      simpa using hb

/-- **`blk_trymerge` merges a block in hand with both free neighbours.** -/
theorem blkTrymerge_laid (hl : Laid a e h (pre ++ ⟨x, s, .hand⟩ :: post) L)
    (hother : ∀ b ∈ pre ++ post, b.st ≠ .hand) :
    ∃ pre' x' s' post' L',
      Absorbed pre.reverse pre'.reverse ∧ Absorbed post post' ∧
      (blkTrymerge detach h x).1 = x' ∧
      Laid a e (blkTrymerge detach h x).2 (pre' ++ ⟨x', s', .hand⟩ :: post') L' ∧
      (blkTrymerge detach h x).2.pool.rest = h.pool.rest ∧
      Kept h.mem (pre ++ ⟨x, s, .hand⟩ :: post) (blkTrymerge detach h x).2.mem
        (pre' ++ ⟨x', s', .hand⟩ :: post') := by
  have hs : blkSize h.mem x = s := hl.blkSize_eq (b := ⟨x, s, .hand⟩) (by simp)
  obtain ⟨h1, s1, post', L1, he1, ha1, hl1, hr1, hk1⟩ :=
    tryNext_laid (by simp) hl fun b hb => hother b (by simp [hb])
  obtain ⟨x2, h2, s2, pre', L2, he2, ha2, hl2, hr2, hk2⟩ :=
    tryPrev_laid hl1 fun b hb => hother b (by simp [hb])
  have hs2 : blkSize h2.mem x2 = s2 := hl2.blkSize_eq (b := ⟨x2, s2, .hand⟩) (by simp)
  have hf2 : Fits x2 s2 := hl2.fitsOf (b := ⟨x2, s2, .hand⟩) (by simp)
  have heq : blkTrymerge detach h x = (x2, if blkAreaIs2M h.mem x then
      { h2 with mem := blkSetArea2M h2.mem x2 s2 } else h2) := by
    unfold nextFree at he1
    unfold prevFree at he2
    unfold blkTrymerge
    dsimp only
    rw [hs, he1]
    dsimp only
    rw [he2]
    dsimp only
    rw [hs2]
  rw [heq]
  refine ⟨pre', x2, s2, post', L2, ha2, ha1, rfl, ?_, ?_, fun w hw => ?_⟩
  · dsimp only
    split
    · exact setArea2M_laid (by simp) hl2
    · exact hl2
  · dsimp only
    split
    · exact hr2.trans hr1
    · exact hr2.trans hr1
  · obtain ⟨h', hout⟩ := (hk1.trans hk2) w hw
    refine ⟨?_, hout⟩
    dsimp only
    split
    · have hx := hout ⟨x2, s2, .hand⟩ (by simp) (by simp)
      exact (flagWrites_other hf2 _ _ _ w hx).trans h'
    · exact h'

end IonOS.Alloc
