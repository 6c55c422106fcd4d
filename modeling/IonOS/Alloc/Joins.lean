import IonOS.Alloc.Moves

/-!
# Merging in a manager's area

The counterpart of `Merge`: what the looks past either end of a block see, and
`blk_trymerge` as a move on the picture. A free neighbour is always on the list of
its size, since a block the manager has not touched yet has no neighbour in its
area. Merging writes bare sizes, so the size flag is put back at the end.
-/

namespace IonOS.Alloc

open IonOS.Lib

variable {h : Heap Mman} {m : Mem} {hd : Nat → Nat} {P : Pic} {a x s y t : Nat}
  {pre post : List Block} {st : BlkState} {big : Prop}

/-! ## Looking at the neighbours -/

namespace Spread

/-- Behind a block is the head of the next one. -/
theorem nexthead_block {b : Block} (hl : Spread m hd P) (ha : a ∈ P.bases)
    (hbs : P.blocks a = pre ++ ⟨x, s, st⟩ :: b :: post) :
    b.ptr = x + s + 16 ∧ IsTag (blkNexthead m x s) b.size b.st := by
  have htil := hl.tiling a ha
  rw [hbs] at htil
  have hptr : b.ptr = x + (s + 16) := htil.next_start
  have hb : b ∈ P.blocks a := by rw [hbs]; simp
  have hhigh := (hl.fitsOf ha hb).high
  have htag := (hl.tags a ha b hb).head
  refine ⟨by omega, ?_⟩
  rw [blkNexthead_eq m (by omega)]
  rwa [show b.ptr - 8 = x + s + 8 by omega] at htag

/-- Behind the last block is the end marker. -/
theorem nonext_last (hl : Spread m hd P) (ha : a ∈ P.bases)
    (hbs : P.blocks a = pre ++ [⟨x, s, st⟩]) : blkNonext m x s = true := by
  have htil := hl.tiling a ha
  rw [hbs] at htil
  have hend : x + (s + 16) = P.stop a := htil.last_end
  have hfit : P.stop a ≤ 2 ^ 64 := (hl.place a ha).fits
  have hright := hl.right a ha
  rw [blkNonext, blkNexthead_eq m (by omega), and_areaFlag, decide_eq_true_iff]
  rwa [show P.stop a - 8 = x + s + 8 by omega] at hright

/-- In front of a block is the tail of the one before. -/
theorem prevtail_block {b : Block} (hl : Spread m hd P) (ha : a ∈ P.bases)
    (hbs : P.blocks a = pre ++ b :: ⟨x, s, st⟩ :: post) :
    x = b.ptr + b.size + 16 ∧ IsTag (blkPrevtail m x) b.size b.st := by
  have htil := hl.tiling a ha
  rw [hbs] at htil
  have hptr : x = b.ptr + (b.size + 16) := htil.next_start
  have hb : b ∈ P.blocks a := by rw [hbs]; simp
  have hhigh := (hl.fitsOf ha hb).high
  have hbd := hl.bounds ha (b := ⟨x, s, st⟩) (by rw [hbs]; simp)
  dsimp only at hbd
  have hfit : P.stop a ≤ 2 ^ 64 := (hl.place a ha).fits
  have htag := (hl.tags a ha b hb).tail
  refine ⟨by omega, ?_⟩
  rw [blkPrevtail_eq m (by omega) (by omega)]
  rwa [show b.ptr + b.size = x - 16 by omega] at htag

theorem blkNext_cons {b : Block} (hl : Spread m hd P) (ha : a ∈ P.bases)
    (hbs : P.blocks a = pre ++ ⟨x, s, st⟩ :: b :: post) : blkNext m x = b.ptr := by
  have hs : blkSize m x = s := hl.blkSize_eq (b := ⟨x, s, st⟩) ha (by rw [hbs]; simp)
  obtain ⟨hptr, htag⟩ := hl.nexthead_block ha hbs
  have hhigh := (hl.fitsOf ha (b := b) (by rw [hbs]; simp)).high
  rw [blkNext, hs, blkNonext, if_neg (by rw [htag.noArea]; simp),
    addW_of_lt (a := x) (by omega), addW_of_lt (by omega), hptr]

theorem nextFree_nil (hl : Spread m hd P) (ha : a ∈ P.bases)
    (hbs : P.blocks a = pre ++ [⟨x, s, st⟩]) : nextFree m x s = false := by
  rw [nextFree, hl.nonext_last ha hbs]; rfl

theorem nextFree_cons {b : Block} (hl : Spread m hd P) (ha : a ∈ P.bases)
    (hbs : P.blocks a = pre ++ ⟨x, s, st⟩ :: b :: post) (hb : b.st ≠ .hand) :
    nextFree m x s = decide (b.st = .free) := by
  obtain ⟨-, htag⟩ := hl.nexthead_block ha hbs
  rw [nextFree, blkNonext, htag.noArea, htag.freeFlag hb]
  rfl

/-- In front of the first block is a marker, or a tail that is not free. -/
theorem prevFree_nil (hl : Spread m hd P) (ha : a ∈ P.bases)
    (hbs : P.blocks a = ⟨x, s, st⟩ :: post) : prevFree m x = false := by
  have htil := hl.tiling a ha
  rw [hbs] at htil
  have hptr : x = P.first a := htil.1
  have hfirst := P.first_le a
  have hhigh := (hl.fitsOf ha (b := ⟨x, s, st⟩) (by rw [hbs]; simp)).high
  dsimp only at hhigh
  have hleft := hl.left a ha
  rw [← hptr, ← blkPrevtail_eq m (by omega) (by omega)] at hleft
  rw [prevFree, blkNoprev, and_areaFlag, and_freeFlag]
  rcases hleft with h | h
  · simp [h]
  · simp [h]

theorem prevFree_cons {b : Block} (hl : Spread m hd P) (ha : a ∈ P.bases)
    (hbs : P.blocks a = pre ++ b :: ⟨x, s, st⟩ :: post) (hb : b.st ≠ .hand) :
    prevFree m x = decide (b.st = .free) := by
  obtain ⟨-, htag⟩ := hl.prevtail_block ha hbs
  rw [prevFree, blkNoprev, htag.noArea, htag.freeFlag hb]
  rfl

/-- A free block with company in its area is on the list of its size. -/
theorem listed_of_mem (hl : Spread m hd P) (ha : a ∈ P.bases) {b c : Block}
    (hb : b ∈ P.blocks a) (hc : c ∈ P.blocks a) (hne : c ≠ b) (hf : b.st = .free) :
    b.ptr ∈ P.lists (listOf b.size) := by
  rcases hl.listed a ha b hb hf with h | ⟨hone, -⟩
  · exact h
  · rw [hone] at hc
    exact absurd (List.mem_singleton.mp hc) hne

end Spread

/-! ## Joining two blocks -/

/-- Writing one pair of tags around two adjacent blocks makes them one. -/
theorem join_steps (hl : Spans h P) (ha : a ∈ P.bases)
    (hbs : P.blocks a = pre ++ ⟨y, t, .hand⟩ :: ⟨x, s, .hand⟩ :: post) :
    Steps h P { h with mem := blkSetsize h.mem y (t + 16 + s) }
        (P.edit a (pre ++ ⟨y, t + 16 + s, .hand⟩ :: post) P.lists) ∧
      Flagged (blkSetsize h.mem y (t + 16 + s)) y (t + 16 + s) False := by
  have hy : (⟨y, t, .hand⟩ : Block) ∈ P.blocks a := by rw [hbs]; simp
  have hx : (⟨x, s, .hand⟩ : Block) ∈ P.blocks a := by rw [hbs]; simp
  have htil := hl.tiling a ha
  rw [hbs] at htil
  have hxy : x = y + (t + 16) := htil.next_start
  obtain ⟨h1, h2, h3, -⟩ := hl.fitsOf ha hy
  obtain ⟨-, h6, -, h8⟩ := hl.fitsOf ha hx
  have hsz := (hl.sizes a ha _ hy).2
  dsimp only at h1 h2 h3 h6 h8 hsz
  have hf : Fits y (t + 16 + s) := ⟨h1, by omega, h3, by omega⟩
  have hbs' : P.blocks a = pre ++ [⟨y, t, .hand⟩, ⟨x, s, .hand⟩] ++ post := by simpa using hbs
  have htwo : Tiling Block.ptr Block.len y [⟨y, t, .hand⟩, ⟨x, s, .hand⟩] (x + (s + 16)) :=
    ⟨rfl, hxy, by show y + (t + 16) + (s + 16) = _; omega⟩
  have hone : Tiling Block.ptr Block.len y [⟨y, t + 16 + s, .hand⟩] (x + (s + 16)) :=
    ⟨rfl, by show y + (t + 16 + s + 16) = _; omega⟩
  have hm : ∀ w, w + 8 < y ∨ x + (s + 16) ≤ w + 8 →
      blkSetsize h.mem y (t + 16 + s) w = h.mem w :=
    fun w hw => tagWrites_other hf h.mem _ _ (by omega)
  have r1 := hl.replace _ _ ha hbs' htwo (by simp) hone (by simp) (by simp)
    (by simp only [List.mem_singleton, forall_eq]; omega)
    (by simpa using blkSetsize_tagged hf h.mem (by simp : BlkState.hand ≠ .free)) (by simp) hm
  have r2 := Spread.replace_moved ha hbs' htwo hone (by simp) hm
  simp only [List.append_assoc, List.cons_append, List.nil_append] at r1 r2
  exact ⟨⟨r1, r2, rfl, rfl⟩, blkSetsize_flagged hf h.mem⟩

/-- `blk_mergenext` in terms of the block behind. -/
theorem blkMergenext_def {st' : BlkState} (hl : Spans h P) (ha : a ∈ P.bases)
    (hbs : P.blocks a = pre ++ ⟨x, s, st⟩ :: ⟨y, t, st'⟩ :: post) :
    blkMergenext Mman.detach h x = (x, { Mman.detach h y with
      mem := blkSetsize (Mman.detach h y).mem x (s + 16 + t) }) := by
  have hx : (⟨x, s, st⟩ : Block) ∈ P.blocks a := by rw [hbs]; simp
  have hy : (⟨y, t, st'⟩ : Block) ∈ P.blocks a := by rw [hbs]; simp
  have hs : blkSize h.mem x = s := hl.blkSize_eq (b := ⟨x, s, st⟩) ha hx
  have ht : blkSize h.mem y = t := hl.blkSize_eq (b := ⟨y, t, st'⟩) ha hy
  have hnext : blkNext h.mem x = y := hl.blkNext_cons ha hbs
  obtain ⟨hxy, -⟩ := hl.nexthead_block ha hbs
  have hhigh := (hl.fitsOf ha hy).high
  have hlow := (hl.fitsOf ha hx).low
  dsimp only at hxy hhigh hlow
  have hsize : addW (addW s t) 16 = s + 16 + t := by
    rw [addW_of_lt (a := s) (by omega), addW_of_lt (by omega)]; omega
  unfold blkMergenext
  dsimp only
  rw [hnext, hs, ht, hsize]

/-- **`blk_mergenext` swallows the free block behind.** -/
theorem blkMergenext_steps (hl : Spans h P) (ha : a ∈ P.bases)
    (hbs : P.blocks a = pre ++ ⟨x, s, .hand⟩ :: ⟨y, t, .free⟩ :: post) :
    ∃ L', Steps h P (blkMergenext Mman.detach h x).2
        (P.edit a (pre ++ ⟨x, s + 16 + t, .hand⟩ :: post) L') ∧
      (blkMergenext Mman.detach h x).1 = x ∧
      Flagged (blkMergenext Mman.detach h x).2.mem x (s + 16 + t) False := by
  have hx : (⟨x, s, .hand⟩ : Block) ∈ P.blocks a := by rw [hbs]; simp
  have hy : (⟨y, t, .free⟩ : Block) ∈ P.blocks a := by rw [hbs]; simp
  have hbs1 : P.blocks a = (pre ++ [⟨x, s, .hand⟩]) ++ ⟨y, t, .free⟩ :: post := by
    simpa using hbs
  obtain ⟨L', s1⟩ := Mman.detach_steps hl ha hbs1 (hl.listed_of_mem ha hy hx (by simp) rfl)
  obtain ⟨s2, hflag⟩ := join_steps s1.spans ha (by simp : _ = pre ++ ⟨x, s, .hand⟩ ::
    ⟨y, t, .hand⟩ :: post)
  rw [Pic.edit_edit] at s2
  rw [blkMergenext_def hl ha hbs]
  exact ⟨_, s1.trans s2, rfl, hflag⟩

/-- **`blk_mergeprev` is swallowed by the free block in front.** -/
theorem blkMergeprev_steps (hl : Spans h P) (ha : a ∈ P.bases)
    (hbs : P.blocks a = pre ++ ⟨y, t, .free⟩ :: ⟨x, s, .hand⟩ :: post) :
    ∃ L', Steps h P (blkMergeprev Mman.detach h x).2
        (P.edit a (pre ++ ⟨y, t + 16 + s, .hand⟩ :: post) L') ∧
      (blkMergeprev Mman.detach h x).1 = y ∧
      Flagged (blkMergeprev Mman.detach h x).2.mem y (t + 16 + s) False := by
  have hx : (⟨x, s, .hand⟩ : Block) ∈ P.blocks a := by rw [hbs]; simp
  have hy : (⟨y, t, .free⟩ : Block) ∈ P.blocks a := by rw [hbs]; simp
  have hs : blkSize h.mem x = s := hl.blkSize_eq (b := ⟨x, s, .hand⟩) ha hx
  have ht : blkSize h.mem y = t := hl.blkSize_eq (b := ⟨y, t, .free⟩) ha hy
  obtain ⟨hxy, htag⟩ := hl.prevtail_block ha hbs
  dsimp only at hxy
  have hhigh := (hl.fitsOf ha hx).high
  have hlow := (hl.fitsOf ha hy).low
  dsimp only at hhigh hlow
  have hval : blkPrevtail h.mem x &&& notW flagBits = t :=
    (and_notW_seven (Mem.read64_lt _ _)).trans htag.size
  have hprev : blkPrev h.mem x = y := by
    rw [blkPrev, blkNoprev, if_neg (by rw [htag.noArea]; simp), hval,
      subW_of_le (a := x) (by omega) (by omega), subW_of_le (by omega) (by omega)]
    omega
  have hsize : addW (addW s t) 16 = t + 16 + s := by
    rw [addW_of_lt (a := s) (by omega), addW_of_lt (by omega)]; omega
  obtain ⟨L', s1⟩ := Mman.detach_steps hl ha hbs (hl.listed_of_mem ha hy hx (by simp) rfl)
  obtain ⟨s2, hflag⟩ := join_steps s1.spans ha (Pic.edit_blocks _ _)
  rw [Pic.edit_edit] at s2
  unfold blkMergeprev
  dsimp only
  rw [hprev, hs, ht, hsize]
  exact ⟨_, s1.trans s2, rfl, hflag⟩

/-! ## Merging whatever can be merged -/

/-- The first half of `blk_trymerge`; the size flag may be gone afterwards. -/
theorem tryNext_steps (hl : Spans h P) (ha : a ∈ P.bases)
    (hbs : P.blocks a = pre ++ ⟨x, s, .hand⟩ :: post) (hflag : Flagged h.mem x s big)
    (hpost : ∀ b ∈ post, b.st ≠ .hand) :
    ∃ h' s' post' L' big', (big' → big) ∧
      (if nextFree h.mem x s then blkMergenext Mman.detach h x else (x, h)) = (x, h') ∧
      Absorbed post post' ∧ Steps h P h' (P.edit a (pre ++ ⟨x, s', .hand⟩ :: post') L') ∧
      Flagged h'.mem x s' big' := by
  have hsame : Steps h P h (P.edit a (pre ++ ⟨x, s, .hand⟩ :: post) P.lists) := by
    rw [← hbs, Pic.edit_self]
    exact Steps.refl hl
  cases post with
  | nil =>
      rw [hl.nextFree_nil ha hbs]
      exact ⟨h, s, [], P.lists, big, id, rfl, .keep _ (by simp), hsame, hflag⟩
  | cons b post =>
      rw [hl.nextFree_cons ha hbs (hpost b (by simp))]
      obtain ⟨y, t, bst⟩ := b
      by_cases hb : bst = .free
      · subst hb
        obtain ⟨L', s1, hx, hflag'⟩ := blkMergenext_steps hl ha hbs
        exact ⟨(blkMergenext Mman.detach h x).2, s + 16 + t, post, L', False, False.elim,
          by rw [← hx]; rfl, .drop _ _ rfl, s1, hflag'⟩
      · rw [if_neg (by simpa using hb)]
        exact ⟨h, s, _, P.lists, big, id, rfl, .keep _ (by simpa using hb), hsame, hflag⟩

/-- The second half of `blk_trymerge`. -/
theorem tryPrev_steps (hl : Spans h P) (ha : a ∈ P.bases)
    (hbs : P.blocks a = pre ++ ⟨x, s, .hand⟩ :: post) (hflag : Flagged h.mem x s big)
    (hpre : ∀ b ∈ pre, b.st ≠ .hand) :
    ∃ x' h' s' pre' L' big', (big' → big) ∧
      (if prevFree h.mem x then blkMergeprev Mman.detach h x else (x, h)) = (x', h') ∧
      Absorbed pre.reverse pre'.reverse ∧
      Steps h P h' (P.edit a (pre' ++ ⟨x', s', .hand⟩ :: post) L') ∧
      Flagged h'.mem x' s' big' := by
  have hsame : Steps h P h (P.edit a (pre ++ ⟨x, s, .hand⟩ :: post) P.lists) := by
    rw [← hbs, Pic.edit_self]
    exact Steps.refl hl
  rcases List.eq_nil_or_concat pre with rfl | ⟨pre, b, rfl⟩
  · rw [hl.prevFree_nil ha hbs]
    exact ⟨x, h, s, [], P.lists, big, id, rfl, .keep _ (by simp), hsame, hflag⟩
  · rw [List.concat_eq_append] at *
    rw [List.append_assoc, List.singleton_append] at hbs
    rw [hl.prevFree_cons ha hbs (hpre b (by simp))]
    obtain ⟨y, t, bst⟩ := b
    by_cases hb : bst = .free
    · subst hb
      obtain ⟨L', s1, hx, hflag'⟩ := blkMergeprev_steps hl ha hbs
      refine ⟨y, (blkMergeprev Mman.detach h x).2, t + 16 + s, pre, L', False, False.elim,
        by rw [← hx]; rfl, ?_, s1, hflag'⟩
      rw [List.reverse_append]
      exact .drop _ _ rfl
    · rw [if_neg (by simpa using hb)]
      refine ⟨x, h, s, pre ++ [⟨y, t, bst⟩], P.lists, big, id, rfl, .keep _ ?_, hsame, hflag⟩
      simpa using hb

/-- **`blk_trymerge` merges a block in hand with both free neighbours.** -/
theorem blkTrymerge_steps (hl : Spans h P) (ha : a ∈ P.bases)
    (hbs : P.blocks a = pre ++ ⟨x, s, .hand⟩ :: post)
    (hflag : Flagged h.mem x s (P.size a = size2M)) (hother : ∀ b ∈ pre ++ post, b.st ≠ .hand) :
    ∃ pre' x' s' post' L',
      Absorbed pre.reverse pre'.reverse ∧ Absorbed post post' ∧
      (blkTrymerge Mman.detach h x).1 = x' ∧
      Steps h P (blkTrymerge Mman.detach h x).2
        (P.edit a (pre' ++ ⟨x', s', .hand⟩ :: post') L') ∧
      Flagged (blkTrymerge Mman.detach h x).2.mem x' s' (P.size a = size2M) := by
  have hx : (⟨x, s, .hand⟩ : Block) ∈ P.blocks a := by rw [hbs]; simp
  have hs : blkSize h.mem x = s := hl.blkSize_eq (b := ⟨x, s, .hand⟩) ha hx
  obtain ⟨-, -, hlow, hhigh⟩ := hl.fitsOf ha hx
  dsimp only at hlow hhigh
  have h2M := hflag.is2M (by omega) (by omega)
  obtain ⟨h1, s1, post', L1, big1, hb1, he1, ha1, st1, f1⟩ :=
    tryNext_steps hl ha hbs hflag fun b hb => hother b (by simp [hb])
  obtain ⟨x2, h2, s2, pre', L2, big2, hb2, he2, ha2, st2, f2⟩ :=
    tryPrev_steps st1.spans ha (Pic.edit_blocks _ _) f1 fun b hb => hother b (by simp [hb])
  rw [Pic.edit_edit] at st2
  have hmem2 : (⟨x2, s2, .hand⟩ : Block) ∈
      (P.edit a (pre' ++ ⟨x2, s2, .hand⟩ :: post') L2).blocks a := by simp
  have hs2 : blkSize h2.mem x2 = s2 := st2.spans.blkSize_eq (b := ⟨x2, s2, .hand⟩) ha hmem2
  have hf2 : Fits x2 s2 := st2.spans.fitsOf (b := ⟨x2, s2, .hand⟩) ha hmem2
  have heq : blkTrymerge Mman.detach h x = (x2, if blkAreaIs2M h.mem x then
      { h2 with mem := blkSetArea2M h2.mem x2 s2 } else h2) := by
    unfold nextFree at he1
    unfold prevFree at he2
    unfold blkTrymerge
    dsimp only
    rw [hs, he1]
    dsimp only
    rw [he2]
    dsimp only
    rw [hs2]
  rw [heq]
  by_cases hbig : blkAreaIs2M h.mem x = true
  · -- the flag is set again
    rw [if_pos hbig]
    obtain ⟨r1, r2⟩ := st2.spans.retag ha (Pic.edit_blocks _ _) (by simp : BlkState.hand ≠ .free)
      (blkSetArea2M_tagged hf2 (st2.spans.tags a ha _ hmem2)) (by simp)
      (flagWrites_other hf2 _ _ _)
    rw [Pic.edit_edit] at r1 r2
    refine ⟨pre', x2, s2, post', _, ha2, ha1, rfl, (st1.trans st2).trans ⟨r1, r2, rfl, rfl⟩, ?_⟩
    exact (blkSetArea2M_flagged hf2 _).of_iff (by simp [h2M.mp hbig])
  · rw [if_neg hbig]
    refine ⟨pre', x2, s2, post', L2, ha2, ha1, rfl, st1.trans st2, f2.of_iff ?_⟩
    have hno : ¬ (P.size a = size2M) := fun hb => hbig (h2M.mpr hb)
    exact ⟨fun hb => hb1 (hb2 hb), fun hb => absurd hb hno⟩

end IonOS.Alloc
