import IonOS.Alloc.Merge
import Mathlib.Data.List.Chain

/-!
# An allocator in the abstract

The blocks of an area in order, without the memory behind them. There are three
moves: a free block is taken, a live one is given back, and a live one changes
its size where it is. Each says which blocks it turns into which, and everything
that can be said about blocks alone is said here: what is live afterwards, how
many bytes are in use, and whether free neighbours are left unmerged.

The operations of a pool make these moves, which is what `Ops` shows.
-/

namespace IonOS.Alloc

open IonOS.Lib

variable {bs bs' pre post pre' post' : List Block} {b : Block} {p x y s t k r n : Nat}
  {st : BlkState}

/-! ## What can be said about blocks -/

/-- No operation is under way. -/
def Settled (bs : List Block) : Prop := ∀ b ∈ bs, b.st ≠ .hand

/-- `p` is the payload of a live block. -/
def LiveAt (bs : List Block) (p : Nat) : Prop := ∃ b ∈ bs, b.ptr = p ∧ b.st = .live

/-- The bytes in use. -/
def liveSize (bs : List Block) : Nat :=
  (bs.map fun b => if b.st = .live then b.size else 0).sum

/-- **Coalesced**: no two neighbours are both free. -/
def Coalesced (bs : List Block) : Prop :=
  bs.IsChain fun b c => ¬ (b.st = .free ∧ c.st = .free)

/-- The first block, if there is one, is not free. -/
def HeadBusy (bs : List Block) : Prop := ∀ b ∈ bs.head?, b.st ≠ .free

theorem Settled.sides (h : Settled (pre ++ ⟨x, s, st⟩ :: post)) :
    ∀ b ∈ pre ++ post, b.st ≠ .hand := fun b hb => h b (by
  rcases List.mem_append.mp hb with hb | hb <;> simp [hb])

theorem liveAt_middle :
    LiveAt (pre ++ b :: post) p ↔ (b.ptr = p ∧ b.st = .live) ∨ LiveAt (pre ++ post) p := by
  unfold LiveAt
  constructor
  · rintro ⟨c, hc, hcp, hcl⟩
    simp only [List.mem_append, List.mem_cons] at hc
    rcases hc with hc | rfl | hc
    · exact .inr ⟨c, by simp [hc], hcp, hcl⟩
    · exact .inl ⟨hcp, hcl⟩
    · exact .inr ⟨c, by simp [hc], hcp, hcl⟩
  · rintro (⟨hp, hl⟩ | ⟨c, hc, hcp, hcl⟩)
    · exact ⟨b, by simp, hp, hl⟩
    · refine ⟨c, ?_, hcp, hcl⟩
      rcases List.mem_append.mp hc with hc | hc <;> simp [hc]

@[simp] theorem liveSize_nil : liveSize [] = 0 := rfl

@[simp] theorem liveSize_cons :
    liveSize (b :: bs) = (if b.st = .live then b.size else 0) + liveSize bs := rfl

@[simp] theorem liveSize_append : liveSize (bs ++ bs') = liveSize bs + liveSize bs' := by
  simp [liveSize]

/-- Blocks that are not live do not count. -/
theorem liveSize_eq_zero (h : ∀ b ∈ bs, b.st ≠ .live) : liveSize bs = 0 := by
  induction bs with
  | nil => rfl
  | cons b bs ih =>
    rw [liveSize_cons, if_neg (h b (by simp)), ih fun c hc => h c (by simp [hc])]

/-- A live block is part of what is in use. -/
theorem size_le_liveSize (hb : b ∈ bs) (hl : b.st = .live) : b.size ≤ liveSize bs := by
  obtain ⟨pre, post, rfl⟩ := List.append_of_mem hb
  simp only [liveSize_append, liveSize_cons, hl, if_true]
  omega

/-- What is in use fits into the area. -/
theorem liveSize_le {a e : Nat} (h : Tiling Block.ptr Block.len a bs e) :
    a + liveSize bs ≤ e := by
  induction bs generalizing a with
  | nil => exact Nat.le_of_eq h
  | cons b bs ih =>
    have hrest := ih h.2
    have hlen : b.len = b.size + 16 := rfl
    rw [liveSize_cons]
    split <;> omega

/-! ### Free neighbours -/

theorem Coalesced.left (h : Coalesced (bs ++ bs')) : Coalesced bs := h.left_of_append

theorem Coalesced.right (h : Coalesced (bs ++ bs')) : Coalesced bs' := h.right_of_append

theorem coalesced_cons : Coalesced (b :: bs) ↔ (b.st = .free → HeadBusy bs) ∧ Coalesced bs := by
  unfold Coalesced HeadBusy
  rw [List.isChain_cons]
  simp only [not_and]
  constructor
  · rintro ⟨h1, h2⟩
    exact ⟨fun hb c hc => h1 c hc hb, h2⟩
  · rintro ⟨h1, h2⟩
    exact ⟨fun c hc hb => h1 hb c hc, h2⟩

/-- Two stretches meet well when not both of the blocks that touch are free. -/
theorem coalesced_append :
    Coalesced (bs ++ bs') ↔ Coalesced bs ∧ Coalesced bs' ∧
      (HeadBusy bs.reverse ∨ HeadBusy bs') := by
  unfold Coalesced HeadBusy
  rw [List.isChain_append, List.head?_reverse]
  refine and_congr_right fun _ => and_congr_right fun _ => ?_
  cases hl : bs.getLast? with
  | none => simp
  | some b =>
      cases hh : bs'.head? with
      | none => simp
      | some c => simp only [Option.mem_some_iff, forall_eq', not_and_or, ne_eq]

/-- A block that is not free separates its two sides. -/
theorem coalesced_middle (hb : b.st ≠ .free) :
    Coalesced (pre ++ b :: post) ↔ Coalesced pre ∧ Coalesced post := by
  rw [coalesced_append, coalesced_cons]
  simp [HeadBusy, hb]

/-- A free block has no free neighbours. -/
theorem coalesced_free (hb : b.st = .free) :
    Coalesced (pre ++ b :: post) ↔
      Coalesced pre ∧ Coalesced post ∧ HeadBusy pre.reverse ∧ HeadBusy post := by
  have hhead : ¬ HeadBusy (b :: post) := fun h => h b (by simp) hb
  rw [coalesced_append, coalesced_cons]
  simp only [hb, forall_const, hhead, or_false]
  tauto

/-- Once the free neighbours are gone, the next blocks on both sides are not free. -/
theorem Absorbed.busy (h : Absorbed post post') (hc : Coalesced post) :
    HeadBusy post' ∧ Coalesced post' := by
  cases h with
  | keep _ h => exact ⟨h, hc⟩
  | drop b _ hb =>
      obtain ⟨h1, h2⟩ := coalesced_cons.mp hc
      exact ⟨h1 hb, h2⟩

theorem Absorbed.liveSize_eq (h : Absorbed post post') : liveSize post' = liveSize post := by
  cases h with
  | keep => rfl
  | drop b _ hb => simp [hb]

/-- Reversed lists have the same blocks. -/
theorem liveSize_reverse : liveSize bs.reverse = liveSize bs := by
  simp [liveSize, List.sum_reverse]

theorem coalesced_reverse : Coalesced bs.reverse ↔ Coalesced bs := by
  unfold Coalesced
  rw [List.isChain_reverse]
  simp only [and_comm]

/-! ### Parts that are cut off -/

theorem liveSize_splitRest : liveSize (splitRest x s n) = 0 :=
  liveSize_eq_zero fun b hb => by rw [splitRest_free hb]; simp

/-- The part cut off behind is mergeable only with a free block behind it. -/
theorem coalesced_splitRest (hpost : Coalesced post) :
    Coalesced (splitRest x s n ++ post) ↔ (n + 64 ≤ s → HeadBusy post) := by
  unfold splitRest
  split
  · rename_i h
    rw [List.singleton_append, coalesced_cons]
    simp [h, hpost]
  · rename_i h
    simp [h, hpost]

/-- The block cut off in front. -/
def leadBlocks (x off : Nat) : List Block :=
  if 0 < off then [⟨x, off - 16, .free⟩] else []

theorem leadBlocks_free {off : Nat} (hb : b ∈ leadBlocks x off) : b.st = .free := by
  unfold leadBlocks at hb
  split at hb
  · obtain rfl : b = _ := by simpa using hb
    rfl
  · exact absurd hb (by simp)

theorem liveSize_leadBlocks {off : Nat} : liveSize (leadBlocks x off) = 0 :=
  liveSize_eq_zero fun b hb => by rw [leadBlocks_free hb]; simp

theorem coalesced_leadBlocks {off : Nat} (hpre : Coalesced pre) (hbusy : HeadBusy pre.reverse) :
    Coalesced (pre ++ leadBlocks x off) := by
  unfold leadBlocks
  split
  · exact (coalesced_free rfl).mpr ⟨hpre, List.IsChain.nil, hbusy, by simp [HeadBusy]⟩
  · simpa using hpre

/-! ## The moves -/

/--
**A free block is taken**: `p` is live now with `k` bytes, at least the `r` asked
for. What lies in front of `p` and what is left over behind are free blocks.
-/
inductive Takes (r : Nat) : List Block → Nat → Nat → List Block → Prop where
  | intro (pre post : List Block) (x s p t : Nat) (hr : r ≤ t) :
      Takes r (pre ++ ⟨x, s, .free⟩ :: post) p (splitSize t r)
        ((pre ++ leadBlocks x (p - x)) ++ ⟨p, splitSize t r, .live⟩ :: (splitRest p t r ++ post))

/-- **A live block is given back** and merged with its free neighbours. -/
inductive Releases : List Block → Nat → Nat → List Block → Prop where
  | intro (pre post pre' post' : List Block) (p s x t : Nat)
      (hpre : Absorbed pre.reverse pre'.reverse) (hpost : Absorbed post post') :
      Releases (pre ++ ⟨p, s, .live⟩ :: post) p s (pre' ++ ⟨x, t, .free⟩ :: post')

/-- **A live block changes its size in place**, into the free block behind it if need be. -/
inductive Resizes (r : Nat) : List Block → Nat → Nat → Nat → List Block → Prop where
  | fits (pre post : List Block) (x s : Nat) (hr : r ≤ s) :
      Resizes r (pre ++ ⟨x, s, .live⟩ :: post) x s (splitSize s r)
        (pre ++ ⟨x, splitSize s r, .live⟩ :: (splitRest x s r ++ post))
  | grows (pre post : List Block) (x s y t : Nat) (hgt : s < r) (hr : r ≤ s + 16 + t) :
      Resizes r (pre ++ ⟨x, s, .live⟩ :: ⟨y, t, .free⟩ :: post) x s (splitSize (s + 16 + t) r)
        (pre ++ ⟨x, splitSize (s + 16 + t) r, .live⟩ ::
          (splitRest x (s + 16 + t) r ++ post))

theorem le_splitSize (h : r ≤ t) : r ≤ splitSize t r := by
  unfold splitSize
  split <;> omega

namespace Takes

theorem le_size (h : Takes r bs p k bs') : r ≤ k := by
  cases h with
  | intro _ _ _ _ _ _ hr => exact le_splitSize hr

theorem mem (h : Takes r bs p k bs') : (⟨p, k, .live⟩ : Block) ∈ bs' := by
  cases h with
  | intro => simp

/-- A live block was live before, or is the one taken. -/
theorem live_iff (h : Takes r bs p k bs') (hb : b.st = .live) :
    b ∈ bs' ↔ b = ⟨p, k, .live⟩ ∨ b ∈ bs := by
  cases h with
  | intro pre post x s p t =>
      have hlead : b ∉ leadBlocks x (p - x) := fun hm => by
        rw [leadBlocks_free hm] at hb
        exact absurd hb (by simp)
      have hrest : b ∉ splitRest p t r := fun hm => by
        rw [splitRest_free hm] at hb
        exact absurd hb (by simp)
      have hfree : b ≠ ⟨x, s, .free⟩ := fun he => by
        rw [he] at hb
        exact absurd hb (by simp)
      simp only [List.mem_append, List.mem_cons, hlead, hrest, hfree]
      tauto

theorem liveAt_iff (h : Takes r bs p k bs') {q : Nat} :
    LiveAt bs' q ↔ q = p ∨ LiveAt bs q := by
  constructor
  · rintro ⟨b, hb, rfl, hl⟩
    rcases (h.live_iff hl).mp hb with rfl | hb
    · exact .inl rfl
    · exact .inr ⟨b, hb, rfl, hl⟩
  · rintro (rfl | ⟨b, hb, rfl, hl⟩)
    · exact ⟨_, h.mem, rfl, rfl⟩
    · exact ⟨b, (h.live_iff hl).mpr (.inr hb), rfl, hl⟩

/-- The block taken is a new one. -/
theorem fresh {a e : Nat} {m : Mem} {hd : Nat → Nat} {L : Nat → List Nat}
    (h : Takes r bs p k bs') (hl : Layout a e m hd bs' L) : ¬ LiveAt bs p := by
  cases h with
  | intro pre post x s p t =>
      rintro ⟨b, hb, hp, hst⟩
      refine hl.ptr_ne (c := b) ?_ hp
      simp only [List.mem_append, List.mem_cons] at hb ⊢
      rcases hb with hb | rfl | hb
      · exact .inl (.inl hb)
      · exact absurd hst (by simp)
      · exact .inr (.inr hb)

theorem settled (h : Takes r bs p k bs') (hs : Settled bs) : Settled bs' := by
  cases h with
  | intro pre post x s p t =>
      intro b hb
      simp only [List.mem_append, List.mem_cons] at hb
      rcases hb with (hb | hb) | rfl | hb | hb
      · exact hs b (by simp [hb])
      · rw [leadBlocks_free hb]; simp
      · simp
      · rw [splitRest_free hb]; simp
      · exact hs b (by simp [hb])

theorem liveSize_eq (h : Takes r bs p k bs') : liveSize bs' = liveSize bs + k := by
  cases h with
  | intro pre post x s p t =>
      simp [liveSize_leadBlocks, liveSize_splitRest]
      omega

/-- The neighbours of the block taken were not free. -/
theorem coalesced (h : Takes r bs p k bs') (hc : Coalesced bs) : Coalesced bs' := by
  cases h with
  | intro pre post x s p t =>
      obtain ⟨h1, h2, h3, h4⟩ := (coalesced_free rfl).mp hc
      exact (coalesced_middle (by simp)).mpr
        ⟨coalesced_leadBlocks h1 h3, (coalesced_splitRest h2).mpr fun _ => h4⟩

end Takes

namespace Releases

/-- A live block other than the one given back stays. -/
theorem live_iff (h : Releases bs p s bs') (hb : b.st = .live) :
    b ∈ bs ↔ b = ⟨p, s, .live⟩ ∨ b ∈ bs' := by
  cases h with
  | intro pre post pre' post' p s x t hpre hpost =>
      have h1 := hpre.mem_iff (b := b) (by rw [hb]; simp)
      have h2 := hpost.mem_iff (b := b) (by rw [hb]; simp)
      have hfree : b ≠ ⟨x, t, .free⟩ := fun he => by
        rw [he] at hb
        exact absurd hb (by simp)
      simp only [List.mem_reverse] at h1
      simp only [List.mem_append, List.mem_cons, h1, h2, hfree]
      tauto

theorem liveAt_iff (h : Releases bs p s bs') {q : Nat} :
    LiveAt bs q ↔ q = p ∨ LiveAt bs' q := by
  constructor
  · rintro ⟨b, hb, rfl, hl⟩
    rcases (h.live_iff hl).mp hb with rfl | hb
    · exact .inl rfl
    · exact .inr ⟨b, hb, rfl, hl⟩
  · rintro (rfl | ⟨b, hb, rfl, hl⟩)
    · exact ⟨⟨q, s, .live⟩, (h.live_iff rfl).mpr (.inl rfl), rfl, rfl⟩
    · exact ⟨b, (h.live_iff hl).mpr (.inr hb), rfl, hl⟩

/-- Nothing is live where the block was. -/
theorem gone {a e : Nat} {m : Mem} {hd : Nat → Nat} {L : Nat → List Nat}
    (h : Releases bs p s bs') (hl : Layout a e m hd bs L) : ¬ LiveAt bs' p := by
  cases h with
  | intro pre post pre' post' p s x t hpre hpost =>
      rintro ⟨b, hb, hp, hst⟩
      have h1 := hpre.mem_iff (b := b) (by rw [hst]; simp)
      have h2 := hpost.mem_iff (b := b) (by rw [hst]; simp)
      refine hl.ptr_ne (c := b) ?_ hp
      simp only [List.mem_reverse] at h1
      simp only [List.mem_append, List.mem_cons, h1, h2] at hb ⊢
      rcases hb with hb | rfl | hb
      · exact .inl hb
      · exact absurd hst (by simp)
      · exact .inr hb

theorem settled (h : Releases bs p s bs') (hs : Settled bs) : Settled bs' := by
  cases h with
  | intro pre post pre' post' p s x t hpre hpost =>
      intro b hb he
      have h1 := hpre.mem_iff (b := b) (by rw [he]; simp)
      have h2 := hpost.mem_iff (b := b) (by rw [he]; simp)
      simp only [List.mem_reverse] at h1
      simp only [List.mem_append, List.mem_cons, h1, h2] at hb
      rcases hb with hb | rfl | hb
      · exact hs b (by simp [hb]) he
      · exact absurd he (by simp)
      · exact hs b (by simp [hb]) he

theorem liveSize_eq (h : Releases bs p s bs') : liveSize bs = liveSize bs' + s := by
  cases h with
  | intro pre post pre' post' p s x t hpre hpost =>
      have h1 := hpre.liveSize_eq
      rw [liveSize_reverse, liveSize_reverse] at h1
      simp [h1, hpost.liveSize_eq]
      omega

/-- Merging with both neighbours leaves no free neighbours. -/
theorem coalesced (h : Releases bs p s bs') (hc : Coalesced bs) : Coalesced bs' := by
  cases h with
  | intro pre post pre' post' p s x t hpre hpost =>
      obtain ⟨h1, h2⟩ := (coalesced_middle (by simp)).mp hc
      obtain ⟨h3, h4⟩ := hpre.busy (coalesced_reverse.mpr h1)
      obtain ⟨h5, h6⟩ := hpost.busy h2
      exact (coalesced_free rfl).mpr ⟨coalesced_reverse.mp h4, h6, h3, h5⟩

end Releases

namespace Resizes

theorem le_size (h : Resizes r bs x s k bs') : r ≤ k := by
  cases h with
  | fits _ _ _ _ hr => exact le_splitSize hr
  | grows _ _ _ _ _ _ _ hr => exact le_splitSize hr

theorem mem (h : Resizes r bs x s k bs') :
    (⟨x, s, .live⟩ : Block) ∈ bs ∧ (⟨x, k, .live⟩ : Block) ∈ bs' := by
  cases h with
  | fits => simp
  | grows => simp

/-- The live blocks elsewhere stay. -/
theorem live_iff (h : Resizes r bs x s k bs') (hb : b.st = .live) (hx : b.ptr ≠ x) :
    b ∈ bs' ↔ b ∈ bs := by
  have hrest : ∀ t, b ∉ splitRest x t r := fun t hm => by
    rw [splitRest_free hm] at hb
    exact absurd hb (by simp)
  have hne : ∀ t, b ≠ ⟨x, t, .live⟩ := fun t he => hx (by rw [he])
  cases h with
  | fits pre post x s => simp [hrest, hne]
  | grows pre post x s y t =>
      have hfree : b ≠ ⟨y, t, .free⟩ := fun he => by
        rw [he] at hb
        exact absurd hb (by simp)
      simp [hrest, hne, hfree]

theorem liveAt_iff (h : Resizes r bs x s k bs') {q : Nat} : LiveAt bs' q ↔ LiveAt bs q := by
  by_cases hq : q = x
  · subst hq
    exact ⟨fun _ => ⟨_, h.mem.1, rfl, rfl⟩, fun _ => ⟨_, h.mem.2, rfl, rfl⟩⟩
  · constructor
    · rintro ⟨b, hb, rfl, hl⟩
      exact ⟨b, (h.live_iff hl hq).mp hb, rfl, hl⟩
    · rintro ⟨b, hb, rfl, hl⟩
      exact ⟨b, (h.live_iff hl hq).mpr hb, rfl, hl⟩

theorem settled (h : Resizes r bs x s k bs') (hs : Settled bs) : Settled bs' := by
  intro b hb
  cases h with
  | fits pre post x s =>
      simp only [List.mem_append, List.mem_cons] at hb
      rcases hb with hb | rfl | hb | hb
      · exact hs b (by simp [hb])
      · simp
      · rw [splitRest_free hb]; simp
      · exact hs b (by simp [hb])
  | grows pre post x s y t =>
      simp only [List.mem_append, List.mem_cons] at hb
      rcases hb with hb | rfl | hb | hb
      · exact hs b (by simp [hb])
      · simp
      · rw [splitRest_free hb]; simp
      · exact hs b (by simp [hb])

theorem liveSize_eq (h : Resizes r bs x s k bs') : liveSize bs' + s = liveSize bs + k := by
  cases h with
  | fits pre post x s =>
      simp [liveSize_splitRest]
      omega
  | grows pre post x s y t =>
      simp [liveSize_splitRest]
      omega

end Resizes

/-- **Cutting a block down** leaves free neighbours just if the cut is made in front of one. -/
theorem coalesced_fits (hc : Coalesced (pre ++ ⟨x, s, .live⟩ :: post)) :
    Coalesced (pre ++ ⟨x, k, .live⟩ :: (splitRest x s r ++ post)) ↔
      (r + 64 ≤ s → HeadBusy post) := by
  obtain ⟨h1, h2⟩ := (coalesced_middle (by simp)).mp hc
  rw [coalesced_middle (by simp), coalesced_splitRest h2]
  simp [h1]

/-- Growing into a free block never does. -/
theorem coalesced_grows (hc : Coalesced (pre ++ ⟨x, s, .live⟩ :: ⟨y, t, .free⟩ :: post)) :
    Coalesced (pre ++ ⟨x, k, .live⟩ :: (splitRest x n r ++ post)) := by
  obtain ⟨h1, h2⟩ := (coalesced_middle (by simp)).mp hc
  obtain ⟨h3, h4⟩ := coalesced_cons.mp h2
  exact (coalesced_middle (by simp)).mpr ⟨h1, (coalesced_splitRest h4).mpr fun _ => h3 rfl⟩

end IonOS.Alloc
