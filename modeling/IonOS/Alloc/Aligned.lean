import IonOS.Alloc.Align
import IonOS.Alloc.Safety

/-!
# Aligned allocation

`mpool_aligned_alloc` looks for a free block with room behind its first aligned
address, cuts off what lies in front of that address as a block of its own, and
goes on as the plain allocation does.

The part in front has a payload of 16 bytes less than the gap, because the tags
of the second block come out of it. A gap of exactly 16 bytes is let through by
the search and makes that payload empty: the list node of the freed part then
lies on the tags of both. `GapOk` excludes this one gap, and it is the exact
condition under which the function does what it is for.
-/

namespace IonOS.Alloc

open IonOS.Lib IonOS.Libs

variable {a e : Nat} {h : Heap Mpool} {m : Mem} {hd : Nat → Nat} {bs pre post : List Block}
  {L : Nat → List Nat} {x s n align : Nat} {st : BlkState}

/-! ## The condition -/

/-- **No gap of 16**: the free block the search settles on does not start exactly 16 bytes
before an aligned address. -/
def GapOk (h : Heap Mpool) (n align : Nat) : Prop :=
  ∀ L : Nat → List Nat, (∀ i, (linksOf h.mem).IsList 0 (listHead h.pool i) (L i)) →
    ∀ x, pick (alignedFits (requestSize n) align h.mem) L (requestSize n) = some x →
      paddingUp x align ≠ x + 16

/-- In a layout the condition is about its own lists. -/
theorem gapOk_iff (hl : Laid a e h bs L) : GapOk h n align ↔
    ∀ x, pick (alignedFits (requestSize n) align h.mem) L (requestSize n) = some x →
      paddingUp x align ≠ x + 16 := by
  constructor
  · intro hg
    exact hg L hl.lists
  · intro hg L' hL'
    have : L' = L := funext fun i => (hL' i).unique (hl.lists i)
    rwa [this]

/-! ## A gap that leaves room -/

/-- Cutting off a gap that has room for a block. -/
theorem cutLead_laid {off : Nat} (hl : Laid a e h (pre ++ ⟨x, s, .hand⟩ :: post) L)
    (h16 : off % 16 = 0) (hgap : off ≠ 16) (hroom : off + 16 ≤ s) :
    ∃ L', (cutLead h x off).1 = x + off ∧
      Laid a e (cutLead h x off).2
        ((pre ++ leadBlocks x off) ++ ⟨x + off, s - off, .hand⟩ :: post) L' ∧
      (cutLead h x off).2.pool.rest = h.pool.rest ∧
      Kept h.mem (pre ++ ⟨x, s, .hand⟩ :: post) (cutLead h x off).2.mem
        ((pre ++ leadBlocks x off) ++ ⟨x + off, s - off, .hand⟩ :: post) := by
  have hf : Fits x s := hl.fitsOf (b := ⟨x, s, .hand⟩) (by simp)
  have hhigh := hf.high
  unfold cutLead leadBlocks
  by_cases h0 : 0 < off
  · rw [if_pos h0, if_pos h0, subW_of_le (by omega) (by omega)]
    obtain ⟨hptr, hl1, hk1⟩ := blkSplit_laid (by simp) hl (by omega : (off - 16) % 16 = 0)
      (by omega) (by omega)
    rw [show x + (off - 16) + 16 = x + off by omega,
      show s - (off - 16) - 16 = s - off by omega] at hl1 hk1
    rw [show x + (off - 16) + 16 = x + off by omega] at hptr
    have hl2 : Laid a e { h with mem := (blkSplit h.mem x (off - 16)).2 }
        (pre ++ ⟨x, off - 16, .hand⟩ :: ⟨x + off, s - off, .hand⟩ :: post) L := by
      simpa using hl1
    obtain ⟨hl3, hr3, hk3⟩ := doFree_laid hl2
    refine ⟨Function.update L (listOf (off - 16)) (x :: L (listOf (off - 16))), hptr, ?_, hr3, ?_⟩
    · simpa using hl3
    · have hk1' : Kept h.mem (pre ++ ⟨x, s, .hand⟩ :: post) (blkSplit h.mem x (off - 16)).2
          (pre ++ ⟨x, off - 16, .hand⟩ :: ⟨x + off, s - off, .hand⟩ :: post) := by
        simpa using hk1
      simpa using hk1'.trans hk3
  · obtain rfl : off = 0 := by omega
    rw [if_neg h0, if_neg h0]
    exact ⟨L, rfl, by simpa using hl, rfl, by simpa using Kept.refl _ _⟩

theorem placeAligned_eq (h : Heap Mpool) (ptr size offset : Nat) :
    placeAligned h ptr size offset = ((cutLead h ptr offset).1,
      finishAlloc (cutLead h ptr offset).2 (cutLead h ptr offset).1 size) := rfl

/-- `mpool_aligned_alloc` behind its two guards. -/
theorem mpoolAlignedAlloc_eq (hl : Laid a e h bs L) (hcb : h.pool.cbReqmem = none)
    (ha : AlignPow align) :
    mpoolAlignedAlloc h n align = some
      (match pick (alignedFits (requestSize n) align h.mem) L (requestSize n) with
        | none => (0, h)
        | some x => placeAligned (detach h x) x (requestSize n) (subW (paddingUp x align) x)) := by
  have hmatch := matchOrReqmem_eq (f := alignedFits (requestSize n) align) hl hcb (requestSize n)
    (addW (requestSize n) align)
  have hbig := ha.big
  rw [mpoolAlignedAlloc, if_neg (not_not.mpr ha.test), if_neg (by omega)]
  dsimp only
  rw [hmatch]
  cases hp : pick (alignedFits (requestSize n) align h.mem) L (requestSize n) with
  | none =>
      simp only [Option.bind_eq_bind, Option.bind_some, if_true]
      rfl
  | some x =>
      obtain ⟨i, -, hx, -⟩ := pick_mem hp
      have hx0 : x ≠ 0 := fun he => (hl.lists i).nonnull (he ▸ hx)
      simp only [Option.bind_eq_bind, Option.bind_some, hx0, if_false]
      rfl

/-- A request that is representable as a `long` is looked for as one. -/
theorem requestSize_lt (hn : n ≤ 2 ^ 63 - 16) : requestSize n < 2 ^ 63 := by
  rw [requestSize_eq (by omega)]
  split <;> omega

/-- **`mpool_aligned_alloc` when the gap is not 16.** -/
theorem mpoolAlignedAlloc_laid (hl : Laid a e h bs L) (hcb : h.pool.cbReqmem = none)
    (hn : n ≤ 2 ^ 63 - 16) (ha : AlignPow align) (hgap : GapOk h n align) :
    (pick (alignedFits (requestSize n) align h.mem) L (requestSize n) = none ∧
      mpoolAlignedAlloc h n align = some (0, h)) ∨
    ∃ p h' k bs' L', mpoolAlignedAlloc h n align = some (p, h') ∧ p % align = 0 ∧
      Allocated a e h bs (requestSize n) p h' k bs' L' := by
  have heq := mpoolAlignedAlloc_eq (n := n) hl hcb ha
  cases hp : pick (alignedFits (requestSize n) align h.mem) L (requestSize n) with
  | none =>
      rw [hp] at heq
      exact .inl ⟨rfl, heq⟩
  | some x =>
      rw [hp] at heq
      dsimp only at heq
      obtain ⟨h16, hmin, -, hmax⟩ := requestSize_spec (n := n) (by omega)
      obtain ⟨pre, s, post, rfl, hfit⟩ := pick_block hl hp
      have hf : Fits x s := hl.fitsOf (b := ⟨x, s, .free⟩) (by simp)
      have hs : blkSize h.mem x = s := hl.blkSize_eq (b := ⟨x, s, .free⟩) (by simp)
      obtain ⟨hal, hle, hlt, hup16, hroom⟩ := alignedFits_spec hf hs ha (requestSize_lt hn) hfit
      obtain ⟨hx16, -, hxlow, hhigh⟩ := hf
      have hne := (gapOk_iff hl).mp hgap x hp
      rw [subW_of_le hle hlt] at heq
      obtain ⟨hl1, hr1, hk1⟩ := detach_laid hl
      obtain ⟨L2, hptr, hl2, hr2, hk2⟩ := cutLead_laid hl1
        (by omega : (paddingUp x align - x) % 16 = 0) (by omega) (by omega)
      obtain ⟨L', hl3, hr3, hk3⟩ := finishAlloc_laid hl2 h16 hmin (by omega)
      rw [placeAligned_eq, hptr] at heq
      have hup : x + (paddingUp x align - x) = paddingUp x align := by omega
      rw [hup] at heq hl2 hl3 hr3 hk2 hk3
      exact .inr ⟨paddingUp x align, _, _, _, L', heq, hal, by omega,
        .intro pre post x s _ (s - (paddingUp x align - x)) (by omega), hl3,
        hr3.trans (Mpool.rest_credit (hr2.trans hr1) _), (hk1.trans hk2).trans hk3⟩

/-- **`mpool_aligned_alloc` inside a reallocation**, where the size is rounded already. -/
theorem mpoolAlignedAlloc_again (hl : Laid a e h bs L) (hcb : h.pool.cbReqmem = none)
    (hn : n ≤ 2 ^ 63 - 16) (ha : AlignPow align) (hgap : GapOk h n align) :
    mpoolAlignedAlloc h (requestSize n) align = some (0, h) ∨ ∃ q h1 k bs1 L1,
      mpoolAlignedAlloc h (requestSize n) align = some (q, h1) ∧
        Allocated a e h bs (requestSize n) q h1 k bs1 L1 := by
  have hidem : requestSize (requestSize n) = requestSize n := requestSize_idem (by omega)
  have hlt := requestSize_lt hn
  obtain ⟨h16, -⟩ := requestSize_spec (n := n) (by omega)
  have hgap' : GapOk h (requestSize n) align := by
    unfold GapOk
    rw [hidem]
    exact hgap
  rcases mpoolAlignedAlloc_laid hl hcb (by omega) ha hgap' with ⟨-, hr⟩ |
    ⟨q, h1, k, bs1, L1, hr, -, hall⟩
  · exact .inl hr
  · rw [hidem] at hall
    exact .inr ⟨q, h1, k, bs1, L1, hr, hall⟩

/-! ## A gap of 16 -/

/-- The list head a freed block is put in front of is another block, or none. -/
theorem listHead_ne (hl : Layout a e m hd (pre ++ ⟨x, s, .hand⟩ :: post) L) (i : Nat) :
    hd i ≠ x ∧ hd i % 16 = 0 ∧ hd i < 2 ^ 64 := by
  have hlow := (hl.fitsOf (b := ⟨x, s, .hand⟩) (by simp)).low
  dsimp only at hlow
  refine ⟨?_, ?_, hl.head_lt i⟩
  · rw [(hl.lists i).head]
    cases hL : L i with
    | nil => show 0 ≠ x; omega
    | cons y l =>
        rintro rfl
        obtain ⟨b, hb, hby, hbf, -⟩ := hl.node (i := i) (x := y) (hL ▸ by simp)
        obtain rfl := hl.eq_of_ptr hb (c := ⟨y, s, .hand⟩) (by simp) hby
        exact absurd hbf (by simp)
  · rw [(hl.lists i).head]
    cases hL : L i with
    | nil => rfl
    | cons y l =>
        show y % 16 = 0
        exact hl.node_align (i := i) (by rw [hL]; simp)

/-- Putting a node on a list clears the word after its first. -/
theorem freelistPut_second {list : Nat} (hx : x % 16 = 0) (hne : list ≠ x)
    (hal : list % 16 = 0) (hlt : list < 2 ^ 64) : (freelistPut m list x).2.read64 (x + 8) = 0 := by
  have hzero : ((m.write64 x list).write64 (x + 8) 0).read64 (x + 8) = 0 :=
    Mem.read64_write64_same _ _ (by decide)
  unfold freelistPut
  dsimp only
  rw [put_words m x hlt]
  split
  · rw [Mem.read64_write64_ne _ _ (by omega) (by omega) (by omega), hzero]
  · exact hzero

/-- It changes no other word where a node or a tail may be. -/
theorem freelistPut_aligned {list w : Nat} (hx : x % 16 = 0) (hal : list % 16 = 0)
    (hlt : list < 2 ^ 64) (hw : w % 16 = 0) (hne : w ≠ x) :
    (freelistPut m list x).2.read64 w = m.read64 w := by
  have hbase : ((m.write64 x list).write64 (x + 8) 0).read64 w = m.read64 w := by
    rw [Mem.read64_write64_ne _ _ (by omega) (by omega) (by omega),
      Mem.read64_write64_ne _ _ (by omega) (by omega) hne]
  unfold freelistPut
  dsimp only
  rw [put_words m x hlt]
  split
  · rw [Mem.read64_write64_ne _ _ (by omega) (by omega) (by omega), hbase]
  · exact hbase

/-- A block whose head word is zero gets nothing cut off, and counts nothing. -/
theorem finishAlloc_empty (hlow : 8 ≤ x) (hlt : x < 2 ^ 64) (hn : n + 64 < 2 ^ 64)
    (hhead : h.mem.read64 (x - 8) = 0) :
    finishAlloc h x n = { h with mem := blkSetalloced h.mem x 0, pool := h.pool.credit 0 } := by
  have hsize : blkSize h.mem x = 0 := by
    rw [blkSize, blkHead_eq _ hlow hlt, hhead, Nat.zero_and]
  have hsplit : (trySplitAndFree h x n).2 = h := by
    rw [trySplitAndFree, hsize, addW_of_lt hn, if_neg (by omega)]
  unfold finishAlloc
  dsimp only
  rw [hsplit, hsize]
  rfl

/-- It stays one. -/
theorem finishAlloc_zero (hx : x % 16 = 0) (hlow : 16 ≤ x) (hlt : x < 2 ^ 64)
    (hn : n + 64 < 2 ^ 64) (hhead : h.mem.read64 (x - 8) = 0) :
    blkSize (finishAlloc h x n).mem x = 0 := by
  rw [finishAlloc_empty (by omega) hlt hn hhead, blkSize, blkHead_eq _ (by omega) hlt]
  dsimp only
  rw [blkSetalloced, addW_of_lt (by omega), Nat.add_zero,
    Mem.read64_write64_ne _ _ (by omega) (by omega) (by omega), subW_of_le (by omega) hlt,
    Mem.read64_write64_same _ _
      (Nat.lt_of_le_of_lt Nat.and_le_left (by unfold blkHead; exact Mem.read64_lt _ _)),
    blkHead_eq _ (by omega) hlt, hhead, Nat.zero_and, Nat.zero_and]

/-- **What cutting off a gap stores**: tags inside the block, and the node of the part in front. -/
theorem cutLead_put {off : Nat} (hl : Laid a e h (pre ++ ⟨x, s, .hand⟩ :: post) L)
    (h16 : off % 16 = 0) (hmin : 16 ≤ off) (hle : off ≤ s) :
    (cutLead h x off).1 = x + off ∧ ∃ m1,
      (cutLead h x off).2.mem = (freelistPut m1 (listHead h.pool (listOf (off - 16))) x).2 ∧
      listHead (cutLead h x off).2.pool =
        Function.update (listHead h.pool) (listOf (off - 16)) x ∧
      (cutLead h x off).2.pool.rest = h.pool.rest ∧
      (∀ v, v + 8 < x ∨ x + s + 8 ≤ v → m1 v = h.mem v) ∧
      IsTag (m1.read64 (x + s)) (s - off) .live := by
  have hf : Fits x s := hl.fitsOf (b := ⟨x, s, .hand⟩) (by simp)
  obtain ⟨hx16, -, hlow, hhigh⟩ := id hf
  have hsz : blkSize h.mem x = s := hl.blkSize_eq (b := ⟨x, s, .hand⟩) (by simp)
  have hhand : BlkState.hand ≠ .free := by simp
  obtain ⟨hptr, htag, htag2, hother⟩ :=
    blkSplit_tagged hf hsz (by omega : (off - 16) % 16 = 0) (by omega) hhand
  have hf0 : Fits x (off - 16) := ⟨hx16, by omega, hlow, by omega⟩
  have hsz0 : blkSize (blkSplit h.mem x (off - 16)).2 x = off - 16 :=
    htag.blkSize (by dsimp only; omega) (by dsimp only; omega)
  have hsz1 : blkSize (blkSetfreed (blkSplit h.mem x (off - 16)).2 x (off - 16)) x = off - 16 :=
    (blkSetfreed_tagged hf0 htag).blkSize (by dsimp only; omega) (by dsimp only; omega)
  -- `pool.cpp` splits the block and then frees the part in front
  have hcut : cutLead h x off =
      (x + off, doFree { h with mem := (blkSplit h.mem x (off - 16)).2 } x) := by
    unfold cutLead
    rw [if_pos (by omega), subW_of_le (by omega) (by omega)]
    exact Prod.ext (by dsimp only; omega) rfl
  obtain ⟨hm, hhd, hrest⟩ := doFree_eq (h := { h with mem := (blkSplit h.mem x (off - 16)).2 })
    (m := blkSetfreed (blkSplit h.mem x (off - 16)).2 x (off - 16)) (by rw [hsz0]) hsz1
  have hfree : ∀ v, v + 8 < x ∨ x + (off - 16) + 8 ≤ v →
      blkSetfreed (blkSplit h.mem x (off - 16)).2 x (off - 16) v =
        (blkSplit h.mem x (off - 16)).2 v := flagWrites_other hf0 _ _ _
  rw [hcut]
  refine ⟨rfl, _, hm, hhd, hrest, fun v hv => ?_, ?_⟩
  · rw [hfree v (by omega)]
    exact hother v hv
  · have htail := htag2.tail
    dsimp only at htail
    rw [show x + (off - 16) + 16 + (s - (off - 16) - 16) = x + s by omega,
      show s - (off - 16) - 16 = s - off by omega] at htail
    rwa [Mem.read64_congr fun v h1 h2 => hfree v (by omega)]

/-- Cutting off a gap of 16 leaves a zero where the second block's size should be. -/
theorem cutLead_zero (hl : Laid a e h (pre ++ ⟨x, s, .hand⟩ :: post) L) (hs : 32 ≤ s) :
    (cutLead h x 16).1 = x + 16 ∧ (cutLead h x 16).2.mem.read64 (x + 8) = 0 := by
  have hx16 := (hl.fitsOf (b := ⟨x, s, .hand⟩) (by simp)).ptrAlign
  obtain ⟨hptr, m1, hm, -⟩ := cutLead_put hl (by decide : 16 % 16 = 0) (Nat.le_refl _) (by omega)
  obtain ⟨hne, hal, hlt⟩ := listHead_ne hl (listOf (16 - 16))
  refine ⟨hptr, ?_⟩
  rw [hm]
  exact freelistPut_second hx16 hne hal hlt

/-- **`mpool_aligned_alloc` when the gap is 16** hands out a block of size zero. -/
theorem mpoolAlignedAlloc_zero (hl : Laid a e h bs L) (hcb : h.pool.cbReqmem = none)
    (hn : n ≤ 2 ^ 63 - 16) (ha : AlignPow align) (hgap : ¬ GapOk h n align) :
    ∃ p h', mpoolAlignedAlloc h n align = some (p, h') ∧ p ≠ 0 ∧ blkSize h'.mem p = 0 ∧
      a ≤ p ∧ p ≤ e := by
  rw [gapOk_iff hl] at hgap
  push Not at hgap
  obtain ⟨x, hp, hgap⟩ := hgap
  have heq := mpoolAlignedAlloc_eq (n := n) hl hcb ha
  rw [hp] at heq
  dsimp only at heq
  obtain ⟨h16, hmin, -, -⟩ := requestSize_spec (n := n) (by omega)
  have hr63 := requestSize_lt hn
  obtain ⟨pre, s, post, rfl, hfit⟩ := pick_block hl hp
  have hf : Fits x s := hl.fitsOf (b := ⟨x, s, .free⟩) (by simp)
  have hs : blkSize h.mem x = s := hl.blkSize_eq (b := ⟨x, s, .free⟩) (by simp)
  have hroom := (alignedFits_spec hf hs ha hr63 hfit).2.2.2.2
  obtain ⟨hx16, -, hlow, hhigh⟩ := hf
  obtain ⟨hl1, -⟩ := detach_laid hl
  rw [hgap] at hroom
  obtain ⟨hptr, hzero⟩ := cutLead_zero hl1 (by omega)
  rw [hgap, subW_of_le (by omega) (by omega), show x + 16 - x = 16 by omega, placeAligned_eq,
    hptr] at heq
  have hbd := hl.bounds (b := ⟨x, s, .free⟩) (by simp)
  dsimp only at hbd
  exact ⟨x + 16, _, heq, by omega, finishAlloc_zero (by omega) (by omega) (by omega) (by omega)
    (by rwa [show x + 16 - 8 = x + 8 by omega]), by omega, by omega⟩

/-! ## Runs with aligned allocations -/

/-- What an aligned allocation is for: null, or an aligned block that is big enough, and a
consistent heap either way. -/
def AlignedOk (a e : Nat) (s : PoolState) (n align : Nat) : Prop :=
  ∃ p h, mpoolAlignedAlloc s.heap n align = some (p, h) ∧
    (p ≠ 0 → p % align = 0 ∧ n ≤ mpoolMsize h p) ∧
    ∃ ps L, HeapSafe a e h (if p = 0 then s.live else p :: s.live) ps L

/-- The steps of a pool's user, aligned allocations with a good gap among them. -/
inductive AlignedStep (e : Nat) : PoolState → PoolState → Prop where
  | pool {s t : PoolState} (hs : PoolStep s t) : AlignedStep e s t
  | aligned {s : PoolState} {n align p : Nat} {h : Heap Mpool} (hn : n ≤ 2 ^ 63 - 16)
      (ha : AlignFits e align) (hgap : GapOk s.heap n align)
      (hr : mpoolAlignedAlloc s.heap n align = some (p, h)) :
      AlignedStep e s ⟨h, if p = 0 then s.live else p :: s.live⟩

/-- **An aligned allocation with a good gap** keeps the invariant and gives what was asked for. -/
theorem inv_aligned {s : PoolState} (hi : Inv a e s) (hn : n ≤ 2 ^ 63 - 16)
    (ha : AlignPow align) (hgap : GapOk s.heap n align) :
    ∃ p h, mpoolAlignedAlloc s.heap n align = some (p, h) ∧
      (p ≠ 0 → p % align = 0 ∧ n ≤ mpoolMsize h p) ∧
      Inv a e ⟨h, if p = 0 then s.live else p :: s.live⟩ := by
  obtain ⟨bs, L, hs⟩ := hi.shows
  rcases mpoolAlignedAlloc_laid hs.laid hi.quiet hn ha hgap with ⟨-, hr⟩ |
    ⟨p, h', k, bs', L', hr, hal, hall⟩
  · exact ⟨0, s.heap, hr, fun h => absurd rfl h, hi⟩
  · have hs' := hs.allocated hall
    have hsz := hs'.msize_eq hall.takes.mem
    dsimp only at hsz
    have hk := hall.takes.le_size
    obtain ⟨-, -, hreq, -⟩ := requestSize_spec (n := n) (by omega)
    refine ⟨p, h', hr, fun _ => ⟨hal, by omega⟩, ?_⟩
    rw [if_neg hall.nonnull]
    exact hs'.inv (hall.cb.trans hi.quiet) (List.nodup_cons.mpr ⟨hs.not_held hall, hi.nodup⟩)

theorem Inv.end_ge {s : PoolState} (hi : Inv a e s) : 16 ≤ e := by
  obtain ⟨bs, L, hl, -, -⟩ := hi.laid
  have := hl.area.pos
  have := hl.tiling.le
  omega

theorem inv_alignedStep {s t : PoolState} (hi : Inv a e s) (hs : AlignedStep e s t) :
    Inv a e t := by
  cases hs with
  | pool hs => exact inv_step hi hs
  | aligned hn ha hgap hr =>
      obtain ⟨p, h, hr', -, hi'⟩ := inv_aligned hi hn (ha.toPow hi.end_ge) hgap
      obtain ⟨rfl, rfl⟩ := Prod.mk.inj (Option.some.inj (hr'.symm.trans hr))
      exact hi'

theorem inv_alignedReachable {pool a size : Nat} {s : PoolState} (hplace : PoolPlace pool a size)
    (hrun : Reachable (PoolStart a size) (AlignedStep (a + size)) s) : Inv a (a + size) s :=
  hrun.invariant (fun _ hs => inv_reachable hplace (.init hs)) fun _ _ hi hst =>
    inv_alignedStep hi hst

/--
**Aligned allocation is right exactly when the gap is not 16.**

In every state that a run with good gaps leads to, the heap is consistent, and
the next aligned allocation does what it is for if and only if its gap is good.
-/
theorem aligned_alloc_iff {pool a size : Nat} {s : PoolState} (hplace : PoolPlace pool a size)
    (hrun : Reachable (PoolStart a size) (AlignedStep (a + size)) s) :
    (∃ ps L, HeapSafe a (a + size) s.heap s.live ps L) ∧
      ∀ n ≤ 2 ^ 63 - 16, ∀ align, AlignFits (a + size) align →
        (AlignedOk a (a + size) s n align ↔ GapOk s.heap n align) := by
  have hi := inv_alignedReachable hplace hrun
  refine ⟨heapSafe_of_inv hi, fun n hn align ha => ⟨fun hok => ?_, fun hgap => ?_⟩⟩
  · by_contra hgap
    obtain ⟨bs, L, hl, -, -⟩ := hi.laid
    obtain ⟨p, h, hr, hp0, hzero, -⟩ := mpoolAlignedAlloc_zero hl hi.quiet hn
      (ha.toPow hi.end_ge) hgap
    obtain ⟨p', h', hr', -, ps, L', hsafe⟩ := hok
    obtain ⟨rfl, rfl⟩ := Prod.mk.inj (Option.some.inj (hr'.symm.trans hr))
    rw [if_neg hp0] at hsafe
    -- a live block of size zero is below the minimum
    have hblk := ((hsafe.live_iff p').mp (by simp)).1
    have := (hsafe.sizes p' hblk).2.2
    omega
  · obtain ⟨p, h, hr, hp, hi'⟩ := inv_aligned hi hn (ha.toPow hi.end_ge) hgap
    exact ⟨p, h, hr, hp, heapSafe_of_inv hi'⟩

/-- The kernel heap's size on a page-aligned area, before any allocation. -/
theorem aligned_alloc_iff_fresh :
    ∃ s : PoolState, s.live = [] ∧ ∀ n ≤ 2 ^ 63 - 16, ∀ align,
      AlignFits (65536 + 8388608) align →
        (AlignedOk 65536 (65536 + 8388608) s n align ↔ GapOk s.heap n align) := by
  have hplace : PoolPlace 4096 65536 8388608 := by constructor <;> decide
  have hinit : (mpoolInit emptyHeap 65536 8388608).1 = true := by decide +kernel
  exact ⟨⟨(mpoolInit emptyHeap 65536 8388608).2, []⟩, rfl,
    (aligned_alloc_iff hplace (.init ⟨⟨emptyHeap, Prod.ext hinit rfl⟩, rfl⟩)).2⟩

/-- **The gap of 16 is the first thing a page-aligned area meets**: 16 bytes aligned to 32. -/
theorem aligned_alloc_fails :
    (mpoolInit emptyHeap 65536 8388608).1 = true ∧ AlignFits (65536 + 8388608) 32 ∧
      ¬ AlignedOk 65536 (65536 + 8388608) ⟨(mpoolInit emptyHeap 65536 8388608).2, []⟩ 16 32 := by
  have hinit : (mpoolInit emptyHeap 65536 8388608).1 = true := by decide +kernel
  have hrun : (mpoolAlignedAlloc (mpoolInit emptyHeap 65536 8388608).2 16 32).map
      (fun r => (r.1, mpoolMsize r.2 r.1)) = some (65568, 0) := by decide +kernel
  refine ⟨hinit, ⟨⟨5, rfl⟩, by decide, by decide⟩, ?_⟩
  rintro ⟨p, h, hr, hp, -⟩
  rw [hr, Option.map_some, Option.some.injEq, Prod.mk.injEq] at hrun
  obtain ⟨h1, h2⟩ := hrun
  dsimp only at h1 h2
  have := (hp (by omega)).2
  omega

end IonOS.Alloc
