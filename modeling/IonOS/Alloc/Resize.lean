import IonOS.Alloc.Aligned
import IonOS.Alloc.Growth

/-!
# Resizing, the books and the free space

The reallocation functions may change the size of a block where it is: they cut
off its end, or let it grow into the free block behind it. Neither tells the
counter, and the end that is cut off is not merged with a free block behind it.
Moving does both right, because it goes through allocation and release.

A request close to `2 ^ 64` is rounded to zero. The block is then cut down to
nothing, which the layout invariant has no room for, so a `Sketch` keeps only
what the head words say.
-/

namespace IonOS.Alloc

open IonOS.Lib IonOS.Libs

variable {a e : Nat} {h h' : Heap Mpool} {m : Mem} {bs bs' pre post : List Block}
  {L L' : Nat → List Nat} {s : PoolState} {p q n k r t x align : Nat} {st : BlkState}

/-! ## Requests that wrap -/

theorem requestSize_wrap (hn : 2 ^ 64 - 16 < n) (hlt : n < 2 ^ 64) : requestSize n = 0 := by
  have hsub : subW (addW n 16) 1 = n + 15 - 2 ^ 64 := by
    unfold subW addW
    omega
  rw [requestSize, if_neg (by omega), padding, hsub, and_notW_fifteen (by omega)]
  omega

/-- **What the head words say**, when not all blocks have a payload. -/
structure Sketch (a e : Nat) (s : PoolState) (bs : List Block) : Prop where
  tiling : Tiling Block.ptr Block.len (a + 16) bs e
  marked : Marked s.heap.mem bs
  live_iff : ∀ p, p ∈ s.live ↔ LiveAt bs p

theorem Shows.sketch (hs : Shows a e s bs L) : Sketch a e s bs :=
  ⟨hs.laid.tiling, hs.marked, hs.live_iff⟩

namespace Sketch

theorem tidy_iff (hk : Sketch a e s bs) : Tidy a e s.heap.mem ↔ Coalesced bs :=
  Alloc.tidy_iff hk.tiling hk.marked

theorem books_iff (hk : Sketch a e s bs) (hnd : s.live.Nodup) :
    Books s ↔ s.heap.pool.allocedSize = liveSize bs := by
  rw [Books, live_sum hnd (tiling_nodup hk.tiling) hk.live_iff fun b hb _ => ?_]
  have hlow := (hk.tiling.bounds hb).1
  rw [mpoolMsize, if_neg (by omega), (hk.marked b hb).1]

end Sketch

/-- A head word says size and state. -/
theorem IsTag.marked {size : Nat} (ht : IsTag (m.read64 (x - 8)) size st) (h8 : 8 ≤ x)
    (hlt : x < 2 ^ 64) (hst : st ≠ .hand) :
    blkSize m x = size ∧ (blkFreed m x = true ↔ st = .free) := by
  rw [blkSize, blkFreed, blkHead_eq m h8 hlt, flagBits, and_notW_seven (Mem.read64_lt _ _),
    and_freeFlag, decide_eq_true_iff]
  refine ⟨ht.size, fun h1 => ?_, ht.free⟩
  cases st with
  | free => rfl
  | live => exact absurd (ht.live rfl) (by omega)
  | hand => exact absurd rfl hst

/-- The stores for a cut down to nothing, but for those to the lists. -/
theorem zeroCut_tags (hf : Fits x k) (hs : blkSize h.mem x = k) (hbig : 64 ≤ k) :
    ∃ m1, IsTag (m1.read64 (x - 8)) 0 .live ∧ Tagged m1 ⟨x + 16, k - 16, .free⟩ ∧
      (∀ v, v + 8 < x ∨ x + k + 8 ≤ v → m1 v = h.mem v) ∧
      (trySplitAndFree h x 0).2.mem =
        (freelistPut m1 (listHead h.pool (listOf (k - 16))) (x + 16)).2 ∧
      (trySplitAndFree h x 0).2.pool.rest = h.pool.rest := by
  obtain ⟨hx16, hk16, hlow, hhigh⟩ := id hf
  obtain ⟨hptr, ht1, ht2, hother⟩ := blkSplit_tagged hf hs (Nat.zero_mod 16) (by omega)
    (by simp : BlkState.live ≠ .free)
  rw [Nat.add_zero, Nat.sub_zero] at ht2
  have hf2 : Fits (x + 16) (k - 16) := ⟨by omega, by omega, by omega, by omega⟩
  have hs2 : blkSize (blkSplit h.mem x 0).2 (x + 16) = k - 16 :=
    ht2.blkSize (by dsimp only; omega) (by dsimp only; omega)
  have ht3 := blkSetfreed_tagged hf2 ht2
  have hs3 : blkSize (blkSetfreed (blkSplit h.mem x 0).2 (x + 16) (k - 16)) (x + 16) = k - 16 :=
    ht3.blkSize (by dsimp only; omega) (by dsimp only; omega)
  have heq : (trySplitAndFree h x 0).2 =
      doFree { h with mem := (blkSplit h.mem x 0).2 } (x + 16) := by
    rw [trySplitAndFree, hs, addW_of_lt (by omega), if_pos (by omega), ← hptr]
  obtain ⟨hm, -, hrest⟩ := doFree_eq (h := { h with mem := (blkSplit h.mem x 0).2 })
    (m := blkSetfreed (blkSplit h.mem x 0).2 (x + 16) (k - 16)) (by rw [hs2]) hs3
  have hfree : ∀ v, v + 8 < x + 16 ∨ x + k + 8 ≤ v →
      blkSetfreed (blkSplit h.mem x 0).2 (x + 16) (k - 16) v = (blkSplit h.mem x 0).2 v := by
    intro v hv
    rw [blkSetfreed, tagWrites_other hf2 _ _ _ (by omega)]
  refine ⟨_, ?_, ht3, fun v hv => ?_, by rw [heq]; exact hm, by rw [heq]; exact hrest⟩
  · rw [Mem.read64_congr fun v h1 h2 => hfree v (by omega)]
    exact ht1.head
  · rw [hfree v (by omega), hother v hv]

/-- Cutting a block down to nothing leaves its two tags and the part behind. -/
theorem trySplitAndFree_zero (hl : Laid a e h (pre ++ ⟨x, k, .live⟩ :: post) L)
    (hset : Settled (pre ++ ⟨x, k, .live⟩ :: post)) (hbig : 64 ≤ k) :
    Marked (trySplitAndFree h x 0).2.mem
        (pre ++ ⟨x, 0, .live⟩ :: ⟨x + 16, k - 16, .free⟩ :: post) ∧
      (trySplitAndFree h x 0).2.pool.rest = h.pool.rest := by
  have hf : Fits x k := hl.fitsOf (b := ⟨x, k, .live⟩) (by simp)
  obtain ⟨m1, hhead, htag, hother, hmem, hrest⟩ := zeroCut_tags hf
    (hl.blkSize_eq (b := ⟨x, k, .live⟩) (by simp)) hbig
  obtain ⟨hx16, hk16, hlow, hhigh⟩ := hf
  have hword : ∀ w, w + 16 ≤ x ∨ x + k + 8 ≤ w → m1.read64 w = h.mem.read64 w := by
    intro w hw
    exact Mem.read64_congr fun v h1 h2 => hother v (by omega)
  -- no node lies in the block that is cut, so the lists are what they were
  have hnode : ∀ i, ∀ y ∈ L i, y + 32 ≤ x ∨ x + k + 16 ≤ y := by
    intro i y hy
    obtain ⟨b, hb, rfl, hbf, -⟩ := hl.node hy
    have hmin := (hl.sizes b hb).2
    rcases hl.apart hb (c := ⟨x, k, .live⟩) (by simp) with rfl | h | h
    · exact absurd hbf (by simp)
    · exact .inl (by dsimp only at h; omega)
    · exact .inr (by dsimp only at h; omega)
  have hlist : ∀ i, (linksOf m1).IsList 0 (listHead h.pool i) (L i) := by
    intro i
    refine (hl.lists i).congr (fun y hy => hword y ?_) fun y hy => hword (y + 8) ?_
    · have := hnode i y hy
      omega
    · have := hnode i y (List.mem_of_mem_tail hy)
      omega
  have hput : ∀ w, (∀ b ∈ pre ++ ⟨x, k, .live⟩ :: post, w + 8 ≤ b.ptr ∨ b.ptr + b.size ≤ w) ∨
      w + 8 ≤ x + 16 ∧ x ≤ w + 8 → (trySplitAndFree h x 0).2.mem.read64 w = m1.read64 w := by
    intro w hw
    rw [hmem]
    refine Mem.read64_congr fun v h1 h2 => ?_
    refine freelistPut_other (hlist _) (hl.head_lt _) ?_ fun y hy => ?_
    · rcases hw with hw | hw
      · have := hw ⟨x, k, .live⟩ (by simp)
        dsimp only at this
        omega
      · omega
    · obtain ⟨b, hb, rfl, -⟩ := hl.node hy
      have hmin := (hl.sizes b hb).2
      have hn := hnode _ _ hy
      rcases hw with hw | hw
      · have := hw b hb
        omega
      · omega
  -- the head word of a block is in no payload
  have hold : ∀ b ∈ pre ++ ⟨x, k, .live⟩ :: post,
      (trySplitAndFree h x 0).2.mem.read64 (b.ptr - 8) = m1.read64 (b.ptr - 8) := by
    intro b hb
    have hblow := (hl.fitsOf hb).low
    refine hput _ (.inl fun c hc => ?_)
    rcases hl.apart hb hc with rfl | h | h <;> omega
  have hside : ∀ b ∈ pre ++ post, blkSize (trySplitAndFree h x 0).2.mem b.ptr = b.size ∧
      (blkFreed (trySplitAndFree h x 0).2.mem b.ptr = true ↔ b.st = .free) := by
    intro b hb
    have hne := hl.ptr_ne hb
    have hb' : b ∈ pre ++ ⟨x, k, .live⟩ :: post := by
      rcases List.mem_append.mp hb with hb | hb <;> simp [hb]
    obtain ⟨-, -, hblow, hbhigh⟩ := hl.fitsOf hb'
    refine IsTag.marked ?_ (by omega) (by omega) (hset b hb')
    rw [hold b hb', hword (b.ptr - 8) ?_]
    · exact (hl.tags b hb').head
    · rcases hl.apart hb' (c := ⟨x, k, .live⟩) (by simp) with rfl | h | h
      · exact absurd rfl hne
      · exact .inl (by dsimp only at h; omega)
      · exact .inr (by dsimp only at h; omega)
  refine ⟨fun b hb => ?_, hrest⟩
  simp only [List.mem_append, List.mem_cons] at hb
  rcases hb with hb | rfl | rfl | hb
  · exact hside b (by simp [hb])
  · refine IsTag.marked ?_ (by dsimp only; omega) (by dsimp only; omega) (by simp)
    rw [hold ⟨x, k, .live⟩ (by simp)]
    exact hhead
  · refine IsTag.marked ?_ (by dsimp only; omega) (by dsimp only; omega) (by simp)
    rw [hput _ (.inr (by dsimp only; omega))]
    exact htag.head
  · exact hside b (by simp [hb])

/-! ## When a block is resized -/

/-- The end of the block is cut off. -/
def CutsOff (h : Heap Mpool) (p n : Nat) : Prop := requestSize n + 64 ≤ mpoolMsize h p

/-- The block behind `p` is free. -/
def NextFree (m : Mem) (p : Nat) : Prop := blkNext m p ≠ 0 ∧ blkFreed m (blkNext m p) = true

/-- The block grows into the free one behind it. -/
def GrowsNext (h : Heap Mpool) (p n : Nat) : Prop :=
  mpoolMsize h p < requestSize n ∧ NextFree h.mem p ∧
    requestSize n ≤ mpoolMsize h p + 16 + blkSize h.mem (blkNext h.mem p)

instance (h : Heap Mpool) (p n : Nat) : Decidable (CutsOff h p n) :=
  inferInstanceAs (Decidable (_ ≤ _))

instance (m : Mem) (p : Nat) : Decidable (NextFree m p) := inferInstanceAs (Decidable (_ ∧ _))

instance (h : Heap Mpool) (p n : Nat) : Decidable (GrowsNext h p n) :=
  inferInstanceAs (Decidable (_ ∧ _))

/-- **The size of a block changes where it is.** -/
def SizeChanges (h : Heap Mpool) (p n : Nat) : Prop := CutsOff h p n ∨ GrowsNext h p n

/-- **The end that is cut off lies in front of a free block.** -/
def CutsAtFree (h : Heap Mpool) (p n : Nat) : Prop := CutsOff h p n ∧ NextFree h.mem p

/-- The free block behind, in the picture. -/
theorem nextFree_iff (hl : Laid a e h (pre ++ ⟨x, k, .live⟩ :: post) L) (hset : Settled post) :
    NextFree h.mem x ↔ ¬ HeadBusy post := by
  obtain ⟨hnext, hhead⟩ := next_eq hl hset
  unfold NextFree HeadBusy
  rw [hnext]
  cases post with
  | nil => simp
  | cons b post =>
      obtain ⟨h0, -, hfr⟩ := hhead b (by simp)
      simp [h0, hfr]

theorem growsNext_iff (hs : Shows a e s (pre ++ ⟨p, k, .live⟩ :: post) L) (hk : k < requestSize n) :
    GrowsNext s.heap p n ↔ growsInto k (requestSize n) post := by
  have hset : Settled post := fun b hb => hs.settled b (by simp [hb])
  have hsize := hs.msize_eq (b := ⟨p, k, .live⟩) (by simp)
  have hfree := nextFree_iff hs.laid hset
  obtain ⟨hnext, hhead⟩ := next_eq hs.laid hset
  dsimp only at hsize
  unfold GrowsNext
  rw [hsize, hfree, hnext]
  unfold HeadBusy
  cases post with
  | nil => simp [growsInto]
  | cons b post =>
      obtain ⟨-, hsz, -⟩ := hhead b (by simp)
      obtain ⟨y, t, st⟩ := b
      dsimp only at hsz
      cases st <;> simp [growsInto, hk, hsz]

/-! ## Resizing in place -/

/-- The size of a block that is resized changes unless there was nothing to do. -/
theorem Resizes.size_eq_iff (h : Resizes r bs x k t bs') : t = k ↔ ¬ (r + 64 ≤ k ∨ k < r) := by
  have hle := h.le_size
  cases h with
  | fits pre post x k hr =>
      unfold splitSize
      split <;> omega
  | grows pre post x k y t hgt hr => omega

/-- Resizing leaves free neighbours just if it cuts in front of a free block. -/
theorem Resizes.coalesced_iff (h : Resizes r (pre ++ ⟨x, k, .live⟩ :: post) x k t bs')
    (hpre : ∀ b ∈ pre ++ post, b.ptr ≠ x) (hc : Coalesced (pre ++ ⟨x, k, .live⟩ :: post)) :
    Coalesced bs' ↔ (r + 64 ≤ k → HeadBusy post) := by
  have hsplit : ∀ pre' post', pre ++ ⟨x, k, .live⟩ :: post = pre' ++ ⟨x, k, .live⟩ :: post' →
      post = post' := by
    intro pre' post' he
    have h1 : (⟨x, k, .live⟩ : Block) ∉ pre := fun hm => hpre ⟨x, k, .live⟩ (by simp [hm]) rfl
    have h2 : (⟨x, k, .live⟩ : Block) ∉ post := fun hm => hpre ⟨x, k, .live⟩ (by simp [hm]) rfl
    exact ((List.append_cons_inj_of_notMem h1 h2).mp he).2.2
  generalize hbs : pre ++ (⟨x, k, .live⟩ : Block) :: post = bs at h hc
  cases h with
  | fits pre' post' x k hr =>
      rw [hsplit _ _ hbs]
      exact coalesced_fits hc
  | grows pre' post' x k y t hgt hr =>
      exact iff_of_true (coalesced_grows hc) fun hle => absurd hle (by omega)

/-- **What reallocation leaves when it resizes in place**, whatever was asked for. -/
structure InPlace (a e : Nat) (s : PoolState) (p n : Nat) (bs : List Block) (h' : Heap Mpool)
    (bs' : List Block) : Prop where
  sketch : Sketch a e ⟨h', p :: s.live.erase p⟩ bs'
  rest : h'.pool.rest = s.heap.pool.rest
  size_iff : liveSize bs' = liveSize bs ↔ ¬ SizeChanges s.heap p n
  coalesced_iff : Coalesced bs → (Coalesced bs' ↔ ¬ CutsAtFree s.heap p n)

section Paths

variable {alloc : Heap Mpool → Nat → Option (Nat × Heap Mpool)}

/-- In place, the size changes unless there was nothing to do. -/
theorem sizeChanges_iff (hs : Shows a e s (pre ++ ⟨p, k, .live⟩ :: post) L)
    (hin : requestSize n ≤ k ∨ growsInto k (requestSize n) post) :
    SizeChanges s.heap p n ↔ requestSize n + 64 ≤ k ∨ k < requestSize n := by
  have hsize := hs.msize_eq (b := ⟨p, k, .live⟩) (by simp)
  dsimp only at hsize
  unfold SizeChanges CutsOff
  rw [hsize]
  refine or_congr_right ?_
  constructor
  · intro hg
    have := hg.1
    omega
  · intro hk
    exact (growsNext_iff hs hk).mpr (hin.resolve_left (by omega))

/-- A request that does not wrap. -/
theorem reallocBy_inPlace_small (alloc : Heap Mpool → Nat → Option (Nat × Heap Mpool))
    (hs : Shows a e s (pre ++ ⟨p, k, .live⟩ :: post) L)
    (hp : p ∈ s.live) (hn : n ≤ 2 ^ 64 - 16)
    (hin : requestSize n ≤ k ∨ growsInto k (requestSize n) post) :
    ∃ h' bs', reallocBy alloc s.heap p n = some (p, h') ∧
      InPlace a e s p n (pre ++ ⟨p, k, .live⟩ :: post) h' bs' := by
  have hset : Settled post := fun b hb => hs.settled b (by simp [hb])
  have hsize := hs.msize_eq (b := ⟨p, k, .live⟩) (by simp)
  dsimp only at hsize
  obtain ⟨h', t, bs', L', hr, hres⟩ := reallocBy_inPlace alloc hs.laid hset hn hin
  refine ⟨h', bs', hr, (hs.resized hp hres).sketch, hres.rest, ?_, fun hc => ?_⟩
  · have hsum := hres.resizes.liveSize_eq
    rw [sizeChanges_iff hs hin, ← hres.resizes.size_eq_iff]
    omega
  · rw [hres.resizes.coalesced_iff (fun b hb => hs.laid.ptr_ne hb) hc, CutsAtFree, CutsOff, hsize,
      nextFree_iff hs.laid hset, not_and, not_not]

/-- A request that wraps cuts the block down to nothing, unless it is too small for that. -/
theorem reallocBy_inPlace_wrap (alloc : Heap Mpool → Nat → Option (Nat × Heap Mpool))
    (hs : Shows a e s (pre ++ ⟨p, k, .live⟩ :: post) L)
    (hp : p ∈ s.live) (hr0 : requestSize n = 0) :
    ∃ h' bs', reallocBy alloc s.heap p n = some (p, h') ∧
      InPlace a e s p n (pre ++ ⟨p, k, .live⟩ :: post) h' bs' := by
  have hset : Settled post := fun b hb => hs.settled b (by simp [hb])
  have hsize := hs.msize_eq (b := ⟨p, k, .live⟩) (by simp)
  have hblk : blkSize s.heap.mem p = k := hs.laid.blkSize_eq (b := ⟨p, k, .live⟩) (by simp)
  have hchange := sizeChanges_iff (n := n) hs (.inl (by omega))
  have hlive : ∀ q, q ∈ p :: s.live.erase p ↔ q ∈ s.live := fun q =>
    ((List.perm_cons_erase hp).mem_iff (a := q)).symm
  have hcut : CutsAtFree s.heap p n ↔ 64 ≤ k ∧ ¬ HeadBusy post := by
    rw [CutsAtFree, CutsOff, nextFree_iff hs.laid hset, hsize, hr0, Nat.zero_add]
  have hfits : reallocBy alloc s.heap p n = _ := reallocBy_fits hblk (by omega)
  rw [hr0] at hfits hchange
  by_cases hbig : 64 ≤ k
  · obtain ⟨hmark, hrest⟩ := trySplitAndFree_zero hs.laid hs.settled hbig
    refine ⟨_, _, hfits, ⟨?_, hmark, fun q => ?_⟩, hrest, ?_, fun hc => ?_⟩
    · obtain ⟨y, h1, h2, h3⟩ := Tiling.append_iff.mp hs.laid.tiling
      obtain rfl : p = y := h2
      refine Tiling.append_iff.mpr ⟨p, h1, rfl, rfl, ?_⟩
      show Tiling Block.ptr Block.len (p + 16 + (k - 16 + 16)) post e
      rw [show p + 16 + (k - 16 + 16) = p + (k + 16) by omega]
      exact h3
    · rw [hlive, hs.live_iff, liveAt_middle, liveAt_middle, liveAt_middle]
      simp
    · rw [hchange]
      simp
      omega
    · obtain ⟨h1, h2⟩ := (coalesced_middle (by simp)).mp hc
      rw [hcut, coalesced_middle (by simp), coalesced_cons]
      simp [h1, h2, hbig]
  · have hsame : (trySplitAndFree s.heap p 0).2 = s.heap := by
      rw [trySplitAndFree, hblk, addW_of_lt (by omega), if_neg (by omega)]
    rw [hsame] at hfits
    refine ⟨_, _, hfits, ⟨hs.laid.tiling, hs.marked, fun q => (hlive q).trans (hs.live_iff q)⟩, rfl,
      ?_, fun hc => ?_⟩
    · rw [hchange]
      omega
    · rw [hcut]
      simp [hc, hbig]

/-- **In place**, whatever was asked for. -/
theorem reallocBy_inPlace_any (alloc : Heap Mpool → Nat → Option (Nat × Heap Mpool))
    (hs : Shows a e s (pre ++ ⟨p, k, .live⟩ :: post) L) (hp : p ∈ s.live) (hn : n < 2 ^ 64)
    (hin : requestSize n ≤ k ∨ growsInto k (requestSize n) post) :
    ∃ h' bs', reallocBy alloc s.heap p n = some (p, h') ∧
      InPlace a e s p n (pre ++ ⟨p, k, .live⟩ :: post) h' bs' := by
  by_cases hwrap : n ≤ 2 ^ 64 - 16
  · exact reallocBy_inPlace_small alloc hs hp hwrap hin
  · exact reallocBy_inPlace_wrap alloc hs hp (requestSize_wrap (by omega) hn)

/-- The size changes in place only. -/
theorem SizeChanges.inPlace (hs : Shows a e s (pre ++ ⟨p, k, .live⟩ :: post) L)
    (hc : SizeChanges s.heap p n) : requestSize n ≤ k ∨ growsInto k (requestSize n) post := by
  have hsize := hs.msize_eq (b := ⟨p, k, .live⟩) (by simp)
  dsimp only at hsize
  rcases hc with hcut | hgrow
  · unfold CutsOff at hcut
    exact .inl (by omega)
  · have hgt := hgrow.1
    exact .inr ((growsNext_iff hs (by omega)).mp hgrow)

/-- **The two ways a reallocation can succeed**, whatever was asked for. -/
theorem reallocBy_after (hs : Shows a e s (pre ++ ⟨p, k, .live⟩ :: post) L) (hp : p ∈ s.live)
    (hn : n < 2 ^ 64)
    (ha : k < requestSize n → n ≤ 2 ^ 64 - 16 →
      alloc s.heap (requestSize n) = some (0, s.heap) ∨ ∃ q h1 k1 bs1 L1,
        alloc s.heap (requestSize n) = some (q, h1) ∧
          Allocated a e s.heap (pre ++ ⟨p, k, .live⟩ :: post) (requestSize n) q h1 k1 bs1 L1)
    (hr : reallocBy alloc s.heap p n = some (q, h)) :
    (q = p ∧ ∃ bs', InPlace a e s p n (pre ++ ⟨p, k, .live⟩ :: post) h bs') ∨
      (¬ SizeChanges s.heap p n ∧ ∃ h1 k1 bs1 L1 bs' L',
        Relocated a e s.heap (pre ++ ⟨p, k, .live⟩ :: post) (requestSize n) p k q h1 k1 bs1 L1 h
          bs' L') := by
  by_cases hin : requestSize n ≤ k ∨ growsInto k (requestSize n) post
  · obtain ⟨h', bs', hr', hplace⟩ := reallocBy_inPlace_any alloc hs hp hn hin
    obtain ⟨rfl, rfl⟩ := Prod.mk.inj (Option.some.inj (hr'.symm.trans hr))
    exact .inl ⟨rfl, bs', hplace⟩
  · have hwrap : n ≤ 2 ^ 64 - 16 := by
      by_contra hwrap
      rw [requestSize_wrap (by omega) hn] at hin
      exact hin (.inl (Nat.zero_le _))
    have hgt : k < requestSize n := Nat.lt_of_not_le fun hle => hin (.inl hle)
    rcases reallocBy_cases hs.laid hs.settled hwrap (ha hgt hwrap) with ⟨hin', -⟩ |
      ⟨-, -, hr'⟩ | ⟨-, q', h1, k1, bs1, L1, h', bs', L', -, hr', hrel⟩
    · exact absurd hin' hin
    · exact absurd (hr'.symm.trans hr) (by simp)
    · obtain ⟨rfl, rfl⟩ := Prod.mk.inj (Option.some.inj (hr'.symm.trans hr))
      exact .inr ⟨fun hc => hin (hc.inPlace hs), h1, k1, bs1, L1, bs', L', hrel⟩

/-- A reallocation that returns does not give null. -/
theorem reallocBy_nonnull (hs : Shows a e s (pre ++ ⟨p, k, .live⟩ :: post) L) (hp : p ∈ s.live)
    (hn : n < 2 ^ 64) (hr : reallocBy alloc s.heap p n = some (q, h)) : q ≠ 0 := by
  by_cases hin : requestSize n ≤ k ∨ growsInto k (requestSize n) post
  · obtain ⟨h', bs', hr', -⟩ := reallocBy_inPlace_any alloc hs hp hn hin
    obtain ⟨rfl, rfl⟩ := Prod.mk.inj (Option.some.inj (hr'.symm.trans hr))
    have hlow := (hs.laid.fitsOf (b := ⟨p, k, .live⟩) (by simp)).low
    dsimp only at hlow
    omega
  · obtain ⟨hgt, hgrow⟩ := not_or.mp hin
    have hpost : Settled post := fun b hb => hs.settled b (by simp [hb])
    rw [reallocBy_moves hs.laid hpost hgt hgrow] at hr
    obtain ⟨r, -, hr⟩ := Option.bind_eq_some_iff.mp hr
    split at hr
    · exact absurd hr (by simp)
    · rename_i hr0
      obtain ⟨rfl, -⟩ := Prod.mk.inj (Option.some.inj hr)
      exact hr0

end Paths

/-! ## The books -/

/-- Moving a block keeps the books. -/
theorem Shows.books_relocated {h1 : Heap Mpool} {bs1 : List Block} {L1 : Nat → List Nat}
    {k1 : Nat} (hs : Shows a e s bs L) (hnd : s.live.Nodup) (hb : Books s) (hp : p ∈ s.live)
    (hr : Relocated a e s.heap bs r p k q h1 k1 bs1 L1 h bs' L') :
    Books ⟨h, q :: s.live.erase p⟩ := by
  obtain ⟨hne, hnd1, hs2, -⟩ := hs.relocated hnd hp hr
  have hb1 := hs.books_allocated hnd hb hr.allocated
  -- the copy goes into a payload
  have hb2 : Books ⟨{ h1 with mem := memcpy h1.mem q p k }, q :: s.live⟩ := by
    rw [hs2.books_iff hnd1]
    exact ((hs.allocated hr.allocated).books_iff hnd1).mp hb1
  have hb3 := hs2.books_freed hnd1 hb2 hr.freed
  rwa [List.erase_cons_tail (by simpa using hne)] at hb3

/-- Resizing in place keeps them just if the size stays. -/
theorem InPlace.books_iff (hi : InPlace a e s p n bs h bs') (hs : Shows a e s bs L)
    (hnd : s.live.Nodup) (hb : Books s) :
    Books ⟨h, p :: s.live.erase p⟩ ↔ ¬ SizeChanges s.heap p n := by
  have hnd' : (p :: s.live.erase p).Nodup :=
    List.nodup_cons.mpr ⟨hnd.not_mem_erase, hnd.erase p⟩
  rw [hi.sketch.books_iff hnd', ← hi.size_iff]
  show h.pool.allocedSize = _ ↔ _
  rw [Mpool.rest_alloced hi.rest, (hs.books_iff hnd).mp hb, eq_comm]

theorem reallocBy_books {alloc : Heap Mpool → Nat → Option (Nat × Heap Mpool)}
    (hs : Shows a e s (pre ++ ⟨p, k, .live⟩ :: post) L) (hnd : s.live.Nodup) (hb : Books s)
    (hp : p ∈ s.live) (hn : n < 2 ^ 64)
    (ha : k < requestSize n → n ≤ 2 ^ 64 - 16 →
      alloc s.heap (requestSize n) = some (0, s.heap) ∨ ∃ q h1 k1 bs1 L1,
        alloc s.heap (requestSize n) = some (q, h1) ∧
          Allocated a e s.heap (pre ++ ⟨p, k, .live⟩ :: post) (requestSize n) q h1 k1 bs1 L1)
    (hr : reallocBy alloc s.heap p n = some (q, h)) :
    q ≠ 0 ∧ (Books ⟨h, q :: s.live.erase p⟩ ↔ ¬ SizeChanges s.heap p n) := by
  have hlow := (hs.laid.fitsOf (b := ⟨p, k, .live⟩) (by simp)).low
  dsimp only at hlow
  rcases reallocBy_after hs hp hn ha hr with ⟨rfl, bs', hplace⟩ |
    ⟨hstay, h1, k1, bs1, L1, bs', L', hrel⟩
  · exact ⟨by omega, hplace.books_iff hs hnd hb⟩
  · exact ⟨hrel.allocated.nonnull, iff_of_true (hs.books_relocated hnd hb hp hrel) hstay⟩

/-- **Resizing in place loses the books**, whatever the block would have moved to. -/
theorem reallocBy_lost {alloc : Heap Mpool → Nat → Option (Nat × Heap Mpool)}
    (hs : Shows a e s (pre ++ ⟨p, k, .live⟩ :: post) L) (hnd : s.live.Nodup) (hb : Books s)
    (hp : p ∈ s.live) (hn : n < 2 ^ 64) (hc : SizeChanges s.heap p n)
    (hr : reallocBy alloc s.heap p n = some (q, h)) : ¬ Books ⟨h, q :: s.live.erase p⟩ := by
  obtain ⟨h', bs', hr', hplace⟩ := reallocBy_inPlace_any alloc hs hp hn (hc.inPlace hs)
  obtain ⟨rfl, rfl⟩ := Prod.mk.inj (Option.some.inj (hr'.symm.trans hr))
  rw [hplace.books_iff hs hnd hb, not_not]
  exact hc

/-! ## The free space -/

theorem reallocBy_tidy {alloc : Heap Mpool → Nat → Option (Nat × Heap Mpool)}
    (hs : Shows a e s (pre ++ ⟨p, k, .live⟩ :: post) L) (hnd : s.live.Nodup)
    (ht : Tidy a e s.heap.mem) (hp : p ∈ s.live) (hn : n < 2 ^ 64)
    (ha : k < requestSize n → n ≤ 2 ^ 64 - 16 →
      alloc s.heap (requestSize n) = some (0, s.heap) ∨ ∃ q h1 k1 bs1 L1,
        alloc s.heap (requestSize n) = some (q, h1) ∧
          Allocated a e s.heap (pre ++ ⟨p, k, .live⟩ :: post) (requestSize n) q h1 k1 bs1 L1)
    (hr : reallocBy alloc s.heap p n = some (q, h)) :
    Tidy a e h.mem ↔ ¬ CutsAtFree s.heap p n := by
  have hc := hs.tidy_iff.mp ht
  rcases reallocBy_after hs hp hn ha hr with ⟨rfl, bs', hplace⟩ |
    ⟨hstay, h1, k1, bs1, L1, bs', L', hrel⟩
  · exact hplace.sketch.tidy_iff.trans (hplace.coalesced_iff hc)
  · -- allocation and release leave no free neighbours
    obtain ⟨-, -, -, hs3⟩ := hs.relocated hnd hp hrel
    have hc3 := hrel.freed.releases.coalesced (hrel.allocated.takes.coalesced hc)
    exact iff_of_true (hs3.tidy_iff.mpr hc3) fun hcut => hstay (.inl hcut.1)

/-- A pointer held is not null. -/
theorem Inv.nonnull (hi : Inv a e s) (hp : p ∈ s.live) : p ≠ 0 := by
  obtain ⟨bs, L, hs⟩ := hi.shows
  obtain ⟨b, hb, rfl, -⟩ := (hs.live_iff p).mp hp
  have := (hs.laid.fitsOf hb).low
  omega

/-- An operation on a pool with callbacks, from the same one without. -/
theorem loud_some {f : Heap Mpool → Option (Nat × Heap Mpool)} {c : Option (Nat → Nat → Nat)}
    {d : Bool} {l : List (Nat × Nat)} {g : Heap Mpool}
    (hf : ∃ l', f (loud h c d l) = (f h).map fun r => (r.1, loud r.2 c d l'))
    (hr : f (loud h c d l) = some (q, g)) : ∃ h' l', f h = some (q, h') ∧ g = loud h' c d l' := by
  obtain ⟨l', hf⟩ := hf
  obtain ⟨⟨q', h'⟩, hr', heq⟩ := Option.map_eq_some_iff.mp (hf.symm.trans hr)
  obtain ⟨rfl, rfl⟩ := Prod.mk.inj heq
  exact ⟨h', l', hr', rfl⟩

/--
**Reallocation leaves free neighbours exactly when it cuts in front of a free block.**

For every consistent pool without free neighbours, every pointer held and every
size.
-/
theorem realloc_tidy_iff {size : Nat} (hu : Ungrown a size s) (ht : Tidy a (a + size) s.heap.mem)
    (hp : p ∈ s.live) (hn : n < 2 ^ 64) (hr : mpoolRealloc s.heap p n = some (q, h)) :
    Tidy a (a + size) h.mem ↔ ¬ CutsAtFree s.heap p n := by
  obtain ⟨g, c, d, l, heq, hi, hstuck, -⟩ := hu.hushed
  obtain ⟨h0, live⟩ := s
  obtain rfl : h0 = loud g c d l := heq
  obtain ⟨h', l', hr', rfl⟩ := loud_some (f := fun h => mpoolRealloc h p n)
    (mpoolRealloc_loud hstuck p n) hr
  obtain ⟨bs, L, hs⟩ := hi.shows
  obtain ⟨pre, k, post, rfl⟩ := hs.block hp
  rw [mpoolRealloc_eq (hi.nonnull hp)] at hr'
  have htidy := reallocBy_tidy hs hi.nodup ht hp hn
    (fun _ hle => mpoolAlloc_again hs.laid hi.quiet hle) hr'
  exact htidy

/-! ### A block in the smallest pool -/

/-- The smallest pool with one block of 128 bytes. -/
def roomyHeap : Heap Mpool :=
  ((mpoolAlloc (mpoolInit emptyHeap 65536 16416).2 128).getD (0, emptyHeap)).2

theorem roomyHeap_reachable :
    Reachable (PoolStart 65536 16416) PoolStep ⟨roomyHeap, [65552]⟩ := by
  have hinit : (mpoolInit emptyHeap 65536 16416).1 = true := by decide +kernel
  have halloc : (mpoolAlloc (mpoolInit emptyHeap 65536 16416).2 128).map Prod.fst =
      some 65552 := by decide +kernel
  obtain ⟨⟨p, h⟩, hr, rfl⟩ := Option.map_eq_some_iff.mp halloc
  have hheap : h = roomyHeap := by
    rw [roomyHeap, hr]
    rfl
  have hstart : Reachable (PoolStart 65536 16416) PoolStep
      ⟨(mpoolInit emptyHeap 65536 16416).2, []⟩ :=
    .init ⟨⟨emptyHeap, Prod.ext hinit rfl⟩, rfl⟩
  rw [← hheap]
  exact hstart.tail (.took (n := 128) (by decide) hr (by decide))

theorem roomyHeap_ungrown : Ungrown 65536 16416 ⟨roomyHeap, [65552]⟩ :=
  ungrown_reachable fullHeap_place (roomyHeap_reachable.mono fun _ _ h => .pool h)

theorem roomyHeap_blocks : blkSize roomyHeap.mem 65552 = 128 ∧
    blkFreed roomyHeap.mem 65552 = false ∧ blkSize roomyHeap.mem 65696 = 16240 := by
  decide +kernel

theorem roomyHeap_tidy : Tidy 65536 (65536 + 16416) roomyHeap.mem := by
  obtain ⟨h1, h2, h3⟩ := roomyHeap_blocks
  refine ⟨[65552, 65696], ?_, ?_⟩
  · simp [Tiling, h1, h3]
  · simp [h2]

/-- What cutting the block down to 16 bytes leaves. -/
theorem roomyHeap_cut : ∃ h, mpoolRealloc roomyHeap 65552 16 = some (65552, h) ∧
    (blkSize h.mem 65552 = 16 ∧ blkSize h.mem 65584 = 96 ∧ blkSize h.mem 65696 = 16240) ∧
    (blkFreed h.mem 65584 = true ∧ blkFreed h.mem 65696 = true) ∧ h.pool.allocedSize = 128 := by
  have hrun : (mpoolRealloc roomyHeap 65552 16).map (fun r =>
      (r.1, [65552, 65584, 65696].map (blkSize r.2.mem), [65584, 65696].map (blkFreed r.2.mem),
        r.2.pool.allocedSize)) = some (65552, [16, 96, 16240], [true, true], 128) := by
    decide +kernel
  obtain ⟨⟨q, h⟩, hr, heq⟩ := Option.map_eq_some_iff.mp hrun
  simp only [Prod.mk.injEq, List.map_cons, List.map_nil, List.cons.injEq, and_true] at heq
  obtain ⟨rfl, ⟨h1, h2, h3⟩, ⟨h4, h5⟩, h6⟩ := heq
  exact ⟨h, hr, ⟨h1, h2, h3⟩, ⟨h4, h5⟩, h6⟩

/-- Letting the block grow to 200 bytes leaves nothing unmerged. -/
theorem realloc_tidy_grown : ∃ h, mpoolRealloc roomyHeap 65552 200 = some (65552, h) ∧
    Tidy 65536 (65536 + 16416) h.mem := by
  have hrun : (mpoolRealloc roomyHeap 65552 200).map Prod.fst = some 65552 := by decide +kernel
  obtain ⟨⟨q, h⟩, hr, rfl⟩ := Option.map_eq_some_iff.mp hrun
  have hcut : ¬ CutsAtFree roomyHeap 65552 200 := by
    rintro ⟨hcut, -⟩
    rw [CutsOff, mpoolMsize, if_neg (by decide), roomyHeap_blocks.1] at hcut
    exact absurd hcut (by decide)
  exact ⟨h, hr, (realloc_tidy_iff roomyHeap_ungrown roomyHeap_tidy (p := 65552) (by simp)
    (by decide) hr).mpr hcut⟩

/-- **Cutting a block down in front of free space**: 128 bytes to 16. -/
theorem realloc_untidy : Reachable (PoolStart 65536 16416) PoolStep ⟨roomyHeap, [65552]⟩ ∧
    Tidy 65536 (65536 + 16416) roomyHeap.mem ∧
    ∃ h, mpoolRealloc roomyHeap 65552 16 = some (65552, h) ∧
      ¬ Tidy 65536 (65536 + 16416) h.mem := by
  obtain ⟨h, hr, ⟨h1, h2, h3⟩, ⟨h4, h5⟩, -⟩ := roomyHeap_cut
  refine ⟨roomyHeap_reachable, roomyHeap_tidy, h, hr, ?_⟩
  rintro ⟨ps, hps, hc⟩
  have htil : Tiling id (fun p => blkSize h.mem p + 16) (65536 + 16) [65552, 65584, 65696]
      (65536 + 16416) := by
    simp [Tiling, h1, h2, h3]
  rw [Tiling.unique (fun _ => Nat.succ_pos _) hps htil] at hc
  simp [h4, h5] at hc

end IonOS.Alloc
