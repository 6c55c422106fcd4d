import IonOS.Alloc.Match
import IonOS.Alloc.Picture

/-!
# The operations of a pool

What `mpool_init`, `mpool_alloc`, `mpool_free` and `mpool_realloc` do to the
picture, for a pool without a request callback. Every one of them starts from and
ends in a *settled* layout, one without a block in hand.
-/

namespace IonOS.Alloc

open IonOS.Lib IonOS.Libs

variable {a e : Nat} {h : Heap Mpool} {m m' : Mem} {hd : Nat → Nat} {bs pre post : List Block}
  {L : Nat → List Nat} {x s y t n : Nat} {st : BlkState}

/-! ## Request sizes -/

theorem requestSize_eq (hn : n ≤ 2 ^ 64 - 16) :
    requestSize n = if n = 0 then 16 else (n + 15) / 16 * 16 := by
  unfold requestSize
  by_cases h0 : n = 0
  · rw [if_pos h0, if_pos h0]
  · have hup : subW (addW n 16) 1 = n + 15 := by unfold subW addW; omega
    rw [if_neg h0, if_neg h0, padding, hup, and_notW_fifteen (by omega)]

/-- The size looked for is a positive multiple of two words that covers the request. -/
theorem requestSize_spec (hn : n ≤ 2 ^ 64 - 16) :
    requestSize n % 16 = 0 ∧ 16 ≤ requestSize n ∧ n ≤ requestSize n ∧
      requestSize n ≤ 2 ^ 64 - 16 := by
  rw [requestSize_eq hn]
  split <;> omega

/-- Rounding twice is rounding once. -/
theorem requestSize_idem (hn : n ≤ 2 ^ 64 - 16) : requestSize (requestSize n) = requestSize n := by
  obtain ⟨h1, h2, -, h4⟩ := requestSize_spec hn
  rw [requestSize_eq h4, if_neg (by omega)]
  omega

/-! ## Stores into live payloads -/

/-- **The user owns the payloads.** Whatever is stored there, the layout stays. -/
theorem Layout.userStore (hl : Layout a e m hd bs L)
    (hm : ∀ w, (∀ b ∈ bs, b.st = .live → w < b.ptr ∨ b.ptr + b.size ≤ w) → m' w = m w) :
    Layout a e m' hd bs L := by
  have hkeep : ∀ w, (∀ b ∈ bs, b.st = .live → w + 8 ≤ b.ptr ∨ b.ptr + b.size ≤ w) →
      m'.read64 w = m.read64 w := by
    intro w hw
    refine Mem.read64_congr fun v h1 h2 => hm v fun b hb hst => ?_
    have := hw b hb hst
    omega
  have hnode : ∀ i, ∀ y ∈ L i, ∀ k, k ≤ 8 → m'.read64 (y + k) = m.read64 (y + k) := by
    intro i y hy k hk
    obtain ⟨c, hc, rfl, hcf, -⟩ := hl.node hy
    refine hkeep _ fun b hb hst => ?_
    have := (hl.sizes c hc).2
    rcases hl.apart hb hc with rfl | h | h
    · rw [hst] at hcf; exact absurd hcf (by simp)
    · omega
    · omega
  refine ⟨hl.area, hl.tiling, hl.sizes, fun c hc => (hl.tags c hc).congr ?_ ?_, ?_, ?_,
    fun i => (hl.lists i).congr (fun y hy => hnode i y hy 0 (by omega))
      (fun y hy => hnode i y (List.mem_of_mem_tail hy) 8 (by omega)), hl.listed⟩
  · refine hkeep _ fun b hb _ => ?_
    have := (hl.fitsOf hc).low
    rcases hl.apart hb hc with rfl | h | h <;> omega
  · refine hkeep _ fun b hb _ => ?_
    rcases hl.apart hb hc with rfl | h | h <;> omega
  · rw [hkeep a fun b hb _ => by have := (hl.bounds hb).1; omega]
    exact hl.first
  · rw [hkeep (e - 8) fun b hb _ => by have := (hl.bounds hb).2; omega]
    exact hl.last

/-! ## The fresh pool -/

/-- **`mpool_init`** leaves one free block, on the list of large blocks. -/
theorem mpoolInit_laid {size : Nat} (h0 : Heap Mpool) (ha : a % 16 = 0) (hpos : a ≠ 0)
    (h16 : size % 16 = 0) (hbig : 16416 ≤ size) (hroom : size + 48 ≤ 2 ^ 64)
    (hend : a + size ≤ 2 ^ 64) :
    ∃ h L, mpoolInit h0 a size = (true, h) ∧
      Laid a (a + size) h [⟨a + 16, size - 32, .free⟩] L ∧ h.pool.cbReqmem = none := by
  have hf : Fits (a + 16) (size - 32) := ⟨by omega, by omega, by omega, by omega⟩
  have htag := allocareaInit_tagged (m := h0.mem) hf (by omega) (by omega) 0
  obtain ⟨hfirst, hlast⟩ := allocareaInit_markers (m := h0.mem) hf (by omega) h16 (by omega)
  have hlist : listOf (size - 32) = 8 := listOf_large (by
    unfold freelistsSize2id freelistMaxblksize
    rw [if_neg (by omega), if_neg (by omega), if_pos (by omega)]
    decide)
  have hmask : size &&& (2 * 8 - 1) = 0 := by
    rw [show 2 * 8 - 1 = 2 ^ 4 - 1 from rfl, Nat.and_two_pow_sub_one_eq_mod]
    exact h16
  -- before the block is listed, nothing is
  have hl : Layout a (a + size) (allocareaInit h0.mem a size 0) (fun _ => 0)
      ([] ++ ⟨a + 16, size - 32, .hand⟩ :: []) (fun _ => []) := by
    refine ⟨⟨ha, by omega, by omega, hend, by omega⟩, ⟨rfl, ?_⟩, ?_, ?_, hfirst, hlast,
      fun _ => Links.isList_nil _ _, ?_⟩
    · show a + 16 + (size - 32 + 16) = a + size
      omega
    · simp only [List.nil_append, List.mem_singleton, forall_eq]
      omega
    · simpa using htag.hand
    · intro i x
      simp
  have hput := hl.put htag
  rw [hlist] at hput
  have hadd : addW a 16 = a + 16 := addW_of_lt (by omega)
  have hinit : mpoolInit h0 a size = (true, putLarge
      { h0 with
        mem := allocareaInit h0.mem a size 0
        pool := ⟨a, size, 0, none, false, 0, fun _ => 0⟩ } (a + 16)) := by
    rw [mpoolInit, if_neg (by omega), if_neg (not_not.mpr hmask), hadd]
  exact ⟨_, _, hinit, hput, rfl⟩

/-! ## Allocation -/

/-- **What an allocation did** when it gave `p`, a block of `k` bytes for the `r` asked for. -/
structure Allocated (a e : Nat) (h : Heap Mpool) (bs : List Block) (r p : Nat) (h' : Heap Mpool)
    (k : Nat) (bs' : List Block) (L' : Nat → List Nat) : Prop where
  nonnull : p ≠ 0
  takes : Takes r bs p k bs'
  laid : Laid a e h' bs' L'
  rest : h'.pool.rest = (h.pool.credit k).rest
  kept : Kept h.mem bs h'.mem bs'

theorem Allocated.cb {r p k : Nat} {h' : Heap Mpool} {bs' : List Block} {L' : Nat → List Nat}
    (ha : Allocated a e h bs r p h' k bs' L') : h'.pool.cbReqmem = h.pool.cbReqmem :=
  Mpool.rest_cb (q := h.pool.credit k) ha.rest

/-- The block an allocation takes. -/
theorem pick_block (hl : Laid a e h bs L) {p : Nat → Bool} (hp : pick p L n = some x) :
    ∃ pre s post, bs = pre ++ ⟨x, s, .free⟩ :: post ∧ p x := by
  obtain ⟨i, -, hx, hpx⟩ := pick_mem hp
  obtain ⟨⟨y, s, bst⟩, hb, rfl, rfl, -⟩ := hl.node hx
  obtain ⟨pre, post, rfl⟩ := List.append_of_mem hb
  exact ⟨pre, s, post, rfl, hpx⟩

/-- The search of `mpool_alloc`, and what it does with the block found. -/
theorem mpoolAlloc_eq (hl : Laid a e h bs L) (hcb : h.pool.cbReqmem = none) (n : Nat) :
    mpoolAlloc h n = some (match pick (sizeFits (requestSize n) h.mem) L (requestSize n) with
      | none => (0, h)
      | some x => (x, finishAlloc (detach h x) x (requestSize n))) := by
  have hmatch := matchOrReqmem_eq (f := sizeFits (requestSize n)) hl hcb (requestSize n)
    (requestSize n)
  rw [mpoolAlloc, hmatch]
  cases hp : pick (sizeFits (requestSize n) h.mem) L (requestSize n) with
  | none => rfl
  | some x =>
      obtain ⟨i, -, hx, -⟩ := pick_mem hp
      have hx0 : x ≠ 0 := fun he => (hl.lists i).nonnull (he ▸ hx)
      simp only [Option.bind_eq_bind, Option.bind_some, hx0, if_false]
      rfl

/-- **`mpool_alloc`** takes the block that `pick` names, or finds none and does nothing. -/
theorem mpoolAlloc_laid (hl : Laid a e h bs L) (hcb : h.pool.cbReqmem = none)
    (hn : n ≤ 2 ^ 64 - 16) :
    (pick (sizeFits (requestSize n) h.mem) L (requestSize n) = none ∧
      mpoolAlloc h n = some (0, h)) ∨
    ∃ p h' k bs' L', mpoolAlloc h n = some (p, h') ∧
      Allocated a e h bs (requestSize n) p h' k bs' L' := by
  have heq := mpoolAlloc_eq hl hcb n
  cases hp : pick (sizeFits (requestSize n) h.mem) L (requestSize n) with
  | none =>
      rw [hp] at heq
      exact .inl ⟨rfl, heq⟩
  | some x =>
      rw [hp] at heq
      obtain ⟨h16, hmin, -, -⟩ := requestSize_spec hn
      obtain ⟨pre, s, post, rfl, hfit⟩ := pick_block hl hp
      have hs : blkSize h.mem x = s := hl.blkSize_eq (b := ⟨x, s, .free⟩) (by simp)
      have hle : requestSize n ≤ s := by
        unfold sizeFits at hfit
        rw [hs] at hfit
        simpa using hfit
      have hx0 : x ≠ 0 := by
        have := (hl.fitsOf (b := ⟨x, s, .free⟩) (by simp)).low
        dsimp only at this
        omega
      have htakes := Takes.intro pre post x s x s hle
      rw [Nat.sub_self, leadBlocks, if_neg (Nat.lt_irrefl 0), List.append_nil] at htakes
      obtain ⟨hl1, hr1, hk1⟩ := detach_laid hl
      obtain ⟨L', hl2, hr2, hk2⟩ := finishAlloc_laid hl1 h16 hmin hle
      exact .inr ⟨x, finishAlloc (detach h x) x (requestSize n), _, _, L', heq, hx0, htakes, hl2,
        hr2.trans (Mpool.rest_credit hr1 _), hk1.trans hk2⟩

/-! ## Release -/

/-- **What a release did** with the block of `s` bytes at `x`. -/
structure Freed (a e : Nat) (h : Heap Mpool) (bs : List Block) (x s : Nat) (h' : Heap Mpool)
    (bs' : List Block) (L' : Nat → List Nat) : Prop where
  releases : Releases bs x s bs'
  laid : Laid a e h' bs' L'
  rest : h'.pool.rest = (h.pool.debit s).rest
  kept : ∀ w, Outside bs w → w + 8 < x ∨ x + s + 8 ≤ w → h'.mem w = h.mem w

theorem Freed.cb {h' : Heap Mpool} {bs' : List Block} {L' : Nat → List Nat}
    (hf : Freed a e h bs x s h' bs' L') : h'.pool.cbReqmem = h.pool.cbReqmem :=
  Mpool.rest_cb (q := h.pool.debit s) hf.rest

/-- What is outside all blocks but the one at `x`, and outside that one too. -/
theorem Outside.hand {w : Nat} (hw : Outside (pre ++ ⟨x, s, st⟩ :: post) w)
    (hx : w + 8 < x ∨ x + s + 8 ≤ w) : Outside (pre ++ ⟨x, s, .hand⟩ :: post) w := by
  simp only [outside_append, outside_cons] at hw ⊢
  exact ⟨hw.1, fun _ => hx, hw.2.2⟩

/-- **`mpool_free`** merges the block with its free neighbours and lists the result. -/
theorem mpoolFree_laid (hl : Laid a e h (pre ++ ⟨x, s, .live⟩ :: post) L)
    (hset : Settled (pre ++ ⟨x, s, .live⟩ :: post)) :
    ∃ bs' L', Freed a e h (pre ++ ⟨x, s, .live⟩ :: post) x s (mpoolFree h x) bs' L' := by
  have hs : blkSize h.mem x = s := hl.blkSize_eq (b := ⟨x, s, .live⟩) (by simp)
  have hx0 : x ≠ 0 := by
    have := (hl.fitsOf (b := ⟨x, s, .live⟩) (by simp)).low
    dsimp only at this
    omega
  have hl1 : Laid a e { h with pool := h.pool.debit s } (pre ++ ⟨x, s, .hand⟩ :: post) L :=
    takeLive hl
  obtain ⟨pre', x', s', post', L', ha1, ha2, hx', hl2, hr2, hk2⟩ := blkTrymerge_laid hl1 hset.sides
  obtain ⟨hl3, hr3, hk3⟩ := doFree_laid hl2
  have heq : mpoolFree h x =
      doFree (blkTrymerge detach { h with pool := h.pool.debit s } x).2 x' := by
    unfold mpoolFree
    rw [if_neg hx0, hs, ← hx']
    rfl
  rw [heq]
  exact ⟨_, _, .intro pre post pre' post' x s x' s' ha1 ha2, hl3, hr3.trans hr2,
    fun w hw hx => ((hk2.trans hk3) w (hw.hand hx)).1⟩

/-! ## Resizing -/

/-- **What resizing in place did** with the block of `s` bytes at `x`. -/
structure Resized (a e : Nat) (h : Heap Mpool) (bs : List Block) (r x s : Nat) (h' : Heap Mpool)
    (k : Nat) (bs' : List Block) (L' : Nat → List Nat) : Prop where
  resizes : Resizes r bs x s k bs'
  laid : Laid a e h' bs' L'
  rest : h'.pool.rest = h.pool.rest
  kept : ∀ w, Outside bs w → w + 8 < x ∨ x + s + 8 ≤ w → h'.mem w = h.mem w
  prefix_kept : ∀ w, x ≤ w → w < x + min s r → h'.mem w = h.mem w

theorem Resized.cb {r k : Nat} {h' : Heap Mpool} {bs' : List Block} {L' : Nat → List Nat}
    (hr : Resized a e h bs r x s h' k bs' L') : h'.pool.cbReqmem = h.pool.cbReqmem :=
  Mpool.rest_cb hr.rest

/-- What `mpool_realloc` sees behind the block. -/
theorem next_eq (hl : Laid a e h (pre ++ ⟨x, s, .live⟩ :: post) L) (hset : Settled post) :
    blkNext h.mem x = (post.head?.map Block.ptr).getD 0 ∧
      ∀ b ∈ post.head?, b.ptr ≠ 0 ∧ blkSize h.mem b.ptr = b.size ∧
        blkFreed h.mem b.ptr = decide (b.st = .free) := by
  have hs : blkSize h.mem x = s := hl.blkSize_eq (b := ⟨x, s, .live⟩) (by simp)
  have hfit := hl.area.fits
  have hpos := hl.area.pos
  cases post with
  | nil =>
      refine ⟨?_, by simp⟩
      rw [blkNext, hs, if_pos (nonext_last hl)]
      rfl
  | cons b post =>
      have hbd := hl.bounds (b := b) (by simp)
      refine ⟨blkNext_eq hl, fun c hc => ?_⟩
      obtain rfl : b = c := by simpa using hc
      exact ⟨by omega, hl.blkSize_eq (by simp), (hl.tags b (by simp)).blkFreed (by omega)
        (by omega) (hset b (by simp))⟩

/-- The block `mpool_realloc` can grow into. -/
def growsInto (s size : Nat) : List Block → Bool
  | ⟨_, t, .free⟩ :: _ => size ≤ s + 16 + t
  | _ => false

theorem growsInto_block {size : Nat} (h : growsInto s size post) :
    ∃ y t post', post = ⟨y, t, .free⟩ :: post' ∧ size ≤ s + 16 + t := by
  unfold growsInto at h
  split at h
  · exact ⟨_, _, _, rfl, by simpa using h⟩
  · exact absurd h (by simp)

/-- The test of `mpool_realloc` for growing in place. -/
theorem growsInto_iff (hl : Laid a e h (pre ++ ⟨x, s, .live⟩ :: post) L) (hset : Settled post)
    (size : Nat) :
    (blkNext h.mem x ≠ 0 ∧ blkFreed h.mem (blkNext h.mem x) ∧
      size ≤ addW (addW s 16) (blkSize h.mem (blkNext h.mem x))) ↔ growsInto s size post := by
  obtain ⟨hnext, hhead⟩ := next_eq hl hset
  rw [hnext]
  cases post with
  | nil => simp [growsInto]
  | cons b post =>
      obtain ⟨h0, hsz, hfr⟩ := hhead b (by simp)
      have hbd := hl.bounds (b := b) (by simp)
      have hbx := hl.bounds (b := ⟨x, s, .live⟩) (by simp)
      have hptr := (nexthead_block hl).1
      dsimp only at hbx
      have hroom := hl.area.room
      have hadd : addW (addW s 16) b.size = s + 16 + b.size := by
        rw [addW_of_lt (a := s) (by omega), addW_of_lt (by omega)]
      simp only [List.head?_cons, Option.map_some, Option.getD_some, ne_eq, h0,
        not_false_eq_true, true_and, hsz, hfr, hadd]
      obtain ⟨y, t, st⟩ := b
      cases st <;> simp [growsInto]

/-- The bytes of a live payload are outside every other block. -/
theorem Layout.outside_live {w : Nat} (hl : Layout a e m hd bs L) {b : Block} (hb : b ∈ bs)
    (hst : b.st = .live) (h1 : b.ptr ≤ w) (h2 : w < b.ptr + b.size) : Outside bs w := by
  intro c hc hcl
  rcases hl.apart hb hc with rfl | h | h
  · exact absurd hst hcl
  · exact .inl (by omega)
  · exact .inr (by omega)

/-- Cutting stores nothing into the part that is kept. -/
theorem blkSplit_front {size w : Nat} (hf : Fits x s) (hs : blkSize m x = s)
    (h16 : size % 16 = 0) (hsz : size + 16 ≤ s) (h1 : x ≤ w) (h2 : w < x + size) :
    (blkSplit m x size).2 w = m w := by
  obtain ⟨h3, h4, h5, h6⟩ := hf
  have hoff : addW size 16 = size + 16 := addW_of_lt (by omega)
  have hrem : subW s (size + 16) = s - size - 16 := by
    rw [subW_of_le (by omega) (by omega)]; omega
  have hadd : addW x (size + 16) = x + size + 16 := by
    rw [addW_of_lt (by omega)]; omega
  have hf2 : Fits (x + size + 16) (s - size - 16) := ⟨by omega, by omega, by omega, by omega⟩
  -- a payload is between its two tags
  have hin : ∀ (m : Mem) (u v : Nat),
      (m.write64 (subW x 8) u).write64 (addW x size) v w = m w := by
    intro m u v
    rw [subW_of_le (by omega) (by omega), addW_of_lt (by omega), Mem.write64_other (by omega),
      Mem.write64_other (by omega)]
  have hout : ∀ (m : Mem) (u v : Nat), (m.write64 (subW (x + size + 16) 8) u).write64
      (addW (x + size + 16) (s - size - 16)) v w = m w :=
    fun m u v => tagWrites_other hf2 m u v (.inl (by omega))
  unfold blkSplit
  dsimp only
  rw [hs, hoff, hrem, hadd]
  by_cases h2M : blkAreaIs2M m x
  · rw [if_pos h2M, if_pos h2M, blkSetArea2M, hout, blkSetsize, hout, blkSetArea2M, hin,
      blkSetsize, hin]
  · rw [if_neg h2M, if_neg h2M, blkSetsize, hout, blkSetsize, hin]

/-- Neither does what `try_split_and_free` does with the other part. -/
theorem trySplitAndFree_front {size w : Nat} (hl : Laid a e h (pre ++ ⟨x, s, .live⟩ :: post) L)
    (h16 : size % 16 = 0) (hmin : 16 ≤ size) (hsz : size ≤ s) (h1 : x ≤ w) (h2 : w < x + size) :
    (trySplitAndFree h x size).2.mem w = h.mem w := by
  have hs : blkSize h.mem x = s := hl.blkSize_eq (b := ⟨x, s, .live⟩) (by simp)
  have hf : Fits x s := hl.fitsOf (b := ⟨x, s, .live⟩) (by simp)
  have hroom := hl.area.room
  have hbd := hl.bounds (b := ⟨x, s, .live⟩) (by simp)
  dsimp only at hbd
  unfold trySplitAndFree
  rw [hs, addW_of_lt (by omega)]
  split
  · rename_i hc
    obtain ⟨hptr, hl1, -⟩ := blkSplit_laid (by simp) hl h16 hmin (by omega)
    obtain ⟨-, -, hk2⟩ := doFree_laid (h := { h with mem := (blkSplit h.mem x size).2 }) hl1
    dsimp only
    rw [hptr, (hk2 w (hl1.outside_live (b := ⟨x, size, .live⟩) (by simp) rfl h1 h2)).1]
    exact blkSplit_front hf hs h16 (by omega) h1 h2
  · rfl

/-- Swallowing the block behind stores nothing into the payload. -/
theorem blkMergenext_front {w : Nat}
    (hl : Laid a e h (pre ++ ⟨x, s, .live⟩ :: ⟨y, t, .free⟩ :: post) L)
    (h1 : x ≤ w) (h2 : w < x + s) : (blkMergenext detach h x).2.mem w = h.mem w := by
  have hl0 : Laid a e h ((pre ++ [⟨x, s, .live⟩]) ++ ⟨y, t, .free⟩ :: post) L := by simpa using hl
  obtain ⟨-, -, hk1⟩ := detach_laid hl0
  have hout := hl0.outside_live (b := ⟨x, s, .live⟩) (by simp) rfl h1 h2
  have hptr : y = x + (s + 16) := hl.tiling.next_start
  have hlow := (hl.fitsOf (b := ⟨x, s, .live⟩) (by simp)).low
  have hhigh := (hl.fitsOf (b := ⟨y, t, .free⟩) (by simp)).high
  dsimp only at hlow hhigh
  rw [blkMergenext_eq hl]
  dsimp only
  rw [blkSetsize, subW_of_le (by omega) (by omega), addW_of_lt (by omega),
    Mem.write64_other (by omega), Mem.write64_other (by omega)]
  exact (hk1 w hout).1

section Paths

variable {alloc : Heap Mpool → Nat → Option (Nat × Heap Mpool)}

/-- **First path**: the block is big enough as it is. -/
theorem reallocBy_fits (hs : blkSize h.mem x = s) (hle : requestSize n ≤ s) :
    reallocBy alloc h x n = some (x, (trySplitAndFree h x (requestSize n)).2) := by
  unfold reallocBy
  dsimp only
  rw [hs, if_pos hle]

/-- **Second path**: the free block behind makes up for what is missing. -/
theorem reallocBy_grows (hl : Laid a e h (pre ++ ⟨x, s, .live⟩ :: ⟨y, t, .free⟩ :: post) L)
    (hset : Settled (⟨y, t, .free⟩ :: post)) (hgt : ¬ requestSize n ≤ s)
    (hle : requestSize n ≤ s + 16 + t) :
    reallocBy alloc h x n =
      some (x, (trySplitAndFree (blkMergenext detach h x).2 x (requestSize n)).2) := by
  have hs : blkSize h.mem x = s := hl.blkSize_eq (b := ⟨x, s, .live⟩) (by simp)
  have hgrow := (growsInto_iff hl hset (requestSize n)).mpr (by simpa [growsInto] using hle)
  unfold reallocBy
  dsimp only
  rw [hs, if_neg hgt, if_pos hgrow, blkMergenext_eq hl]

/-- **Third path**: a new block, a copy, and the old block released. -/
theorem reallocBy_moves (hl : Laid a e h (pre ++ ⟨x, s, .live⟩ :: post) L) (hset : Settled post)
    (hgt : ¬ requestSize n ≤ s) (hgrow : ¬ growsInto s (requestSize n) post) :
    reallocBy alloc h x n = (alloc h (requestSize n)).bind fun r =>
      if r.1 = 0 then none
      else some (r.1, mpoolFree { r.2 with mem := memcpy r.2.mem r.1 x s } x) := by
  have hs : blkSize h.mem x = s := hl.blkSize_eq (b := ⟨x, s, .live⟩) (by simp)
  have hs0 : s ≠ 0 := by
    have := (hl.sizes ⟨x, s, .live⟩ (by simp)).2
    dsimp only at this
    omega
  rw [← growsInto_iff hl hset] at hgrow
  unfold reallocBy
  dsimp only
  rw [hs, if_neg hgt, if_neg hgrow]
  simp only [hs0, ne_eq, not_false_eq_true, and_true]
  rfl

/-- **Both ways of resizing in place.** -/
theorem reallocBy_inPlace (alloc : Heap Mpool → Nat → Option (Nat × Heap Mpool))
    (hl : Laid a e h (pre ++ ⟨x, s, .live⟩ :: post) L)
    (hset : Settled post) (hn : n ≤ 2 ^ 64 - 16)
    (hin : requestSize n ≤ s ∨ growsInto s (requestSize n) post) :
    ∃ h' k bs' L', reallocBy alloc h x n = some (x, h') ∧
      Resized a e h (pre ++ ⟨x, s, .live⟩ :: post) (requestSize n) x s h' k bs' L' := by
  obtain ⟨h16, hmin, -, -⟩ := requestSize_spec hn
  have hs : blkSize h.mem x = s := hl.blkSize_eq (b := ⟨x, s, .live⟩) (by simp)
  by_cases hle : requestSize n ≤ s
  · obtain ⟨L', hl', hr, hk⟩ := trySplitAndFree_laid (by simp) hl h16 hmin hle
    refine ⟨_, _, _, L', reallocBy_fits hs hle, .fits pre post x s hle, hl', hr,
      fun w hw hx => (hk w (hw.hand hx)).1, fun w h1 h2 => ?_⟩
    exact trySplitAndFree_front hl h16 hmin hle h1 (by omega)
  · obtain ⟨y, t, post, rfl, hle'⟩ := growsInto_block (hin.resolve_left hle)
    obtain ⟨L1, hl1, -, hr1, hk1⟩ := blkMergenext_laid (by simp) hl
    obtain ⟨L', hl', hr', hk'⟩ := trySplitAndFree_laid (by simp) hl1 h16 hmin hle'
    refine ⟨_, _, _, L', reallocBy_grows hl hset hle hle', .grows pre post x s y t (by omega) hle',
      hl', hr'.trans hr1, fun w hw hx => ((hk1.trans hk') w (hw.hand hx)).1, fun w h1 h2 => ?_⟩
    rw [trySplitAndFree_front hl1 h16 hmin hle' h1 (by omega)]
    exact blkMergenext_front hl h1 (by omega)

/-- **What moving did** with the block of `s` bytes at `x`: a new block at `q`, a copy, and the
old block released. -/
structure Relocated (a e : Nat) (h : Heap Mpool) (bs : List Block) (r x s q : Nat)
    (h1 : Heap Mpool) (k : Nat) (bs1 : List Block) (L1 : Nat → List Nat) (h' : Heap Mpool)
    (bs' : List Block) (L' : Nat → List Nat) : Prop where
  small : s < r
  allocated : Allocated a e h bs r q h1 k bs1 L1
  freed : Freed a e { h1 with mem := memcpy h1.mem q x s } bs1 x s h' bs' L'

/-- Copying into a new block. -/
theorem Allocated.copied {r q k : Nat} {h1 : Heap Mpool} {bs1 : List Block}
    {L1 : Nat → List Nat} (ha : Allocated a e h bs r q h1 k bs1 L1) (hs : s ≤ k) :
    Laid a e { h1 with mem := memcpy h1.mem q x s } bs1 L1 := by
  refine ha.laid.userStore fun w hw => memcpy_other ?_
  have := hw _ ha.takes.mem rfl
  dsimp only at this
  omega

/-- **Resizing a block**: in place, not at all, or by moving. -/
theorem reallocBy_cases (hl : Laid a e h (pre ++ ⟨x, s, .live⟩ :: post) L)
    (hset : Settled (pre ++ ⟨x, s, .live⟩ :: post)) (hn : n ≤ 2 ^ 64 - 16)
    (ha : alloc h (requestSize n) = some (0, h) ∨ ∃ q h1 k bs1 L1,
      alloc h (requestSize n) = some (q, h1) ∧
        Allocated a e h (pre ++ ⟨x, s, .live⟩ :: post) (requestSize n) q h1 k bs1 L1) :
    ((requestSize n ≤ s ∨ growsInto s (requestSize n) post) ∧ ∃ h' k bs' L',
      reallocBy alloc h x n = some (x, h') ∧
        Resized a e h (pre ++ ⟨x, s, .live⟩ :: post) (requestSize n) x s h' k bs' L') ∨
    (¬ (requestSize n ≤ s ∨ growsInto s (requestSize n) post) ∧
      alloc h (requestSize n) = some (0, h) ∧ reallocBy alloc h x n = none) ∨
    (¬ (requestSize n ≤ s ∨ growsInto s (requestSize n) post) ∧ ∃ q h1 k bs1 L1 h' bs' L',
      alloc h (requestSize n) = some (q, h1) ∧ reallocBy alloc h x n = some (q, h') ∧
        Relocated a e h (pre ++ ⟨x, s, .live⟩ :: post) (requestSize n) x s q h1 k bs1 L1 h' bs'
          L') := by
  have hpost : Settled post := fun b hb => hset b (by simp [hb])
  by_cases hin : requestSize n ≤ s ∨ growsInto s (requestSize n) post
  · exact .inl ⟨hin, reallocBy_inPlace alloc hl hpost hn hin⟩
  obtain ⟨hgt, hgrow⟩ := not_or.mp hin
  have hmove : reallocBy alloc h x n = _ := reallocBy_moves hl hpost hgt hgrow
  rcases ha with ha | ⟨q, h1, k, bs1, L1, ha, hall⟩
  · refine .inr (.inl ⟨hin, ha, ?_⟩)
    rw [hmove, ha]
    rfl
  · have hk := hall.takes.le_size
    -- the old block is still there when it is released
    have hmem : (⟨x, s, .live⟩ : Block) ∈ bs1 := (hall.takes.live_iff rfl).mpr (.inr (by simp))
    obtain ⟨pre1, post1, rfl⟩ := List.append_of_mem hmem
    obtain ⟨bs', L', hfree⟩ := mpoolFree_laid (hall.copied (x := x) (by omega : s ≤ k))
      (hall.takes.settled hset)
    refine .inr (.inr ⟨hin, q, h1, k, _, L1, _, bs', L', ha, ?_, ⟨by omega, hall, hfree⟩⟩)
    rw [hmove, ha, Option.bind_some, if_neg hall.nonnull]

end Paths

/-- **`mpool_alloc` inside a reallocation**, where the size is rounded already. -/
theorem mpoolAlloc_again (hl : Laid a e h bs L) (hcb : h.pool.cbReqmem = none)
    (hn : n ≤ 2 ^ 64 - 16) :
    mpoolAlloc h (requestSize n) = some (0, h) ∨ ∃ q h1 k bs1 L1,
      mpoolAlloc h (requestSize n) = some (q, h1) ∧
        Allocated a e h bs (requestSize n) q h1 k bs1 L1 := by
  obtain ⟨-, -, -, hmax⟩ := requestSize_spec hn
  rcases mpoolAlloc_laid hl hcb hmax with ⟨-, ha⟩ | ⟨q, h1, k, bs1, L1, ha, hall⟩
  · exact .inl ha
  · rw [requestSize_idem hn] at hall
    exact .inr ⟨q, h1, k, bs1, L1, ha, hall⟩

end IonOS.Alloc
