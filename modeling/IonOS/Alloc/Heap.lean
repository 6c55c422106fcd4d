import IonOS.Alloc.Atomic
import IonOS.Alloc.Contents
import IonOS.Alloc.Exhaust

/-!
# The kernel heap

`heap.cpp`: the C allocation functions, all over one pool and each inside one lock,
so that calls happen one after another.

Sizes are words, and a request can be too big for the arithmetic it goes through.
Rounding up wraps above `2 ^ 64 - 16` and leaves zero, which every block covers.
`calloc` looks at the product before it uses it and `reallocarray` does not. The
aligned search compares as `long`, so that above `2 ^ 63 - 16` the request is
negative and blocks that end before their first aligned address fit as well.
-/

namespace IonOS.Alloc

open IonOS.Lib IonOS.Libs

variable {a e size : Nat} {h g : Heap Mpool} {m : Mem} {bs : List Block} {L : Nat → List Nat}
  {s : PoolState} {n k p q x align : Nat}

/-! ## The functions -/

/-- `KERNEL_HEAP_START`. -/
def kernelHeapStart : Nat := 0xffffc00000000000

/-- `KERNEL_HEAP_SIZE`. -/
def kernelHeapSize : Nat := 8 * 1024 * 1024

/-- The pool's part of `init_heap`. -/
def initHeap (h : Heap Mpool) : Bool × Heap Mpool := mpoolInit h kernelHeapStart kernelHeapSize

def malloc (h : Heap Mpool) (size : Nat) : Option (Nat × Heap Mpool) := mpoolAlloc h size

def free (h : Heap Mpool) (ptr : Nat) : Heap Mpool := mpoolFree h ptr

def calloc (h : Heap Mpool) (n size : Nat) : Option (Nat × Heap Mpool) :=
  if 2 ^ 64 ≤ n * size then some (0, h)
  else do
    let (ptr, h) ← malloc h (n * size)
    if ptr = 0 then pure (0, h)
    -- clearing past the end of the address space faults
    else if 2 ^ 64 < ptr + n * size then none
    else pure (ptr, { h with mem := memset h.mem ptr 0 (n * size) })

def realloc (h : Heap Mpool) (ptr newsize : Nat) : Option (Nat × Heap Mpool) :=
  mpoolRealloc h ptr newsize

def reallocarray (h : Heap Mpool) (ptr n size : Nat) : Option (Nat × Heap Mpool) :=
  realloc h ptr (n * size % 2 ^ 64)

def alignedAlloc (h : Heap Mpool) (align size : Nat) : Option (Nat × Heap Mpool) :=
  mpoolAlignedAlloc h size align

def mallocUsableSize (h : Heap Mpool) (ptr : Nat) : Nat := mpoolMsize h ptr

/-- A call of one of the functions that give memory. -/
inductive Request where
  | malloc (n : Nat)
  | calloc (n m : Nat)
  | realloc (p n : Nat)
  | reallocarray (p n m : Nat)
  | alignedAlloc (align n : Nat)

namespace Request

def run (h : Heap Mpool) : Request → Option (Nat × Heap Mpool)
  | .malloc n => Alloc.malloc h n
  | .calloc n m => Alloc.calloc h n m
  | .realloc p n => Alloc.realloc h p n
  | .reallocarray p n m => Alloc.reallocarray h p n m
  | .alignedAlloc align n => Alloc.alignedAlloc h align n

/-- The bytes asked for, without overflow. -/
def bytes : Request → Nat
  | .malloc n => n
  | .calloc n m => n * m
  | .realloc _ n => n
  | .reallocarray _ n m => n * m
  | .alignedAlloc _ n => n

/-- Arguments are words, and what is resized is held. -/
def Legal (live : List Nat) : Request → Prop
  | .malloc n => n < 2 ^ 64
  | .calloc n m => n < 2 ^ 64 ∧ m < 2 ^ 64
  | .realloc p n => p ∈ live ∧ n < 2 ^ 64
  | .reallocarray p n m => p ∈ live ∧ n < 2 ^ 64 ∧ m < 2 ^ 64
  | .alignedAlloc align n => align < 2 ^ 64 ∧ n < 2 ^ 64

/-- The pointers held after the answer `q`. -/
def held (live : List Nat) (q : Nat) : Request → List Nat
  | .realloc p _ => q :: live.erase p
  | .reallocarray p _ _ => q :: live.erase p
  | _ => if q = 0 then live else q :: live

end Request

/-- **What is owed to a request**: null, or a block of the heap with the bytes asked for. -/
def Served (a size : Nat) (r : Option (Nat × Heap Mpool)) (bytes : Nat) : Prop :=
  ∃ q h, r = some (q, h) ∧ (q = 0 ∨
    bytes ≤ mallocUsableSize h q ∧ a ≤ q ∧ q + mallocUsableSize h q ≤ a + size)

theorem served_some (q : Nat) (h : Heap Mpool) : Served a size (some (q, h)) n ↔
    q = 0 ∨ n ≤ mpoolMsize h q ∧ a ≤ q ∧ q + mpoolMsize h q ≤ a + size := by
  constructor
  · rintro ⟨q', h', heq, hq⟩
    obtain ⟨rfl, rfl⟩ := Prod.mk.inj (Option.some.inj heq)
    exact hq
  · intro hq
    exact ⟨q, h, rfl, hq⟩

theorem not_served_none : ¬ Served a size none n := by
  rintro ⟨q, h, heq, -⟩
  exact absurd heq (by simp)

/-- More than there is can only be answered with null. -/
theorem served_big (hbig : size < n) (q : Nat) (h : Heap Mpool) :
    Served a size (some (q, h)) n ↔ q = 0 := by
  rw [served_some, or_iff_left]
  omega

/-- A block that is held lies in the heap. -/
theorem Inv.served (hi : Inv a (a + size) s) (hp : p ∈ s.live) (hn : n ≤ mpoolMsize s.heap p) :
    Served a size (some (p, s.heap)) n := by
  obtain ⟨bs, L, hs⟩ := hi.shows
  obtain ⟨b, hb, rfl, -⟩ := (hs.live_iff p).mp hp
  have hbd := hs.laid.bounds hb
  have hsize := hs.msize_eq hb
  exact (served_some _ _).mpr (.inr ⟨hn, by omega, by omega⟩)

/-! ## Plain allocation -/

/-- The block is on a list. -/
def Listed (h : Heap Mpool) (x : Nat) : Prop :=
  ∃ L : Nat → List Nat, (∀ i, (linksOf h.mem).IsList 0 (listHead h.pool i) (L i)) ∧
    ∃ i, x ∈ L i

/-- Every block on a list is smaller. -/
def NothingFits (h : Heap Mpool) (r : Nat) : Prop := ∀ x, Listed h x → blkSize h.mem x < r

/-- What makes `malloc` answer well: what is looked for is not less than what was asked for, or
there is not even that. -/
def Mallocs (h : Heap Mpool) (n : Nat) : Prop :=
  n ≤ 2 ^ 64 - 16 ∨ NothingFits h (requestSize n)

theorem Laid.listed_iff (hl : Laid a e h bs L) : Listed h x ↔ ∃ i, x ∈ L i := by
  constructor
  · intro hx
    obtain ⟨L', hL', hx⟩ := hx
    obtain rfl : L' = L := funext fun i => (hL' i).unique (hl.lists i)
    exact hx
  · intro hx
    exact ⟨L, hl.lists, hx⟩

/-- **The search finds nothing just if nothing fits**, whatever it looks for. -/
theorem pick_none_iff (hl : Laid a e h bs L) (r : Nat) :
    pick (sizeFits r h.mem) L r = none ↔ NothingFits h r := by
  have hfit : ∀ b ∈ bs, sizeFits r h.mem b.ptr = true ↔ r ≤ b.size := by
    intro b hb
    rw [sizeFits, decide_eq_true_iff, hl.blkSize_eq hb]
  rw [pick_eq_none_iff hl fun b hb _ hf => (hfit b hb).mp hf]
  constructor
  · intro hno x hx
    obtain ⟨i, hx⟩ := hl.listed_iff.mp hx
    obtain ⟨b, hb, rfl, hst, -⟩ := hl.node hx
    have hlt := hno b hb hst
    rw [hfit b hb] at hlt
    rw [hl.blkSize_eq hb]
    omega
  · intro hno b hb hst
    have hlt := hno b.ptr (hl.listed_iff.mpr ⟨_, (hl.listed _ _).mpr ⟨b, hb, rfl, hst, rfl⟩⟩)
    rw [hl.blkSize_eq hb] at hlt
    rw [hfit b hb]
    omega

/-- **`mpool_alloc` answers with null just if nothing fits**, and then nothing has happened. -/
theorem mpoolAlloc_null_iff (hi : Inv a e s) (n : Nat) :
    ∃ q h, mpoolAlloc s.heap n = some (q, h) ∧ (q = 0 ↔ NothingFits s.heap (requestSize n)) ∧
      (q = 0 → h = s.heap) := by
  obtain ⟨bs, L, hs⟩ := hi.shows
  have heq := mpoolAlloc_eq hs.laid hi.quiet n
  have hpick := pick_none_iff hs.laid (requestSize n)
  cases hp : pick (sizeFits (requestSize n) s.heap.mem) L (requestSize n) with
  | none =>
      rw [hp] at heq hpick
      exact ⟨0, s.heap, heq, iff_of_true rfl (hpick.mp rfl), fun _ => rfl⟩
  | some x =>
      rw [hp] at heq hpick
      obtain ⟨i, -, hx, -⟩ := pick_mem hp
      have hx0 : x ≠ 0 := fun he => (hs.laid.lists i).nonnull (he ▸ hx)
      have hno : ¬ NothingFits s.heap (requestSize n) := by
        intro hno
        exact absurd (hpick.mpr hno) (by simp)
      exact ⟨x, _, heq, iff_of_false hx0 hno, fun he => absurd he hx0⟩

/-- Allocation that answers well keeps the invariant and gives enough. -/
theorem inv_malloc (hi : Inv a e s) (hm : Mallocs s.heap n) :
    ∃ q h, malloc s.heap n = some (q, h) ∧ (q ≠ 0 → n ≤ mpoolMsize h q) ∧
      Inv a e ⟨h, if q = 0 then s.live else q :: s.live⟩ := by
  by_cases hn : n ≤ 2 ^ 64 - 16
  · obtain ⟨q, h, hr⟩ := alloc_returns hi hn
    obtain ⟨-, -, hreq, -⟩ := requestSize_spec hn
    exact ⟨q, h, hr, fun hq => hreq.trans (alloc_msize hi hn hr hq), inv_alloc hi hn hr⟩
  · obtain ⟨q, h, hr, hnull, hsame⟩ := mpoolAlloc_null_iff hi n
    obtain rfl := hnull.mpr (hm.resolve_left hn)
    obtain rfl := hsame rfl
    exact ⟨0, s.heap, hr, fun hq => absurd rfl hq, hi⟩

/-- An answer that keeps the invariant and has room is a good one. -/
theorem Inv.answer {live : List Nat} (hi : Inv a (a + size) ⟨h, if q = 0 then live else q :: live⟩)
    (hroom : q ≠ 0 → n ≤ mpoolMsize h q) : Served a size (some (q, h)) n := by
  by_cases hq : q = 0
  · exact (served_some q h).mpr (.inl hq)
  · rw [if_neg hq] at hi
    exact hi.served (List.mem_cons_self) (hroom hq)

/-- **`malloc`** answers well just if the size does not wrap or there is nothing to give. -/
theorem malloc_served_iff (hi : Inv a (a + size) s) (hsize : size ≤ 2 ^ 64 - 16) :
    Served a size (malloc s.heap n) n ↔ Mallocs s.heap n := by
  constructor
  · intro hserved
    by_contra hm
    obtain ⟨hn, hno⟩ := not_or.mp hm
    obtain ⟨q, h, hr, hnull, -⟩ := mpoolAlloc_null_iff hi n
    rw [malloc, hr, served_big (by omega)] at hserved
    exact hno (hnull.mp hserved)
  · intro hm
    obtain ⟨q, h, hr, hroom, hi'⟩ := inv_malloc hi hm
    rw [hr]
    exact hi'.answer hroom

/-! ## Cleared allocation -/

/-- Clearing what was asked for stays in the block. -/
theorem inv_clear {live : List Nat} (hi : Inv a e ⟨h, live⟩) (hq : q ∈ live)
    (hn : n ≤ mpoolMsize h q) : q + n ≤ 2 ^ 64 ∧
      mpoolMsize { h with mem := memset h.mem q 0 n } q = mpoolMsize h q ∧
      Inv a e ⟨{ h with mem := memset h.mem q 0 n }, live⟩ := by
  have hother : ∀ w, (∀ p ∈ live, w < p ∨ p + mpoolMsize h p ≤ w) →
      memset h.mem q 0 n w = h.mem w := by
    intro w hw
    have := hw q hq
    exact memset_other (by omega)
  obtain ⟨bs, L, hs⟩ := hi.shows
  have hs' := hs.stored hother
  obtain ⟨b, hb, rfl, -⟩ := (hs.live_iff q).mp hq
  have hbd := hs.laid.bounds hb
  have hfit := hs.laid.area.fits
  have hsize := hs.msize_eq hb
  have hsize' := hs'.msize_eq hb
  dsimp only at hsize hsize' hfit
  exact ⟨by omega, hsize'.trans hsize.symm, inv_store hi hother⟩

theorem inv_calloc (hi : Inv a e s) (hm : 2 ^ 64 ≤ n * k ∨ Mallocs s.heap (n * k)) :
    ∃ q h, calloc s.heap n k = some (q, h) ∧ (q ≠ 0 → n * k ≤ mpoolMsize h q) ∧
      Inv a e ⟨h, if q = 0 then s.live else q :: s.live⟩ := by
  by_cases hover : 2 ^ 64 ≤ n * k
  · exact ⟨0, s.heap, if_pos hover, fun hq => absurd rfl hq, hi⟩
  · obtain ⟨q, h, hr, hroom, hi'⟩ := inv_malloc hi (hm.resolve_left hover)
    have heq : calloc s.heap n k = if q = 0 then some (0, h)
        else if 2 ^ 64 < q + n * k then none
        else some (q, { h with mem := memset h.mem q 0 (n * k) }) := by
      rw [calloc, if_neg hover, hr]
      rfl
    rw [heq]
    by_cases hq : q = 0
    · subst hq
      exact ⟨0, h, if_pos rfl, hroom, hi'⟩
    · rw [if_neg hq] at hi'
      obtain ⟨hend, hsame, hi''⟩ := inv_clear hi' (List.mem_cons_self) (hroom hq)
      rw [if_neg hq, if_neg (by omega)]
      refine ⟨q, _, rfl, fun _ => ?_, ?_⟩
      · rw [hsame]
        exact hroom hq
      · rw [if_neg hq]
        exact hi''

/-- **`calloc`** checks its product, and is as good as `malloc` below that. -/
theorem calloc_served_iff (hi : Inv a (a + size) s) (hsize : size ≤ 2 ^ 64 - 16) :
    Served a size (calloc s.heap n k) (n * k) ↔ 2 ^ 64 ≤ n * k ∨ Mallocs s.heap (n * k) := by
  constructor
  · intro hserved
    by_contra hm
    obtain ⟨hover, hm⟩ := not_or.mp hm
    obtain ⟨hn, hno⟩ := not_or.mp hm
    obtain ⟨q, h, hr, hnull, -⟩ := mpoolAlloc_null_iff hi (n * k)
    have hq : q ≠ 0 := fun hq => hno (hnull.mp hq)
    rw [calloc, if_neg hover, malloc, hr, Option.bind_eq_bind, Option.bind_some] at hserved
    dsimp only at hserved
    rw [if_neg hq] at hserved
    split at hserved
    · exact not_served_none hserved
    · exact hq ((served_big (by omega) _ _).mp hserved)
  · intro hm
    obtain ⟨q, h, hr, hroom, hi'⟩ := inv_calloc hi hm
    rw [hr]
    exact hi'.answer hroom

/-! ## Resizing -/

/-- What makes `realloc` answer well: the size does not wrap, and the block can stay or has
somewhere to go. -/
def Reallocs (h : Heap Mpool) (p n : Nat) : Prop :=
  n ≤ 2 ^ 64 - 16 ∧ (Stays h.mem p n ∨ ¬ NothingFits h (requestSize n))

theorem stays_iff {pre post : List Block}
    (hs : Shows a e s (pre ++ ⟨p, k, .live⟩ :: post) L) :
    Stays s.heap.mem p n ↔ requestSize n ≤ k ∨ growsInto k (requestSize n) post := by
  have hset : Settled post := fun b hb => hs.settled b (by simp [hb])
  have hsize : blkSize s.heap.mem p = k := hs.laid.blkSize_eq (b := ⟨p, k, .live⟩) (by simp)
  rw [Stays, RoomBehind, NextFree, hsize, ← growsInto_iff hs.laid hset, and_assoc]

/-- What cannot wrap returns just if it can stay or move. -/
theorem realloc_some_iff (hi : Inv a e s) (hp : p ∈ s.live) (hn : n ≤ 2 ^ 64 - 16) :
    (∃ q h, realloc s.heap p n = some (q, h)) ↔
      Stays s.heap.mem p n ∨ ¬ NothingFits s.heap (requestSize n) := by
  obtain ⟨bs, L, hs⟩ := hi.shows
  obtain ⟨pre, k, post, rfl⟩ := hs.block hp
  have hnull := mpoolAlloc_null_iff hi (requestSize n)
  rw [requestSize_idem hn] at hnull
  obtain ⟨y, g, ha, hy, -⟩ := hnull
  rw [realloc, mpoolRealloc_eq (hi.nonnull hp), stays_iff hs, ← hy]
  rcases reallocBy_cases hs.laid hs.settled hn (mpoolAlloc_again hs.laid hi.quiet hn) with
    ⟨hin, h', _, _, _, hr, -⟩ | ⟨hin, ha', hr⟩ | ⟨hin, q, h1, _, _, _, h', _, _, ha', hr, hrel⟩
  · exact iff_of_true ⟨p, h', hr⟩ (.inl hin)
  · obtain ⟨rfl, -⟩ := Prod.mk.inj (Option.some.inj (ha'.symm.trans ha))
    refine iff_of_false ?_ (by simpa using hin)
    rintro ⟨q, h, hr'⟩
    exact absurd (hr.symm.trans hr') (by simp)
  · obtain ⟨rfl, -⟩ := Prod.mk.inj (Option.some.inj (ha'.symm.trans ha))
    exact iff_of_true ⟨q, h', hr⟩ (.inr hrel.allocated.nonnull)

/-- A reallocation that returns never gives null. -/
theorem realloc_nonnull (hi : Inv a e s) (hp : p ∈ s.live) (hlt : n < 2 ^ 64)
    (hr : realloc s.heap p n = some (q, h)) : q ≠ 0 := by
  by_cases hn : n ≤ 2 ^ 64 - 16
  · exact (inv_realloc hi hp hn hr).nonnull (List.mem_cons_self)
  · -- what is looked for is zero, and every block has that
    have hfits : reallocBy mpoolAlloc s.heap p n = _ := reallocBy_fits rfl
      (by rw [requestSize_wrap (by omega) hlt]; exact Nat.zero_le _)
    rw [realloc, mpoolRealloc_eq (hi.nonnull hp), hfits] at hr
    rw [← (Prod.mk.inj (Option.some.inj hr)).1]
    exact hi.nonnull hp

/-- **`realloc`** answers well just if the size does not wrap and there is a place. -/
theorem realloc_served_iff (hi : Inv a (a + size) s) (hsize : size ≤ 2 ^ 64 - 16)
    (hp : p ∈ s.live) (hlt : n < 2 ^ 64) :
    Served a size (realloc s.heap p n) n ↔ Reallocs s.heap p n := by
  constructor
  · intro hserved
    obtain ⟨q, h, hr, hq⟩ := id hserved
    have hq0 := realloc_nonnull hi hp hlt hr
    have hn : n ≤ 2 ^ 64 - 16 := by
      by_contra hn
      rw [hr] at hserved
      exact hq0 ((served_big (by omega) q h).mp hserved)
    exact ⟨hn, (realloc_some_iff hi hp hn).mp ⟨q, h, hr⟩⟩
  · intro hm
    obtain ⟨hn, hplace⟩ := hm
    obtain ⟨q, h, hr⟩ := (realloc_some_iff hi hp hn).mpr hplace
    rw [hr]
    exact (inv_realloc hi hp hn hr).served (List.mem_cons_self)
      (preserved_realloc hi hp hn hr).room

/-- **`reallocarray`** does not check its product, so that is what must not wrap. -/
theorem reallocarray_served_iff (hi : Inv a (a + size) s) (hsize : size ≤ 2 ^ 64 - 16)
    (hp : p ∈ s.live) :
    Served a size (reallocarray s.heap p n k) (n * k) ↔ Reallocs s.heap p (n * k) := by
  have hlt : n * k % 2 ^ 64 < 2 ^ 64 := Nat.mod_lt _ (by decide)
  by_cases hover : n * k < 2 ^ 64
  · rw [reallocarray, Nat.mod_eq_of_lt hover]
    exact realloc_served_iff hi hsize hp hover
  · refine iff_of_false ?_ fun hm => hover (by have := hm.1; omega)
    intro hserved
    obtain ⟨q, h, hr, hq⟩ := id hserved
    rw [hr] at hserved
    exact realloc_nonnull hi hp hlt hr ((served_big (by omega) q h).mp hserved)

/-! ## Aligned allocation -/

/-- The aligned search takes this block. -/
def Settles (h : Heap Mpool) (n align x : Nat) : Prop :=
  ∃ L : Nat → List Nat, (∀ i, (linksOf h.mem).IsList 0 (listHead h.pool i) (L i)) ∧
    pick (alignedFits (requestSize n) align h.mem) L (requestSize n) = some x

/-- What makes the aligned search answer well. A gap of 16 gives an empty block, which is enough
for no bytes; and what is negative as a `long` fits only by mistake, unless it is put at the end
of the address space, which is null. -/
def AlignedAnswers (h : Heap Mpool) (n align : Nat) : Prop :=
  if n ≤ 2 ^ 63 - 16 then n = 0 ∨ GapOk h n align
  else ∀ x, Settles h n align x → paddingUp x align = 0

/-- What makes it answer well and do no harm. -/
def AlignedClean (h : Heap Mpool) (n align : Nat) : Prop :=
  if n ≤ 2 ^ 63 - 16 then GapOk h n align else ∀ x, ¬ Settles h n align x

theorem AlignedClean.answers (hc : AlignedClean h n align) : AlignedAnswers h n align := by
  unfold AlignedClean at hc
  unfold AlignedAnswers
  by_cases hn : n ≤ 2 ^ 63 - 16
  · rw [if_pos hn] at hc ⊢
    exact .inr hc
  · rw [if_neg hn] at hc ⊢
    exact fun x hx => absurd hx (hc x)

theorem Laid.settles_iff (hl : Laid a e h bs L) : Settles h n align x ↔
    pick (alignedFits (requestSize n) align h.mem) L (requestSize n) = some x := by
  constructor
  · intro hx
    obtain ⟨L', hL', hx⟩ := hx
    obtain rfl : L' = L := funext fun i => (hL' i).unique (hl.lists i)
    exact hx
  · intro hx
    exact ⟨L, hl.lists, hx⟩

/-- Cutting off the part in front goes that far up, around the end of the address space. -/
theorem cutLead_ptr (h : Heap Mpool) {ptr : Nat} (hlt : ptr < 2 ^ 64) (offset : Nat) :
    (cutLead h ptr offset).1 = addW ptr offset := by
  unfold cutLead
  split
  · show addW ptr (addW (subW offset 16) 16) = addW ptr offset
    unfold addW subW
    omega
  · unfold addW
    omega

theorem placeAligned_ptr (h : Heap Mpool) (ptr r offset : Nat) :
    (placeAligned h ptr r offset).1 = (cutLead h ptr offset).1 := by
  rw [placeAligned_eq]

theorem paddingUp_lt (x align : Nat) : paddingUp x align < 2 ^ 64 :=
  Nat.lt_of_le_of_lt (Nat.div_mul_le_self _ _) (subW_lt _ _)

/-- The aligned search answers with the first aligned address of the block it takes. -/
theorem mpoolAlignedAlloc_ptr (hi : Inv a e s) (ha : AlignPow align) (n : Nat) :
    (∃ x h, Settles s.heap n align x ∧
      mpoolAlignedAlloc s.heap n align = some (paddingUp x align, h)) ∨
    (∀ x, ¬ Settles s.heap n align x) ∧ mpoolAlignedAlloc s.heap n align = some (0, s.heap) := by
  obtain ⟨bs, L, hs⟩ := hi.shows
  have heq := mpoolAlignedAlloc_eq (n := n) hs.laid hi.quiet ha
  have hsettles : ∀ x, Settles s.heap n align x ↔ _ := fun x => hs.laid.settles_iff
  cases hp : pick (alignedFits (requestSize n) align s.heap.mem) L (requestSize n) with
  | none =>
      rw [hp] at heq hsettles
      exact .inr ⟨fun x hx => absurd ((hsettles x).mp hx) (by simp), heq⟩
  | some x =>
      rw [hp] at heq hsettles
      obtain ⟨i, -, hx, -⟩ := pick_mem hp
      obtain ⟨b, hb, rfl, -⟩ := hs.laid.node hx
      have hbd := hs.laid.bounds hb
      have hfit := hs.laid.area.fits
      have hup := paddingUp_lt b.ptr align
      have hptr : (placeAligned (detach s.heap b.ptr) b.ptr (requestSize n)
          (subW (paddingUp b.ptr align) b.ptr)).1 = paddingUp b.ptr align := by
        rw [placeAligned_ptr, cutLead_ptr _ (by omega)]
        unfold addW subW
        omega
      dsimp only at heq
      generalize placeAligned (detach s.heap b.ptr) b.ptr (requestSize n)
        (subW (paddingUp b.ptr align) b.ptr) = r at heq hptr
      obtain ⟨q, g⟩ := r
      obtain rfl : q = paddingUp b.ptr align := hptr
      exact .inl ⟨b.ptr, g, (hsettles b.ptr).mpr rfl, heq⟩

/-- A harmless aligned allocation keeps the invariant and gives enough. -/
theorem inv_alignedClean (hi : Inv a e s) (ha : AlignPow align)
    (hc : AlignedClean s.heap n align) :
    ∃ q h, mpoolAlignedAlloc s.heap n align = some (q, h) ∧ (q ≠ 0 → n ≤ mpoolMsize h q) ∧
      Inv a e ⟨h, if q = 0 then s.live else q :: s.live⟩ := by
  unfold AlignedClean at hc
  split at hc
  · rename_i hn
    obtain ⟨q, h, hr, hroom, hi'⟩ := inv_aligned hi hn ha hc
    exact ⟨q, h, hr, fun hq => (hroom hq).2, hi'⟩
  · obtain ⟨x, h, hx, -⟩ | ⟨-, hr⟩ := mpoolAlignedAlloc_ptr hi ha n
    · exact absurd hx (hc x)
    · exact ⟨0, s.heap, hr, fun hq => absurd rfl hq, hi⟩

/-- **The aligned search** answers well in these cases and no others. -/
theorem alignedSearch_served_iff (hi : Inv a (a + size) s) (hsize : size ≤ 2 ^ 63 - 16)
    (ha : AlignPow align) :
    Served a size (mpoolAlignedAlloc s.heap n align) n ↔ AlignedAnswers s.heap n align := by
  unfold AlignedAnswers
  by_cases hn : n ≤ 2 ^ 63 - 16
  · rw [if_pos hn]
    by_cases hgap : GapOk s.heap n align
    · obtain ⟨q, h, hr, hroom, hi'⟩ := inv_aligned hi hn ha hgap
      rw [hr]
      exact iff_of_true (hi'.answer fun hq => (hroom hq).2) (.inr hgap)
    · obtain ⟨bs, L, hs⟩ := hi.shows
      obtain ⟨q, h, hr, hq, hzero, hlow, hhigh⟩ :=
        mpoolAlignedAlloc_zero hs.laid hi.quiet hn ha hgap
      rw [hr, served_some, mpoolMsize, if_neg hq, hzero, or_iff_right hq, or_iff_left hgap]
      omega
  · rw [if_neg hn]
    obtain ⟨x, h, hx, hr⟩ | ⟨hno, hr⟩ := mpoolAlignedAlloc_ptr hi ha n
    · rw [hr, served_big (by omega)]
      constructor
      · intro hzero y hy
        -- the search takes one block only
        obtain ⟨bs, L, hs⟩ := hi.shows
        have hxy := (hs.laid.settles_iff.mp hx).symm.trans (hs.laid.settles_iff.mp hy)
        rwa [← Option.some.inj hxy]
      · intro hall
        exact hall x hx
    · rw [hr]
      exact iff_of_true ((served_some _ _).mpr (.inl rfl)) fun x hx => absurd hx (hno x)

/-! ## All requests -/

namespace Request

/-- The condition on a request, but for the one on the aligned search. -/
def Meets (aligned : Heap Mpool → Nat → Nat → Prop) (h : Heap Mpool) : Request → Prop
  | .malloc n => Mallocs h n
  | .calloc n m => 2 ^ 64 ≤ n * m ∨ Mallocs h (n * m)
  | .realloc p n => Reallocs h p n
  | .reallocarray p n m => Reallocs h p (n * m)
  | .alignedAlloc align n =>
      Refused align ∨ ¬ Refused align ∧ if align < 16 then Mallocs h n else aligned h n align

/-- **When a request is answered well.** -/
def Answers (h : Heap Mpool) (c : Request) : Prop := c.Meets AlignedAnswers h

/-- When it does no harm either. -/
def Clean (h : Heap Mpool) (c : Request) : Prop := c.Meets AlignedClean h

theorem Clean.answers {c : Request} (hc : c.Clean h) : c.Answers h := by
  cases c with
  | alignedAlloc align n =>
      obtain href | ⟨href, hc⟩ := hc
      · exact .inl href
      · refine .inr ⟨href, ?_⟩
        split
        · rename_i hbig
          rwa [if_pos hbig] at hc
        · rename_i hbig
          rw [if_neg hbig] at hc
          exact hc.answers
  | _ => exact hc

end Request

/-- An alignment that is turned down. -/
theorem mpoolAlignedAlloc_refused (href : Refused align) :
    mpoolAlignedAlloc h n align = some (0, h) := by
  rw [mpoolAlignedAlloc, if_pos (show align &&& subW align 1 ≠ 0 from href)]

/-- A small alignment asks for nothing more than the plain allocation. -/
theorem mpoolAlignedAlloc_small (href : ¬ Refused align) (hbig : align < 16) :
    mpoolAlignedAlloc h n align = mpoolAlloc h n := by
  rw [mpoolAlignedAlloc, if_neg (show ¬ (align &&& subW align 1 ≠ 0) from href), if_pos hbig]

/-- **Every request** is answered well in these cases and no others. -/
theorem served_iff (hi : Inv a (a + size) s) (hsize : size ≤ 2 ^ 63 - 16) {c : Request}
    (hc : c.Legal s.live) : Served a size (c.run s.heap) c.bytes ↔ c.Answers s.heap := by
  cases c with
  | malloc n => exact malloc_served_iff hi (by omega)
  | calloc n m => exact calloc_served_iff hi (by omega)
  | realloc p n => exact realloc_served_iff hi (by omega) hc.1 hc.2
  | reallocarray p n m => exact reallocarray_served_iff hi (by omega) hc.1
  | alignedAlloc align n =>
      show Served a size (mpoolAlignedAlloc s.heap n align) n ↔
        Refused align ∨ ¬ Refused align ∧
          if align < 16 then Mallocs s.heap n else AlignedAnswers s.heap n align
      by_cases href : Refused align
      · rw [mpoolAlignedAlloc_refused href]
        exact iff_of_true ((served_some _ _).mpr (.inl rfl)) (.inl href)
      rw [or_iff_right href, and_iff_right href]
      by_cases hbig : align < 16
      · rw [if_pos hbig, mpoolAlignedAlloc_small href hbig]
        exact malloc_served_iff hi (by omega)
      · rw [if_neg hbig]
        have hpow := AlignPow.of_test (not_not.mp href) (by omega) hc.1
        exact alignedSearch_served_iff hi hsize hpow

/-! ## Runs of the kernel heap -/

/-- What the kernel does with its heap: requests that do no harm, releases, and stores into what
it holds. -/
inductive HeapStep : PoolState → PoolState → Prop where
  | request {s : PoolState} {c : Request} {q : Nat} {h : Heap Mpool} (hc : c.Legal s.live)
      (hclean : c.Clean s.heap) (hr : c.run s.heap = some (q, h)) :
      HeapStep s ⟨h, c.held s.live q⟩
  | free {s : PoolState} {p : Nat} (hp : p ∈ s.live) :
      HeapStep s ⟨free s.heap p, s.live.erase p⟩
  | store {s : PoolState} {m : Mem}
      (hm : ∀ w, (∀ p ∈ s.live, w < p ∨ p + mallocUsableSize s.heap p ≤ w) →
        m w = s.heap.mem w) :
      HeapStep s ⟨{ s.heap with mem := m }, s.live⟩

/-- A harmless request keeps the invariant. -/
theorem inv_request (hi : Inv a e s) {c : Request} (hc : c.Legal s.live)
    (hclean : c.Clean s.heap) (hr : c.run s.heap = some (q, h)) :
    Inv a e ⟨h, c.held s.live q⟩ := by
  cases c with
  | malloc n =>
      obtain ⟨q', h', hr', -, hi'⟩ := inv_malloc hi hclean
      obtain ⟨rfl, rfl⟩ := Prod.mk.inj (Option.some.inj (hr'.symm.trans hr))
      exact hi'
  | calloc n m =>
      obtain ⟨q', h', hr', -, hi'⟩ := inv_calloc hi hclean
      obtain ⟨rfl, rfl⟩ := Prod.mk.inj (Option.some.inj (hr'.symm.trans hr))
      exact hi'
  | realloc p n => exact inv_realloc hi hc.1 hclean.1 hr
  | reallocarray p n m =>
      have hlt : n * m < 2 ^ 64 := by
        have := hclean.1
        omega
      have hr' : realloc s.heap p (n * m % 2 ^ 64) = some (q, h) := hr
      rw [Nat.mod_eq_of_lt hlt] at hr'
      exact inv_realloc hi hc.1 hclean.1 hr'
  | alignedAlloc align n =>
      have hr' : mpoolAlignedAlloc s.heap n align = some (q, h) := hr
      by_cases href : Refused align
      · rw [mpoolAlignedAlloc_refused href] at hr'
        obtain ⟨rfl, rfl⟩ := Prod.mk.inj (Option.some.inj hr')
        exact hi
      obtain ⟨-, hm⟩ := hclean.resolve_left href
      by_cases hbig : align < 16
      · rw [if_pos hbig] at hm
        rw [mpoolAlignedAlloc_small href hbig] at hr'
        obtain ⟨q', h', hr'', -, hi'⟩ := inv_malloc hi hm
        obtain ⟨rfl, rfl⟩ := Prod.mk.inj (Option.some.inj (hr''.symm.trans hr'))
        exact hi'
      · rw [if_neg hbig] at hm
        have hpow := AlignPow.of_test (not_not.mp href) (by omega) hc.1
        obtain ⟨q', h', hr'', -, hi'⟩ := inv_alignedClean hi hpow hm
        obtain ⟨rfl, rfl⟩ := Prod.mk.inj (Option.some.inj (hr''.symm.trans hr'))
        exact hi'

theorem inv_heapStep {t : PoolState} (hi : Inv a e s) (hst : HeapStep s t) : Inv a e t := by
  cases hst with
  | request hc hclean hr => exact inv_request hi hc hclean hr
  | free hp => exact inv_free hi hp
  | store hm => exact inv_store hi hm

theorem inv_heapReachable {pool : Nat} (hplace : PoolPlace pool a size)
    (hrun : Reachable (PoolStart a size) HeapStep s) : Inv a (a + size) s :=
  hrun.invariant (fun _ hs => inv_reachable hplace (.init hs)) fun _ _ hi hst =>
    inv_heapStep hi hst

/--
**Requests near the 64-bit limit.**

In every state that a run of harmless requests, releases and stores leads to, a
request is answered with null or with enough memory if and only if `Answers`
holds of it, and so every harmless one is. The area is one object of the language
and so less than `2 ^ 63` bytes.
-/
theorem requests_iff {pool : Nat} (hplace : PoolPlace pool a size) (hsmall : size < 2 ^ 63)
    (hrun : Reachable (PoolStart a size) HeapStep s) (c : Request) (hc : c.Legal s.live) :
    (Served a size (c.run s.heap) c.bytes ↔ c.Answers s.heap) ∧
      (c.Clean s.heap → Served a size (c.run s.heap) c.bytes) := by
  have hi := inv_heapReachable hplace hrun
  have halign := hplace.sizeAlign
  have hiff := served_iff hi (by omega : size ≤ 2 ^ 63 - 16) hc
  exact ⟨hiff, fun hclean => hiff.mpr hclean.answers⟩

theorem kernelHeap_place : PoolPlace 4096 kernelHeapStart kernelHeapSize := by
  constructor <;> decide

/-- The kernel heap before its first request. -/
theorem kernelHeap_reachable :
    Reachable (PoolStart kernelHeapStart kernelHeapSize) HeapStep ⟨(initHeap emptyHeap).2, []⟩ := by
  have hinit : (initHeap emptyHeap).1 = true := by decide +kernel
  exact .init ⟨⟨emptyHeap, Prod.ext hinit rfl⟩, rfl⟩

/-- The kernel heap answers its first request well, for 100 bytes. -/
theorem requests_iff_first :
    Served kernelHeapStart kernelHeapSize ((Request.malloc 100).run (initHeap emptyHeap).2) 100 :=
  (requests_iff kernelHeap_place (by decide) kernelHeap_reachable (.malloc 100)
    (show 100 < 2 ^ 64 by decide)).2 (.inl (by decide))

/-- **All of the address space but one byte**: the first request of the kernel heap, for
`2 ^ 64 - 1` bytes, gives a block of no bytes at all. -/
theorem request_wraps :
    Reachable (PoolStart kernelHeapStart kernelHeapSize) HeapStep ⟨(initHeap emptyHeap).2, []⟩ ∧
      (malloc (initHeap emptyHeap).2 (2 ^ 64 - 1)).map (fun r => (r.1, mallocUsableSize r.2 r.1)) =
        some (kernelHeapStart + 16, 0) ∧
      ¬ Served kernelHeapStart kernelHeapSize
        ((Request.malloc (2 ^ 64 - 1)).run (initHeap emptyHeap).2) (2 ^ 64 - 1) := by
  have hrun : (malloc (initHeap emptyHeap).2 (2 ^ 64 - 1)).map
      (fun r => (r.1, mallocUsableSize r.2 r.1)) = some (kernelHeapStart + 16, 0) := by
    decide +kernel
  refine ⟨kernelHeap_reachable, hrun, ?_⟩
  rintro ⟨q, h, hr, hq⟩
  obtain ⟨⟨p, g⟩, hr', heq⟩ := Option.map_eq_some_iff.mp hrun
  obtain ⟨rfl, rfl⟩ := Prod.mk.inj (Option.some.inj (hr.symm.trans hr'))
  obtain ⟨h1, h2⟩ := Prod.mk.inj heq
  dsimp only at h1 h2
  rcases hq with rfl | ⟨hroom, -⟩
  · exact absurd h1 (by decide)
  · omega

end IonOS.Alloc
