import IonOS.Lib.Chain
import IonOS.Lib.Memory
import IonOS.Lib.Runs
import IonOS.Lib.Word

/-!
# Pools of elements of one size

`sized-pool.cpp`. The first word of a free element is the address of the next free
one, and nothing else tells the free elements from those that are held. Whoever
holds an element may write into it, that word included, so the list must not lead
through it.

The elements on the list and the elements held are together all the elements, each
of them once. Every call keeps that, because it moves one element from one side to
the other.
-/

namespace IonOS.Alloc

open IonOS.Lib

/-! ## The code -/

/-- `struct sized_mpool`. -/
structure SizedMpool where
  ptr : Nat
  size : Nat
  bsize : Nat
  len : Nat
  nalloced : Nat
  freelist : Nat

/-- Memory and a pool. The structure is kept by the caller, outside of the elements. -/
structure SizedHeap where
  mem : Mem
  pool : SizedMpool

/-- The loop of `sized_mpool_init` from `i` on, with `n` turns to go. -/
def sizedMpoolLink (m : Mem) (ptr bsize : Nat) : Nat → Nat → Mem
  | 0, _ => m
  | n + 1, i =>
      sizedMpoolLink (m.write64 (addW ptr (mulW (subW i 1) bsize)) (addW ptr (mulW i bsize)))
        ptr bsize n (i + 1)

def sizedMpoolInit (m : Mem) (ptr bsize len : Nat) : SizedHeap :=
  let pool : SizedMpool :=
    { ptr := ptr, size := mulW bsize len, bsize := bsize, len := len, nalloced := 0,
      freelist := ptr }
  let m := sizedMpoolLink m ptr bsize (len - 1) 1
  ⟨m.write64 (addW ptr (mulW (subW len 1) bsize)) 0, pool⟩

def sizedMpoolAlloc (h : SizedHeap) : Nat × SizedHeap :=
  if h.pool.freelist = 0 then (0, h)
  else
    let ptr := h.pool.freelist
    (ptr, { h with pool := { h.pool with freelist := h.mem.read64 ptr } })

def sizedMpoolFree (h : SizedHeap) (ptr : Nat) : SizedHeap :=
  if ptr = 0 then h
  else ⟨h.mem.write64 ptr h.pool.freelist, { h.pool with freelist := ptr }⟩

def sizedMpoolInpool (pool : SizedMpool) (ptr : Nat) : Bool :=
  if ptr = 0 then false
  else if ptr < pool.ptr ∨ addW pool.ptr pool.size ≤ ptr then false
  else true

/-! ## Elements -/

/-- The element with this index. -/
def element (ptr bsize i : Nat) : Nat := ptr + i * bsize

/-- All of them. -/
def elements (ptr bsize len : Nat) : List Nat := (List.range len).map (element ptr bsize)

/-- Where a pool may be. -/
structure SizedPlace (ptr bsize len : Nat) : Prop where
  nonnull : ptr ≠ 0
  word : 8 ≤ bsize
  some : 1 ≤ len
  fits : ptr + bsize * len < 2 ^ 64

variable {ptr bsize len i j n x y : Nat} {m m' : Mem} {l : List Nat}

theorem mem_elements : x ∈ elements ptr bsize len ↔ ∃ i < len, x = ptr + i * bsize := by
  simp only [elements, List.mem_map, List.mem_range, element, eq_comm]

/-- An element ends where the next one starts, or before any later one. -/
theorem element_before (h : i < j) : element ptr bsize i + bsize ≤ element ptr bsize j := by
  have hmul : (i + 1) * bsize ≤ j * bsize := Nat.mul_le_mul_right bsize h
  rw [Nat.succ_mul] at hmul
  unfold element
  omega

theorem element_lt (ptr bsize : Nat) (hi : i < len) :
    element ptr bsize i + bsize ≤ ptr + bsize * len := by
  have hend : element ptr bsize len = ptr + bsize * len := by rw [element, Nat.mul_comm]
  rw [← hend]
  exact element_before hi

theorem elements_bounds (hx : x ∈ elements ptr bsize len) :
    ptr ≤ x ∧ x + bsize ≤ ptr + bsize * len := by
  obtain ⟨i, hi, rfl⟩ := mem_elements.mp hx
  exact ⟨Nat.le_add_right _ _, element_lt _ _ hi⟩

/-- Two elements are the same or apart. -/
theorem elements_apart (hx : x ∈ elements ptr bsize len) (hy : y ∈ elements ptr bsize len) :
    x = y ∨ x + bsize ≤ y ∨ y + bsize ≤ x := by
  obtain ⟨i, -, rfl⟩ := mem_elements.mp hx
  obtain ⟨j, -, rfl⟩ := mem_elements.mp hy
  rcases Nat.lt_trichotomy i j with h | rfl | h
  · exact .inr (.inl (element_before h))
  · exact .inl rfl
  · exact .inr (.inr (element_before h))

namespace SizedPlace

theorem nodup (hp : SizedPlace ptr bsize len) : (elements ptr bsize len).Nodup := by
  have hword := hp.word
  refine List.Nodup.map (fun i j he => ?_) List.nodup_range
  rcases Nat.lt_trichotomy i j with h | h | h
  · have hb : element ptr bsize i + bsize ≤ element ptr bsize j := element_before h
    omega
  · exact h
  · have hb : element ptr bsize j + bsize ≤ element ptr bsize i := element_before h
    omega

theorem len_lt (hp : SizedPlace ptr bsize len) : len < 2 ^ 64 := by
  have hfits := hp.fits
  have hpos : 0 < bsize := Nat.lt_of_lt_of_le (by decide) hp.word
  have hle : len ≤ bsize * len := Nat.le_mul_of_pos_left len hpos
  omega

/-- The address of an element, as the code computes it. -/
theorem addW_element (hp : SizedPlace ptr bsize len) (hi : i < len) :
    addW ptr (mulW i bsize) = element ptr bsize i := by
  have hlt := element_lt ptr bsize hi
  have hfits := hp.fits
  unfold element at hlt ⊢
  rw [mulW_of_lt (by omega), addW_of_lt (by omega)]

end SizedPlace

/-! ## The list -/

/-- What an element holds as a node. -/
def wordAt (m : Mem) (x : Nat) : Option Nat := some (m.read64 x)

/-- A pointer that may be null. -/
def pointer (v : Nat) : Option Nat := if v = 0 then none else some v

/-- The elements that the list leads through. -/
def FreeChain (h : SizedHeap) (l : List Nat) : Prop :=
  Chain (wordAt h.mem) pointer (pointer h.pool.freelist) l

theorem pointer_of_ne (h : x ≠ 0) : pointer x = some x := if_neg h

/-- The loop links each element to the next. -/
theorem sizedMpoolLink_read (hp : SizedPlace ptr bsize len) (hi : 1 ≤ i) (hn : i + n ≤ len)
    (j : Nat) : (sizedMpoolLink m ptr bsize n i).read64 (element ptr bsize j) =
      if i ≤ j + 1 ∧ j + 1 < i + n then element ptr bsize (j + 1)
      else m.read64 (element ptr bsize j) := by
  have hword := hp.word
  have hfits := hp.fits
  have hlen := hp.len_lt
  induction n generalizing m i with
  | zero =>
    rw [if_neg (by omega)]
    rfl
  | succ n ih =>
    have hlt : element ptr bsize i + bsize ≤ ptr + bsize * len := element_lt _ _ (by omega)
    rw [sizedMpoolLink, ih (by omega) (by omega), subW_of_le hi (by omega),
      hp.addW_element (by omega), hp.addW_element (by omega)]
    rcases Nat.lt_trichotomy (j + 1) i with h | h | h
    · have hb : element ptr bsize j + bsize ≤ element ptr bsize (i - 1) :=
        element_before (by omega)
      rw [if_neg (by omega), if_neg (by omega), Mem.read64_write64_disjoint _ _ (by omega)]
    · -- the link of this turn
      rw [if_neg (by omega), if_pos (by omega), h, show i - 1 = j by omega,
        Mem.read64_write64_same _ _ (by omega)]
    · have hb : element ptr bsize (i - 1) + bsize ≤ element ptr bsize j :=
        element_before (by omega)
      rw [Mem.read64_write64_disjoint _ _ (by omega)]
      by_cases hjn : j + 1 < i + (n + 1)
      · rw [if_pos (by omega), if_pos (by omega)]
      · rw [if_neg (by omega), if_neg (by omega)]

/-- What `sized_mpool_init` leaves in an element: the address of the next, or null. -/
theorem sizedMpoolInit_read (hp : SizedPlace ptr bsize len) (m : Mem) (hj : j < len) :
    (sizedMpoolInit m ptr bsize len).mem.read64 (element ptr bsize j) =
      if j + 1 < len then element ptr bsize (j + 1) else 0 := by
  have hword := hp.word
  have hsome := hp.some
  have hlink := sizedMpoolLink_read (m := m) hp (Nat.le_refl 1) (n := len - 1) (by omega) j
  have hlast : addW ptr (mulW (subW len 1) bsize) = element ptr bsize (len - 1) := by
    rw [subW_of_le hsome hp.len_lt, hp.addW_element (by omega)]
  unfold sizedMpoolInit
  dsimp only
  rw [hlast]
  by_cases h : j + 1 < len
  · have hb : element ptr bsize j + bsize ≤ element ptr bsize (len - 1) := element_before (by omega)
    rw [if_pos h, Mem.read64_write64_disjoint _ _ (by omega), hlink, if_pos (by omega)]
  · rw [if_neg h, show j = len - 1 by omega, Mem.read64_write64_same _ _ (by decide)]

/-- **A new list** leads through all elements in order. -/
theorem freeChain_init (hp : SizedPlace ptr bsize len) (m : Mem) :
    FreeChain (sizedMpoolInit m ptr bsize len) (elements ptr bsize len) := by
  have hnonnull := hp.nonnull
  have hword := hp.word
  -- from any element on
  have hfrom : ∀ n k, k + n = len → Chain (wordAt (sizedMpoolInit m ptr bsize len).mem) pointer
      (pointer (if k < len then element ptr bsize k else 0))
      ((List.range' k n).map (element ptr bsize)) := by
    intro n
    induction n with
    | zero =>
      intro k hk
      rw [if_neg (by omega)]
      exact .nil
    | succ n ih =>
      intro k hk
      have hk0 : element ptr bsize k ≠ 0 := by
        unfold element
        omega
      rw [if_pos (by omega), pointer_of_ne hk0, List.range'_succ, List.map_cons]
      refine .cons rfl ?_
      rw [sizedMpoolInit_read hp m (by omega)]
      exact ih (k + 1) (by omega)
  have hall := hfrom len 0 (Nat.zero_add len)
  rw [if_pos (Nat.lt_of_lt_of_le Nat.zero_lt_one hp.some), ← List.range_eq_range'] at hall
  have hfirst : element ptr bsize 0 = ptr := by rw [element, Nat.zero_mul, Nat.add_zero]
  rw [hfirst] at hall
  exact hall

/-- Only the first words of the elements on the list matter. -/
theorem FreeChain.congr {h h' : SizedHeap} (hl : FreeChain h l)
    (hfree : h'.pool.freelist = h.pool.freelist)
    (hm : ∀ x ∈ l, h'.mem.read64 x = h.mem.read64 x) : FreeChain h' l := by
  unfold FreeChain at hl ⊢
  rw [hfree]
  refine Chain.congr hl fun x hx => ?_
  simp only [wordAt, hm x hx]

/-- The list is empty only for a null pointer, and otherwise begins with the pointer. -/
theorem FreeChain.cases {h : SizedHeap} (hl : FreeChain h l) :
    (h.pool.freelist = 0 ∧ l = []) ∨
      (h.pool.freelist ≠ 0 ∧ ∃ rest, l = h.pool.freelist :: rest ∧
        Chain (wordAt h.mem) pointer (pointer (h.mem.read64 h.pool.freelist)) rest) := by
  unfold FreeChain at hl
  by_cases h0 : h.pool.freelist = 0
  · rw [h0, pointer, if_pos rfl] at hl
    cases hl
    exact .inl ⟨h0, rfl⟩
  · rw [pointer_of_ne h0] at hl
    cases hl with
    | cons hv hrest =>
        obtain rfl := Option.some.inj hv
        exact .inr ⟨h0, _, rfl, hrest⟩

/-! ## Runs -/

/-- A pool and the elements its user holds. -/
structure SizedState where
  heap : SizedHeap
  held : List Nat

/-- The elements of a pool. -/
def SizedMpool.elements (p : SizedMpool) : List Nat := Alloc.elements p.ptr p.bsize p.len

/-- What the user of a pool can do. -/
inductive SizedStep : SizedState → SizedState → Prop where
  /-- `sized_mpool_alloc`. -/
  | alloc {s : SizedState} {p : Nat} {h : SizedHeap} (hr : sizedMpoolAlloc s.heap = (p, h)) :
      SizedStep s ⟨h, if p = 0 then s.held else p :: s.held⟩
  /-- `sized_mpool_free`. -/
  | free {s : SizedState} {p : Nat} (hp : p ∈ s.held) :
      SizedStep s ⟨sizedMpoolFree s.heap p, s.held.erase p⟩
  /-- Stores anywhere but into elements that are not held. -/
  | store {s : SizedState} {m : Mem}
      (hm : ∀ x ∈ s.heap.pool.elements, x ∉ s.held → ∀ w, x ≤ w → w < x + s.heap.pool.bsize →
        m w = s.heap.mem w) :
      SizedStep s ⟨{ s.heap with mem := m }, s.held⟩

/-- A pool right after `sized_mpool_init`. -/
def SizedStart (ptr bsize len : Nat) (s : SizedState) : Prop :=
  ∃ m, s = ⟨sizedMpoolInit m ptr bsize len, []⟩

/-- **The invariant**: the list and what is held are together all the elements. -/
structure SizedInv (ptr bsize len : Nat) (s : SizedState) : Prop where
  spot : s.heap.pool.ptr = ptr ∧ s.heap.pool.size = bsize * len
  shape : s.heap.pool.bsize = bsize ∧ s.heap.pool.len = len
  split : ∃ l, FreeChain s.heap l ∧ (l ++ s.held).Perm (elements ptr bsize len)

variable {s t : SizedState} {p : Nat} {h : SizedHeap}

theorem SizedInv.elements_eq (hi : SizedInv ptr bsize len s) :
    s.heap.pool.elements = elements ptr bsize len := by
  rw [SizedMpool.elements, hi.spot.1, hi.shape.1, hi.shape.2]

theorem sizedInv_init (hp : SizedPlace ptr bsize len) (hs : SizedStart ptr bsize len s) :
    SizedInv ptr bsize len s := by
  obtain ⟨m, rfl⟩ := hs
  have hfits := hp.fits
  refine ⟨⟨rfl, mulW_of_lt (by omega)⟩, ⟨rfl, rfl⟩, elements ptr bsize len, freeChain_init hp m, ?_⟩
  rw [List.append_nil]

/-- The first element of the list is held from now on. -/
theorem sizedInv_alloc (hi : SizedInv ptr bsize len s) (hr : sizedMpoolAlloc s.heap = (p, h)) :
    SizedInv ptr bsize len ⟨h, if p = 0 then s.held else p :: s.held⟩ := by
  obtain ⟨l, hl, hperm⟩ := hi.split
  unfold sizedMpoolAlloc at hr
  rcases hl.cases with ⟨h0, rfl⟩ | ⟨h0, rest, rfl, hrest⟩
  · rw [if_pos h0] at hr
    obtain ⟨rfl, rfl⟩ := Prod.mk.inj hr
    exact ⟨hi.spot, hi.shape, [], hl, hperm⟩
  · rw [if_neg h0] at hr
    obtain ⟨rfl, rfl⟩ := Prod.mk.inj hr
    rw [if_neg h0]
    exact ⟨hi.spot, hi.shape, rest, hrest, List.perm_middle.trans hperm⟩

/-- An element given back is the first of the list. -/
theorem sizedInv_free (hp : SizedPlace ptr bsize len) (hi : SizedInv ptr bsize len s)
    (hx : p ∈ s.held) : SizedInv ptr bsize len ⟨sizedMpoolFree s.heap p, s.held.erase p⟩ := by
  obtain ⟨l, hl, hperm⟩ := hi.split
  have hfits := hp.fits
  have hword := hp.word
  have hmem : ∀ y ∈ l ++ s.held, y ∈ elements ptr bsize len := fun y hy => hperm.mem_iff.mp hy
  have hpe := hmem p (List.mem_append_right _ hx)
  have hp0 : p ≠ 0 := by
    have := (elements_bounds hpe).1
    have := hp.nonnull
    omega
  -- what the list begins with is a word
  have hhead : s.heap.pool.freelist < 2 ^ 64 := by
    rcases hl.cases with ⟨h0, -⟩ | ⟨-, rest, rfl, -⟩
    · rw [h0]
      decide
    · have := (elements_bounds (hmem _ (List.mem_append_left _ List.mem_cons_self))).2
      omega
  have hnd : (l ++ s.held).Nodup := hperm.nodup_iff.mpr hp.nodup
  have hkeep : ∀ y ∈ l, (s.heap.mem.write64 p s.heap.pool.freelist).read64 y =
      s.heap.mem.read64 y := by
    intro y hy
    refine Mem.read64_write64_disjoint _ _ ?_
    rcases elements_apart hpe (hmem y (List.mem_append_left _ hy)) with rfl | h | h
    · exact absurd rfl ((List.nodup_append.mp hnd).2.2 p hy p hx)
    · exact .inl (by omega)
    · exact .inr (by omega)
  have hfree : sizedMpoolFree s.heap p =
      ⟨s.heap.mem.write64 p s.heap.pool.freelist, { s.heap.pool with freelist := p }⟩ := if_neg hp0
  rw [hfree]
  refine ⟨hi.spot, hi.shape, p :: l, ?_, ?_⟩
  · have hrest : FreeChain ⟨s.heap.mem.write64 p s.heap.pool.freelist, s.heap.pool⟩ l :=
      hl.congr rfl hkeep
    have hread : wordAt (s.heap.mem.write64 p s.heap.pool.freelist) p =
        some s.heap.pool.freelist := congrArg some (Mem.read64_write64_same _ _ hhead)
    show Chain _ pointer (pointer p) (p :: l)
    rw [pointer_of_ne hp0]
    exact .cons hread hrest
  · have hback : (l ++ p :: s.held.erase p).Perm (l ++ s.held) :=
      (List.perm_cons_erase hx).symm.append_left l
    exact List.perm_middle.symm.trans (hback.trans hperm)

/-- What is stored into elements that are held does not matter. -/
theorem sizedInv_store (hp : SizedPlace ptr bsize len) (hi : SizedInv ptr bsize len s)
    (hm : ∀ x ∈ s.heap.pool.elements, x ∉ s.held → ∀ w, x ≤ w → w < x + s.heap.pool.bsize →
      m w = s.heap.mem w) : SizedInv ptr bsize len ⟨{ s.heap with mem := m }, s.held⟩ := by
  obtain ⟨l, hl, hperm⟩ := hi.split
  have hnd : (l ++ s.held).Nodup := hperm.nodup_iff.mpr hp.nodup
  have hword := hp.word
  rw [hi.elements_eq, hi.shape.1] at hm
  refine ⟨hi.spot, hi.shape, l, hl.congr rfl fun x hx => ?_, hperm⟩
  have hxe : x ∈ elements ptr bsize len := hperm.mem_iff.mp (List.mem_append_left _ hx)
  have hfree : x ∉ s.held := fun h => (List.nodup_append.mp hnd).2.2 x hx x h rfl
  exact Mem.read64_congr fun w h1 h2 => hm x hxe hfree w h1 (by omega)

theorem sizedInv_step (hp : SizedPlace ptr bsize len) (hi : SizedInv ptr bsize len s)
    (hst : SizedStep s t) : SizedInv ptr bsize len t := by
  cases hst with
  | alloc hr => exact sizedInv_alloc hi hr
  | free hx => exact sizedInv_free hp hi hx
  | store hm => exact sizedInv_store hp hi hm

theorem sizedInv_reachable (hp : SizedPlace ptr bsize len)
    (hrun : Reachable (SizedStart ptr bsize len) SizedStep s) : SizedInv ptr bsize len s :=
  hrun.invariant (fun _ hs => sizedInv_init hp hs) fun _ _ hi hst => sizedInv_step hp hi hst

/-! ## What holds in every state -/

/-- **A pool of `len` elements of `bsize` bytes at `ptr`** with these elements held. -/
structure SizedOk (ptr bsize len : Nat) (s : SizedState) : Prop where
  distinct : s.held.Nodup
  element : ∀ p ∈ s.held, ∃ i < len, p = ptr + i * bsize
  inpool : ∀ p ∈ s.held, sizedMpoolInpool s.heap.pool p = true
  /-- The list leads through the elements that are not held, each of them once. -/
  listed : ∃ l, FreeChain s.heap l ∧ l.Nodup ∧
    ∀ x, x ∈ l ↔ (∃ i < len, x = ptr + i * bsize) ∧ x ∉ s.held
  null_iff : (sizedMpoolAlloc s.heap).1 = 0 ↔ ∀ i < len, ptr + i * bsize ∈ s.held

/-- An element is in the pool. -/
theorem inpool_element (hp : SizedPlace ptr bsize len) (hi : SizedInv ptr bsize len s)
    (hx : x ∈ elements ptr bsize len) : sizedMpoolInpool s.heap.pool x = true := by
  obtain ⟨hlow, hhigh⟩ := elements_bounds hx
  have hnonnull := hp.nonnull
  have hword := hp.word
  have hend : addW s.heap.pool.ptr s.heap.pool.size = ptr + bsize * len := by
    rw [hi.spot.1, hi.spot.2, addW_of_lt hp.fits]
  rw [sizedMpoolInpool, if_neg (by omega), hend, hi.spot.1, if_neg (by omega)]

/--
**A pool of one size never loses or doubles an element.**

In every state that a run leads to, what is held and what is on the list are all the
elements, each of them once. Writing into elements that are held changes nothing of
that, since the list does not lead through them.
-/
theorem sized_pool_exact (hp : SizedPlace ptr bsize len)
    (hrun : Reachable (SizedStart ptr bsize len) SizedStep s) : SizedOk ptr bsize len s := by
  have hi := sizedInv_reachable hp hrun
  obtain ⟨l, hl, hperm⟩ := hi.split
  have hnd : (l ++ s.held).Nodup := hperm.nodup_iff.mpr hp.nodup
  obtain ⟨hlnd, hheld, hdisj⟩ := List.nodup_append.mp hnd
  have hsub : ∀ p ∈ s.held, p ∈ elements ptr bsize len := fun p hx =>
    hperm.mem_iff.mp (List.mem_append_right _ hx)
  have hmem : ∀ x, x ∈ l ↔ (∃ i < len, x = ptr + i * bsize) ∧ x ∉ s.held := by
    intro x
    rw [← mem_elements, ← hperm.mem_iff, List.mem_append]
    constructor
    · intro hx
      exact ⟨.inl hx, fun h => hdisj x hx x h rfl⟩
    · intro ⟨hx, hno⟩
      exact hx.resolve_right hno
  refine ⟨hheld, fun p hx => mem_elements.mp (hsub p hx),
    fun p hx => inpool_element hp hi (hsub p hx), ⟨l, hl, hlnd, hmem⟩, ?_⟩
  unfold sizedMpoolAlloc
  rcases hl.cases with ⟨h0, rfl⟩ | ⟨h0, rest, rfl, -⟩
  · -- with an empty list everything is held
    rw [if_pos h0]
    refine iff_of_true rfl fun i hlt => ?_
    by_contra hno
    exact List.not_mem_nil ((hmem _).mpr ⟨⟨i, hlt, rfl⟩, hno⟩)
  · rw [if_neg h0]
    refine iff_of_false h0 fun hall => ?_
    obtain ⟨⟨i, hlt, he⟩, hno⟩ := (hmem _).mp List.mem_cons_self
    rw [he] at hno
    exact hno (hall i hlt)

/-- Two elements of 24 bytes, of which the first is held. -/
theorem sized_pool_exact_two : SizedOk 4096 24 2
    ⟨(sizedMpoolAlloc (sizedMpoolInit (fun _ => 0) 4096 24 2)).2, [4096]⟩ := by
  have hfirst : (sizedMpoolInit (fun _ => 0) 4096 24 2).pool.freelist = 4096 := rfl
  have hr : sizedMpoolAlloc (sizedMpoolInit (fun _ => 0) 4096 24 2) =
      (4096, (sizedMpoolAlloc (sizedMpoolInit (fun _ => 0) 4096 24 2)).2) := rfl
  have hstep := SizedStep.alloc (s := ⟨sizedMpoolInit (fun _ => 0) 4096 24 2, []⟩) hr
  rw [if_neg (by decide)] at hstep
  exact sized_pool_exact ⟨by decide, by decide, by decide, by decide⟩
    ((Reachable.init ⟨_, rfl⟩).tail hstep)

end IonOS.Alloc
