import IonOS.Alloc.Pool

/-!
# The memory manager

`mman.cpp` and `alloc/large-blk.hpp`. A manager spreads its blocks over areas of
4 KiB and 2 MiB: the main one it was given, and secondary ones it asks for and
gives back. Every area is aligned to its size and its first marker points to a
`struct mman_pool`, which counts what is live in that area. The main area's pool
is part of the manager; a secondary area keeps its own in its first block. From
`allocLargeBlkSize` up a request gets memory of its own.

The pools are words in memory because the markers point at them. What the manager
holds besides is a record. The answer of `cb_reqmem` is an argument: the manager
calls it at most once in an operation. `none` is a fault, or a walk that never
ends.
-/

namespace IonOS.Alloc

open IonOS.Lib IonOS.Libs

/-! ## Data -/

/-- `LARGEBLKLIST_NUM`. -/
def largeblklistNum : Nat := 16

/-- `ALLOC_LARGE_BLK_SIZE`. -/
def allocLargeBlkSize : Nat := 16384

/-- `sizeof(struct large_blk)`. -/
def sizeofLargeBlk : Nat := 32

/-- `sizeof(struct mman_pool)`. -/
def sizeofMmanPool : Nat := 24

/-- `sizeof(struct mman)`. -/
def sizeofMman : Nat := 256

/-- `PADDING_4k`. -/
def padding4k (size : Nat) : Nat := subW (addW size size4k) 1 &&& notW (size4k - 1)

/-- `struct mman`, but for `main`, which is in memory. -/
structure Mman where
  /-- Where the structure is, and with it `main`. -/
  self : Nat
  /-- The sizes of all areas together. -/
  size : Nat
  /-- The sizes of all live blocks together, as the code keeps it. -/
  allocedSize : Nat
  /-- Whether there is a callback to ask for memory. -/
  cbReqmem : Bool
  /-- Whether there is a callback to give memory back. -/
  cbDelmem : Bool
  /-- The list of large blocks. -/
  largeBlk : Nat
  /-- The class lists. -/
  freed : Nat → Nat
  /-- The blocks with memory of their own, by a hash of the address. -/
  large : Nat → Nat
  /-- What `cb_reqmem` has handed out, a log as `Heap.delmem` is of `cb_delmem`. -/
  reqmem : List (Nat × Nat)

/-- The heap behind `malloc` and `free`. -/
structure Libc where
  malloc : Mem → Nat → Nat × Mem
  free : Mem → Nat → Mem

/-- `((mman_pool_t)pool)->ptr`. -/
def poolPtr (m : Mem) (pool : Nat) : Nat := m.read64 pool

/-- `((mman_pool_t)pool)->alloced_size`. -/
def poolAllocedSize (m : Mem) (pool : Nat) : Nat := m.read64 (pool + 8)

/-- `((mman_pool_t)pool)->next`. -/
def poolNext (m : Mem) (pool : Nat) : Nat := m.read64 (pool + 16)

/-- The three fields of a pool. -/
def setPool (m : Mem) (pool ptr allocedSize next : Nat) : Mem :=
  ((m.write64 pool ptr).write64 (pool + 8) allocedSize).write64 (pool + 16) next

/-- A call of `cb_reqmem`, which answers with `reqmem`. -/
def callReqmem (reqmem : Nat → Nat) (h : Heap Mman) (size : Nat) : Nat × Heap Mman :=
  let mem := reqmem size
  if mem = 0 then (0, h)
  else (mem, { h with pool := { h.pool with reqmem := h.pool.reqmem ++ [(mem, size)] } })

/-! ## Large blocks -/

/-- Which of the lists an address belongs to. -/
def largeBlkBlokp (ptr : Nat) : Nat :=
  (ptr / size4k ||| ptr / size4k / largeblklistNum / 2) % largeblklistNum

def largeBlkPut (libc : Libc) (h : Heap Mman) (ptr size : Nat) : Nat × Heap Mman :=
  let id := largeBlkBlokp ptr
  let (blk, m) := libc.malloc h.mem sizeofLargeBlk
  if blk = 0 then (0, { h with mem := m })
  else
    let m := (m.write64 (blk + 16) ptr).write64 (blk + 24) size
    let (list, m) := freelistPut m (h.pool.large id) blk
    (blk, { h with
      mem := m
      pool := { h.pool with large := Function.update h.pool.large id list } })

def largeBlkFind (h : Heap Mman) (ptr : Nat) : Option Nat :=
  Links.find (linksOf h.mem).next 0 (fun blk => h.mem.read64 (blk + 16) == ptr) walkFuel
    (h.pool.large (largeBlkBlokp ptr))

def largeBlkAlloc (libc : Libc) (reqmem : Nat → Nat) (h : Heap Mman) (size : Nat) :
    Option (Nat × Heap Mman) :=
  let size := padding4k size
  -- the callback is called whether there is one or not
  if !h.pool.cbReqmem then none
  else
    let (ptr, h) := callReqmem reqmem h size
    if ptr = 0 then some (0, h)
    else
      let (blk, h) := largeBlkPut libc h ptr size
      if blk = 0 then
        if h.pool.cbDelmem then some (0, { h with delmem := h.delmem ++ [(ptr, size)] }) else none
      else
        let m := (h.mem.write64 (blk + 16) ptr).write64 (blk + 24) size
        some (ptr, { h with mem := (m.write64 (blk + 8) 0).write64 blk 0 })

def largeBlkFree (libc : Libc) (h : Heap Mman) (ptr : Nat) : Option (Bool × Heap Mman) := do
  let id := largeBlkBlokp ptr
  let blk ← largeBlkFind h ptr
  if blk = 0 then pure (false, h)
  else if !h.pool.cbDelmem then none
  else
    let (list, m) := freelistDetach h.mem (h.pool.large id) blk
    pure (true,
      { mem := libc.free m blk
        pool := { h.pool with large := Function.update h.pool.large id list }
        delmem := h.delmem ++ [(m.read64 (blk + 16), m.read64 (blk + 24))] })

/-! ## The manager -/

namespace Mman

/-- Take a block off the list its size belongs to. -/
def detach (h : Heap Mman) (ptr : Nat) : Heap Mman :=
  let id := freelistsSize2id (blkSize h.mem ptr)
  if id < 0 then
    let (list, m) := freelistDetach h.mem h.pool.largeBlk ptr
    { h with mem := m, pool := { h.pool with largeBlk := list } }
  else
    let (lists, m) := freelistsDetach h.mem h.pool.freed id.toNat ptr
    { h with mem := m, pool := { h.pool with freed := lists } }

/-- `freelist_put(&man->large_blk, ptr)`. -/
def putLarge (h : Heap Mman) (ptr : Nat) : Heap Mman :=
  let (list, m) := freelistPut h.mem h.pool.largeBlk ptr
  { h with mem := m, pool := { h.pool with largeBlk := list } }

def doFree (h : Heap Mman) (ptr : Nat) : Heap Mman :=
  let h := { h with mem := blkSetfreed h.mem ptr (blkSize h.mem ptr) }
  let (puted, lists, m) := freelistsPut h.mem h.pool.freed ptr
  let h := { h with mem := m, pool := { h.pool with freed := lists } }
  if !puted then putLarge h ptr else h

def trySplitAndFree (h : Heap Mman) (ptr size : Nat) : Bool × Heap Mman :=
  if addW size 64 ≤ blkSize h.mem ptr then
    let (newPtr, m) := blkSplit h.mem ptr size
    (true, doFree { h with mem := m } newPtr)
  else (false, h)

/-- `freelist_match(&man->large_blk, size)`. -/
def matchLarge (h : Heap Mman) (size : Nat) : Option (Nat × Heap Mman) := do
  let (ptr, list, m) ← freelistMatch h.mem h.pool.largeBlk size
  pure (ptr, { h with mem := m, pool := { h.pool with largeBlk := list } })

/-- `freelist_aligned_match(&man->large_blk, size, align)`. -/
def alignedMatchLarge (h : Heap Mman) (size align : Nat) : Option (Nat × Heap Mman) := do
  let (ptr, list, m) ← freelistAlignedMatch h.mem h.pool.largeBlk size align
  pure (ptr, { h with mem := m, pool := { h.pool with largeBlk := list } })

/-- The class lists, and the large list when they have nothing. -/
def matchAny (h : Heap Mman) (size : Nat) : Option (Nat × Heap Mman) := do
  let (ptr, lists, m) ← freelistsMatch h.mem h.pool.freed size
  let h := { h with mem := m, pool := { h.pool with freed := lists } }
  if ptr ≠ 0 then pure (ptr, h) else matchLarge h size

/-- Both lists for an aligned request. -/
def alignedMatchAny (h : Heap Mman) (size align : Nat) : Option (Nat × Heap Mman) := do
  let (ptr, lists, m) ← freelistsAlignedMatch h.mem h.pool.freed size align
  let h := { h with mem := m, pool := { h.pool with freed := lists } }
  if ptr ≠ 0 then pure (ptr, h) else alignedMatchLarge h size align

/-- Cut off the part of a block in front of its first aligned address and free it. -/
def cutLead (h : Heap Mman) (ptr offset : Nat) : Nat × Heap Mman :=
  if 0 < offset then
    let (newPtr, m) := blkSplit h.mem ptr (subW offset 16)
    (newPtr, doFree { h with mem := m } ptr)
  else (ptr, h)

end Mman

def mmanInit (h : Heap Mman) (man ptr size : Nat) : Bool × Heap Mman :=
  if man = 0 ∨ ptr = 0 ∨ size = 0 then (false, h)
  else if size ≠ size2M ∧ size ≠ size4k then (false, h)
  else
    let m := setPool h.mem man ptr 0 0
    let pool : Mman :=
      { self := man, size := size, allocedSize := 0, cbReqmem := false, cbDelmem := false,
        largeBlk := 0, freed := fun _ => 0, large := fun _ => 0, reqmem := [] }
    let h := { h with mem := allocareaInit m ptr size man, pool := pool }
    (true, Mman.putLarge h (addW ptr 16))

/-- A call of `cb_delmem`; `spoil` is what becomes of the memory given back. -/
def callDelmem (spoil : Mem → Nat → Nat → Mem) (h : Heap Mman) (ptr : Nat) : Heap Mman :=
  let size := allocareaSize h.mem ptr
  { h with mem := spoil h.mem ptr size, delmem := h.delmem ++ [(ptr, size)] }

/-- The loop of `mman_deinit`. It does not end with `none`, and reads `next` of a null pointer with
`.error`, which leaves the heap as it is then. -/
def deinitPools (spoil : Mem → Nat → Nat → Mem) :
    Nat → Nat → Nat → Heap Mman → Option (Except (Heap Mman) (Heap Mman))
  | 0, _, _, _ => none
  | fuel + 1, p, n, h =>
    if p = 0 then some (.ok h)
    else
      let h := callDelmem spoil h (poolPtr h.mem p)
      -- `p = n, n = p->next` before the test of `p`
      if n = 0 then some (.error h) else deinitPools spoil fuel n (poolNext h.mem n) h

/-- `*man = (struct mman){}`. -/
def Mman.zero (h : Heap Mman) : Heap Mman :=
  { h with
    mem := setPool h.mem h.pool.self 0 0 0
    pool :=
      { self := h.pool.self, size := 0, allocedSize := 0, cbReqmem := false, cbDelmem := false,
        largeBlk := 0, freed := fun _ => 0, large := fun _ => 0, reqmem := h.pool.reqmem } }

def mmanDeinit (spoil : Mem → Nat → Nat → Mem) (h : Heap Mman) :
    Option (Except (Heap Mman) (Heap Mman)) :=
  if !h.pool.cbDelmem then some (.ok (Mman.zero h))
  else
    let p := poolNext h.mem h.pool.self
    if p = 0 then some (.error h)
    else (deinitPools spoil walkFuel p (poolNext h.mem p) h).map
      (Except.map fun h => Mman.zero (callDelmem spoil h (poolPtr h.mem h.pool.self)))

def mmanSetcb (h : Heap Mman) (reqmem delmem : Bool) : Heap Mman :=
  { h with pool := { h.pool with cbReqmem := reqmem, cbDelmem := delmem } }

def mmanAllocedSize (h : Heap Mman) : Nat := h.pool.allocedSize

def mmanTotalSize (h : Heap Mman) : Nat := h.pool.size

/-- What a new area is made into: its pool in a block of its own, the rest one free block. -/
def enterArea (h : Heap Mman) (mem size : Nat) : Heap Mman :=
  let pool := addW mem 16
  let m := allocareaInit h.mem mem size pool
  let (ptr, m) := blkSplit m pool (padding sizeofMmanPool)
  let m := blkSetalloced m pool (blkSize m pool)
  let m := blkSetfreed m ptr (blkSize m ptr)
  let m := setPool m pool mem 0 (poolNext m h.pool.self)
  let m := m.write64 (h.pool.self + 16) pool
  Mman.putLarge { h with mem := m, pool := { h.pool with size := addW h.pool.size size } } ptr

def mmanReqmem (reqmem : Nat → Nat) (h : Heap Mman) (size : Nat) : Bool × Heap Mman :=
  let size := addW size (sizeofMmanPool + 4 * 8)
  if !h.pool.cbReqmem then (false, h)
  else if size2M < size then (false, h)
  else
    let size := if size4k < size then size2M else size4k
    let (mem, h) := callReqmem reqmem h size
    if mem = 0 then (false, h) else (true, enterArea h mem size)

/-- The pool in front of `pool` on the chain; `0` when there is none. -/
def prevPool (h : Heap Mman) (pool : Nat) : Option Nat :=
  Links.find (poolNext h.mem) 0 (fun prev => poolNext h.mem prev == pool) walkFuel h.pool.self

def mmanDelmem (h : Heap Mman) (pool : Nat) : Option (Bool × Heap Mman) :=
  if !h.pool.cbDelmem then some (false, h)
  else do
    let prev ← prevPool h pool
    if prev = 0 then pure (false, h)
    else
      let m := h.mem.write64 (prev + 16) (poolNext h.mem pool)
      let size := allocareaSize m (poolPtr m pool)
      pure (true,
        { mem := m
          pool := { h.pool with size := subW h.pool.size size }
          delmem := h.delmem ++ [(poolPtr m pool, size)] })

/-- The end of an allocation: cut off the rest, mark the block and count it. -/
def mmanFinish (h : Heap Mman) (ptr size : Nat) : Heap Mman :=
  let (_, h) := Mman.trySplitAndFree h ptr size
  let size := blkSize h.mem ptr
  let m := blkSetalloced h.mem ptr size
  let pool := blkPoolptr m ptr
  { h with
    mem := m.write64 (pool + 8) (addW (poolAllocedSize m pool) size)
    pool := { h.pool with allocedSize := addW h.pool.allocedSize size } }

def mmanAlloc (libc : Libc) (reqmem : Nat → Nat) (h : Heap Mman) (size : Nat) :
    Option (Nat × Heap Mman) :=
  let size := requestSize size
  if allocLargeBlkSize ≤ size then largeBlkAlloc libc reqmem h size
  else do
    let (ptr, h) ← Mman.matchAny h size
    if ptr ≠ 0 then pure (ptr, mmanFinish h ptr size)
    else
      let (ok, h) := mmanReqmem reqmem h size
      if !ok then pure (0, h)
      else
        let (ptr, h) ← Mman.matchLarge h size
        -- going on with a null block faults
        if ptr = 0 then none else pure (ptr, mmanFinish h ptr size)

/-- What an aligned allocation does with the block it found. -/
def mmanPlace (h : Heap Mman) (ptr size align : Nat) : Nat × Heap Mman :=
  let (ptr, h) := Mman.cutLead h ptr (subW (paddingUp ptr align) ptr)
  (ptr, mmanFinish h ptr size)

def mmanAlignedAlloc (libc : Libc) (reqmem : Nat → Nat) (h : Heap Mman) (size align : Nat) :
    Option (Nat × Heap Mman) :=
  if align &&& subW align 1 ≠ 0 then some (0, h)
  else if align < 16 then mmanAlloc libc reqmem h size
  else
    let size := requestSize size
    if allocLargeBlkSize ≤ size ∨ allocLargeBlkSize ≤ align then do
      let (ptr, h) ← largeBlkAlloc libc reqmem h size
      if ptr % align ≠ 0 then
        let (_, h) ← largeBlkFree libc h ptr
        pure (0, h)
      else pure (ptr, h)
    else do
      let (ptr, h) ← Mman.alignedMatchAny h size align
      if ptr ≠ 0 then pure (mmanPlace h ptr size align)
      else
        let (ok, h) := mmanReqmem reqmem h (addW size align)
        if !ok then pure (0, h)
        else
          let (ptr, h) ← Mman.alignedMatchLarge h size align
          -- going on with a null block faults
          if ptr = 0 then none else pure (mmanPlace h ptr size align)

/-- Take the block at `ptr` out of the counters. -/
def Mman.debit (h : Heap Mman) (ptr : Nat) : Heap Mman :=
  let size := blkSize h.mem ptr
  let pool := blkPoolptr h.mem ptr
  { h with
    mem := h.mem.write64 (pool + 8) (subW (poolAllocedSize h.mem pool) size)
    pool := { h.pool with allocedSize := subW h.pool.allocedSize size } }

/-- Give the area back if nothing in it is live, else list the merged block. -/
def mmanReleaseEnd (h : Heap Mman) (pool ptr : Nat) : Option (Heap Mman) :=
  if pool ≠ h.pool.self ∧ poolAllocedSize h.mem pool = 0 then do
    let (gone, h) ← mmanDelmem h pool
    pure (if gone then h else Mman.doFree h ptr)
  else some (Mman.doFree h ptr)

/-- What `mman_free` does with an ordinary block. -/
def mmanRelease (h : Heap Mman) (ptr : Nat) : Option (Heap Mman) :=
  let merged := blkTrymerge Mman.detach (Mman.debit h ptr) ptr
  mmanReleaseEnd merged.2 (blkPoolptr h.mem ptr) merged.1

def mmanFree (libc : Libc) (h : Heap Mman) (ptr : Nat) : Option (Heap Mman) :=
  if ptr = 0 then some h
  else if ptr % size4k = 0 then do
    let (gone, h) ← largeBlkFree libc h ptr
    if gone then pure h else mmanRelease h ptr
  else mmanRelease h ptr

/-- What both reallocation functions do with a block; `alloc` is what they move to. A page-aligned
block is taken for one with memory of its own, and neither grown nor cut. -/
def mmanReallocBy (alloc : Heap Mman → Nat → Option (Nat × Heap Mman)) (libc : Libc)
    (h : Heap Mman) (ptr newsize : Nat) : Option (Nat × Heap Mman) :=
  let newsize := requestSize newsize
  let size := blkSize h.mem ptr
  let next := blkNext h.mem ptr
  if newsize ≤ size ∧ ¬ (ptr % size4k = 0 ∧ 2 * size4k ≤ size - newsize) then
    if ptr % size4k = 0 then some (ptr, h)
    else
      let (_, h) := Mman.trySplitAndFree h ptr newsize
      some (ptr, h)
  else if ptr % size4k ≠ 0 ∧ next ≠ 0 ∧ blkFreed h.mem next ∧
      newsize ≤ addW (addW size 16) (blkSize h.mem next) then
    let (ptr, h) := blkMergenext Mman.detach h ptr
    let (_, h) := Mman.trySplitAndFree h ptr newsize
    some (ptr, h)
  else do
    let (newPtr, h) ← alloc h newsize
    -- copying to a null pointer faults
    if newPtr = 0 ∧ size ≠ 0 then none
    else
      let h ← mmanFree libc { h with mem := memcpy h.mem newPtr ptr size } ptr
      pure (newPtr, h)

def mmanRealloc (libc : Libc) (reqmem : Nat → Nat) (h : Heap Mman) (ptr newsize : Nat) :
    Option (Nat × Heap Mman) :=
  if ptr = 0 then mmanAlloc libc reqmem h newsize
  else mmanReallocBy (mmanAlloc libc reqmem) libc h ptr newsize

/-- The source asks its caller for the `align` of the first allocation. -/
def mmanAlignedRealloc (libc : Libc) (reqmem : Nat → Nat) (h : Heap Mman)
    (ptr newsize align : Nat) : Option (Nat × Heap Mman) :=
  if ptr = 0 then mmanAlignedAlloc libc reqmem h newsize align
  else if align &&& subW align 1 ≠ 0 then some (0, h)
  else if align < 16 then mmanRealloc libc reqmem h ptr newsize
  else mmanReallocBy (fun h size => mmanAlignedAlloc libc reqmem h size align) libc h ptr newsize

def mmanMsize (h : Heap Mman) (ptr : Nat) : Nat := if ptr = 0 then 0 else blkSize h.mem ptr

end IonOS.Alloc
