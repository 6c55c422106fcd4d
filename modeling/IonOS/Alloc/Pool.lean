import IonOS.Alloc.Freelist
import IonOS.Libs.Klibc

/-!
# The memory pool

`pool.cpp`. A pool manages one area: free blocks are taken from the class lists
first and from the list of large blocks after that, split when enough is left
over, and merged with free neighbours when they come back.

An operation that faults or does not return yields `none`.
-/

namespace IonOS.Alloc

open IonOS.Lib IonOS.Libs

/-- `struct mpool`. -/
structure Mpool where
  /-- The managed area. -/
  ptr : Nat
  /-- Its size. -/
  size : Nat
  /-- The sum of the live block sizes, as the code keeps it. -/
  allocedSize : Nat
  /-- Asks for more memory behind the area. -/
  cbReqmem : Option (Nat → Nat → Nat)
  /-- Whether there is a callback to give memory back. -/
  cbDelmem : Bool
  /-- The list of large blocks. -/
  largeBlk : Nat
  /-- The class lists. -/
  freed : Nat → Nat

/-- Take a block off the list its size belongs to. -/
def detach (h : Heap Mpool) (ptr : Nat) : Heap Mpool :=
  let id := freelistsSize2id (blkSize h.mem ptr)
  if id < 0 then
    let (list, m) := freelistDetach h.mem h.pool.largeBlk ptr
    { h with mem := m, pool := { h.pool with largeBlk := list } }
  else
    let (lists, m) := freelistsDetach h.mem h.pool.freed id.toNat ptr
    { h with mem := m, pool := { h.pool with freed := lists } }

/-- `freelist_put(&pool->large_blk, ptr)`. -/
def putLarge (h : Heap Mpool) (ptr : Nat) : Heap Mpool :=
  let (list, m) := freelistPut h.mem h.pool.largeBlk ptr
  { h with mem := m, pool := { h.pool with largeBlk := list } }

def mpoolInit (h : Heap Mpool) (ptr size : Nat) : Bool × Heap Mpool :=
  if ptr = 0 ∨ size = 0 then (false, h)
  else if size &&& (2 * 8 - 1) ≠ 0 then (false, h)
  else
    let pool : Mpool :=
      { ptr := ptr, size := size, allocedSize := 0, cbReqmem := none, cbDelmem := false,
        largeBlk := 0, freed := fun _ => 0 }
    let h := { h with mem := allocareaInit h.mem ptr size 0, pool := pool }
    (true, putLarge h (addW ptr 16))

def mpoolReqmem (h : Heap Mpool) (size : Nat) : Option (Bool × Heap Mpool) :=
  match h.pool.cbReqmem with
  | none => some (false, h)
  | some cbReqmem =>
      let memsize := padding16k size
      let mem := cbReqmem (addW h.pool.ptr h.pool.size) memsize
      if mem = 0 then some (false, h)
      else if mem ≠ h.pool.ptr then
        some (false,
          if h.pool.cbDelmem then { h with delmem := h.delmem ++ [(mem, memsize)] } else h)
      else
        let (ptr, m) := allocareaReinit h.mem h.pool.ptr h.pool.size (addW h.pool.size memsize)
        let h := { h with mem := m, pool := { h.pool with size := addW h.pool.size memsize } }
        -- `allocarea_reinit` has no block to give when the size did not grow
        if ptr = 0 then none
        else
          let (ptr, h) := blkTrymerge detach h ptr
          let h := { h with mem := blkSetfreed h.mem ptr (blkSize h.mem ptr) }
          some (true, putLarge h ptr)

def doFree (h : Heap Mpool) (ptr : Nat) : Heap Mpool :=
  let h := { h with mem := blkSetfreed h.mem ptr (blkSize h.mem ptr) }
  let (puted, lists, m) := freelistsPut h.mem h.pool.freed ptr
  let h := { h with mem := m, pool := { h.pool with freed := lists } }
  if !puted then putLarge h ptr else h

def trySplitAndFree (h : Heap Mpool) (ptr size : Nat) : Bool × Heap Mpool :=
  if addW size 64 ≤ blkSize h.mem ptr then
    let (newPtr, m) := blkSplit h.mem ptr size
    (true, doFree { h with mem := m } newPtr)
  else (false, h)

/-- The class lists, and the large list when they have nothing. -/
def matchAny (fits : Mem → Nat → Bool) (h : Heap Mpool) (size : Nat) :
    Option (Nat × Heap Mpool) := do
  let (ptr, lists, m) ← freelistsMatchBy fits h.mem h.pool.freed size
  let h := { h with mem := m, pool := { h.pool with freed := lists } }
  if ptr ≠ 0 then pure (ptr, h)
  else
    let (ptr, list, m) ← freelistMatchBy fits h.mem h.pool.largeBlk
    pure (ptr, { h with mem := m, pool := { h.pool with largeBlk := list } })

/-- The search with the request for more memory behind it; `0` when both come up empty. -/
def matchOrReqmem (fits : Mem → Nat → Bool) (h : Heap Mpool) (size want : Nat) :
    Option (Nat × Heap Mpool) := do
  let (ptr, h) ← matchAny fits h size
  if ptr ≠ 0 then pure (ptr, h)
  else
    let (ok, h) ← mpoolReqmem h want
    if !ok then pure (0, h)
    else
      let (ptr, list, m) ← freelistMatchBy fits h.mem h.pool.largeBlk
      -- going on with a null block faults
      if ptr = 0 then none
      else pure (ptr, { h with mem := m, pool := { h.pool with largeBlk := list } })

/-- The end of both allocation functions: cut off the rest and mark the block. -/
def finishAlloc (h : Heap Mpool) (ptr size : Nat) : Heap Mpool :=
  let (_, h) := trySplitAndFree h ptr size
  let size := blkSize h.mem ptr
  { h with
    mem := blkSetalloced h.mem ptr size
    pool := { h.pool with allocedSize := addW h.pool.allocedSize size } }

/-- The size actually looked for. -/
def requestSize (size : Nat) : Nat := if size = 0 then 16 else padding size

def mpoolAlloc (h : Heap Mpool) (size : Nat) : Option (Nat × Heap Mpool) := do
  let size := requestSize size
  let (ptr, h) ← matchOrReqmem (sizeFits size) h size size
  if ptr = 0 then pure (0, h)
  else pure (ptr, finishAlloc h ptr size)

/-- Cut off the part of a block in front of its first aligned address and free it. -/
def cutLead (h : Heap Mpool) (ptr offset : Nat) : Nat × Heap Mpool :=
  if 0 < offset then
    let (newPtr, m) := blkSplit h.mem ptr (subW offset 16)
    (newPtr, doFree { h with mem := m } ptr)
  else (ptr, h)

/-- What an aligned allocation does with the block it found. -/
def placeAligned (h : Heap Mpool) (ptr size offset : Nat) : Nat × Heap Mpool :=
  let (ptr, h) := cutLead h ptr offset
  (ptr, finishAlloc h ptr size)

def mpoolAlignedAlloc (h : Heap Mpool) (size align : Nat) : Option (Nat × Heap Mpool) :=
  if align &&& subW align 1 ≠ 0 then some (0, h)
  else if align < 16 then mpoolAlloc h size
  else do
    let size := requestSize size
    let (ptr, h) ← matchOrReqmem (alignedFits size align) h size (addW size align)
    if ptr = 0 then pure (0, h)
    else
      pure (placeAligned h ptr size (subW (paddingUp ptr align) ptr))

def mpoolFree (h : Heap Mpool) (ptr : Nat) : Heap Mpool :=
  if ptr = 0 then h
  else
    let h := { h with
      pool := { h.pool with allocedSize := subW h.pool.allocedSize (blkSize h.mem ptr) } }
    let (ptr, h) := blkTrymerge detach h ptr
    doFree h ptr

def mpoolMsize (h : Heap Mpool) (ptr : Nat) : Nat := if ptr = 0 then 0 else blkSize h.mem ptr

def mpoolRealloc (h : Heap Mpool) (ptr newsize : Nat) : Option (Nat × Heap Mpool) :=
  if ptr = 0 then mpoolAlloc h newsize
  else
    let newsize := requestSize newsize
    let size := blkSize h.mem ptr
    let next := blkNext h.mem ptr
    if newsize ≤ size then
      let (_, h) := trySplitAndFree h ptr newsize
      some (ptr, h)
    else if next ≠ 0 ∧ blkFreed h.mem next ∧
        newsize ≤ addW (addW size 16) (blkSize h.mem next) then
      let (ptr, h) := blkMergenext detach h ptr
      let (_, h) := trySplitAndFree h ptr newsize
      some (ptr, h)
    else do
      let (newPtr, h) ← mpoolAlloc h newsize
      -- copying to a null pointer faults
      if newPtr = 0 ∧ size ≠ 0 then none
      else
        let h := { h with mem := memcpy h.mem newPtr ptr size }
        pure (newPtr, mpoolFree h ptr)

/-- What both reallocation functions do with a block; `alloc` is what they move to. -/
def reallocBy (alloc : Heap Mpool → Nat → Option (Nat × Heap Mpool)) (h : Heap Mpool)
    (ptr newsize : Nat) : Option (Nat × Heap Mpool) :=
  let newsize := requestSize newsize
  let size := blkSize h.mem ptr
  let next := blkNext h.mem ptr
  if newsize ≤ size then
    let (_, h) := trySplitAndFree h ptr newsize
    some (ptr, h)
  else if next ≠ 0 ∧ blkFreed h.mem next ∧
      newsize ≤ addW (addW size 16) (blkSize h.mem next) then
    let (ptr, h) := blkMergenext detach h ptr
    let (_, h) := trySplitAndFree h ptr newsize
    some (ptr, h)
  else do
    let (newPtr, h) ← alloc h newsize
    -- copying to a null pointer faults
    if newPtr = 0 ∧ size ≠ 0 then none
    else
      let h := { h with mem := memcpy h.mem newPtr ptr size }
      pure (newPtr, mpoolFree h ptr)

theorem mpoolRealloc_eq {h : Heap Mpool} {ptr n : Nat} (h0 : ptr ≠ 0) :
    mpoolRealloc h ptr n = reallocBy mpoolAlloc h ptr n := by
  rw [mpoolRealloc, if_neg h0]
  rfl

/-- The source asks its caller for the `align` of the first allocation. -/
def mpoolAlignedRealloc (h : Heap Mpool) (ptr newsize align : Nat) : Option (Nat × Heap Mpool) :=
  if ptr = 0 then mpoolAlignedAlloc h newsize align
  else if align &&& subW align 1 ≠ 0 then some (0, h)
  else if align < 16 then mpoolRealloc h ptr newsize
  else reallocBy (fun h size => mpoolAlignedAlloc h size align) h ptr newsize

def mpoolSetcb (h : Heap Mpool) (reqmem : Option (Nat → Nat → Nat)) (delmem : Bool) : Heap Mpool :=
  { h with pool := { h.pool with cbReqmem := reqmem, cbDelmem := delmem } }

end IonOS.Alloc
