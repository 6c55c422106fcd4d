import IonOS.Lib.Word
import IonOS.Lib.Memory

/-!
# Blocks and areas

`alloc/block.hpp` and `alloc/area.hpp`. A block is known by its payload address
`ptr`. The word before the payload is its head and the word after it its tail;
both hold the payload size, whose low three bits are free to carry flags. The
first and the last word of an area are markers with `areaFlag` set, so that a
look past either end stops.

Addresses and sizes are 64-bit words, and so is every sum of them: an address
computed from a size that wrapped around is the address the hardware would use.
-/

namespace IonOS.Alloc

open IonOS.Lib

/-! ## Constants -/

/-- `FREE_FLAG`. -/
def freeFlag : Nat := 1
/-- `AREA_FLAG`. -/
def areaFlag : Nat := 2
/-- `SIZE_FLAG`. -/
def sizeFlag : Nat := 4
/-- `FLAG_BITS`. -/
def flagBits : Nat := 7

/-- `SIZE_4k`. -/
def size4k : Nat := 4096
/-- `SIZE_16k`. -/
def size16k : Nat := 16384
/-- `SIZE_2M`. -/
def size2M : Nat := 2 * 1024 * 1024

/-- `PADDING`: round up to two words. -/
def padding (size : Nat) : Nat := subW (addW size 16) 1 &&& notW 15

/-- `PADDING_16k`. -/
def padding16k (size : Nat) : Nat := subW (addW size size16k) 1 &&& notW (size16k - 1)

/-! ## Boundary tags -/

/-- The tail of the block before. -/
def blkPrevtail (m : Mem) (ptr : Nat) : Nat := m.read64 (subW ptr 16)

def blkHead (m : Mem) (ptr : Nat) : Nat := m.read64 (subW ptr 8)

def blkTail (m : Mem) (ptr size : Nat) : Nat := m.read64 (addW ptr size)

/-- The head of the block after. -/
def blkNexthead (m : Mem) (ptr size : Nat) : Nat := m.read64 (addW (addW ptr size) 8)

def blkNoprev (m : Mem) (ptr : Nat) : Bool := blkPrevtail m ptr &&& areaFlag != 0

def blkNonext (m : Mem) (ptr size : Nat) : Bool := blkNexthead m ptr size &&& areaFlag != 0

def blkFreed (m : Mem) (ptr : Nat) : Bool := blkHead m ptr &&& freeFlag != 0

def blkSetalloced (m : Mem) (ptr size : Nat) : Mem :=
  let m := m.write64 (subW ptr 8) (blkHead m ptr &&& notW freeFlag)
  m.write64 (addW ptr size) (blkTail m ptr size &&& notW freeFlag)

def blkSetfreed (m : Mem) (ptr size : Nat) : Mem :=
  let m := m.write64 (subW ptr 8) (blkHead m ptr ||| freeFlag)
  m.write64 (addW ptr size) (blkTail m ptr size ||| freeFlag)

def blkSize (m : Mem) (ptr : Nat) : Nat := blkHead m ptr &&& notW flagBits

/-- Writes both tags, clearing every flag. -/
def blkSetsize (m : Mem) (ptr size : Nat) : Mem :=
  (m.write64 (subW ptr 8) size).write64 (addW ptr size) size

def blkAreaIs2M (m : Mem) (ptr : Nat) : Bool := blkHead m ptr &&& sizeFlag != 0

def blkSetArea4k (m : Mem) (ptr size : Nat) : Mem :=
  let m := m.write64 (subW ptr 8) (blkHead m ptr &&& notW sizeFlag)
  m.write64 (addW ptr size) (blkTail m ptr size &&& notW sizeFlag)

def blkSetArea2M (m : Mem) (ptr size : Nat) : Mem :=
  let m := m.write64 (subW ptr 8) (blkHead m ptr ||| sizeFlag)
  m.write64 (addW ptr size) (blkTail m ptr size ||| sizeFlag)

/-- The area a block lies in, told from its size flag; for a manager of several areas only. -/
def blkAreaptr (m : Mem) (ptr : Nat) : Nat :=
  if blkAreaIs2M m ptr then ptr &&& notW (size2M - 1) else ptr &&& notW (size4k - 1)

/-- The pool structure the area's first marker points to. -/
def blkPoolptr (m : Mem) (ptr : Nat) : Nat := m.read64 (blkAreaptr m ptr) &&& notW flagBits

def blkPrev (m : Mem) (ptr : Nat) : Nat :=
  if blkNoprev m ptr then 0
  else subW (subW ptr 16) (blkPrevtail m ptr &&& notW flagBits)

def blkNext (m : Mem) (ptr : Nat) : Nat :=
  let size := blkSize m ptr
  if blkNonext m ptr size then 0 else addW (addW ptr size) 16

/-- Cut the block at `ptr`; the second part starts behind a payload of `size`. -/
def blkSplit (m : Mem) (ptr size : Nat) : Nat × Mem :=
  let is2M := blkAreaIs2M m ptr
  let oldsize := blkSize m ptr
  let m := blkSetsize m ptr size
  let m := if is2M then blkSetArea2M m ptr size else m
  let offset := addW size 16
  let m := blkSetsize m (addW ptr offset) (subW oldsize offset)
  let m := if is2M then blkSetArea2M m (addW ptr offset) (subW oldsize offset) else m
  (addW ptr offset, m)

/-! ## Merging

The merge functions take the callback that removes a neighbour from its free
list; the callback works on the allocator's own state, so they run over the heap
as a whole: its memory and the structure managing it.
-/

/-- A managed heap: memory, the manager's own fields, and the calls made to `cb_delmem`. -/
structure Heap (P : Type) where
  mem : Mem
  pool : P
  delmem : List (Nat × Nat)

variable {P : Type}

def blkMergeprev (detach : Heap P → Nat → Heap P) (h : Heap P) (ptr : Nat) : Nat × Heap P :=
  let prev := blkPrev h.mem ptr
  let size := addW (addW (blkSize h.mem ptr) (blkSize h.mem prev)) 16
  let h := detach h prev
  (prev, { h with mem := blkSetsize h.mem prev size })

def blkMergenext (detach : Heap P → Nat → Heap P) (h : Heap P) (ptr : Nat) : Nat × Heap P :=
  let next := blkNext h.mem ptr
  let size := addW (addW (blkSize h.mem ptr) (blkSize h.mem next)) 16
  let h := detach h next
  (ptr, { h with mem := blkSetsize h.mem ptr size })

def blkTrymerge (detach : Heap P → Nat → Heap P) (h : Heap P) (ptr : Nat) : Nat × Heap P :=
  let is2M := blkAreaIs2M h.mem ptr
  let size := blkSize h.mem ptr
  let (ptr, h) :=
    if !blkNonext h.mem ptr size && blkNexthead h.mem ptr size &&& freeFlag != 0 then
      blkMergenext detach h ptr
    else (ptr, h)
  let (ptr, h) :=
    if !blkNoprev h.mem ptr && blkPrevtail h.mem ptr &&& freeFlag != 0 then
      blkMergeprev detach h ptr
    else (ptr, h)
  (ptr, if is2M then { h with mem := blkSetArea2M h.mem ptr (blkSize h.mem ptr) } else h)

/-! ## Areas -/

def allocareaSize (m : Mem) (ptr : Nat) : Nat :=
  if m.read64 ptr &&& sizeFlag ≠ 0 then size2M else size4k

def allocareaInit (m : Mem) (addr size pdata : Nat) : Mem :=
  let sizeFlag := if size = size2M then sizeFlag else 0
  let len := size / 8
  let data := pdata ||| areaFlag ||| sizeFlag
  let m := m.write64 (addW addr (subW len 1 * 8)) data
  let m := m.write64 addr data
  let ptr := addW addr 16
  let size := subW size 32
  let m := blkSetsize m ptr size
  let m := blkSetfreed m ptr size
  if sizeFlag ≠ 0 then blkSetArea2M m ptr size else blkSetArea4k m ptr size

/-- The result is the block covering the added space, `0` when there is none. -/
def allocareaReinit (m : Mem) (addr oldsize newsize : Nat) : Nat × Mem :=
  if newsize = oldsize then (0, m)
  else
    let len := newsize / 8
    let data := m.read64 addr &&& notW flagBits ||| areaFlag |||
      (if newsize = size2M then sizeFlag else 0)
    let m := m.write64 (addW addr (subW len 1 * 8)) data
    let m := m.write64 addr data
    if newsize < oldsize then (0, m)
    else
      let blk := addW (addW addr oldsize) 8
      (blk, blkSetsize m blk (subW (subW newsize oldsize) 16))

end IonOS.Alloc
