import IonOS.Alloc.Block
import IonOS.Lib.IntrusiveList

/-!
# Free lists

`alloc/freelist.hpp`. A free block's payload starts with the two link fields
`next` and `prev`. There are `freelistNum` lists by size class and, kept by the
owner, one more for everything from `freelistMaxblksize` up.

The matching loops only read, so a walk that is still going after as many steps
as there are addresses never ends; `Option` marks that case.
-/

namespace IonOS.Alloc

open IonOS.Lib

/-- `FREELIST_NUM`. -/
def freelistNum : Nat := 8

/-- `FREELIST_MAXBLKSIZE`. -/
def freelistMaxblksize : Nat := 16384

/-- `__builtin_clz` on the low 32 bits of its argument. -/
def builtinClz (x : Nat) : Int := 31 - (x % 2 ^ 32).log2

/-- Which class list a size belongs to; `-1` for none. -/
def freelistsSize2id (size : Nat) : Int :=
  if size < 64 then 0
  else if size < 256 then 1
  else if freelistMaxblksize ≤ size then -1
  else (32 - 9) - builtinClz size + 2

/-- The link fields of every address read as a node. -/
def linksOf (m : Mem) : Links Nat where
  next ptr := m.read64 ptr
  prev ptr := m.read64 (ptr + 8)

/-- The two stores that join a node's neighbours. -/
def freelistUnlink (m : Mem) (ptr : Nat) : Mem :=
  let m := if m.read64 ptr ≠ 0 then m.write64 (m.read64 ptr + 8) (m.read64 (ptr + 8)) else m
  if m.read64 (ptr + 8) ≠ 0 then m.write64 (m.read64 (ptr + 8)) (m.read64 ptr) else m

/-- The result is the new list head. -/
def freelistDetach (m : Mem) (list ptr : Nat) : Nat × Mem :=
  if list = ptr then (m.read64 ptr, m) else (list, freelistUnlink m ptr)

def freelistsDetach (m : Mem) (lists : Nat → Nat) (id : Nat) (ptr : Nat) : (Nat → Nat) × Mem :=
  if lists id = ptr then (Function.update lists id (m.read64 ptr), m)
  else (lists, freelistUnlink m ptr)

/-- The number of steps after which a read-only walk is known not to end. -/
def walkFuel : Nat := 2 ^ 64

/-- Both single-list matches: take the first node that `fits`; `0` when there is none. -/
def freelistMatchBy (fits : Mem → Nat → Bool) (m : Mem) (list : Nat) :
    Option (Nat × Nat × Mem) :=
  match Links.find (linksOf m).next 0 (fits m) walkFuel list with
  | none => none
  | some ptr =>
      if ptr = 0 then some (0, list, m)
      else
        let (list, m) := freelistDetach m list ptr
        some (ptr, list, m)

/-- Both class-list loops, with `n` lists to go from `id` up. -/
def freelistsMatchLoop (fits : Mem → Nat → Bool) (m : Mem) (lists : Nat → Nat) :
    Nat → Nat → Option (Nat × (Nat → Nat) × Mem)
  | 0, _ => some (0, lists, m)
  | n + 1, id =>
      match Links.find (linksOf m).next 0 (fits m) walkFuel (lists id) with
      | none => none
      | some ptr =>
          if ptr = 0 then freelistsMatchLoop fits m lists n (id + 1)
          else
            let (lists, m) := freelistsDetach m lists id ptr
            some (ptr, lists, m)

/-- Both class-list matches: start at the class of the requested size. -/
def freelistsMatchBy (fits : Mem → Nat → Bool) (m : Mem) (lists : Nat → Nat) (size : Nat) :
    Option (Nat × (Nat → Nat) × Mem) :=
  let id := freelistsSize2id size
  if id < 0 then some (0, lists, m)
  else freelistsMatchLoop fits m lists (freelistNum - id.toNat) id.toNat

/-- `tgt_size >= size`. -/
def sizeFits (size : Nat) (m : Mem) (ptr : Nat) : Bool := size ≤ blkSize m ptr

def freelistMatch (m : Mem) (list size : Nat) : Option (Nat × Nat × Mem) :=
  freelistMatchBy (sizeFits size) m list

def freelistsMatch (m : Mem) (lists : Nat → Nat) (size : Nat) :
    Option (Nat × (Nat → Nat) × Mem) :=
  freelistsMatchBy (sizeFits size) m lists size

/-! ## Aligned matching -/

/-- `PADDING_DOWN`. -/
def paddingDown (size unit : Nat) : Nat := size / unit * unit

/-- `PADDING_UP`. -/
def paddingUp (size unit : Nat) : Nat := paddingDown (subW (addW size unit) 1) unit

/-- The cast of a 64-bit word to `long`. -/
def toLong (x : Nat) : Int := if x < 2 ^ 63 then x else x - 2 ^ 64

/-- What is left of a block once its start is rounded up. -/
def alignedSizeOf (m : Mem) (ptr align : Nat) : Int :=
  toLong (blkSize m ptr) - toLong (subW (paddingUp ptr align) ptr)

/-- `tgt_size >= (long)size`. -/
def alignedFits (size align : Nat) (m : Mem) (ptr : Nat) : Bool :=
  toLong size ≤ alignedSizeOf m ptr align

def freelistAlignedMatch (m : Mem) (list size align : Nat) : Option (Nat × Nat × Mem) :=
  freelistMatchBy (alignedFits size align) m list

def freelistsAlignedMatch (m : Mem) (lists : Nat → Nat) (size align : Nat) :
    Option (Nat × (Nat → Nat) × Mem) :=
  freelistsMatchBy (alignedFits size align) m lists size

/-! ## Insertion -/

/-- The result is the new list head. -/
def freelistPut (m : Mem) (list ptr : Nat) : Nat × Mem :=
  let m := m.write64 ptr list
  let m := m.write64 (ptr + 8) 0
  (ptr, if m.read64 ptr ≠ 0 then m.write64 (m.read64 ptr + 8) ptr else m)

/-- The boolean says whether a class list took the block. -/
def freelistsPut (m : Mem) (lists : Nat → Nat) (ptr : Nat) : Bool × (Nat → Nat) × Mem :=
  let id := freelistsSize2id (blkSize m ptr)
  if id < 0 then (false, lists, m)
  else
    let (list, m) := freelistPut m (lists id.toNat) ptr
    (true, Function.update lists id.toNat list, m)

end IonOS.Alloc
