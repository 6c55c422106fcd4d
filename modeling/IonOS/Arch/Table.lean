import IonOS.Lib.Memory
import IonOS.Libs.Klibc
import IonOS.Mm.Frame

/-!
# Page tables

`arch/x86_64/table.cpp` and `mm/hhdm.hpp`. A table is 512 words in one physical
frame; the kernel reaches it through the direct map, a window that shows physical
memory at `off`. The state is memory, addressed the way the kernel does, and the
frame allocator. `invlpg` has no effect on either.
-/

namespace IonOS.Arch

open IonOS.Lib IonOS.Libs IonOS.Mm

/-- Memory as the kernel sees it, and the frame allocator. -/
structure Machine where
  mem : Mem
  frames : Bitmap

/-! ## Addresses -/

/-- `phys_to_virt`; `off` is `physical_memory_offset`. -/
def physToVirt (off phys : Nat) : Nat := addW phys off

/-- `virt_to_phys`. -/
def virtToPhys (off virt : Nat) : Nat := subW virt off

/-- `&table->entries[i]`. -/
def entryAddr (table i : Nat) : Nat := addW table (8 * i)

/-- `~physical_memory_offset & ~(PAGE_SIZE - 1)`, applied to an entry or an address. -/
def offMask (off v : Nat) : Nat := v &&& notW off &&& notW (pageSize - 1)

/-- The constant mask of `unmap` and `translate_addr`. -/
def walkMask (v : Nat) : Nat := v &&& 0x000fffffffff000

/-- The constant mask of the two recursions. -/
def copyMask (v : Nat) : Nat := v &&& 0x00007ffffffff000

def l4Index (virt : Nat) : Nat := virt >>> 39 &&& 0x1FF
def l3Index (virt : Nat) : Nat := virt >>> 30 &&& 0x1FF
def l2Index (virt : Nat) : Nat := virt >>> 21 &&& 0x1FF
def l1Index (virt : Nat) : Nat := virt >>> 12 &&& 0x1FF

/-! ## Mapping -/

/-- The first `n` steps of the clearing loop. -/
def pageTableClear (m : Mem) (table : Nat) : Nat → Mem
  | 0 => m
  | n + 1 => (pageTableClear m table n).write64 (entryAddr table n) 0

/-- The table an entry points to, which is made first where there is none. -/
def pageTableCreate (off : Nat) (s : Machine) (entry : Nat) : Nat × Machine :=
  if s.mem.read64 entry = 0 then
    let (frame, frames) := allocFrames s.frames 1
    -- present, read_write, user
    let m := s.mem.write64 entry (frame ||| 1 ||| 2 ||| 4)
    let table := physToVirt off (offMask off (m.read64 entry))
    (table, { mem := pageTableClear m table 512, frames := frames })
  else (physToVirt off (offMask off (s.mem.read64 entry)), s)

/-- The hardware flags for `present`, `read_write`, `user` and `executable`. -/
def archFlags (flags : Nat) : Nat :=
  (if flags &&& 0x1 ≠ 0 then 1 else 0) ||| (if flags &&& 0x2 ≠ 0 then 2 else 0) |||
    (if flags &&& 0x4 ≠ 0 then 4 else 0) ||| (if flags &&& 0x08 = 0 then 2 ^ 63 else 0)

def map (off root : Nat) (s : Machine) (virt phys flags : Nat) : Machine :=
  let l4Table := physToVirt off root
  let (l3Table, s) := pageTableCreate off s (entryAddr l4Table (l4Index virt))
  let (l2Table, s) := pageTableCreate off s (entryAddr l3Table (l3Index virt))
  let (l1Table, s) := pageTableCreate off s (entryAddr l2Table (l2Index virt))
  let value := offMask off phys ||| archFlags flags
  { s with mem := s.mem.write64 (entryAddr l1Table (l1Index virt)) value }

/-- The first `n` steps of the loop are `mapRange … n`. -/
def mapRange (off root : Nat) (s : Machine) (virt phys flags : Nat) : Nat → Machine
  | 0 => s
  | n + 1 =>
      let s := mapRange off root s virt phys flags n
      if phys = 0 then
        let (frame, frames) := allocFrames s.frames 1
        map off root { s with frames := frames } (addW virt (n * pageSize)) frame flags
      else map off root s (addW virt (n * pageSize)) (addW phys (n * pageSize)) flags

/-! ## Unmapping and translating -/

/-- Clear an entry, then free the frame that the entry, now cleared, names. -/
def clearEntry (off : Nat) (s : Machine) (entry : Nat) : Machine :=
  let m := s.mem.write64 entry 0
  { mem := m, frames := freeFrames s.frames (offMask off (m.read64 entry)) 1 }

def unmap (off root : Nat) (s : Machine) (virt : Nat) : Machine :=
  let l4Entry := entryAddr (physToVirt off root) (l4Index virt)
  let l3Entry := entryAddr (physToVirt off (walkMask (s.mem.read64 l4Entry))) (l3Index virt)
  let l2Entry := entryAddr (physToVirt off (walkMask (s.mem.read64 l3Entry))) (l2Index virt)
  let l1Entry := entryAddr (physToVirt off (walkMask (s.mem.read64 l2Entry))) (l1Index virt)
  let s := clearEntry off s l4Entry
  let s := clearEntry off s l3Entry
  let s := clearEntry off s l2Entry
  clearEntry off s l1Entry

/-- The first `n` steps of the loop are `unmapRange … n`. -/
def unmapRange (off root : Nat) (s : Machine) (virt : Nat) : Nat → Machine
  | 0 => s
  | n + 1 => unmap off root (unmapRange off root s virt n) (addW virt (n * pageSize))

def translateAddr (off root : Nat) (m : Mem) (virt : Nat) : Nat :=
  let l4Entry := entryAddr (physToVirt off root) (l4Index virt)
  let l3Entry := entryAddr (physToVirt off (walkMask (m.read64 l4Entry))) (l3Index virt)
  let l2Entry := entryAddr (physToVirt off (walkMask (m.read64 l3Entry))) (l2Index virt)
  let l1Entry := entryAddr (physToVirt off (walkMask (m.read64 l2Entry))) (l1Index virt)
  offMask off (m.read64 l1Entry)

/-! ## Copying and freeing whole trees -/

/-- `mm_context_t`. -/
structure MmContext where
  pageTablePhys : Nat
  refCount : Nat

/-- The first `n` steps of the loop over the entries of `source`. `next` copies one level down. -/
def copyEntries (off : Nat) (next : Machine → Nat → Bool → Nat × Machine) (source newTable : Nat)
    (kernelSpace : Nat → Bool) (s : Machine) : Nat → Machine
  | 0 => s
  | i + 1 =>
      let s := copyEntries off next source newTable kernelSpace s i
      let value := s.mem.read64 (entryAddr (physToVirt off source) i)
      if value ≠ 0 then { s with mem := s.mem.write64 (entryAddr newTable i) value }
      else
        let (newPageTable, s) := next s (copyMask value) (kernelSpace i)
        let value := s.mem.read64 (entryAddr (physToVirt off source) i)
        let value := virtToPhys off newPageTable ||| (value &&& 0xFFFF000000000FFF)
        { s with mem := s.mem.write64 (entryAddr newTable i) value }

/-- `source` is a physical address, the result a virtual one. -/
def copyPageTableRecursive (off : Nat) (allCopy : Bool) :
    Nat → Machine → Nat → Bool → Nat × Machine
  | 0, s, source, kernelSpace =>
      if source = 0 then (0, s)
      else if kernelSpace then (source, s)
      else
        let (frame, frames) := allocFrames s.frames 1
        let newPageTable := physToVirt off frame
        (newPageTable,
          { mem := memcpy s.mem newPageTable (physToVirt off source) pageSize, frames := frames })
  | level + 1, s, source, kernelSpace =>
      if source = 0 then (0, s)
      else
        let (physFrame, frames) := allocFrames s.frames 1
        let newTable := physToVirt off physFrame
        let count := if allCopy then 512 else if level + 1 = 4 then 256 else 512
        (newTable, copyEntries off (copyPageTableRecursive off allCopy level) source newTable
          (fun i => if level + 1 ≠ 4 then kernelSpace else 256 ≤ i) { s with frames := frames }
          count)

/-- `clone_page_table`: the context to use, and the old one afterwards. The structure `malloc`
hands out is cleared before it is used. -/
def clonePageTable (off : Nat) (s : Machine) (old : MmContext) (flags : Nat) :
    Option MmContext × MmContext × Machine :=
  if flags &&& 0x00000100 ≠ 0 then (none, { old with refCount := addW old.refCount 1 }, s)
  else
    let (newTable, s) := copyPageTableRecursive off (flags &&& 0x00000100 != 0) 4 s
      old.pageTablePhys false
    let newMm : MmContext := { pageTablePhys := virtToPhys off newTable, refCount := 0 }
    let m := memcpy s.mem (entryAddr (physToVirt off newMm.pageTablePhys) 256)
      (entryAddr (physToVirt off old.pageTablePhys) 256) (pageSize / 2)
    (some { newMm with refCount := addW newMm.refCount 1 }, old, { s with mem := m })

/-- The first `n` steps of the loop of `free_page_table_recursive`. -/
def freeEntries (off : Nat) (next : Machine → Nat → Machine) (table : Nat) (s : Machine) :
    Nat → Machine
  | 0 => s
  | i + 1 =>
      let s := freeEntries off next table s i
      next s (physToVirt off (copyMask (s.mem.read64 (entryAddr table i))))

def freePageTableRecursive (off : Nat) : Nat → Machine → Nat → Machine
  | 0, s, table =>
      if table = physToVirt off 0 then s
      else { s with frames := freeFrames s.frames (virtToPhys off table) 1 }
  | level + 1, s, table =>
      if table = physToVirt off 0 then s
      else
        let s := freeEntries off (freePageTableRecursive off level) table s
          (if level + 1 = 4 then 256 else 512)
        { s with frames := freeFrames s.frames (virtToPhys off table) 1 }

def freePageTable (off : Nat) (s : Machine) (directory : MmContext) : MmContext × Machine :=
  if directory.refCount = 1 then
    (directory, freePageTableRecursive off 4 s (physToVirt off directory.pageTablePhys))
  else ({ directory with refCount := subW directory.refCount 1 }, s)

end IonOS.Arch
