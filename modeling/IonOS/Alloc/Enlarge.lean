import IonOS.Alloc.Areas
import IonOS.Alloc.Growth

/-!
# Enlarging an area

What `mpool_reqmem` does with memory that it accepts. `allocarea_reinit` writes the
markers of the bigger area and makes a block of the memory added. The head of that
block belongs where the old end marker is. It is put one word behind it, and so the
old marker stays where it was, the block is not aligned, and its tail is written over
the new end marker.

`blk_trymerge` then sees the old marker in front of the block, and does not merge. On
the other side it reads the word behind the area, which is not the pool's.
-/

namespace IonOS.Alloc

open IonOS.Lib

variable {a addr oldsize newsize n : Nat} {h h' : Heap Mpool} {m m' : Mem} {bs : List Block}
  {hd : Nat → Nat} {L : Nat → List Nat}

/-! ## The code -/

/-- The tail of `mpool_reqmem`, up to where the block goes on a list. -/
def enlarge (h : Heap Mpool) (addr oldsize newsize : Nat) : Nat × Heap Mpool :=
  let (ptr, m) := allocareaReinit h.mem addr oldsize newsize
  let (ptr, h) :=
    blkTrymerge detach { h with mem := m, pool := { h.pool with size := newsize } } ptr
  (ptr, { h with mem := blkSetfreed h.mem ptr (blkSize h.mem ptr) })

/-- Memory that `mpool_reqmem` accepts is made part of the area. -/
theorem mpoolReqmem_accepts {f : Nat → Nat → Nat} (hcb : h.pool.cbReqmem = some f)
    (hptr : h.pool.ptr ≠ 0)
    (hmem : f (addW h.pool.ptr h.pool.size) (padding16k n) = h.pool.ptr)
    (hsize : addW h.pool.size (padding16k n) = newsize)
    (hblk : (allocareaReinit h.mem h.pool.ptr h.pool.size newsize).1 ≠ 0) :
    mpoolReqmem h n = some (true,
      putLarge (enlarge h h.pool.ptr h.pool.size newsize).2
        (enlarge h h.pool.ptr h.pool.size newsize).1) := by
  have h0 : ¬ f (addW h.pool.ptr h.pool.size) (padding16k n) = 0 :=
    fun h0 => hptr (hmem.symm.trans h0)
  rw [mpoolReqmem, hcb]
  refine (if_neg h0).trans ((if_neg (not_not.mpr hmem)).trans ?_)
  rw [hsize]
  unfold enlarge
  -- what was returned is not to be computed
  generalize allocareaReinit h.mem h.pool.ptr h.pool.size newsize = r at hblk ⊢
  exact (if_neg hblk).trans rfl

/-! ## Areas -/

/-- **A well-formed area**: blocks with their tags from behind the first marker up to the last. -/
structure AreaOk (a e : Nat) (m : Mem) (bs : List Block) : Prop where
  tiling : Tiling Block.ptr Block.len (a + 16) bs e
  sizes : ∀ b ∈ bs, b.size % 16 = 0 ∧ 16 ≤ b.size
  tags : ∀ b ∈ bs, Tagged m b
  first : m.read64 a / 2 % 2 = 1
  last : m.read64 (e - 8) / 2 % 2 = 1

theorem Layout.areaOk {e : Nat} (hl : Layout a e m hd bs L) : AreaOk a e m bs :=
  ⟨hl.tiling, hl.sizes, hl.tags, hl.first, hl.last⟩

/-- An area that is followed by memory, and how big it is to be. -/
structure Growable (a oldsize newsize : Nat) (m : Mem) (bs : List Block) : Prop where
  nonnull : a ≠ 0
  align : a % 16 = 0
  oldAlign : oldsize % 16 = 0
  newAlign : newsize % 16 = 0
  lt : oldsize < newsize
  fits : a + newsize ≤ 2 ^ 64
  area : AreaOk a (a + oldsize) m bs
  /-- Every block is free or allocated. -/
  settled : ∀ b ∈ bs, b.st ≠ .hand

/-- A block has the tags it had, and what it held if it is allocated. -/
structure Untouched (m m' : Mem) (b : Block) : Prop where
  head : m'.read64 (b.ptr - 8) = m.read64 (b.ptr - 8)
  tail : m'.read64 (b.ptr + b.size) = m.read64 (b.ptr + b.size)
  payload : b.st = .live → ∀ w, b.ptr ≤ w → w < b.ptr + b.size → m' w = m w

/-- **An area enlarged as it should be.** -/
structure Enlarged (a newsize : Nat) (bs : List Block) (m m' : Mem) : Prop where
  /-- The bigger area is well-formed. All that was there is there, but for a free block at its end,
  which may be part of a bigger one now. -/
  area : ∃ bs', AreaOk a (a + newsize) m' bs' ∧
    ∀ b ∈ bs, (b ∈ bs' ∧ Untouched m m' b) ∨ (b.st = .free ∧ bs.getLast? = some b)
  /-- Nothing behind it is written. -/
  beyond : ∀ x, a + newsize ≤ x → m' x = m x

/-- The area of a pool can be grown into memory behind it, at any point of any run. -/
theorem Inv.growable {s : PoolState} (hi : Inv a (a + oldsize) s) (ha : a ≠ 0)
    (hlt : oldsize < newsize) (hnew : newsize % 16 = 0) (hfits : a + newsize ≤ 2 ^ 64) :
    ∃ bs, Growable a oldsize newsize s.heap.mem bs := by
  obtain ⟨bs, L, hs⟩ := hi.shows
  have hl : Layout a (a + oldsize) s.heap.mem (listHead s.heap.pool) bs L := hs.laid
  have hend := hl.area.alignEnd
  have hal := hl.area.align
  exact ⟨bs, ha, hal, by omega, hnew, hlt, hfits, hl.areaOk, hs.settled⟩

/-- The same pool and the same area, whatever there is around it. -/
structure Around (a size : Nat) (h h' : Heap Mpool) : Prop where
  pool : h'.pool = h.pool
  area : ∀ x, a ≤ x → x < a + size → h'.mem x = h.mem x

/-- A word that `blk_trymerge` takes for the head of a free block. -/
def FreeHead (w : Nat) : Prop := (w &&& areaFlag) = 0 ∧ (w &&& freeFlag) ≠ 0

/-! ## What the code makes of it -/

/-- The block, which begins a word too late. -/
def lateBlock (a oldsize : Nat) : Nat := a + oldsize + 8

/-- Its size. -/
def lateSize (oldsize newsize : Nat) : Nat := newsize - oldsize - 16

namespace Growable

variable (hg : Growable a oldsize newsize m bs)
include hg

theorem bounds : 16 ≤ a ∧ 16 ≤ oldsize ∧ oldsize + 16 ≤ newsize := by
  obtain ⟨h0, h1, h2, h3, h4, -, harea, -⟩ := hg
  have hle := harea.tiling.le
  omega

theorem reinit_fst (m' : Mem) :
    (allocareaReinit m' a oldsize newsize).1 = lateBlock a oldsize := by
  obtain ⟨hb1, hb2, hb3⟩ := hg.bounds
  have hfits := hg.fits
  unfold allocareaReinit lateBlock
  dsimp only
  rw [if_neg (by omega), if_neg (by omega), addW_of_lt (a := a) (by omega), addW_of_lt (by omega)]

/-- The words that `allocarea_reinit` writes and those around them. -/
theorem reinit_words (m' : Mem) :
    (allocareaReinit m' a oldsize newsize).2.read64 (a + oldsize) = lateSize oldsize newsize ∧
      (allocareaReinit m' a oldsize newsize).2.read64 (a + newsize - 8) =
        lateSize oldsize newsize ∧
      (allocareaReinit m' a oldsize newsize).2.read64 (a + oldsize - 8) =
        m'.read64 (a + oldsize - 8) ∧
      (allocareaReinit m' a oldsize newsize).2.read64 (addW a newsize) =
        m'.read64 (addW a newsize) := by
  obtain ⟨hb1, hb2, hb3⟩ := hg.bounds
  have hfits := hg.fits
  have hal := hg.align
  have hold := hg.oldAlign
  have hnew := hg.newAlign
  have hbehind : addW a newsize % 8 = 0 ∧
      (addW a newsize = 0 ∨ a + newsize ≤ addW a newsize) := by
    unfold addW
    omega
  have hlen : addW a (subW (newsize / 8) 1 * 8) = a + newsize - 8 := by
    rw [subW_of_le (by omega) (by omega), addW_of_lt (by omega)]
    omega
  have hsize : subW (subW newsize oldsize) 16 = lateSize oldsize newsize := by
    rw [subW_of_le (a := newsize) (by omega) (by omega), subW_of_le (by omega) (by omega)]
    rfl
  have hlt : lateSize oldsize newsize < 2 ^ 64 := by
    unfold lateSize
    omega
  have hhead : subW (lateBlock a oldsize) 8 = a + oldsize := by
    unfold lateBlock
    rw [subW_of_le (by omega) (by omega)]
    omega
  have htail : addW (lateBlock a oldsize) (lateSize oldsize newsize) = a + newsize - 8 := by
    unfold lateBlock lateSize
    rw [addW_of_lt (by omega)]
    omega
  have hblk : addW (addW a oldsize) 8 = lateBlock a oldsize := by
    rw [addW_of_lt (a := a) (by omega), addW_of_lt (by omega)]
    rfl
  unfold allocareaReinit
  dsimp only
  rw [if_neg (by omega), if_neg (by omega), hlen, hsize, hblk]
  -- four stores: the end marker, the first one, the head of the block, and its tail at the end
  unfold blkSetsize
  rw [hhead, htail]
  refine ⟨?_, ?_, ?_, ?_⟩
  · rw [Mem.read64_write64_ne _ _ (by omega) (by omega) (by omega),
      Mem.read64_write64_same _ _ hlt]
  · rw [Mem.read64_write64_same _ _ hlt]
  · rw [Mem.read64_write64_ne _ _ (by omega) (by omega) (by omega),
      Mem.read64_write64_ne _ _ (by omega) (by omega) (by omega),
      Mem.read64_write64_ne _ _ (by omega) (by omega) (by omega),
      Mem.read64_write64_ne _ _ (by omega) (by omega) (by omega)]
  · rw [Mem.read64_write64_ne _ _ (by omega) (by omega) (by omega),
      Mem.read64_write64_ne _ _ (by omega) (by omega) (by omega),
      Mem.read64_write64_ne _ _ (by omega) (by omega) (by omega),
      Mem.read64_write64_ne _ _ (by omega) (by omega) (by omega)]

/-- What `blk_trymerge` asks about the block: the marker in front stops it on one side, and on the
other it depends on the word behind the area. -/
theorem reinit_merge (hm : ∀ x, a ≤ x → x < a + oldsize → m' x = m x) :
    blkSize (allocareaReinit m' a oldsize newsize).2 (lateBlock a oldsize) =
        lateSize oldsize newsize ∧
      blkAreaIs2M (allocareaReinit m' a oldsize newsize).2 (lateBlock a oldsize) = false ∧
      prevFree (allocareaReinit m' a oldsize newsize).2 (lateBlock a oldsize) = false ∧
      (nextFree (allocareaReinit m' a oldsize newsize).2 (lateBlock a oldsize)
          (lateSize oldsize newsize) = true ↔ FreeHead (m'.read64 (addW a newsize))) := by
  obtain ⟨hb1, hb2, hb3⟩ := hg.bounds
  obtain ⟨hhead, -, hmark, hbehind⟩ := hg.reinit_words m'
  have hfits := hg.fits
  have hold := hg.oldAlign
  have hnew := hg.newAlign
  have hlast : m'.read64 (a + oldsize - 8) / 2 % 2 = 1 := by
    rw [Mem.read64_congr fun x h1 h2 => hm x (by omega) (by omega)]
    exact hg.area.last
  have hsize : lateSize oldsize newsize % 16 = 0 := by
    unfold lateSize
    omega
  have hpos : lateBlock a oldsize - 8 = a + oldsize ∧ lateBlock a oldsize - 16 = a + oldsize - 8 ∧
      16 ≤ lateBlock a oldsize ∧ lateBlock a oldsize < 2 ^ 64 := by
    unfold lateBlock
    omega
  obtain ⟨hpos8, hpos16, hlow, hhigh⟩ := hpos
  have hnext : addW (addW (lateBlock a oldsize) (lateSize oldsize newsize)) 8 = addW a newsize := by
    unfold addW lateBlock lateSize
    omega
  have hblk : blkHead (allocareaReinit m' a oldsize newsize).2 (lateBlock a oldsize) =
      lateSize oldsize newsize := by
    rw [blkHead_eq _ (by omega) hhigh, hpos8, hhead]
  refine ⟨?_, ?_, ?_, ?_⟩
  · rw [blkSize, hblk, flagBits, and_notW_seven]
    · omega
    · unfold lateSize
      omega
  · rw [blkAreaIs2M, hblk, and_sizeFlag, decide_eq_false_iff_not]
    omega
  · rw [prevFree, blkNoprev, blkPrevtail_eq _ hlow hhigh, hpos16, hmark, and_areaFlag,
      decide_eq_true hlast]
    rfl
  · rw [nextFree, blkNonext, blkNexthead, hnext, hbehind, FreeHead]
    simp

/-- Without a free block behind the area the new block stays as it is, its tail over the marker. -/
theorem enlarge_word (hm : ∀ x, a ≤ x → x < a + oldsize → h'.mem x = m x)
    (hfree : ¬ FreeHead (h'.mem.read64 (addW a newsize))) :
    (enlarge h' a oldsize newsize).1 = lateBlock a oldsize ∧
      (enlarge h' a oldsize newsize).2.mem.read64 (a + newsize - 8) =
        lateSize oldsize newsize + 1 := by
  obtain ⟨hb1, hb2, hb3⟩ := hg.bounds
  obtain ⟨-, htail, -, -⟩ := hg.reinit_words h'.mem
  obtain ⟨hsize, h2M, hprev, hnext⟩ := hg.reinit_merge hm
  have hfits := hg.fits
  have hal := hg.align
  have hold := hg.oldAlign
  have hnew := hg.newAlign
  have hfst := hg.reinit_fst h'.mem
  unfold enlarge
  generalize allocareaReinit h'.mem a oldsize newsize = r at *
  obtain ⟨x, m₂⟩ := r
  obtain rfl : x = lateBlock a oldsize := hfst
  dsimp only at *
  -- so neither merge is made
  have hnonext : nextFree m₂ (lateBlock a oldsize) (lateSize oldsize newsize) = false := by
    rw [← Bool.not_eq_true, hnext]
    exact hfree
  have hmerge : ∀ g : Heap Mpool, g.mem = m₂ →
      blkTrymerge detach g (lateBlock a oldsize) = (lateBlock a oldsize, g) := by
    rintro g rfl
    rw [blkTrymerge_eq, tryNext, hsize, hnonext, if_neg (by simp), tryPrev, hprev,
      if_neg (by simp), h2M, if_neg (by simp)]
  rw [hmerge _ rfl]
  refine ⟨rfl, ?_⟩
  have hhigh : lateBlock a oldsize + lateSize oldsize newsize = a + newsize - 8 := by
    unfold lateBlock lateSize
    omega
  have hlow : subW (lateBlock a oldsize) 8 = a + oldsize := by
    unfold lateBlock
    rw [subW_of_le (by omega) (by omega)]
    omega
  have hkept : ∀ v, blkTail (m₂.write64 (a + oldsize) v) (lateBlock a oldsize)
      (lateSize oldsize newsize) = lateSize oldsize newsize := by
    intro v
    rw [blkTail_eq _ (by omega), hhigh,
      Mem.read64_write64_ne _ _ (by omega) (by omega) (by omega), htail]
  have hfreed : lateSize oldsize newsize ||| freeFlag = lateSize oldsize newsize + 1 := by
    have hor : lateSize oldsize newsize ||| freeFlag = lateSize oldsize newsize / 2 * 2 + 1 :=
      or_one _
    unfold lateSize at hor ⊢
    omega
  dsimp only
  rw [hsize, blkSetfreed, hlow, hkept, hfreed, addW_of_lt (by omega), hhigh,
    Mem.read64_write64_same _ _ (by unfold lateSize; omega)]

end Growable

/-- **No area is enlarged as it should be**: not in any surroundings in which the word behind the
bigger area does not read as the head of a free block, so not in all of them. -/
theorem enlarge_never (hg : Growable a oldsize newsize h.mem bs) :
    (∀ h', Around a newsize h h' → ¬ FreeHead (h'.mem.read64 (addW a newsize)) →
      ¬ Enlarged a newsize bs h'.mem (enlarge h' a oldsize newsize).2.mem) ∧
    ¬ ∀ h', Around a newsize h h' →
      Enlarged a newsize bs h'.mem (enlarge h' a oldsize newsize).2.mem := by
  have hlt := hg.lt
  have hfirst : ∀ h', Around a newsize h h' → ¬ FreeHead (h'.mem.read64 (addW a newsize)) →
      ¬ Enlarged a newsize bs h'.mem (enlarge h' a oldsize newsize).2.mem := by
    intro h' haround hfree hdone
    obtain ⟨bs', harea, -⟩ := hdone.area
    -- the word at the end is a multiple of 16 and one, and the flag is the second bit
    have hlast := harea.last
    have hword := (hg.enlarge_word (fun x h1 h2 => haround.area x h1 (by omega)) hfree).2
    have hold := hg.oldAlign
    have hnew := hg.newAlign
    rw [hword] at hlast
    unfold lateSize at hlast
    omega
  refine ⟨hfirst, fun hall => ?_⟩
  -- nothing but zeros around the area
  have haround : Around a newsize h
      { h with mem := fun x => if a ≤ x ∧ x < a + newsize then h.mem x else 0 } :=
    ⟨rfl, fun x h1 h2 => if_pos ⟨h1, h2⟩⟩
  refine hfirst _ haround ?_ (hall _ haround)
  obtain ⟨hb1, -, -⟩ := hg.bounds
  have hfits := hg.fits
  have hbehind : addW a newsize = 0 ∨ a + newsize ≤ addW a newsize := by
    unfold addW
    omega
  have hzero : Mem.read64 (fun x => if a ≤ x ∧ x < a + newsize then h.mem x else 0)
      (addW a newsize) = 0 := by
    rw [← Mem.read64_zero (addW a newsize)]
    exact Mem.read64_congr fun x h1 h2 => if_neg (by omega)
  rw [hzero]
  exact fun hfree => hfree.2 rfl

theorem fullHeap_growable : ∃ bs, Growable 65536 16416 32800 fullHeap.mem bs :=
  (inv_reachable fullHeap_place fullHeap_reachable).growable (by decide) (by decide) (by decide)
    (by decide)

/-- A full pool that is given as much memory again. -/
theorem enlarge_never_full : ∃ bs, ¬ ∀ h', Around 65536 32800 fullHeap h' →
    Enlarged 65536 32800 bs h'.mem (enlarge h' 65536 16416 32800).2.mem := by
  obtain ⟨bs, hg⟩ := fullHeap_growable
  exact ⟨bs, (enlarge_never hg).2⟩

/-- The block begins a word behind where it should, and the end marker is its tail. -/
theorem enlarge_spoils_marker : ∃ bs, Growable 65536 16416 32800 fullHeap.mem bs ∧
    (enlarge fullHeap 65536 16416 32800).1 = 81960 ∧
    (enlarge fullHeap 65536 16416 32800).2.mem.read64 98328 = 16369 ∧
    ¬ Enlarged 65536 32800 bs fullHeap.mem (enlarge fullHeap 65536 16416 32800).2.mem := by
  obtain ⟨bs, hg⟩ := fullHeap_growable
  have hwords : (enlarge fullHeap 65536 16416 32800).1 = 81960 ∧
      (enlarge fullHeap 65536 16416 32800).2.mem.read64 98328 = 16369 := by decide +kernel
  refine ⟨bs, hg, hwords.1, hwords.2, fun hdone => ?_⟩
  obtain ⟨bs', harea, -⟩ := hdone.area
  have hlast : (enlarge fullHeap 65536 16416 32800).2.mem.read64 98328 / 2 % 2 = 1 := harea.last
  rw [hwords.2] at hlast
  exact absurd hlast (by decide)

end IonOS.Alloc
