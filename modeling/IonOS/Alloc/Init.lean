import IonOS.Alloc.Safety

/-!
# Setting up a pool

`mpool_init` takes every size that is a multiple of two words. Two markers, the
two tags of the first block and the list node in its payload need six words. With
four words the node lies on the second marker, and with two words the size of the
first block wraps around.
-/

namespace IonOS.Alloc

open IonOS.Lib

variable {a size : Nat} {h h0 : Heap Mpool} {m : Mem}

/-- **A usable area**: nothing is written outside of it, both markers are there, and one block
takes up all of the space between them. -/
structure Usable (a size : Nat) (h0 h : Heap Mpool) : Prop where
  outside : ∀ w, ¬ (a ≤ w ∧ w < a + size) → h.mem w = h0.mem w
  first : h.mem.read64 a &&& areaFlag ≠ 0
  last : h.mem.read64 (addW a (size - 8)) &&& areaFlag ≠ 0
  /-- The size of the block, as an integer. -/
  block : (blkSize h.mem (addW a 16) : Int) = size - 32
  least : 16 ≤ blkSize h.mem (addW a 16)
  align : blkSize h.mem (addW a 16) % 16 = 0

/-- Whatever the memory holds before, what is accepted is usable. -/
def InitOk (a size : Nat) : Prop := ∀ h0 h, mpoolInit h0 a size = (true, h) → Usable a size h0 h

/-- The size test of the source. -/
theorem mpoolInit_eq (ha : a ≠ 0) (h0 : size ≠ 0) (h16 : size % 16 = 0) (g : Heap Mpool) :
    mpoolInit g a size = (true, putLarge
      { g with
        mem := allocareaInit g.mem a size 0
        pool := ⟨a, size, 0, none, false, 0, fun _ => 0⟩ } (addW a 16)) := by
  have hmask : size &&& (2 * 8 - 1) = 0 := by
    rw [show 2 * 8 - 1 = 2 ^ 4 - 1 from rfl, Nat.and_two_pow_sub_one_eq_mod]
    exact h16
  rw [mpoolInit, if_neg (by omega), if_neg (not_not.mpr hmask)]

theorem mpoolInit_refused (h : size = 0 ∨ size % 16 ≠ 0) (g : Heap Mpool) :
    (mpoolInit g a size).1 = false := by
  rw [mpoolInit]
  split
  · rfl
  · rename_i hzero
    have hmask : size &&& (2 * 8 - 1) ≠ 0 := by
      rw [show 2 * 8 - 1 = 2 ^ 4 - 1 from rfl, Nat.and_two_pow_sub_one_eq_mod]
      exact h.resolve_left fun h => hzero (.inr h)
    rw [if_pos hmask]

/-- Six words are enough. -/
theorem usable_init (ha : a % 16 = 0) (hpos : a ≠ 0) (h16 : size % 16 = 0) (hmin : 48 ≤ size)
    (hend : a + size ≤ 2 ^ 64) (g : Heap Mpool) : Usable a size g (mpoolInit g a size).2 := by
  have hf : Fits (a + 16) (size - 32) := ⟨by omega, by omega, by omega, by omega⟩
  have htag := allocareaInit_tagged (m := g.mem) hf (by omega) (by omega) 0
  obtain ⟨hfirst, hlast⟩ := allocareaInit_markers (m := g.mem) hf (by omega) h16 (by omega)
  have hadd : addW a 16 = a + 16 := addW_of_lt (by omega)
  have hmark : addW a (size - 8) = a + size - 8 := by
    rw [addW_of_lt (by omega)]
    omega
  rw [mpoolInit_eq hpos (by omega) h16, hadd]
  -- the list node lies in the payload
  have hput : ∀ w, w < a + 16 ∨ a + 32 ≤ w →
      (freelistPut (allocareaInit g.mem a size 0) 0 (a + 16)).2 w =
        allocareaInit g.mem a size 0 w := by
    intro w hw
    exact freelistPut_other (Links.isList_nil _ _) (by decide) (by omega) (by simp)
  have hread : ∀ w, w + 8 ≤ a + 16 ∨ a + 32 ≤ w →
      (freelistPut (allocareaInit g.mem a size 0) 0 (a + 16)).2.read64 w =
        (allocareaInit g.mem a size 0).read64 w := by
    intro w hw
    exact Mem.read64_congr fun v h1 h2 => hput v (by omega)
  have hsize : blkSize (freelistPut (allocareaInit g.mem a size 0) 0 (a + 16)).2 (a + 16) =
      size - 32 := by
    rw [blkSize, blkHead_eq _ (by omega) (by omega), hread _ (by omega),
      ← blkHead_eq _ (by omega) (by omega), ← blkSize]
    exact htag.blkSize (by dsimp only; omega) (by dsimp only; omega)
  refine ⟨fun w hw => ?_, ?_, ?_, ?_, ?_, ?_⟩
  · exact (hput w (by omega)).trans (allocareaInit_other hf (by omega) h16 (by omega) (by omega))
  · show (freelistPut _ 0 (a + 16)).2.read64 a &&& areaFlag ≠ 0
    rw [hread a (by omega)]
    exact marker_set hfirst
  · show (freelistPut _ 0 (a + 16)).2.read64 (addW a (size - 8)) &&& areaFlag ≠ 0
    rw [hmark, hread _ (by omega)]
    exact marker_set hlast
  · show (blkSize (freelistPut _ 0 (a + 16)).2 (addW a 16) : Int) = size - 32
    rw [hadd, hsize]
    omega
  · show 16 ≤ blkSize (freelistPut _ 0 (a + 16)).2 (addW a 16)
    rw [hadd, hsize]
    omega
  · show blkSize (freelistPut _ 0 (a + 16)).2 (addW a 16) % 16 = 0
    rw [hadd, hsize]
    omega

/--
**An accepted area is usable** exactly when it has six words and does not run
beyond the end of the address space.
-/
theorem initOk_iff (ha : a % 16 = 0) (hpos : a ≠ 0) (hlt : a < 2 ^ 64) (hs : size < 2 ^ 64) :
    InitOk a size ↔ size = 0 ∨ size % 16 ≠ 0 ∨ 48 ≤ size ∧ a + size ≤ 2 ^ 64 := by
  by_cases hrefused : size = 0 ∨ size % 16 ≠ 0
  · refine iff_of_true (fun g h hr => ?_) (by omega)
    have := mpoolInit_refused (a := a) hrefused g
    rw [hr] at this
    exact absurd this (by simp)
  obtain ⟨h0, h16⟩ := not_or.mp hrefused
  have h16' : size % 16 = 0 := not_not.mp h16
  rw [or_iff_right h0, or_iff_right h16]
  constructor
  · intro hok
    obtain ⟨hout, hfirst, hlast, hblock, hleast, -⟩ :=
      hok emptyHeap _ (mpoolInit_eq hpos h0 h16' emptyHeap)
    refine ⟨by omega, ?_⟩
    by_contra hwrap
    -- the last marker is somewhere else, where nothing may be written
    refine hlast ?_
    rw [Mem.read64_congr fun w h1 h2 => hout w ?_]
    · rw [show emptyHeap.mem = fun _ => 0 from rfl, Mem.read64_zero, Nat.zero_and]
    · unfold addW at h1 h2
      omega
  · intro hbig g h hr
    obtain ⟨hmin, hend⟩ := hbig
    have hu := usable_init ha hpos h16' hmin hend g
    rwa [hr] at hu

/-- The least area. -/
theorem initOk_least : InitOk 65536 48 :=
  (initOk_iff (by decide) (by decide) (by decide) (by decide)).mpr (.inr (.inr (by decide)))

/-- **Four words are accepted** and not enough: there is no room in the one block, and the list
node takes the second marker away. -/
theorem init_overwrites : (mpoolInit emptyHeap 65536 32).1 = true ∧
    blkSize (mpoolInit emptyHeap 65536 32).2.mem 65552 = 0 ∧
    (mpoolInit emptyHeap 65536 32).2.mem.read64 (65536 + 32 - 8) = 0 ∧ ¬ InitOk 65536 32 := by
  have hrun : (mpoolInit emptyHeap 65536 32).1 = true ∧
      blkSize (mpoolInit emptyHeap 65536 32).2.mem 65552 = 0 ∧
      (mpoolInit emptyHeap 65536 32).2.mem.read64 (65536 + 32 - 8) = 0 := by decide +kernel
  obtain ⟨h1, h2, h3⟩ := hrun
  refine ⟨h1, h2, h3, fun hok => ?_⟩
  have hleast := (hok emptyHeap (mpoolInit emptyHeap 65536 32).2 (Prod.ext h1 rfl)).least
  rw [show addW 65536 16 = 65552 by decide, h2] at hleast
  exact absurd hleast (by decide)

end IonOS.Alloc
