import IonOS.Libs.Search
import IonOS.Lib.Runs
import Mathlib.Data.Finset.Card

/-!
# The frame allocator

`frame.cpp`: one bit per physical frame, set when the frame is free.

`alloc_frames` passes its arguments to the bitmap the wrong way round: it looks
for one bit equal to `(bool)count` where it means `count` bits equal to `true`.
It finds the lowest free frame, and takes `count` frames from there whatever
their bits are. `AllocFits` says when that does no harm.
-/

namespace IonOS.Mm

open IonOS.Lib IonOS.Libs

/-- `PAGE_SIZE`. -/
def pageSize : Nat := 4096

/-! ## Setting up -/

/-- An entry of the memory map. -/
structure MemmapEntry where
  base : Nat
  length : Nat
  /-- `type == LIMINE_MEMMAP_USABLE`. -/
  usable : Bool

/-- The end of the last usable entry; without one the source runs off the front of the map. -/
def getMemorySize (map : List MemmapEntry) : Option Nat :=
  (map.reverse.find? (·.usable)).map fun region => addW region.base region.length

/-- `init`. `dataAt` is what the memory at a physical address holds. -/
def frameInit (map : List MemmapEntry) (dataAt : Nat → Nat → UInt8) : Option Bitmap := do
  let memorySize ← getMemorySize map
  let bitmapSize := (memorySize / pageSize + 7) / 8
  let bitmapAddress := ((map.find? fun region => region.usable && bitmapSize ≤ region.length).map
    (·.base)).getD 0
  let bitmap := Bitmap.init (dataAt bitmapAddress) bitmapSize
  let bitmap := map.foldl (fun bitmap region =>
    if region.usable then
      let startFrame := region.base / pageSize
      let frameCount := region.length / pageSize
      bitmap.setRange startFrame (addW startFrame frameCount) true
    else bitmap) bitmap
  let bitmapFrameStart := bitmapAddress / pageSize
  let bitmapFrameCount := (bitmapSize + pageSize - 1) / pageSize
  pure (bitmap.setRange bitmapFrameStart (addW bitmapFrameStart bitmapFrameCount) false)

/-! ## Allocation -/

def allocFrames (b : Bitmap) (count : Nat) : Nat × Bitmap :=
  -- `find_range(count, true)`: the value is `(bool)count` and the length `(size_t)true`
  let frameIndex := b.findRange (count != 0) 1
  if frameIndex = Bitmap.notFound then (0, b)
  else
    (frameIndex * pageSize % 2 ^ 64,
      b.setRange frameIndex (addW frameIndex count) false)

def freeFrames (b : Bitmap) (addr count : Nat) : Bitmap :=
  let frameIndex := addr / pageSize
  b.setRange frameIndex (addW frameIndex count) true

/-! ## One allocation -/

/-- A frame the allocator may hand out. -/
def FreeFrame (b : Bitmap) (f : Nat) : Prop := f < b.size ∧ b.get f = true

instance (b : Bitmap) (f : Nat) : Decidable (FreeFrame b f) := inferInstanceAs (Decidable (_ ∧ _))

/-- What an allocation is for: the frames of the range returned were all free, and they are the
ones whose bits changed. -/
def AllocExact (b : Bitmap) (count : Nat) : Prop :=
  (allocFrames b count).1 ≠ 0 →
    (∀ k < count, FreeFrame b ((allocFrames b count).1 / pageSize + k)) ∧
    ∀ f, (allocFrames b count).2.get f ≠ b.get f ↔
      (allocFrames b count).1 / pageSize ≤ f ∧ f < (allocFrames b count).1 / pageSize + count

/-- The lowest free frame is frame 0, or `count` free frames start there. -/
def AllocFits (b : Bitmap) (count : Nat) : Prop :=
  ∀ f < b.size / 8 * 8, Bitmap.IsFirst b.get 0 f → f = 0 ∨ ∀ k < count, FreeFrame b (f + k)

variable {b : Bitmap} {count f : Nat}

theorem isFirst_unique {p : Nat → Bool} {lo r r' : Nat} (h : Bitmap.IsFirst p lo r)
    (h' : Bitmap.IsFirst p lo r') : r = r' := by
  obtain ⟨h1, h2, h3⟩ := h
  obtain ⟨h1', h2', h3'⟩ := h'
  rcases Nat.lt_trichotomy r r' with hlt | heq | hlt
  · exact absurd (h3' r h1 hlt) (by simp [h2])
  · exact heq
  · exact absurd (h3 r' h1' hlt) (by simp [h2'])

/-- Frame numbers and addresses. -/
theorem frameAddr {r : Nat} (hr : r < 2 ^ 52) :
    r * pageSize % 2 ^ 64 = r * pageSize ∧ r * pageSize / pageSize = r ∧
      (r * pageSize = 0 ↔ r = 0) := by
  unfold pageSize
  omega

/-- **What `alloc_frames` does**: nothing when no bit is set, else it takes the range from the
lowest set bit. -/
theorem allocFrames_cases (hsize : b.size ≤ 2 ^ 52) (hc : 1 ≤ count) :
    (∃ r < b.size / 8 * 8, Bitmap.IsFirst b.get 0 r ∧
      allocFrames b count = (r * pageSize, b.setRange r (addW r count) false)) ∨
    ((∀ i < b.size / 8 * 8, b.get i = false) ∧ allocFrames b count = (0, b)) := by
  have hvalue : (count != 0) = true := by simp; omega
  unfold allocFrames
  rw [hvalue]
  dsimp only
  rcases b.findRange_one with ⟨r, hr, hf, he⟩ | ⟨hall, he⟩
  · have hne : r ≠ Bitmap.notFound := by
      have : Bitmap.notFound = 2 ^ 64 - 1 := rfl
      omega
    refine .inl ⟨r, hr, hf, ?_⟩
    rw [he, if_neg hne, (frameAddr (by omega)).1]
  · exact .inr ⟨hall, by rw [he, if_pos rfl]⟩

/-- **One allocation is exact if and only if it fits.** -/
theorem allocExact_iff (hsize : b.size ≤ 2 ^ 52) (hc : 1 ≤ count) :
    AllocExact b count ↔ AllocFits b count := by
  unfold AllocExact
  rcases allocFrames_cases hsize hc with ⟨r, hr, hf, he⟩ | ⟨hall, he⟩
  · obtain ⟨-, hdiv, hzero⟩ := frameAddr (r := r) (by omega)
    rw [he]
    dsimp only
    rw [hdiv]
    constructor
    · intro hexact f hfs hff
      obtain rfl := isFirst_unique hf hff
      by_cases h0 : r = 0
      · exact .inl h0
      · exact .inr (hexact (fun h => h0 (hzero.mp h))).1
    · intro hfits h0
      rcases hfits r hr hf with h | hfree
      · exact absurd (hzero.mpr h) h0
      · refine ⟨hfree, fun f => ?_⟩
        have hlast := (hfree (count - 1) (by omega)).1
        rw [addW_of_lt (by omega), Bitmap.get_setRange (by omega) (by omega)]
        by_cases h : r ≤ f ∧ f < r + count
        · have hset := (hfree (f - r) (by omega)).2
          rw [Nat.add_sub_cancel' h.1] at hset
          rw [if_pos h, hset]
          simp [h]
        · rw [if_neg h]
          simp [h]
  · rw [he]
    exact ⟨fun _ f hfs hff => absurd hff.2.1 (by simp [hall f hfs]), fun _ h0 => absurd rfl h0⟩

/-! ## One frame -/

/-- The free frames below frame `lim` that the search sees. -/
def freeBelow (b : Bitmap) (lim : Nat) : Finset Nat :=
  (Finset.range (min (b.size / 8 * 8) lim)).filter fun f => b.get f = true

theorem mem_freeBelow {lim : Nat} :
    f ∈ freeBelow b lim ↔ f < b.size / 8 * 8 ∧ f < lim ∧ b.get f = true := by
  unfold freeBelow
  rw [Finset.mem_filter, Finset.mem_range, Nat.lt_min, and_assoc]

/-- **A single frame**: while one is free below `lim`, such a frame is returned, and its bit is the
only one to change. -/
theorem allocFrames_one {lim : Nat} (hsize : b.size ≤ 2 ^ 52) (hfree : (freeBelow b lim).Nonempty) :
    ∃ r b', r ∈ freeBelow b lim ∧ allocFrames b 1 = (r * pageSize, b') ∧ b'.size = b.size ∧
      ∀ f, b'.get f = if f = r then false else b.get f := by
  obtain ⟨x, hx⟩ := hfree
  obtain ⟨hx1, hx2, hx3⟩ := mem_freeBelow.mp hx
  rcases allocFrames_cases hsize (Nat.le_refl 1) with ⟨r, hr, hf, he⟩ | ⟨hall, -⟩
  · -- the frame found is the lowest, so it is no higher than `x`
    have hrx : r ≤ x := by
      by_contra h
      have := hf.2.2 x (Nat.zero_le _) (by omega)
      rw [hx3] at this
      exact absurd this (by simp)
    refine ⟨r, _, mem_freeBelow.mpr ⟨hr, by omega, hf.2.1⟩, he, Bitmap.setRange_size _ _ _ _, ?_⟩
    intro f
    rw [addW_of_lt (by omega), Bitmap.get_setRange (by omega) (by omega)]
    by_cases h : f = r
    · rw [if_pos h, if_pos (by omega)]
    · rw [if_neg h, if_neg (by omega)]
  · rw [hall x hx1] at hx3
    exact absurd hx3 (by simp)

theorem freeBelow_erase {b' : Bitmap} {r lim : Nat} (hsize : b'.size = b.size)
    (hget : ∀ f, b'.get f = if f = r then false else b.get f) :
    freeBelow b' lim = (freeBelow b lim).erase r := by
  ext f
  rw [Finset.mem_erase, mem_freeBelow, mem_freeBelow, hsize, hget]
  by_cases h : f = r <;> simp [h]

/-! ## Runs -/

/-- The allocator and the ranges handed out and not given back, each as address and count. -/
structure FrameState where
  bitmap : Bitmap
  held : List (Nat × Nat)

/-- The frames of a range. -/
def InRange (r : Nat × Nat) (f : Nat) : Prop := r.1 / pageSize ≤ f ∧ f < r.1 / pageSize + r.2

instance (r : Nat × Nat) (f : Nat) : Decidable (InRange r f) := inferInstanceAs (Decidable (_ ∧ _))

/-- Two ranges with no frame in common. -/
def Apart (r r' : Nat × Nat) : Prop :=
  r.1 / pageSize + r.2 ≤ r'.1 / pageSize ∨ r'.1 / pageSize + r'.2 ≤ r.1 / pageSize

/-- `alloc_frames`; address 0 means that nothing was handed out. -/
def FrameState.alloc (s : FrameState) (count : Nat) : FrameState :=
  { bitmap := (allocFrames s.bitmap count).2
    held := if (allocFrames s.bitmap count).1 = 0 then s.held
      else ((allocFrames s.bitmap count).1, count) :: s.held }

/-- `free_frames` on a range held. -/
def FrameState.free (s : FrameState) (r : Nat × Nat) : FrameState :=
  { bitmap := freeFrames s.bitmap r.1 r.2, held := s.held.erase r }

/-- Allocation, as far as `ok` lets it, and release of ranges held. -/
inductive FrameStep (ok : Bitmap → Nat → Prop) : FrameState → FrameState → Prop where
  | alloc {s : FrameState} {count : Nat} (hc : 1 ≤ count) (hlt : count < 2 ^ 64)
      (hok : ok s.bitmap count) : FrameStep ok s (s.alloc count)
  | free {s : FrameState} {r : Nat × Nat} (hr : r ∈ s.held) : FrameStep ok s (s.free r)

/-- Any bitmap over frame numbers of 64-bit addresses, and nothing handed out. -/
def FrameStart (s : FrameState) : Prop := s.bitmap.size ≤ 2 ^ 52 ∧ s.held = []

/-- The invariant of the runs in which every allocation fits. -/
structure FrameInv (s : FrameState) : Prop where
  size : s.bitmap.size ≤ 2 ^ 52
  /-- Ranges held lie inside the bitmap. -/
  inside : ∀ r ∈ s.held, 1 ≤ r.2 ∧ r.1 / pageSize + r.2 ≤ s.bitmap.size
  /-- None of their frames is free. -/
  taken : ∀ r ∈ s.held, ∀ f, InRange r f → s.bitmap.get f = false
  apart : s.held.Pairwise Apart

theorem foldl_size {α : Type} (f : Bitmap → α → Bitmap) (hf : ∀ b x, (f b x).size = b.size)
    (l : List α) (b : Bitmap) : (l.foldl f b).size = b.size := by
  induction l generalizing b with
  | nil => rfl
  | cons x l ih => rw [List.foldl_cons, ih, hf]

/-- **What `init` leaves is a start.** -/
theorem frameInit_start {map : List MemmapEntry} {dataAt : Nat → Nat → UInt8}
    (h : frameInit map dataAt = some b) : FrameStart ⟨b, []⟩ := by
  unfold frameInit at h
  cases hm : getMemorySize map with
  | none =>
      rw [hm] at h
      exact absurd h (by simp)
  | some memorySize =>
      obtain ⟨region, -, rfl⟩ := Option.map_eq_some_iff.mp hm
      rw [hm] at h
      obtain rfl := Option.some.inj h
      refine ⟨?_, rfl⟩
      have hlt := addW_lt region.base region.length
      dsimp only
      rw [Bitmap.setRange_size, foldl_size]
      · unfold Bitmap.init pageSize
        dsimp only
        omega
      · intro b region
        split
        · exact Bitmap.setRange_size _ _ _ _
        · rfl

/-- The frames an allocation that fits takes were free, hence nobody's. -/
theorem frameInv_alloc {s : FrameState} (hi : FrameInv s) (hc : 1 ≤ count)
    (hfits : AllocFits s.bitmap count) : FrameInv (s.alloc count) := by
  unfold FrameState.alloc
  rcases allocFrames_cases hi.size hc with ⟨r, hr, hf, he⟩ | ⟨-, he⟩
  · obtain ⟨-, hdiv, hzero⟩ := frameAddr (r := r) (by have := hi.size; omega)
    have hsize := hi.size
    rw [he]
    dsimp only
    have hget : ∀ f, (s.bitmap.setRange r (addW r count) false).get f = true →
        s.bitmap.get f = true := by
      intro f
      rw [Bitmap.get_setRange (by omega) (by omega)]
      split
      · exact fun h => absurd h (by simp)
      · exact id
    have htaken : ∀ x ∈ s.held, ∀ f, InRange x f →
        (s.bitmap.setRange r (addW r count) false).get f = false := by
      intro x hx f hxf
      by_contra h
      have := hget f (by simpa using h)
      rw [hi.taken x hx f hxf] at this
      exact absurd this (by simp)
    by_cases h0 : r * pageSize = 0
    · rw [if_pos h0]
      refine ⟨?_, ?_, htaken, hi.apart⟩
      · simpa using hsize
      · simpa using hi.inside
    · rw [if_neg h0]
      rcases hfits r hr hf with h | hfree
      · exact absurd (hzero.mpr h) h0
      have hlast := (hfree (count - 1) (by omega)).1
      refine ⟨?_, ?_, ?_, ?_⟩
      · simpa using hsize
      · intro x hx
        rw [Bitmap.setRange_size]
        rcases List.mem_cons.mp hx with rfl | hx
        · dsimp only
          rw [hdiv]
          omega
        · exact hi.inside x hx
      · intro x hx f hxf
        rcases List.mem_cons.mp hx with rfl | hx
        · unfold InRange at hxf
          dsimp only at hxf
          rw [hdiv] at hxf
          rw [addW_of_lt (by omega), Bitmap.get_setRange (by omega) (by omega), if_pos hxf]
        · exact htaken x hx f hxf
      · refine List.pairwise_cons.mpr ⟨fun x hx => ?_, hi.apart⟩
        by_contra hmeet
        unfold Apart at hmeet
        dsimp only at hmeet
        rw [hdiv] at hmeet
        have hx1 := (hi.inside x hx).1
        -- a frame both have: the later of the two starts
        have hcommon : ∃ f, (r ≤ f ∧ f < r + count) ∧ InRange x f := by
          unfold InRange
          by_cases h : r ≤ x.1 / pageSize
          · exact ⟨x.1 / pageSize, by omega, by omega⟩
          · exact ⟨r, by omega, by omega⟩
        obtain ⟨f, hf1, hf2⟩ := hcommon
        have hset := (hfree (f - r) (by omega)).2
        rw [Nat.add_sub_cancel' hf1.1, hi.taken x hx f hf2] at hset
        exact absurd hset (by simp)
  · rw [he]
    dsimp only
    rw [if_pos rfl]
    exact hi

theorem frameInv_free {s : FrameState} {r : Nat × Nat} (hi : FrameInv s) (hr : r ∈ s.held) :
    FrameInv (s.free r) := by
  have hsize := hi.size
  obtain ⟨hr1, hr2⟩ := hi.inside r hr
  obtain ⟨pre, post, -, hheld, herase⟩ := List.exists_erase_eq hr
  have hother : ∀ x ∈ s.held.erase r, x ∈ s.held ∧ Apart x r := by
    intro x hx
    have hpw := hi.apart
    rw [hheld, List.pairwise_append, List.pairwise_cons] at hpw
    rw [herase] at hx
    rcases List.mem_append.mp hx with hx | hx
    · exact ⟨hheld ▸ by simp [hx], hpw.2.2 x hx r (by simp)⟩
    · exact ⟨hheld ▸ by simp [hx], (hpw.2.1.1 x hx).symm⟩
  unfold FrameState.free freeFrames
  dsimp only
  refine ⟨?_, ?_, ?_, hi.apart.sublist List.erase_sublist⟩
  · simpa using hsize
  · intro x hx
    rw [Bitmap.setRange_size]
    exact hi.inside x (hother x hx).1
  · intro x hx f hf
    obtain ⟨hxh, hxr⟩ := hother x hx
    have hno : ¬ (r.1 / pageSize ≤ f ∧ f < r.1 / pageSize + r.2) := by
      unfold Apart at hxr
      unfold InRange at hf
      omega
    rw [addW_of_lt (by omega), Bitmap.get_setRange (by omega) (by omega), if_neg hno]
    exact hi.taken x hxh f hf

theorem frameInv_step {s t : FrameState} (hi : FrameInv s) (hs : FrameStep AllocFits s t) :
    FrameInv t := by
  cases hs with
  | alloc hc hlt hok => exact frameInv_alloc hi hc hok
  | free hr => exact frameInv_free hi hr

theorem frameInv_reachable {s : FrameState} (h : Reachable FrameStart (FrameStep AllocFits) s) :
    FrameInv s := by
  refine h.invariant (fun s hs => ?_) fun s t hi hst => frameInv_step hi hst
  obtain ⟨hsize, hheld⟩ := hs
  refine ⟨hsize, ?_, ?_, ?_⟩ <;> simp [hheld]

/--
**Frames have one owner exactly as long as allocations fit.**

In every run whose allocations all fit, the ranges held are pairwise disjoint in
every state, and the next allocation is exact if and only if it fits as well.
-/
theorem frames_exclusive {s : FrameState} (h : Reachable FrameStart (FrameStep AllocFits) s) :
    s.held.Pairwise Apart ∧
      ∀ count, 1 ≤ count → count < 2 ^ 64 → (AllocExact s.bitmap count ↔ AllocFits s.bitmap count) := by
  have hi := frameInv_reachable h
  exact ⟨hi.apart, fun count hc _ => allocExact_iff hi.size hc⟩

/-- A machine with eight frames, all but the first of them free. -/
def eightFrames : FrameState := ⟨⟨fun i => if i = 0 then 254 else 0, 8⟩, []⟩

/-- A request fits if the frames from the lowest free one on are free. -/
theorem allocFits_of_first {r : Nat} (count : Nat) (hr : Bitmap.IsFirst b.get 0 r)
    (hfree : ∀ k < count, FreeFrame b (r + k)) : AllocFits b count := by
  intro f _ hf
  obtain rfl := isFirst_unique hf hr
  exact .inr hfree

/-- Three frames, and then two. -/
theorem frames_exclusive_two :
    ((eightFrames.alloc 3).alloc 2).held = [(16384, 2), (4096, 3)] ∧
      ((eightFrames.alloc 3).alloc 2).held.Pairwise Apart := by
  have hstart : Reachable FrameStart (FrameStep AllocFits) eightFrames := .init ⟨by decide, rfl⟩
  have hfirst : Bitmap.IsFirst eightFrames.bitmap.get 0 1 :=
    ⟨by decide, by decide, by decide⟩
  have hthree := hstart.tail (.alloc (by decide) (by decide)
    (allocFits_of_first 3 hfirst (by decide)))
  have hfirst' : Bitmap.IsFirst (eightFrames.alloc 3).bitmap.get 0 4 :=
    ⟨by decide, by decide, by decide⟩
  have htwo := hthree.tail (.alloc (by decide) (by decide)
    (allocFits_of_first 2 hfirst' (by decide)))
  exact ⟨by decide, (frames_exclusive htwo).1⟩

/-- **One page to two owners**: two single frames, the first given back, then a pair. -/
theorem frames_shared :
    ∃ s, Reachable FrameStart (FrameStep fun _ _ => True) s ∧ ¬ AllocExact s.bitmap 2 ∧
      (s.alloc 2).held = [(4096, 2), (8192, 1)] ∧ ¬ (s.alloc 2).held.Pairwise Apart := by
  have h0 : Reachable FrameStart (FrameStep fun _ _ => True) eightFrames :=
    .init ⟨by decide, rfl⟩
  have h1 := h0.tail (FrameStep.alloc (by decide : 1 ≤ 1) (by decide) trivial)
  have h2 := h1.tail (FrameStep.alloc (by decide : 1 ≤ 1) (by decide) trivial)
  have h3 := h2.tail (.free (r := (4096, 1)) (by decide))
  have hheld : ((((eightFrames.alloc 1).alloc 1).free (4096, 1)).alloc 2).held =
      [(4096, 2), (8192, 1)] := by decide
  refine ⟨_, h3, fun hexact => ?_, hheld, ?_⟩
  · have hfree := (hexact (by decide)).1 1 (by decide)
    exact absurd hfree.2 (by decide)
  · rw [hheld]
    simp [Apart, pageSize]

end IonOS.Mm
