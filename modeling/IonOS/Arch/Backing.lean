import IonOS.Arch.Unmap

/-!
# The frames behind a mapping

With physical address 0, `map_range` takes a frame from the allocator for each
page. `unmap` is meant to give it back, along with tables that have become empty,
but it clears an entry before it reads which frame to free. What it reads is 0, so
it frees frame 0, four times a page, and never the frame of the page.
-/

namespace IonOS.Arch

open IonOS.Lib IonOS.Libs IonOS.Mm

variable {off : Nat} {root : Frame} {s s' : Machine} {b : Bitmap} {virt flags n f : Nat}

/-! ## What unmapping frees -/

theorem freeFrames_zero (hsize : 0 < b.size) (f : Nat) :
    (freeFrames b 0 1).get f = if f = 0 then true else b.get f := by
  unfold freeFrames
  dsimp only
  rw [Nat.zero_div, addW_of_lt (by decide), Bitmap.get_setRange hsize (by decide)]
  by_cases h : f = 0
  · rw [if_pos h, if_pos (by omega)]
  · rw [if_neg h, if_neg (by omega)]

/-- Whatever the entry was, frame 0 is freed. -/
theorem clearEntry_frames (off : Nat) (s : Machine) (entry : Nat) :
    (clearEntry off s entry).frames = freeFrames s.frames 0 1 := by
  unfold clearEntry
  dsimp only
  rw [Mem.read64_write64_same _ _ (by decide), offMask, Nat.zero_and, Nat.zero_and]

/-- **`unmap` frees frame 0**, and nothing else. -/
theorem unmap_frames (off : Nat) (hsize : 0 < s.frames.size) (root virt f : Nat) :
    (unmap off root s virt).frames.get f = (if f = 0 then true else s.frames.get f) ∧
      (unmap off root s virt).frames.size = s.frames.size := by
  unfold unmap
  dsimp only
  rw [clearEntry_frames, clearEntry_frames, clearEntry_frames, clearEntry_frames]
  have hkeep : ∀ b : Bitmap, (freeFrames b 0 1).size = b.size := fun b =>
    Bitmap.setRange_size _ _ _ _
  refine ⟨?_, by simp only [hkeep]⟩
  rw [freeFrames_zero (by simpa only [hkeep] using hsize),
    freeFrames_zero (by simpa only [hkeep] using hsize),
    freeFrames_zero (by simpa only [hkeep] using hsize), freeFrames_zero hsize]
  by_cases h : f = 0 <;> simp [h]

theorem unmapRange_frames (hsize : 0 < s.frames.size) (root virt n f : Nat) :
    (unmapRange off root s virt n).frames.get f =
        (if f = 0 ∧ 0 < n then true else s.frames.get f) ∧
      (unmapRange off root s virt n).frames.size = s.frames.size := by
  induction n with
  | zero => simp [unmapRange]
  | succ n ih =>
    obtain ⟨hget, hkeep⟩ := ih
    have hpos : 0 < (unmapRange off root s virt n).frames.size := by omega
    obtain ⟨hget', hkeep'⟩ := unmap_frames off hpos root (addW virt (n * pageSize)) f
    refine ⟨?_, hkeep'.trans hkeep⟩
    rw [unmapRange, hget', hget]
    by_cases h : f = 0 <;> simp [h]

/-! ## What mapping takes -/

/-- Frames may have been taken, none given back. -/
def Taking (b b' : Bitmap) : Prop := b'.size = b.size ∧ ∀ f, b'.get f = true → b.get f = true

theorem Taking.refl (b : Bitmap) : Taking b b := ⟨rfl, fun _ => id⟩

theorem Taking.trans {b₁ b₂ b₃ : Bitmap} (h : Taking b₁ b₂) (h' : Taking b₂ b₃) : Taking b₁ b₃ :=
  ⟨h'.1.trans h.1, fun f hf => h.2 f (h'.2 f hf)⟩

/-- **One frame is taken**, if any is free, and its bit is cleared. -/
theorem allocFrames_taking (hsize : b.size ≤ 2 ^ 52) :
    Taking b (allocFrames b 1).2 ∧
      ((allocFrames b 1).1 ≠ 0 →
        (allocFrames b 1).1 / pageSize ≠ 0 ∧ (allocFrames b 1).1 / pageSize < b.size ∧
          (allocFrames b 1).2.get ((allocFrames b 1).1 / pageSize) = false) := by
  rcases allocFrames_cases hsize (Nat.le_refl 1) with ⟨r, hr, -, he⟩ | ⟨-, he⟩
  · obtain ⟨-, hdiv, hzero⟩ := frameAddr (r := r) (by omega)
    rw [he]
    dsimp only
    rw [hdiv, addW_of_lt (by omega)]
    have hget : ∀ f, (b.setRange r (r + 1) false).get f =
        if r ≤ f ∧ f < r + 1 then false else b.get f :=
      Bitmap.get_setRange (by omega) (by omega)
    refine ⟨⟨Bitmap.setRange_size _ _ _ _, fun f hf => ?_⟩, fun h0 => ⟨?_, by omega, ?_⟩⟩
    · rw [hget] at hf
      split at hf
      · exact absurd hf (by simp)
      · exact hf
    · exact fun h => h0 (hzero.mpr h)
    · rw [hget, if_pos (by omega)]
  · rw [he]
    exact ⟨Taking.refl b, fun h0 => absurd rfl h0⟩

theorem pageTableCreate_taking (hsize : s.frames.size ≤ 2 ^ 52) (off entry : Nat) :
    Taking s.frames (pageTableCreate off s entry).2.frames := by
  unfold pageTableCreate
  split
  · exact (allocFrames_taking hsize).1
  · exact Taking.refl _

theorem map_taking (hsize : s.frames.size ≤ 2 ^ 52) (off root virt phys flags : Nat) :
    Taking s.frames (map off root s virt phys flags).frames := by
  unfold map
  dsimp only
  have h3 := pageTableCreate_taking hsize off (entryAddr (physToVirt off root) (l4Index virt))
  generalize pageTableCreate off s (entryAddr (physToVirt off root) (l4Index virt)) = c3 at h3 ⊢
  have h2 := pageTableCreate_taking (h3.1.trans_le hsize) off (entryAddr c3.1 (l3Index virt))
  generalize pageTableCreate off c3.2 (entryAddr c3.1 (l3Index virt)) = c2 at h2 ⊢
  have h1 := pageTableCreate_taking ((h3.trans h2).1.trans_le hsize) off
    (entryAddr c2.1 (l2Index virt))
  exact (h3.trans h2).trans h1

theorem mapRange_taking (hsize : s.frames.size ≤ 2 ^ 52) (off root virt phys flags n : Nat) :
    Taking s.frames (mapRange off root s virt phys flags n).frames := by
  induction n with
  | zero => exact Taking.refl _
  | succ n ih =>
    have hn := ih.1.trans_le hsize
    rw [mapRange]
    dsimp only
    split
    · have ha := (allocFrames_taking hn).1
      exact (ih.trans ha).trans (map_taking ((ih.trans ha).1.trans_le hsize) _ _ _ _ _)
    · exact ih.trans (map_taking hn _ _ _ _ _)

/-! ## Conservation -/

/-- The frame that `map_range` takes for page `i`. -/
def dataFrame (off : Nat) (root : Frame) (s : Machine) (virt flags i : Nat) : Nat :=
  (allocFrames (mapRange off root.addr s virt 0 flags i).frames 1).1 / pageSize

/-- Every page got a frame; address 0 stands for failure. -/
def Backed (off : Nat) (root : Frame) (s : Machine) (virt flags n : Nat) : Prop :=
  ∀ i < n, (allocFrames (mapRange off root.addr s virt 0 flags i).frames 1).1 ≠ 0

/-- A table of the tree before, other than the root, that has no entries any more. -/
def Emptied (off : Nat) (root : Frame) (m m' : Mem) (f : Nat) : Prop :=
  ∃ p t, p ≠ [] ∧ p.length ≤ 3 ∧ tableWalk off m root p = some t ∧ t.num = f ∧
    ∀ i, edge off m' t i = none

/-- What unmapping a range owes the allocator. `s` is the state before it was mapped, `s'` the one
in which it is unmapped. -/
structure FramesConserved (off : Nat) (root : Frame) (s s' : Machine) (virt flags n : Nat) :
    Prop where
  /-- The frames behind the pages are free again. -/
  returned : ∀ i < n, (unmapRange off root.addr s' virt n).frames.get
    (dataFrame off root s virt flags i) = true
  /-- No other frame is freed, emptied tables apart. -/
  only : ∀ f, s'.frames.get f = false → (unmapRange off root.addr s' virt n).frames.get f = true →
    (∃ i < n, f = dataFrame off root s virt flags i) ∨
      Emptied off root s'.mem (unmapRange off root.addr s' virt n).mem f
  /-- Frame 0 was never allocated, and is not freed. -/
  zero : s'.frames.get 0 = false → (unmapRange off root.addr s' virt n).frames.get 0 = false

/-- A state in which the range is still mapped: its frames have not been given back. -/
structure StillBacked (off : Nat) (root : Frame) (s s' : Machine) (virt flags n : Nat) :
    Prop where
  size : s'.frames.size = s.frames.size
  taken : ∀ i < n, s'.frames.get (dataFrame off root s virt flags i) = false

theorem dataFrame_spec (hsize : s.frames.size ≤ 2 ^ 52) (hb : Backed off root s virt flags n)
    {i : Nat} (hi : i < n) : dataFrame off root s virt flags i ≠ 0 ∧
      dataFrame off root s virt flags i < s.frames.size := by
  have htaking := mapRange_taking hsize off root.addr virt 0 flags i
  obtain ⟨h0, hlt, -⟩ := (allocFrames_taking (htaking.1.trans_le hsize)).2 (hb i hi)
  exact ⟨h0, hlt.trans_eq htaking.1⟩

/-- **Right after mapping** the frames are taken. -/
theorem stillBacked_mapRange (hsize : s.frames.size ≤ 2 ^ 52)
    (hb : Backed off root s virt flags n) :
    StillBacked off root s (mapRange off root.addr s virt 0 flags n) virt flags n := by
  refine ⟨(mapRange_taking hsize _ _ _ _ _ _).1, ?_⟩
  induction n with
  | zero => exact fun i hi => absurd hi (by omega)
  | succ n ih =>
    intro i hi
    have htaking := mapRange_taking hsize off root.addr virt 0 flags n
    have hn := htaking.1.trans_le hsize
    obtain ⟨ha, hclear⟩ := allocFrames_taking hn
    have hmap := map_taking (s := ⟨(mapRange off root.addr s virt 0 flags n).mem,
      (allocFrames (mapRange off root.addr s virt 0 flags n).frames 1).2⟩) (ha.1.trans_le hn)
      off root.addr (addW virt (n * pageSize))
      (allocFrames (mapRange off root.addr s virt 0 flags n).frames 1).1 flags
    -- a bit that is clear after the allocation is clear after the map
    have hkeep : ∀ f, (allocFrames (mapRange off root.addr s virt 0 flags n).frames 1).2.get f =
        false → (mapRange off root.addr s virt 0 flags (n + 1)).frames.get f = false := by
      intro f hf
      by_contra h
      have := hmap.2 f (by simpa [mapRange] using h)
      rw [hf] at this
      exact absurd this (by simp)
    refine hkeep _ ?_
    rcases Nat.lt_succ_iff_lt_or_eq.mp hi with hi | rfl
    · by_contra h
      have := ha.2 _ (by simpa using h)
      rw [ih (fun j hj => hb j (by omega)) i hi] at this
      exact absurd this (by simp)
    · exact (hclear (hb i (by omega))).2.2

/-- **The frame of a page is never freed.** -/
theorem unmapRange_keeps (hsize : s.frames.size ≤ 2 ^ 52) (hb : Backed off root s virt flags n)
    (hs : StillBacked off root s s' virt flags n) {i : Nat} (hi : i < n) :
    (unmapRange off root.addr s' virt n).frames.get (dataFrame off root s virt flags i) =
      false := by
  obtain ⟨h0, hlt⟩ := dataFrame_spec hsize hb hi
  rw [(unmapRange_frames (by rw [hs.size]; omega) _ _ _ _).1, if_neg fun h => h0 h.1]
  exact hs.taken i hi

/--
**Unmapping conserves frames only where there is nothing to unmap.**

For every range that got its frames and still has them, in any state of memory and
allocator: the frames come back, and no others, if and only if the range is empty.
-/
theorem framesConserved_iff (hsize : s.frames.size ≤ 2 ^ 52)
    (hb : Backed off root s virt flags n) (hs : StillBacked off root s s' virt flags n) :
    FramesConserved off root s s' virt flags n ↔ n = 0 := by
  constructor
  · intro h
    by_contra hn
    have hkeep := unmapRange_keeps hsize hb hs (Nat.pos_of_ne_zero hn)
    rw [h.returned 0 (Nat.pos_of_ne_zero hn)] at hkeep
    exact absurd hkeep (by simp)
  · rintro rfl
    refine ⟨fun i hi => absurd hi (by omega), fun f hf hf' => ?_, id⟩
    rw [unmapRange, hf] at hf'
    exact absurd hf' (by simp)

theorem bareMachine_backed : Backed hhdmOffset bareRoot bareMachine 0x400000 7 1 := by
  intro i hi
  obtain rfl : i = 0 := by omega
  decide +kernel

/-- One page on the bare machine. -/
theorem framesConserved_bare :
    ¬ FramesConserved hhdmOffset bareRoot bareMachine
      (mapRange hhdmOffset bareRoot.addr bareMachine 0x400000 0 7 1) 0x400000 7 1 := by
  have hsize : bareMachine.frames.size ≤ 2 ^ 52 := by decide
  intro h
  have := (framesConserved_iff hsize bareMachine_backed
    (stillBacked_mapRange hsize bareMachine_backed)).mp h
  exact absurd this (by decide)

/-- **Frame 0 is freed in place of the page's own**, frame 2. -/
theorem unmap_leaks :
    dataFrame hhdmOffset bareRoot bareMachine 0x400000 7 0 = 2 ∧
      (mapRange hhdmOffset bareRoot.addr bareMachine 0x400000 0 7 1).frames.get 0 = false ∧
      (unmapRange hhdmOffset bareRoot.addr
        (mapRange hhdmOffset bareRoot.addr bareMachine 0x400000 0 7 1) 0x400000 1).frames.get 0 =
          true ∧
      (unmapRange hhdmOffset bareRoot.addr
        (mapRange hhdmOffset bareRoot.addr bareMachine 0x400000 0 7 1) 0x400000 1).frames.get 2 =
          false ∧
      ¬ FramesConserved hhdmOffset bareRoot bareMachine
        (mapRange hhdmOffset bareRoot.addr bareMachine 0x400000 0 7 1) 0x400000 7 1 := by
  have hsize : bareMachine.frames.size ≤ 2 ^ 52 := by decide
  have hdata : dataFrame hhdmOffset bareRoot bareMachine 0x400000 7 0 = 2 := by decide +kernel
  have hs := stillBacked_mapRange hsize bareMachine_backed
  have htaking := mapRange_taking hsize hhdmOffset bareRoot.addr 0x400000 0 7 1
  have hkeep := unmapRange_keeps hsize bareMachine_backed hs (by decide : 0 < 1)
  refine ⟨hdata, ?_, ?_, hdata ▸ hkeep, fun h => ?_⟩
  · by_contra h
    exact absurd (htaking.2 0 (by simpa using h)) (by decide)
  · rw [(unmapRange_frames (by rw [htaking.1]; decide) _ _ _ _).1]
    rfl
  · rw [h.returned 0 (by decide)] at hkeep
    exact absurd hkeep (by simp)

end IonOS.Arch
