import IonOS.Arch.Backing
import IonOS.Hel.Dsocket
import IonOS.Libs.Update

/-!
# Mapping physical memory for a process

`k_hel_physmap_impl` and `k_hel_physunmap_impl` of `syscall.cpp`. Addresses for the
mapping come from the frame allocator, as if they were frames, and the release gives
them back to it. It takes the address and the size as the process names them: there
is no record of what was mapped, so that nothing can be refused. On top of that
`unmap` frees frame 0 for every page.
-/

namespace IonOS.Hel

open IonOS.Lib IonOS.Libs IonOS.Mm IonOS.Arch

/-- `(size + PAGE_SIZE - 1) / PAGE_SIZE`. -/
def pageCount (size : Nat) : Nat := subW (addW size pageSize) 1 / pageSize

def kHelPhysmapImpl (off root : Nat) (s : Machine) (physaddr size : Nat) : Nat × Machine :=
  let count := pageCount size
  let (virtaddr, frames) := allocFrames s.frames count
  -- present, read_write, user
  (virtaddr, mapRange off root { s with frames := frames } virtaddr physaddr (1 ||| 2 ||| 4) count)

def kHelPhysunmapImpl (off root : Nat) (s : Machine) (virtaddr size : Nat) : Nat × Machine :=
  let count := pageCount size
  let s := { s with frames := freeFrames s.frames virtaddr count }
  (HelError.none.code, unmapRange off root s virtaddr count)

/-! ## Runs -/

/-- The machine, and the ranges that mappings have reserved, as address and count of pages. -/
structure PhysState where
  machine : Machine
  /-- Those not released yet. -/
  held : List (Nat × Nat)
  released : List (Nat × Nat)

variable {off root : Nat} {s t : PhysState} {b : Bitmap} {virtaddr size count f : Nat}

/-- A call of `physmap`. It reserves what the search of `alloc_frames` finds. -/
def PhysState.map (off root : Nat) (s : PhysState) (physaddr size : Nat) : PhysState :=
  { s with
    machine := (kHelPhysmapImpl off root s.machine physaddr size).2
    held :=
      if s.machine.frames.findRange (pageCount size != 0) 1 = Bitmap.notFound then s.held
      else ((kHelPhysmapImpl off root s.machine physaddr size).1, pageCount size) :: s.held }

/-- A call of `physunmap`. -/
def PhysState.unmap (off root : Nat) (s : PhysState) (virtaddr size : Nat) : PhysState :=
  { machine := (kHelPhysunmapImpl off root s.machine virtaddr size).2
    held := s.held.erase (virtaddr, pageCount size)
    released :=
      if (virtaddr, pageCount size) ∈ s.held then (virtaddr, pageCount size) :: s.released
      else s.released }

/-- **What a release may do**: frames become free that the range it names holds, and when it names
no such range, it is refused and nothing changes. -/
structure UnmapOk (off root : Nat) (s : PhysState) (virtaddr size : Nat) : Prop where
  freed : ∀ f, s.machine.frames.get f = false →
    (s.unmap off root virtaddr size).machine.frames.get f = true →
      (virtaddr, pageCount size) ∈ s.held ∧ InRange (virtaddr, pageCount size) f
  refused : (virtaddr, pageCount size) ∉ s.held →
    (kHelPhysunmapImpl off root s.machine virtaddr size).1 ≠ HelError.none.code ∧
      (kHelPhysunmapImpl off root s.machine virtaddr size).2 = s.machine

/-- The range is held, and frame 0 is free already or part of it, unless there is no page. -/
def Releasable (s : PhysState) (virtaddr size : Nat) : Prop :=
  (virtaddr, pageCount size) ∈ s.held ∧
    (pageCount size = 0 ∨ virtaddr / pageSize = 0 ∨ s.machine.frames.get 0 = true)

/-- Any process may map anything, and release what `ok` lets it. -/
inductive PhysStep (off : Nat) (ok : PhysState → Nat → Nat → Prop) :
    PhysState → PhysState → Prop where
  | map {s : PhysState} {root physaddr size : Nat} : PhysStep off ok s (s.map off root physaddr size)
  | unmap {s : PhysState} {root virtaddr size : Nat} (hlt : virtaddr < 2 ^ 64)
      (hok : ok s virtaddr size) : PhysStep off ok s (s.unmap off root virtaddr size)

/-- Nothing is mapped, and `b` says which frames are free. -/
def PhysStart (b : Bitmap) (s : PhysState) : Prop :=
  s.machine.frames = b ∧ b.size ≤ 2 ^ 52 ∧ s.held = [] ∧ s.released = []

/-- What the runs keep. -/
structure PhysInv (b : Bitmap) (s : PhysState) : Prop where
  size : s.machine.frames.size ≤ 2 ^ 52
  /-- A range begins at a frame there is. -/
  inside : ∀ r ∈ s.held, r.2 = 0 ∨ r.1 / pageSize < s.machine.frames.size
  /-- A frame is free that was so at the start, or that a range released did hold. -/
  free : ∀ f, s.machine.frames.get f = true →
    b.get f = true ∨ ∃ r ∈ s.released, InRange r f

theorem pageCount_lt (size : Nat) : pageCount size < 2 ^ 52 := by
  have := subW_lt (addW size pageSize) 1
  unfold pageCount
  unfold pageSize at this ⊢
  omega

/-! ## The two calls -/

/-- However many frames are asked for, none becomes free. -/
theorem allocFrames_takes (hsize : b.size ≤ 2 ^ 52) (hc : count < 2 ^ 52) :
    Taking b (allocFrames b count).2 := by
  rcases Nat.eq_zero_or_pos count with rfl | hpos
  · unfold allocFrames
    dsimp only
    split
    · exact Taking.refl b
    · have hempty : addW (b.findRange (0 != 0) 1) 0 ≤ b.findRange (0 != 0) 1 := Nat.mod_le _ _
      rw [Bitmap.setRange_empty hempty]
      exact Taking.refl b
  · rcases allocFrames_cases hsize hpos with ⟨r, hr, -, he⟩ | ⟨-, he⟩
    · rw [he]
      refine ⟨Bitmap.setRange_size _ _ _ _, fun f hf => ?_⟩
      rw [addW_of_lt (by omega), Bitmap.get_setRange (by omega) (by omega)] at hf
      split at hf
      · exact absurd hf (by simp)
      · exact hf
    · rw [he]
      exact Taking.refl b

theorem physmap_taking (hsize : s.machine.frames.size ≤ 2 ^ 52) (off root physaddr size : Nat) :
    Taking s.machine.frames (s.map off root physaddr size).machine.frames := by
  have ha := allocFrames_takes hsize (pageCount_lt size)
  unfold PhysState.map kHelPhysmapImpl
  dsimp only
  generalize allocFrames s.machine.frames (pageCount size) = r at ha ⊢
  exact ha.trans (mapRange_taking (ha.1.trans_le hsize) _ _ _ _ _ _)

/-- A new range begins at the frame that was found. -/
theorem physmap_inside (hsize : s.machine.frames.size ≤ 2 ^ 52) (off root physaddr size : Nat) :
    ∀ r ∈ (s.map off root physaddr size).held,
      r ∈ s.held ∨ r.2 = 0 ∨ r.1 / pageSize < s.machine.frames.size := by
  intro r hr
  unfold PhysState.map at hr
  dsimp only at hr
  split at hr
  · exact .inl hr
  · rename_i hfound
    rcases List.mem_cons.mp hr with rfl | hr
    · refine .inr ?_
      by_cases hpos : pageCount size = 0
      · exact .inl hpos
      · rcases allocFrames_cases hsize (Nat.pos_of_ne_zero hpos) with ⟨f, hf, -, he⟩ | ⟨hall, he⟩
        · refine .inr ?_
          show (allocFrames s.machine.frames (pageCount size)).1 / pageSize < _
          rw [he]
          dsimp only
          rw [(frameAddr (r := f) (by omega)).2.1]
          omega
        · -- with no bit set the search finds nothing
          exfalso
          rcases s.machine.frames.findRange_one with ⟨f, hf, hfirst, -⟩ | ⟨-, hnone⟩
          · exact absurd hfirst.2.1 (by simp [hall f hf])
          · rw [show (pageCount size != 0) = true by simpa using hpos] at hfound
            exact hfound hnone
    · exact .inl hr

/-- **What a release marks free**: the range it is told, and frame 0. -/
theorem physunmap_get (hsize : 0 < s.machine.frames.size) (hv : virtaddr / pageSize < 2 ^ 52) :
    (s.unmap off root virtaddr size).machine.frames.get f = true ↔
      f = 0 ∧ 0 < pageCount size ∨ s.machine.frames.get f = true ∨
        virtaddr / pageSize < s.machine.frames.size ∧ InRange (virtaddr, pageCount size) f := by
  have hc := pageCount_lt size
  have hfree : (freeFrames s.machine.frames virtaddr (pageCount size)).get f = true ↔
      s.machine.frames.get f = true ∨
        virtaddr / pageSize < s.machine.frames.size ∧ InRange (virtaddr, pageCount size) f := by
    unfold freeFrames InRange
    dsimp only
    rw [addW_of_lt (by omega)]
    by_cases hin : virtaddr / pageSize < s.machine.frames.size
    · rw [Bitmap.get_setRange hin (by omega)]
      split
      · rename_i h
        simp [hin, h]
      · rename_i h
        simp [h]
    · rw [Bitmap.setRange_of_le (by omega)]
      simp [hin]
  have hkeep : (freeFrames s.machine.frames virtaddr (pageCount size)).size =
      s.machine.frames.size := Bitmap.setRange_size _ _ _ _
  have hsize' : 0 < (freeFrames s.machine.frames virtaddr (pageCount size)).size := by omega
  have hget : (unmapRange off root _ virtaddr (pageCount size)).frames.get f = _ :=
    (unmapRange_frames (s := { s.machine with
      frames := freeFrames s.machine.frames virtaddr (pageCount size) }) hsize' root _ _ f).1
  unfold PhysState.unmap kHelPhysunmapImpl
  dsimp only
  rw [hget]
  split
  · rename_i h
    simp [h]
  · rename_i h
    rw [hfree, or_iff_right h]

/-! ## The invariant -/

@[simp] theorem map_released (physaddr : Nat) :
    (s.map off root physaddr size).released = s.released := by
  unfold PhysState.map
  generalize kHelPhysmapImpl off root s.machine physaddr size = r
  rfl

@[simp] theorem unmap_held :
    (s.unmap off root virtaddr size).held = s.held.erase (virtaddr, pageCount size) := by
  unfold PhysState.unmap
  generalize kHelPhysunmapImpl off root s.machine virtaddr size = r
  rfl

theorem unmap_released (h : (virtaddr, pageCount size) ∈ s.held) :
    (s.unmap off root virtaddr size).released = (virtaddr, pageCount size) :: s.released := by
  unfold PhysState.unmap
  generalize kHelPhysunmapImpl off root s.machine virtaddr size = r
  exact if_pos h

theorem physunmap_size (hsize : 0 < s.machine.frames.size) :
    (s.unmap off root virtaddr size).machine.frames.size = s.machine.frames.size := by
  have hkeep : (freeFrames s.machine.frames virtaddr (pageCount size)).size =
      s.machine.frames.size := Bitmap.setRange_size _ _ _ _
  unfold PhysState.unmap kHelPhysunmapImpl
  dsimp only
  rw [(unmapRange_frames (by dsimp only; omega) root virtaddr (pageCount size) 0).2, hkeep]

/-- A release of no page changes nothing. -/
theorem physunmap_none (h : pageCount size = 0) (hv : virtaddr / pageSize < 2 ^ 64) :
    (s.unmap off root virtaddr size).machine = s.machine := by
  unfold PhysState.unmap kHelPhysunmapImpl freeFrames
  dsimp only
  rw [h, addW_of_lt (by omega), Bitmap.setRange_empty (by omega)]
  rfl

theorem physInv_map (hi : PhysInv b s) (off root physaddr size : Nat) :
    PhysInv b (s.map off root physaddr size) := by
  have ht := physmap_taking hi.size off root physaddr size
  have hin := physmap_inside hi.size off root physaddr size
  refine ⟨ht.1.trans_le hi.size, ?_, ?_⟩
  · intro r hr
    rw [ht.1]
    rcases hin r hr with hold | hnew
    · exact hi.inside r hold
    · exact hnew
  · intro f hf
    rw [map_released]
    exact hi.free f (ht.2 f hf)

/-- **What a release frees is of its range**, when frame 0 is. -/
theorem physunmap_freed (hi : PhysInv b s) (hv : virtaddr < 2 ^ 64)
    (hok : Releasable s virtaddr size)
    (hf : (s.unmap off root virtaddr size).machine.frames.get f = true) :
    s.machine.frames.get f = true ∨ InRange (virtaddr, pageCount size) f := by
  obtain ⟨hheld, hzero⟩ := hok
  have hframe : virtaddr / pageSize < 2 ^ 52 := by
    unfold pageSize
    omega
  rcases hi.inside _ hheld with hnone | hin
  · rw [physunmap_none hnone (by omega)] at hf
    exact .inl hf
  · rcases (physunmap_get (Nat.zero_lt_of_lt hin) hframe).mp hf with ⟨rfl, hpos⟩ | hf | ⟨-, hf⟩
    · -- frame 0, which `unmap` marks free
      rcases hzero with hnone | hfirst | hfree
      · omega
      · exact .inr ⟨Nat.le_of_eq hfirst, by dsimp only; omega⟩
      · exact .inl hfree
    · exact .inl hf
    · exact .inr hf

theorem physInv_unmap (hi : PhysInv b s) (hv : virtaddr < 2 ^ 64)
    (hok : Releasable s virtaddr size) : PhysInv b (s.unmap off root virtaddr size) := by
  have hkeep : (s.unmap off root virtaddr size).machine.frames.size = s.machine.frames.size := by
    rcases hi.inside _ hok.1 with hnone | hin
    · rw [physunmap_none hnone (Nat.lt_of_le_of_lt (Nat.div_le_self _ _) hv)]
    · exact physunmap_size (Nat.zero_lt_of_lt hin)
  refine ⟨hkeep.trans_le hi.size, ?_, ?_⟩
  · intro r hr
    rw [unmap_held] at hr
    rw [hkeep]
    exact hi.inside r (List.mem_of_mem_erase hr)
  · intro f hf
    rw [unmap_released hok.1]
    rcases physunmap_freed hi hv hok hf with hf | hf
    · rcases hi.free f hf with hstart | ⟨r, hr, hrf⟩
      · exact .inl hstart
      · exact .inr ⟨r, List.mem_cons_of_mem _ hr, hrf⟩
    · exact .inr ⟨_, List.mem_cons_self, hf⟩

theorem physInv_step (hi : PhysInv b s) (hs : PhysStep off Releasable s t) : PhysInv b t := by
  cases hs with
  | map => exact physInv_map hi off _ _ _
  | unmap hlt hok => exact physInv_unmap hi hlt hok

theorem physInv_reachable (h : Reachable (PhysStart b) (PhysStep off Releasable) s) :
    PhysInv b s := by
  refine h.invariant (fun s hs => ?_) fun s t hi hst => physInv_step hi hst
  obtain ⟨rfl, hsize, hheld, -⟩ := hs
  exact ⟨hsize, by simp [hheld], fun f hf => .inl hf⟩

/-- **One release does what it may** exactly when its range is held and frame 0 does not suffer. -/
theorem unmapOk_iff (hi : PhysInv b s) (hv : virtaddr < 2 ^ 64) :
    UnmapOk off root s virtaddr size ↔ Releasable s virtaddr size := by
  constructor
  · intro hok
    -- no error is ever reported
    have hheld : (virtaddr, pageCount size) ∈ s.held := by
      by_contra hno
      exact (hok.refused hno).1 rfl
    refine ⟨hheld, ?_⟩
    rcases hi.inside _ hheld with hnone | hin
    · exact .inl hnone
    by_contra hno
    obtain ⟨hpos, hfirst, htaken⟩ : pageCount size ≠ 0 ∧ virtaddr / pageSize ≠ 0 ∧
        s.machine.frames.get 0 = false := by simpa using hno
    have hframe : virtaddr / pageSize < 2 ^ 52 := by
      unfold pageSize
      omega
    have hget : (s.unmap off root virtaddr size).machine.frames.get 0 = true :=
      (physunmap_get (Nat.zero_lt_of_lt hin) hframe).mpr (.inl ⟨rfl, Nat.pos_of_ne_zero hpos⟩)
    have hrange := (hok.freed 0 htaken hget).2.1
    exact hfirst (Nat.le_zero.mp hrange)
  · intro hok
    refine ⟨fun f htaken hf => ⟨hok.1, ?_⟩, fun hno => absurd hok.1 hno⟩
    rcases physunmap_freed hi hv hok hf with hf | hf
    · rw [hf] at htaken
      exact absurd htaken (by simp)
    · exact hf

/--
**Releases stay within what was mapped** exactly as long as they name it.

In every run whose releases each name a range that is held, with frame 0 free or
part of it, every free frame was free at the start or part of a range released, and
the next release does what it may if and only if it is such a one as well.
-/
theorem physunmap_iff (h : Reachable (PhysStart b) (PhysStep off Releasable) s) :
    (∀ f, s.machine.frames.get f = true → b.get f = true ∨ ∃ r ∈ s.released, InRange r f) ∧
      ∀ root virtaddr size, virtaddr < 2 ^ 64 →
        (UnmapOk off root s virtaddr size ↔ Releasable s virtaddr size) := by
  have hi := physInv_reachable h
  exact ⟨hi.free, fun root virtaddr size hv => unmapOk_iff hi hv⟩

/-- A machine with eight frames, and which of them are free. -/
def eightPages (free : UInt8) : PhysState :=
  ⟨⟨fun _ => 0, ⟨fun i => if i = 0 then free else 0, 8⟩⟩, [], []⟩

theorem eightPages_start (free : UInt8) :
    PhysStart (eightPages free).machine.frames (eightPages free) :=
  ⟨rfl, (by decide : 8 ≤ 2 ^ 52), rfl, rfl⟩

/-- A first mapping of one page. -/
theorem eightPages_map {free : UInt8} {r : Nat} (off root physaddr : Nat)
    (hf : (eightPages free).machine.frames.findRange true 1 = r) (hr : r < 8) :
    ((eightPages free).map off root physaddr 4096).held = [(r * pageSize, 1)] := by
  have hcount : pageCount 4096 = 1 := by decide
  have haddr : (kHelPhysmapImpl off root (eightPages free).machine physaddr 4096).1 =
      (allocFrames (eightPages free).machine.frames 1).1 := rfl
  have hne : r ≠ Bitmap.notFound := by
    have : Bitmap.notFound = 2 ^ 64 - 1 := rfl
    omega
  unfold PhysState.map
  dsimp only
  rw [haddr, hcount, if_neg (by rw [← hf] at hne; exact hne), allocFrames,
    show ((1 : Nat) != 0) = true from rfl, hf, if_neg hne, (frameAddr (by omega)).1]
  rfl

/-- With all frames free the first page is at address 0, and is released as it should be. -/
theorem physunmap_iff_eight : UnmapOk 0 0 ((eightPages 255).map 0 0 4096 4096) 0 4096 := by
  have hrun : Reachable (PhysStart (eightPages 255).machine.frames) (PhysStep 0 Releasable)
      ((eightPages 255).map 0 0 4096 4096) := .tail (.init (eightPages_start 255)) .map
  have hheld := @eightPages_map 255 0 0 0 4096 (by decide) (by decide)
  refine ((physunmap_iff hrun).2 0 0 4096 (by decide)).mpr ⟨?_, .inr (.inl (by decide))⟩
  rw [hheld]
  decide

/-- **A release of what was never mapped** is carried out, and the release of what was mapped
frees frame 0 along with it. -/
theorem physunmap_forged :
    (eightPages 0).machine.frames.get 2 = false ∧
    ((eightPages 0).unmap 0 0 8192 4096).machine.frames.get 2 = true ∧
    ¬ UnmapOk 0 0 (eightPages 0) 8192 4096 ∧
    ((eightPages 254).map 0 0 4096 4096).held = [(4096, 1)] ∧
    ¬ UnmapOk 0 0 ((eightPages 254).map 0 0 4096 4096) 4096 4096 := by
  have hheld := @eightPages_map 254 1 0 0 4096 (by decide) (by decide)
  have hi : PhysInv (eightPages 254).machine.frames ((eightPages 254).map 0 0 4096 4096) :=
    physInv_map ⟨by decide, by simp [eightPages], fun f hf => .inl hf⟩ 0 0 4096 4096
  refine ⟨by decide, ?_, fun hok => ?_, hheld, fun hok => ?_⟩
  · exact (physunmap_get (by decide) (by decide)).mpr (.inr (.inr ⟨by decide, by decide⟩))
  · exact (hok.refused (by simp [eightPages])).1 rfl
  · obtain ⟨-, hzero | hzero | hzero⟩ := (unmapOk_iff hi (by decide)).mp hok
    · exact absurd hzero (by decide)
    · exact absurd hzero (by decide)
    · have htake := (physmap_taking (s := eightPages 254) (by decide) 0 0 4096 4096).2 0 hzero
      exact absurd htake (by decide)

end IonOS.Hel
