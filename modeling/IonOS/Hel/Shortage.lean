import IonOS.Arch.Provision
import IonOS.Hel.Physmap

/-!
# Mapping when memory is short

`k_hel_physmap_impl` has no way to fail. It returns the address that `alloc_frames`
gave it, and address 0 where that found nothing. An address is a multiple of the page
size, which no error code is.
-/

namespace IonOS.Hel

open IonOS.Lib IonOS.Libs IonOS.Mm IonOS.Arch

variable {off : Nat} {root : Frame} {s : Machine} {physaddr size : Nat}

/-- A system call's result that says it failed. -/
def IsError (result : Nat) : Prop := ∃ e : HelError, e ≠ .none ∧ result = e.code

/-- What `k_hel_physmap_impl` owes a machine that runs out of frames. -/
structure PhysmapReported (off : Nat) (root : Frame) (s : Machine) (physaddr size : Nat) :
    Prop where
  error : IsError (kHelPhysmapImpl off root.addr s physaddr size).1
  unchanged : ∀ w, pageWalk off (kHelPhysmapImpl off root.addr s physaddr size).2.mem root w =
    pageWalk off s.mem root w

theorem error_unaligned {e : HelError} (h : e ≠ .none) : e.code % pageSize ≠ 0 := by
  cases e with
  | none => exact absurd rfl h
  | invalidArgument => decide
  | notImplemented => decide
  | badHandler => decide
  | notFound => decide
  | alreadyConnected => decide
  | notConnected => decide

/-- What `alloc_frames` returns is aligned, whatever it was asked for. -/
theorem allocFrames_aligned (b : Bitmap) (count : Nat) : (allocFrames b count).1 % pageSize = 0 := by
  unfold allocFrames
  dsimp only
  split
  · rfl
  · unfold pageSize
    dsimp only
    omega

/-- **`physmap` never reports an error.** -/
theorem physmap_no_error : ¬ IsError (kHelPhysmapImpl off root.addr s physaddr size).1 := by
  rintro ⟨e, hne, he⟩
  have haligned : (kHelPhysmapImpl off root.addr s physaddr size).1 % pageSize = 0 :=
    allocFrames_aligned s.frames (pageCount size)
  rw [he] at haligned
  exact error_unaligned hne haligned

/--
**Running out of frames is reported by neither call.**

From any well-formed tree whose frames are not free: `map_range` keeps off frame 0 if
and only if the free frames cover its pages and the tables they miss, and `physmap`
returns an error in no state at all.
-/
theorem shortage_reported_iff (ht : PageTables hhdmOffset s.mem root)
    (hsize : s.frames.size ≤ hhdmFrames)
    (hfresh : ∀ f : Frame, FreeFrame s.frames f.num →
      ¬ InTree (edge hhdmOffset s.mem) entryFrame root 3 f) :
    (∀ virt flags count, RangeReported hhdmOffset root s virt flags count ↔
      Provided root s virt flags count) ∧
    ∀ physaddr size, ¬ PhysmapReported hhdmOffset root s physaddr size :=
  ⟨fun _ _ _ => (rangeReported_iff ht hsize hfresh).trans (supplied_iff ht hsize hfresh),
    fun _ _ h => physmap_no_error h.error⟩

/-- An empty top-level table in frame 1, and no frame free. -/
def spentMachine : Machine := ⟨fun _ => 0, ⟨fun _ => 0, 8⟩⟩

/-- The first request of a call is for the frame of its first page. -/
theorem spentMachine_refused (virt flags n : Nat) :
    .ask false 0 ∈ rangeEvents hhdmOffset bareRoot.addr spentMachine virt flags (n + 1) := by
  have hrefused : (allocFrames spentMachine.frames 1).1 = 0 := by decide +kernel
  induction n with
  | zero =>
    rw [rangeEvents_succ, mapRange, hrefused]
    exact List.mem_append_right _ List.mem_cons_self
  | succ n ih =>
    rw [rangeEvents_succ]
    exact List.mem_append_left _ ih

theorem shortage_reported_spent :
    ¬ RangeReported hhdmOffset bareRoot spentMachine 0x400000 7 2 ∧
      ¬ PhysmapReported hhdmOffset bareRoot spentMachine 0x100000 0x2000 := by
  have htables : PageTables hhdmOffset spentMachine.mem bareRoot := pageTables_zero (by decide)
  have hsize : spentMachine.frames.size ≤ hhdmFrames := by decide
  obtain ⟨hrange, hphys⟩ := shortage_reported_iff htables hsize
    fun f hf => absurd hf.2 (by simp [spentMachine, Bitmap.get])
  refine ⟨fun h => ?_, hphys _ _⟩
  -- the first page alone calls for a frame, and there is none
  have hdemand : 1 ≤ demand bareRoot spentMachine 0x400000 1 := Nat.le_add_right _ _
  have hnone : (freeBelow spentMachine.frames hhdmFrames).card = 0 := by decide +kernel
  have henough : demand bareRoot spentMachine 0x400000 1 ≤ _ :=
    ((hrange _ _ _).mp h 0 (by decide)).2 (.inl (by decide))
  rw [hnone] at henough
  omega

/-- **A page on frame 0**: the top-level entry and the page's own point there, and the return value
says that all is well. -/
theorem shortage_aliases :
    let s := mapRange hhdmOffset bareRoot.addr spentMachine 0x400000 0 7 1
    s.mem.read64 (entryAddr (physToVirt hhdmOffset bareRoot.addr) 0) = 7 ∧
      pageWalk hhdmOffset spentMachine.mem bareRoot 0x400000 = none ∧
      ¬ RangeReported hhdmOffset bareRoot spentMachine 0x400000 7 1 ∧
      (kHelPhysmapImpl hhdmOffset bareRoot.addr spentMachine 0x100000 0x1000).1 =
        HelError.none.code := by
  have htrace := traced_range (s := spentMachine) (by decide) bareRoot.addr 0x400000 7 1
  obtain ⟨e, he⟩ := htrace.page 0 (spentMachine_refused _ _ 0)
  refine ⟨by decide +kernel, by decide +kernel, fun h => ?_, by decide +kernel⟩
  exact h.entries e _ he (by decide) (by decide)

end IonOS.Hel
