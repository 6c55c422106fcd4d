import IonOS.Mm.Frame

/-!
# Which frames there are after boot

`frame::init` gives the bitmap a size in bytes and the bitmap takes it for a number
of bits. So it clears and searches an eighth of its bytes: the frames it can hand
out are an eighth of those there are, the lowest. And frame 0, where it is usable,
is handed out as the address 0, which says that there is none.
-/

namespace IonOS.Mm

open IonOS.Lib IonOS.Libs

/-! ## What `init` starts from -/

/-- `memory_size`, or 0 where the source does not find it. -/
def memorySize (map : List MemmapEntry) : Nat := (getMemorySize map).getD 0

/-- The number of frames there are. -/
def frameCount (map : List MemmapEntry) : Nat := memorySize map / pageSize

/-- `bitmap_size`. -/
def bitmapSize (map : List MemmapEntry) : Nat := (memorySize map / pageSize + 7) / 8

/-- `bitmap_address`. -/
def bitmapAddress (map : List MemmapEntry) : Nat :=
  ((map.find? fun region => region.usable && bitmapSize map ≤ region.length).map (·.base)).getD 0

/-- The frame lies in an entry. -/
def InEntry (region : MemmapEntry) (f : Nat) : Prop :=
  region.base ≤ f * pageSize ∧ (f + 1) * pageSize ≤ region.base + region.length

/-- The frame lies in a usable entry. -/
def Usable (map : List MemmapEntry) (f : Nat) : Prop :=
  ∃ region ∈ map, region.usable = true ∧ InEntry region f

/-- The frame holds a part of the bitmap. -/
def HoldsBitmap (map : List MemmapEntry) (f : Nat) : Prop :=
  bitmapAddress map / pageSize ≤ f ∧
    f < bitmapAddress map / pageSize + (bitmapSize map + pageSize - 1) / pageSize

/-- A memory map as the boot loader promises it. -/
structure MemmapOk (map : List MemmapEntry) : Prop where
  sorted : map.Pairwise fun region region' => region.base ≤ region'.base
  apart : map.Pairwise fun region region' => region.usable = true → region'.usable = true →
    region.base + region.length ≤ region'.base
  aligned : ∀ region ∈ map, region.usable = true →
    region.base % pageSize = 0 ∧ region.length % pageSize = 0
  /-- Entries are ranges of 64-bit addresses. -/
  word : ∀ region ∈ map, region.usable = true → region.base + region.length < 2 ^ 64
  big : ∃ region ∈ map, region.usable = true ∧ bitmapSize map ≤ region.length

/-! ## What it leaves -/

/-- `alloc_frames(1)`, up to `n` times, for as long as it returns something. -/
def allocAll : Nat → Bitmap → List Nat
  | 0, _ => []
  | n + 1, b =>
      let (addr, b') := allocFrames b 1
      if addr = 0 then [] else addr :: allocAll n b'

/-- What the allocator is for: the frames it has are the usable ones but for its own, and single
frames can be had until each has been handed out once. -/
structure InventoryOk (map : List MemmapEntry) (b : Bitmap) : Prop where
  bits : ∀ f < frameCount map,
    (f < b.size / 8 * 8 ∧ b.get f = true) ↔ (Usable map f ∧ ¬ HoldsBitmap map f)
  /-- In fewer calls than made: the last one returned 0. -/
  all : ∃ n, (allocAll n b).length < n ∧ (allocAll n b).Nodup ∧
    ∀ addr, addr ∈ allocAll n b ↔
      ∃ f < frameCount map, Usable map f ∧ ¬ HoldsBitmap map f ∧ addr = f * pageSize

/-- Every usable frame but the bitmap's can be found, and has an address that is not 0. -/
def Findable (map : List MemmapEntry) : Prop :=
  ∀ f < frameCount map, Usable map f → ¬ HoldsBitmap map f → f < bitmapSize map / 8 * 8 ∧ f ≠ 0

variable {map : List MemmapEntry} {dataAt : Nat → Nat → UInt8} {b : Bitmap} {f : Nat}

/-- The loop over the entries, one step. -/
def setUsable (bitmap : Bitmap) (region : MemmapEntry) : Bitmap :=
  if region.usable then
    let startFrame := region.base / pageSize
    let frameCount := region.length / pageSize
    bitmap.setRange startFrame (addW startFrame frameCount) true
  else bitmap

/-- Entries are whole frames. -/
theorem inEntry_iff {region : MemmapEntry} (hbase : region.base % pageSize = 0)
    (hlength : region.length % pageSize = 0) :
    InEntry region f ↔ region.base / pageSize ≤ f ∧
      f < region.base / pageSize + region.length / pageSize := by
  unfold InEntry
  unfold pageSize at *
  omega

theorem setUsable_size (b : Bitmap) (region : MemmapEntry) : (setUsable b region).size = b.size := by
  unfold setUsable
  split
  · exact Bitmap.setRange_size _ _ _ _
  · rfl

/-- One entry sets its own frames, of those below the size. -/
theorem get_setUsable {region : MemmapEntry} (hf : f < b.size)
    (halign : region.usable = true → region.base % pageSize = 0 ∧ region.length % pageSize = 0)
    (hword : region.usable = true → region.base + region.length < 2 ^ 64) :
    (setUsable b region).get f = true ↔
      b.get f = true ∨ (region.usable = true ∧ InEntry region f) := by
  unfold setUsable
  by_cases husable : region.usable = true
  · obtain ⟨hbase, hlength⟩ := halign husable
    have hword := hword husable
    rw [if_pos husable, inEntry_iff hbase hlength]
    unfold pageSize
    dsimp only
    rw [addW_of_lt (by omega)]
    by_cases hs : region.base / 4096 < b.size
    · rw [Bitmap.get_setRange hs (by omega)]
      split
      · rename_i hin
        exact iff_of_true rfl (.inr ⟨husable, hin⟩)
      · rename_i hout
        exact ⟨.inl, fun h => h.resolve_right fun h => hout h.2⟩
    · -- the entry starts beyond what the bitmap takes for its end
      rw [Bitmap.setRange_of_le (Nat.le_of_not_lt hs)]
      exact ⟨.inl, fun h => h.resolve_right fun h => by omega⟩
  · rw [if_neg husable]
    exact ⟨.inl, fun h => h.resolve_right fun h => husable h.1⟩

theorem get_foldl_setUsable (map : List MemmapEntry) (b : Bitmap) (hf : f < b.size)
    (halign : ∀ region ∈ map, region.usable = true →
      region.base % pageSize = 0 ∧ region.length % pageSize = 0)
    (hword : ∀ region ∈ map, region.usable = true → region.base + region.length < 2 ^ 64) :
    (map.foldl setUsable b).get f = true ↔ b.get f = true ∨ Usable map f := by
  induction map generalizing b with
  | nil =>
      refine ⟨.inl, fun h => h.resolve_right fun h => ?_⟩
      obtain ⟨region, hmem, -⟩ := h
      exact absurd hmem List.not_mem_nil
  | cons region map ih =>
      rw [List.foldl_cons, ih _ (by rw [setUsable_size]; exact hf)
        (fun r hr => halign r (List.mem_cons_of_mem _ hr))
        (fun r hr => hword r (List.mem_cons_of_mem _ hr)),
        get_setUsable hf (halign region List.mem_cons_self) (hword region List.mem_cons_self), or_assoc]
      unfold Usable
      rw [List.exists_mem_cons_iff]

theorem frameInit_eq (h : (getMemorySize map).isSome) :
    frameInit map dataAt = some
      ((map.foldl setUsable (Bitmap.init (dataAt (bitmapAddress map)) (bitmapSize map))).setRange
        (bitmapAddress map / pageSize)
        (addW (bitmapAddress map / pageSize) ((bitmapSize map + pageSize - 1) / pageSize)) false) := by
  obtain ⟨size, hsize⟩ := Option.isSome_iff_exists.mp h
  unfold frameInit bitmapAddress bitmapSize memorySize
  rw [hsize]
  rfl

/-- A usable entry gives the memory a size. -/
theorem getMemorySize_isSome {region : MemmapEntry} (hmem : region ∈ map)
    (husable : region.usable = true) : (getMemorySize map).isSome := by
  unfold getMemorySize
  rw [Option.isSome_map, List.find?_isSome]
  exact ⟨region, List.mem_reverse.mpr hmem, husable⟩

theorem memorySize_lt (map : List MemmapEntry) : memorySize map < 2 ^ 64 := by
  unfold memorySize getMemorySize
  cases map.reverse.find? (·.usable) with
  | none => exact Nat.two_pow_pos 64
  | some region => exact addW_lt _ _

/-- The bitmap's address is an entry's. -/
theorem bitmapAddress_lt (h : MemmapOk map) : bitmapAddress map < 2 ^ 64 := by
  unfold bitmapAddress
  cases hfind : map.find? fun region => region.usable && decide (bitmapSize map ≤ region.length) with
  | none => exact Nat.two_pow_pos 64
  | some region =>
      have husable : region.usable = true := by
        have := List.find?_some hfind
        simp only [Bool.and_eq_true] at this
        exact this.1
      have := h.word region (List.mem_of_find?_eq_some hfind) husable
      simp only [Option.map_some, Option.getD_some]
      omega

/-- **What `init` leaves**, as far as the bitmap is searched. -/
theorem frameInit_spec (h : MemmapOk map) :
    ∃ b, frameInit map dataAt = some b ∧ b.size = bitmapSize map ∧
      ∀ f < bitmapSize map / 8 * 8, b.get f = true ↔ Usable map f ∧ ¬ HoldsBitmap map f := by
  obtain ⟨region, hmem, husable, -⟩ := h.big
  have hsize : ∀ b : Bitmap, (map.foldl setUsable b).size = b.size :=
    foldl_size setUsable setUsable_size map
  refine ⟨_, frameInit_eq (getMemorySize_isSome hmem husable), ?_, fun f hf => ?_⟩
  · rw [Bitmap.setRange_size, hsize]
    rfl
  · have hlt : f < bitmapSize map := by omega
    have haddr := bitmapAddress_lt h
    have hbytes : bitmapSize map < 2 ^ 53 := by
      have := memorySize_lt map
      unfold bitmapSize pageSize
      omega
    -- `init` has cleared these bits
    have hclear : (Bitmap.init (dataAt (bitmapAddress map)) (bitmapSize map)).get f = false := by
      rw [Bitmap.get_eq, Bitmap.init]
      dsimp only
      rw [if_pos (by omega)]
      exact Nat.zero_testBit _
    have husable := get_foldl_setUsable (f := f) map
      (Bitmap.init (dataAt (bitmapAddress map)) (bitmapSize map)) hlt h.aligned h.word
    rw [hclear] at husable
    unfold HoldsBitmap
    by_cases hs : bitmapAddress map / pageSize < bitmapSize map
    · have hs' : bitmapAddress map / pageSize <
          (map.foldl setUsable (Bitmap.init (dataAt (bitmapAddress map)) (bitmapSize map))).size := by
        rw [hsize]
        exact hs
      rw [addW_of_lt (by unfold pageSize; omega), Bitmap.get_setRange hs' (by omega)]
      split
      · rename_i hin
        exact ⟨fun h => absurd h Bool.false_ne_true, fun h => absurd hin h.2⟩
      · rename_i hout
        rw [husable]
        exact ⟨fun h => ⟨h.resolve_left Bool.false_ne_true, hout⟩, fun h => .inr h.1⟩
    · rw [Bitmap.setRange_of_le (by rw [hsize]; exact Nat.le_of_not_lt hs), husable]
      exact ⟨fun h => ⟨h.resolve_left Bool.false_ne_true, fun hin => by omega⟩, fun h => .inr h.1⟩

/-! ## Handing out all of it -/

/-- The frames the search sees, unless frame 0 is one of them, are handed out once each. -/
theorem allocAll_spec (n : Nat) (b : Bitmap) (hsize : b.size ≤ 2 ^ 52)
    (hzero : 0 ∉ freeBelow b (b.size / 8 * 8)) (hn : (freeBelow b (b.size / 8 * 8)).card < n) :
    (allocAll n b).length < n ∧ (allocAll n b).Nodup ∧
      ∀ addr, addr ∈ allocAll n b ↔ ∃ f ∈ freeBelow b (b.size / 8 * 8), addr = f * pageSize := by
  induction n generalizing b with
  | zero => exact absurd hn (Nat.not_lt_zero _)
  | succ n ih =>
      rw [allocAll]
      rcases Finset.eq_empty_or_nonempty (freeBelow b (b.size / 8 * 8)) with hempty | hfree
      · -- nothing is left
        have hnone : (allocFrames b 1).1 = 0 := by
          rcases allocFrames_cases hsize (Nat.le_refl 1) with ⟨r, hr, hf, -⟩ | ⟨-, he⟩
          · have hmem : r ∈ freeBelow b (b.size / 8 * 8) := mem_freeBelow.mpr ⟨hr, hr, hf.2.1⟩
            rw [hempty] at hmem
            exact absurd hmem (Finset.notMem_empty r)
          · rw [he]
        dsimp only
        rw [if_pos hnone, hempty]
        refine ⟨Nat.succ_pos n, .nil, fun addr => ⟨fun h => absurd h List.not_mem_nil, fun h => ?_⟩⟩
        obtain ⟨f, hf, -⟩ := h
        exact absurd hf (Finset.notMem_empty f)
      · obtain ⟨r, b', hr, he, hsize', hget⟩ := allocFrames_one hsize hfree
        have hne : r ≠ 0 := fun h => hzero (h ▸ hr)
        have herase : freeBelow b' (b'.size / 8 * 8) = (freeBelow b (b.size / 8 * 8)).erase r := by
          rw [hsize']
          exact freeBelow_erase hsize' hget
        have hcard := Finset.card_erase_lt_of_mem hr
        obtain ⟨hlength, hnodup, hmem⟩ := ih b' (hsize' ▸ hsize)
          (by rw [herase]; exact fun h => hzero (Finset.mem_of_mem_erase h))
          (by rw [herase]; omega)
        rw [he]
        dsimp only
        rw [if_neg (Nat.mul_ne_zero hne (by decide))]
        have hinj : ∀ f, f * pageSize = r * pageSize → f = r := fun f h =>
          Nat.eq_of_mul_eq_mul_right (by decide) h
        refine ⟨Nat.succ_lt_succ hlength, List.nodup_cons.mpr ⟨fun h => ?_, hnodup⟩, fun addr => ?_⟩
        · obtain ⟨f, hf, heq⟩ := (hmem _).mp h
          rw [herase] at hf
          exact Finset.ne_of_mem_erase hf (hinj f heq.symm)
        · rw [List.mem_cons, hmem, herase]
          constructor
          · intro h
            rcases h with rfl | ⟨f, hf, rfl⟩
            · exact ⟨r, hr, rfl⟩
            · exact ⟨f, Finset.mem_of_mem_erase hf, rfl⟩
          · intro h
            obtain ⟨f, hf, rfl⟩ := h
            by_cases hfr : f = r
            · exact .inl (by rw [hfr])
            · exact .inr ⟨f, Finset.mem_erase.mpr ⟨hfr, hf⟩, rfl⟩

/-- With frame 0 free, the first call says that there is none. -/
theorem allocAll_zero (n : Nat) (hsize : b.size ≤ 2 ^ 52) (hzero : 0 ∈ freeBelow b (b.size / 8 * 8)) :
    allocAll n b = [] := by
  obtain ⟨hlt, -, hset⟩ := mem_freeBelow.mp hzero
  have hfirst : Bitmap.IsFirst b.get 0 0 :=
    ⟨Nat.le_refl 0, hset, fun i _ h => absurd h (Nat.not_lt_zero i)⟩
  cases n with
  | zero => rfl
  | succ n =>
      rw [allocAll]
      rcases allocFrames_cases hsize (Nat.le_refl 1) with ⟨r, -, hf, he⟩ | ⟨hall, -⟩
      · rw [he, isFirst_unique hf hfirst, Nat.zero_mul]
        rfl
      · rw [hall 0 hlt] at hset
        exact absurd hset Bool.false_ne_true

/-! ## Which maps are good -/

theorem bitmapSize_le (map : List MemmapEntry) :
    bitmapSize map ≤ 2 ^ 52 ∧ bitmapSize map / 8 * 8 ≤ frameCount map := by
  have hmem := memorySize_lt map
  have hframes : memorySize map / pageSize < 2 ^ 52 := by
    unfold pageSize
    omega
  unfold bitmapSize frameCount
  generalize memorySize map / pageSize = frames at hframes ⊢
  omega

/-- What the search sees are the frames it should see, of those it can. -/
theorem mem_freeBelow_init (hsize : b.size = bitmapSize map)
    (hbits : ∀ f < bitmapSize map / 8 * 8, b.get f = true ↔ Usable map f ∧ ¬ HoldsBitmap map f)
    (f : Nat) : f ∈ freeBelow b (b.size / 8 * 8) ↔
      f < bitmapSize map / 8 * 8 ∧ Usable map f ∧ ¬ HoldsBitmap map f := by
  rw [mem_freeBelow, hsize]
  constructor
  · intro hf
    exact ⟨hf.1, (hbits f hf.1).mp hf.2.2⟩
  · intro hf
    exact ⟨hf.1, hf.1, (hbits f hf.1).mpr hf.2⟩

theorem findable_of_inventoryOk (hsize : b.size = bitmapSize map)
    (hbits : ∀ f < bitmapSize map / 8 * 8, b.get f = true ↔ Usable map f ∧ ¬ HoldsBitmap map f)
    (hok : InventoryOk map b) : Findable map := by
  intro f hf husable hholds
  have hset := (hok.bits f hf).mpr ⟨husable, hholds⟩
  rw [hsize] at hset
  refine ⟨hset.1, fun hzero => ?_⟩
  -- frame 0 would never be handed out
  subst hzero
  have hfree := (mem_freeBelow_init hsize hbits 0).mpr ⟨hset.1, husable, hholds⟩
  obtain ⟨n, -, -, hall⟩ := hok.all
  have hin := (hall 0).mpr ⟨0, hf, husable, hholds, (Nat.zero_mul _).symm⟩
  rw [allocAll_zero n (hsize ▸ (bitmapSize_le map).1) hfree] at hin
  exact absurd hin List.not_mem_nil

theorem inventoryOk_of_findable (hsize : b.size = bitmapSize map)
    (hbits : ∀ f < bitmapSize map / 8 * 8, b.get f = true ↔ Usable map f ∧ ¬ HoldsBitmap map f)
    (hfind : Findable map) : InventoryOk map b := by
  obtain ⟨hle, hvisible⟩ := bitmapSize_le map
  have hfree := mem_freeBelow_init hsize hbits
  have hzero : 0 ∉ freeBelow b (b.size / 8 * 8) := by
    intro hzero
    obtain ⟨hlt, husable, hholds⟩ := (hfree 0).mp hzero
    exact (hfind 0 (Nat.lt_of_lt_of_le hlt hvisible) husable hholds).2 rfl
  obtain ⟨hlength, hnodup, hall⟩ := allocAll_spec _ b (hsize ▸ hle) hzero (Nat.lt_succ_self _)
  refine ⟨fun f hf => ?_, _, hlength, hnodup, fun addr => ?_⟩
  · rw [hsize]
    constructor
    · intro hset
      exact (hbits f hset.1).mp hset.2
    · intro hin
      have hlt := (hfind f hf hin.1 hin.2).1
      exact ⟨hlt, (hbits f hlt).mpr hin⟩
  · rw [hall]
    constructor
    · intro hin
      obtain ⟨f, hf, rfl⟩ := hin
      obtain ⟨hlt, husable, hholds⟩ := (hfree f).mp hf
      exact ⟨f, Nat.lt_of_lt_of_le hlt hvisible, husable, hholds, rfl⟩
    · intro hin
      obtain ⟨f, hf, husable, hholds, rfl⟩ := hin
      exact ⟨f, (hfree f).mpr ⟨(hfind f hf husable hholds).1, husable, hholds⟩, rfl⟩

/--
**The allocator has the frames it should exactly when they are all findable.**

Over every memory map and whatever the memory of the bitmap holds before: the bits
are right, and single allocations hand out each usable frame but the bitmap's own
once before they fail, if and only if each of these frames is below the size of the
bitmap in bytes, rounded down to a multiple of 8, and none is frame 0.
-/
theorem inventory_iff (h : MemmapOk map) :
    ∃ b, frameInit map dataAt = some b ∧ (InventoryOk map b ↔ Findable map) := by
  obtain ⟨b, hinit, hsize, hbits⟩ := frameInit_spec h
  exact ⟨b, hinit, findable_of_inventoryOk hsize hbits, inventoryOk_of_findable hsize hbits⟩

/-- One frame, and far up two that the bitmap takes. -/
def farMap : List MemmapEntry := [⟨0x1000, 0x1000, true⟩, ⟨163840000, 0x2000, true⟩]

theorem memmapOk_farMap : MemmapOk farMap := by
  refine ⟨by decide, by decide, ?_, ?_, ⟨163840000, 0x2000, true⟩, by simp [farMap], rfl, by decide⟩
  · intro region hmem _
    rcases List.mem_pair.mp hmem with rfl | rfl
    · decide
    · decide
  · intro region hmem _
    rcases List.mem_pair.mp hmem with rfl | rfl
    · decide
    · decide

/-- All there is can be found. -/
theorem inventory_farMap : ∃ b, frameInit farMap (fun _ _ => 0xff) = some b ∧
    InventoryOk farMap b := by
  obtain ⟨b, hinit, hiff⟩ := @inventory_iff farMap (fun _ _ => 0xff) memmapOk_farMap
  refine ⟨b, hinit, hiff.mpr fun f _ husable hholds => ?_⟩
  obtain ⟨region, hmem, -, hin⟩ := husable
  have hsize : bitmapSize farMap = 5001 := by decide
  have haddr : bitmapAddress farMap = 163840000 := by decide
  unfold HoldsBitmap at hholds
  rw [hsize, haddr] at hholds
  rw [hsize]
  unfold InEntry at hin
  unfold pageSize at hholds hin
  rcases List.mem_pair.mp hmem with rfl | rfl
  · dsimp only at hin
    omega
  · dsimp only at hin
    omega

/-- 64 frames, from frame 1 on. -/
def smallMap : List MemmapEntry := [⟨0x1000, 0x40000, true⟩]

theorem memmapOk_smallMap : MemmapOk smallMap := by
  refine ⟨by decide, by decide, ?_, ?_, ⟨0x1000, 0x40000, true⟩, by simp [smallMap], rfl, by decide⟩
  · intro region hmem _
    rw [List.mem_singleton.mp hmem]
    decide
  · intro region hmem _
    rw [List.mem_singleton.mp hmem]
    decide

/-- **Most of the memory is lost**: of 64 frames the bitmap takes one, and no call ever returns the
last one. -/
theorem frames_lost : MemmapOk smallMap ∧ ∃ b, frameInit smallMap (fun _ _ => 0xff) = some b ∧
    frameCount smallMap = 65 ∧ Usable smallMap 64 ∧ ¬ HoldsBitmap smallMap 64 ∧ b.size / 8 * 8 = 8 ∧
    ¬ InventoryOk smallMap b := by
  obtain ⟨b, hinit, hsize, hbits⟩ := @frameInit_spec smallMap (fun _ _ => 0xff) memmapOk_smallMap
  have hbytes : bitmapSize smallMap = 9 := by decide
  have haddr : bitmapAddress smallMap = 0x1000 := by decide
  have husable : Usable smallMap 64 := ⟨_, List.mem_singleton.mpr rfl, rfl, by decide, by decide⟩
  have hholds : ¬ HoldsBitmap smallMap 64 := by
    unfold HoldsBitmap
    rw [hbytes, haddr]
    decide
  refine ⟨memmapOk_smallMap, b, hinit, by decide, husable, hholds, by rw [hsize, hbytes],
    fun hok => ?_⟩
  have hlt := (findable_of_inventoryOk hsize hbits hok 64 (by decide) husable hholds).1
  rw [hbytes] at hlt
  exact absurd hlt (by decide)

end IonOS.Mm
