import IonOS.Arch.Clone

/-!
# Tearing an address space down

`free_page_table_recursive` goes down four levels, at the top through the 256
entries of the user half only, and frees the frame of every table and page on its
way back up. It takes the address in an entry, not the entry, for the sign that
nothing is there: the recursion stops at the image of physical address 0.

What it reaches is a set of frames that the page tables alone determine
(`InUserHalf`). No tree is needed: the tables may share frames or run in circles,
a path still has at most four steps, and freeing a frame twice is freeing it once.
-/

namespace IonOS.Arch

open IonOS.Lib IonOS.Libs IonOS.Mm

variable {off a f level : Nat} {m : Mem} {s t u : Machine} {A B : Nat → Prop}

/-! ## What can be reached -/

/-- The address in entry `i` of the table at physical address `table`. -/
def addrField (off : Nat) (m : Mem) (table i : Nat) : Nat :=
  copyMask (m.read64 (entryAddr (physToVirt off table) i))

/-- An entry leads somewhere if its address is not zero. -/
def fieldEdge (off : Nat) (m : Mem) (table : Nat) (i : Fin 512) : Option Nat :=
  if addrField off m table i = 0 then none else some (addrField off m table i)

/-- The physical address that a path leads to. -/
def fieldWalk (off : Nat) (m : Mem) (root : Nat) (p : List (Fin 512)) : Option Nat :=
  walk (fieldEdge off m) id root p

/-- The frames of an address space that its user half owns: that of the root, and those of the
tables and pages behind the level-4 entries 0 to 255. -/
def InUserHalf (off : Nat) (m : Mem) (root f : Nat) : Prop :=
  f = root / pageSize ∨
    ∃ p a, UserPath p ∧ p.length ≤ 4 ∧ fieldWalk off m root p = some a ∧ f = a / pageSize

/-- The frames below a table of some level, its own included. -/
def Below (off : Nat) (m : Mem) (level a f : Nat) : Prop :=
  a ≠ 0 ∧ ∃ p b, p.length ≤ level ∧ (level = 4 → ∀ i ∈ p.head?, i.val < 256) ∧
    fieldWalk off m a p = some b ∧ f = b / pageSize

/-- The number of entries that are followed. -/
def fanOut (level : Nat) : Nat := if level = 4 then 256 else 512

theorem fieldWalk_cons (i : Fin 512) (p : List (Fin 512)) :
    fieldWalk off m a (i :: p) =
      if addrField off m a i = 0 then none else fieldWalk off m (addrField off m a i) p := by
  unfold fieldWalk walk fieldEdge
  rw [route]
  split
  · rfl
  · rw [Option.bind_some, Option.map_map]
    rfl

theorem below_zero : Below off m 0 a f ↔ a ≠ 0 ∧ f = a / pageSize := by
  constructor
  · rintro ⟨ha, p, b, hp, -, hw, hf⟩
    obtain rfl := List.eq_nil_of_length_eq_zero (Nat.le_zero.mp hp)
    obtain rfl := Option.some.inj hw
    exact ⟨ha, hf⟩
  · rintro ⟨ha, hf⟩
    exact ⟨ha, [], a, Nat.le_refl _, by simp, rfl, hf⟩

/-- **One level**: the table itself, and what is below its entries. -/
theorem below_succ (hlevel : level + 1 ≤ 4) :
    Below off m (level + 1) a f ↔
      a ≠ 0 ∧ ((∃ i < fanOut (level + 1), Below off m level (addrField off m a i) f) ∨
        f = a / pageSize) := by
  constructor
  · rintro ⟨ha, p, b, hp, htop, hw, hf⟩
    refine ⟨ha, ?_⟩
    cases p with
    | nil =>
        obtain rfl := Option.some.inj hw
        exact .inr hf
    | cons i p =>
        rw [fieldWalk_cons] at hw
        split at hw
        · exact absurd hw (by simp)
        · rename_i hi
          have hlt : i.val < fanOut (level + 1) := by
            unfold fanOut
            split
            · exact htop ‹_› i rfl
            · exact i.isLt
          have hp' : p.length ≤ level := by simpa using hp
          exact .inl ⟨i, hlt, hi, p, b, hp', by omega, hw, hf⟩
  · rintro ⟨ha, ⟨i, hlt, hi, p, b, hp, -, hw, hf⟩ | hf⟩
    · have hi512 : i < 512 := by
        unfold fanOut at hlt
        split at hlt <;> omega
      refine ⟨ha, ⟨i, hi512⟩ :: p, b, by simpa using hp, ?_, ?_, hf⟩
      · intro htop j hj
        obtain rfl := Option.some.inj hj
        rwa [fanOut, if_pos htop] at hlt
      · rw [fieldWalk_cons, if_neg hi, hw]
    · exact ⟨ha, [], a, Nat.zero_le _, by simp, rfl, hf⟩

/-- From the top, the frames below are those of the user half. -/
theorem below_top : Below off m 4 a f ↔ a ≠ 0 ∧ InUserHalf off m a f := by
  constructor
  · rintro ⟨ha, p, b, hp, htop, hw, hf⟩
    refine ⟨ha, ?_⟩
    cases p with
    | nil =>
        obtain rfl := Option.some.inj hw
        exact .inl hf
    | cons i p => exact .inr ⟨i :: p, b, ⟨i, p, rfl, htop rfl i rfl⟩, hp, hw, hf⟩
  · rintro ⟨ha, hf | ⟨_, b, ⟨i, p, rfl, hi⟩, hp, hw, hf⟩⟩
    · exact ⟨ha, [], a, Nat.zero_le _, by simp, rfl, hf⟩
    · refine ⟨ha, i :: p, b, hp, fun _ j hj => ?_, hw, hf⟩
      obtain rfl := Option.some.inj hj
      exact hi

/-! ## What is freed -/

/-- From `s` to `t`, the frames of `A` were freed and nothing else happened. -/
structure Frees (s t : Machine) (A : Nat → Prop) : Prop where
  mem : t.mem = s.mem
  size : t.frames.size = s.frames.size
  bits : ∀ f, t.frames.get f = true ↔ s.frames.get f = true ∨ A f

namespace Frees

theorem refl (h : ∀ f, ¬ A f) : Frees s s A :=
  ⟨rfl, rfl, fun f => by simp [h f]⟩

theorem trans (h1 : Frees s t A) (h2 : Frees t u B) : Frees s u fun f => A f ∨ B f where
  mem := h2.mem.trans h1.mem
  size := h2.size.trans h1.size
  bits f := by rw [h2.bits, h1.bits, or_assoc]

theorem congr (h : Frees s t A) (hAB : ∀ f, A f ↔ B f) : Frees s t B :=
  ⟨h.mem, h.size, fun f => by rw [h.bits, hAB]⟩

end Frees

theorem virtToPhys_image (ha : a < 2 ^ 64) : virtToPhys off (physToVirt off a) = a := by
  unfold virtToPhys physToVirt subW addW
  omega

theorem copyMask_lt (v : Nat) : copyMask v < 2 ^ 47 := by
  rw [copyMask_eq]
  omega

/-- Freeing a table's own frame. -/
theorem free_own (ha : a < 2 ^ 64) (hin : a / pageSize < s.frames.size) :
    Frees s { s with frames := freeFrames s.frames (virtToPhys off (physToVirt off a)) 1 }
      fun f => f = a / pageSize where
  mem := rfl
  size := Bitmap.setRange_size _ _ _ _
  bits f := by
    have hlt : a / pageSize < 2 ^ 52 := by
      unfold pageSize
      omega
    dsimp only
    rw [virtToPhys_image ha, freeFrames, addW_of_lt (by omega),
      Bitmap.get_setRange hin (by omega)]
    by_cases h : f = a / pageSize
    · rw [if_pos (by omega)]
      simp [h]
    · rw [if_neg (by omega)]
      simp [h]

/-- **The loop frees what is below each entry**, if each step does. -/
theorem freeEntries_frees {next : Machine → Nat → Machine} {A : Nat → Nat → Prop} {table n : Nat}
    (hnext : ∀ i < n, ∀ t : Machine, t.mem = s.mem → t.frames.size = s.frames.size →
      Frees t (next t (physToVirt off (addrField off s.mem table i))) (A i)) :
    Frees s (freeEntries off next (physToVirt off table) s n) fun f => ∃ i < n, A i f := by
  induction n with
  | zero => exact .refl (by simp)
  | succ n ih =>
    have hdone := ih fun i hi => hnext i (by omega)
    have hstep := hnext n (Nat.lt_succ_self n) _ hdone.mem hdone.size
    rw [freeEntries, hdone.mem]
    refine (hdone.trans hstep).congr fun f => ?_
    simp only [Nat.lt_succ_iff_lt_or_eq, or_and_right, exists_or, exists_eq_left]

/-- **The recursion frees the frames below the table**, by induction over the levels. -/
theorem freePageTableRecursive_frees (hlevel : level ≤ 4) (ha : a < 2 ^ 64)
    (hin : ∀ f, Below off s.mem level a f → f < s.frames.size) :
    Frees s (freePageTableRecursive off level s (physToVirt off a)) (Below off s.mem level a) := by
  induction level generalizing s a with
  | zero =>
    rw [freePageTableRecursive]
    split
    · rename_i h0
      exact .refl fun f hf => hf.1 ((physToVirt_zero_iff ha).mp h0)
    · rename_i h0
      have ha0 : a ≠ 0 := fun h => h0 ((physToVirt_zero_iff ha).mpr h)
      refine (free_own ha (hin _ (below_zero.mpr ⟨ha0, rfl⟩))).congr fun f => ?_
      rw [below_zero, and_iff_right ha0]
  | succ level ih =>
    rw [freePageTableRecursive]
    split
    · rename_i h0
      exact .refl fun f hf => hf.1 ((physToVirt_zero_iff ha).mp h0)
    · rename_i h0
      have ha0 : a ≠ 0 := fun h => h0 ((physToVirt_zero_iff ha).mpr h)
      have hsub : ∀ i < fanOut (level + 1), ∀ f, Below off s.mem level (addrField off s.mem a i) f →
          f < s.frames.size :=
        fun i hi f hf => hin f ((below_succ hlevel).mpr ⟨ha0, .inl ⟨i, hi, hf⟩⟩)
      have hown : a / pageSize < s.frames.size :=
        hin _ ((below_succ hlevel).mpr ⟨ha0, .inr rfl⟩)
      -- the tables do not change, so each entry still names what it named at the start
      have hloop : Frees s (freeEntries off (freePageTableRecursive off level) (physToVirt off a) s
          (fanOut (level + 1))) fun f => ∃ i < fanOut (level + 1),
            Below off s.mem level (addrField off s.mem a i) f := by
        refine freeEntries_frees fun i hi t hmem hsize => ?_
        have hfield : addrField off s.mem a i < 2 ^ 64 :=
          Nat.lt_trans (copyMask_lt _) (by decide)
        have hstep := ih (s := t) (by omega) hfield (by rw [hmem, hsize]; exact hsub i hi)
        rwa [hmem] at hstep
      refine (hloop.trans (free_own ha (by rw [hloop.size]; exact hown))).congr fun f => ?_
      rw [below_succ hlevel, and_iff_right ha0]

/-! ## The whole address space -/

/--
**Teardown frees exactly the user half.**

The context at hand is the last user of its tables, and what its user half names
lies inside the bitmap. The frames free afterwards are those free before and those
of the user half, all of them and no others; a frame that only the kernel half
reaches keeps its bit, and the tables stay as they were. A context without tables,
whose root is physical address 0, frees nothing.
-/
theorem freePageTable_frees {directory : MmContext} (hlast : directory.refCount = 1)
    (hroot : directory.pageTablePhys < 2 ^ 64)
    (hin : ∀ f, InUserHalf off s.mem directory.pageTablePhys f → f < s.frames.size) :
    (freePageTable off s directory).2.mem = s.mem ∧
    (∀ f, (freePageTable off s directory).2.frames.get f = true ↔ s.frames.get f = true ∨
      (directory.pageTablePhys ≠ 0 ∧ InUserHalf off s.mem directory.pageTablePhys f)) ∧
    (∀ p a, fieldWalk off s.mem directory.pageTablePhys p = some a →
      ¬ InUserHalf off s.mem directory.pageTablePhys (a / pageSize) →
      (freePageTable off s directory).2.frames.get (a / pageSize) =
        s.frames.get (a / pageSize)) := by
  have hfrees : Frees s
      (freePageTableRecursive off 4 s (physToVirt off directory.pageTablePhys))
      (Below off s.mem 4 directory.pageTablePhys) :=
    freePageTableRecursive_frees (Nat.le_refl 4) hroot fun f hf => hin f (below_top.mp hf).2
  unfold freePageTable
  rw [if_pos hlast]
  have hbits : ∀ f, (freePageTableRecursive off 4 s
      (physToVirt off directory.pageTablePhys)).frames.get f = true ↔ s.frames.get f = true ∨
        (directory.pageTablePhys ≠ 0 ∧ InUserHalf off s.mem directory.pageTablePhys f) := by
    intro f
    rw [hfrees.bits, below_top]
  refine ⟨hfrees.mem, hbits, fun p a _ hout => ?_⟩
  rw [Bool.eq_iff_iff, hbits]
  simp [hout]

/-- The addresses in entries are below 2^47, so a bitmap of 2^35 bits has them all. -/
theorem inUserHalf_lt {root : Nat} (hroot : root < 2 ^ 47) (h : InUserHalf off m root f) :
    f < 2 ^ 35 := by
  rcases h with rfl | ⟨p, a, -, -, hw, rfl⟩
  · unfold pageSize
    omega
  · have ha : a < 2 ^ 47 := by
      rcases List.eq_nil_or_concat' p with rfl | ⟨q, i, rfl⟩
      · obtain rfl := Option.some.inj hw
        exact hroot
      · rw [fieldWalk, walk_concat] at hw
        obtain ⟨x, -, hw⟩ := Option.bind_eq_some_iff.mp hw
        obtain ⟨v, hv, rfl⟩ := Option.map_eq_some_iff.mp hw
        unfold fieldEdge at hv
        split at hv
        · exact absurd hv (by simp)
        · obtain rfl := Option.some.inj hv
          exact copyMask_lt _
    unfold pageSize
    omega

/-- A root in frame 1 whose first entry names frame 2, and no free frame. -/
def pairMachine : Machine :=
  ⟨Mem.write64 (fun _ => 0) (entryAddr (physToVirt hhdmOffset 0x1000) 0) 0x2007, ⟨fun _ => 0, 2 ^ 35⟩⟩

/-- Both frames are given back. -/
theorem freePageTable_pair :
    let s := (freePageTable hhdmOffset pairMachine ⟨0x1000, 1⟩).2
    s.mem = pairMachine.mem ∧ s.frames.get 1 = true ∧ s.frames.get 2 = true := by
  have hlast : (⟨0x1000, 1⟩ : MmContext).refCount = 1 := rfl
  have hin : ∀ f, InUserHalf hhdmOffset pairMachine.mem 0x1000 f → f < pairMachine.frames.size :=
    fun f hf => inUserHalf_lt (by decide) hf
  obtain ⟨hmem, hbits, -⟩ := freePageTable_frees hlast (by decide) hin
  have htable : fieldWalk hhdmOffset pairMachine.mem 0x1000 [0] = some 0x2000 := by decide +kernel
  refine ⟨hmem, (hbits 1).mpr (.inr ⟨by decide, .inl rfl⟩), (hbits 2).mpr (.inr ⟨by decide, ?_⟩)⟩
  exact .inr ⟨[0], 0x2000, ⟨0, [], rfl, by decide⟩, by decide, htable, rfl⟩

/-- **Without tables no frame is freed**, although frame 0 counts as the root's. -/
theorem freePageTable_null :
    (∀ f, InUserHalf hhdmOffset bareMachine.mem 0 f → f < bareMachine.frames.size) ∧
    InUserHalf hhdmOffset bareMachine.mem 0 0 ∧
    (freePageTable hhdmOffset bareMachine ⟨0, 1⟩).2.frames.get 0 = false := by
  refine ⟨fun f hf => ?_, .inl rfl, by decide +kernel⟩
  rcases hf with rfl | ⟨_, a, ⟨i, p, rfl, -⟩, -, hw, -⟩
  · decide
  · have hzero : addrField hhdmOffset bareMachine.mem 0 i = 0 := by
      unfold addrField
      rw [show bareMachine.mem = fun _ => 0 from rfl, Mem.read64_zero]
      exact Nat.zero_and _
    rw [fieldWalk_cons, if_pos hzero] at hw
    exact absurd hw (by simp)

end IonOS.Arch
