import IonOS.Arch.Smp
import IonOS.Arch.Table
import IonOS.Arch.Syscall
import IonOS.Mm.Frame
import IonOS.Proc.Thread

/-!
# The segments

`gdt.cpp`, and `tss_init` of `apic.cpp`: the segments of the kernel and of its programs,
and behind them, for each CPU, the descriptor of its task state segment. Each CPU makes
its own, whenever it gets there.
-/

namespace IonOS.Arch

open IonOS.Lib IonOS.Libs IonOS.Mm IonOS.Proc

/-! ## Descriptors -/

/-- `sizeof(tss_t)`, with the bitmap of the ports. -/
def tssSize : Nat := 104 + 65536 / 8

/-- The words that `set_tss_descriptor` puts together. -/
def tssDescriptor (addr : Nat) : Nat × Nat :=
  let limit := tssSize
  ((limit &&& 0xffff) ||| ((addr &&& 0xffff) <<< 16) ||| ((addr >>> 16 &&& 0xff) <<< 32) |||
      (0x89 <<< 40) ||| ((limit >>> 16 &&& 0x0f) <<< 48) ||| ((addr >>> 24 &&& 0xff) <<< 56),
    addr >>> 32 &&& 0xffffffff ||| 0)

/-- A descriptor. -/
structure Descriptor where
  base : Nat
  limit : Nat
  type : Nat
  /-- Code or data, as opposed to a segment of the system's. -/
  memory : Bool
  dpl : Nat
  present : Bool
  long : Bool
deriving DecidableEq, Repr

/-- How a processor reads a descriptor; `high` is the word behind it, which counts for a segment of
the system's only. -/
def descriptorOf (low high : Nat) : Descriptor where
  base := low / 2 ^ 16 % 2 ^ 24 + low / 2 ^ 56 % 2 ^ 8 * 2 ^ 24 +
    (if low / 2 ^ 44 % 2 = 1 then 0 else high % 2 ^ 32 * 2 ^ 32)
  limit := low % 2 ^ 16 + low / 2 ^ 48 % 2 ^ 4 * 2 ^ 16
  type := low / 2 ^ 40 % 2 ^ 4
  memory := low / 2 ^ 44 % 2 = 1
  dpl := low / 2 ^ 45 % 4
  present := low / 2 ^ 47 % 2 = 1
  long := low / 2 ^ 53 % 2 = 1

/-! ## The tables -/

/-- `gdt_entries` after `gdt::init`. -/
def gdtInit : Nat → Nat
  | 1 => 0x00a09a0000000000
  | 2 => 0x00c0920000000000
  | 3 => 0x00c0f20000000000
  | 4 => 0x00a0fa0000000000
  | _ => 0

/-- `set_tss64`. -/
def setTss64 (m : Mem) (table rsp0 rsp1 rsp2 ist1 ist2 ist3 ist4 ist5 ist6 ist7 : Nat) : Mem :=
  let m := m.write64 (table + 4 * 1) rsp0
  let m := m.write64 (table + 4 * 3) rsp1
  let m := m.write64 (table + 4 * 5) rsp2
  let m := m.write64 (table + 4 * 9) ist1
  let m := m.write64 (table + 4 * 11) ist2
  let m := m.write64 (table + 4 * 13) ist3
  let m := m.write64 (table + 4 * 15) ist4
  let m := m.write64 (table + 4 * 17) ist5
  let m := m.write64 (table + 4 * 19) ist6
  m.write64 (table + 4 * 21) ist7

/-- `set_tss_descriptor`. -/
def setTssDescriptor (gdt : Nat → Nat) (n addr : Nat) : Nat → Nat :=
  let gdt := Function.update gdt n (tssDescriptor addr).1
  Function.update gdt (n + 1) (tssDescriptor addr).2

/-- The table of segments and the machine. -/
structure SegState where
  gdt : Nat → Nat
  machine : Machine

/-- `&tss[cpu]`. -/
def tssAddr (tss cpu : Nat) : Nat := tss + tssSize * cpu

/-- `tss_init` on a CPU, up to `ltr`. -/
def tssInit (off tss cpu : Nat) (s : SegState) : SegState :=
  let (stack, frames) := allocFrames s.machine.frames (kThreadStackSize / pageSize)
  let sp := addW (physToVirt off stack) kThreadStackSize
  let offset := 10 + cpu * 2
  let m := setTss64 s.machine.mem (tssAddr tss cpu) sp sp sp sp sp sp sp sp sp sp
  ⟨setTssDescriptor s.gdt offset (tssAddr tss cpu), ⟨m, frames⟩⟩

/-- The stack pointers of a task state segment, as a processor reads them: `rsp0` to `rsp2`, then
`ist1` to `ist7`. -/
def tssStacks (m : Mem) (table : Nat) : List Nat :=
  [4, 12, 20, 36, 44, 52, 60, 68, 76, 84].map fun k => m.read64 (table + k)

/-- The descriptor that a selector picks. -/
def selected (gdt : Nat → Nat) (sel : Nat) : Descriptor :=
  descriptorOf (gdt (sel / 8)) (gdt (sel / 8 + 1))

variable {addr n i w off tss cpu sp : Nat} {gdt : Nat → Nat} {m : Mem} {s : SegState}
  {frames : Bitmap} {cpus before after : List Nat}

/-! ## One descriptor -/

/-- A field above the bits that are there. -/
theorem or_shiftLeft {x k : Nat} (hx : x < 2 ^ k) (y : Nat) : x ||| y <<< k = x + y * 2 ^ k := by
  rw [Nat.or_comm, ← Nat.shiftLeft_add_eq_or_of_lt hx, Nat.shiftLeft_eq, Nat.add_comm]

theorem tssDescriptor_eq (addr : Nat) :
    tssDescriptor addr =
      (tssSize + addr % 2 ^ 16 * 2 ^ 16 + addr / 2 ^ 16 % 2 ^ 8 * 2 ^ 32 + 0x89 * 2 ^ 40 +
        0 * 2 ^ 48 + addr / 2 ^ 24 % 2 ^ 8 * 2 ^ 56, addr / 2 ^ 32 % 2 ^ 32) := by
  have h16 : ∀ v, v &&& 0xffff = v % 2 ^ 16 := fun v => Nat.and_two_pow_sub_one_eq_mod v 16
  have h8 : ∀ v, v &&& 0xff = v % 2 ^ 8 := fun v => Nat.and_two_pow_sub_one_eq_mod v 8
  have h32 : ∀ v, v &&& 0xffffffff = v % 2 ^ 32 := fun v => Nat.and_two_pow_sub_one_eq_mod v 32
  have hlimit : tssSize >>> 16 &&& 0x0f = 0 := by decide
  have hsize : tssSize % 2 ^ 16 = tssSize := by decide
  have hlt : tssSize < 2 ^ 16 := by decide
  unfold tssDescriptor
  dsimp only
  rw [h16, h16, h8, h8, h32, hlimit, hsize, Nat.shiftRight_eq_div_pow, Nat.shiftRight_eq_div_pow,
    Nat.shiftRight_eq_div_pow, Nat.or_zero]
  have ha : addr % 2 ^ 16 < 2 ^ 16 := by omega
  have hb : addr / 2 ^ 16 % 2 ^ 8 < 2 ^ 8 := by omega
  generalize addr % 2 ^ 16 = a at *
  generalize addr / 2 ^ 16 % 2 ^ 8 = b at *
  generalize addr / 2 ^ 24 % 2 ^ 8 = c
  rw [or_shiftLeft hlt,
    or_shiftLeft (show tssSize + a * 2 ^ 16 < 2 ^ 32 by omega),
    or_shiftLeft (show tssSize + a * 2 ^ 16 + b * 2 ^ 32 < 2 ^ 40 by omega),
    or_shiftLeft (show tssSize + a * 2 ^ 16 + b * 2 ^ 32 + 0x89 * 2 ^ 40 < 2 ^ 48 by omega),
    or_shiftLeft
      (show tssSize + a * 2 ^ 16 + b * 2 ^ 32 + 0x89 * 2 ^ 40 + 0 * 2 ^ 48 < 2 ^ 56 by omega)]

/-- **The descriptor of a task state segment reads back**, wherever the segment is. -/
theorem descriptorOf_tss (haddr : addr < 2 ^ 64) :
    descriptorOf (tssDescriptor addr).1 (tssDescriptor addr).2 =
      { base := addr, limit := tssSize, type := 9, memory := false, dpl := 0, present := true,
        long := false } := by
  rw [tssDescriptor_eq]
  have hlt : tssSize < 2 ^ 16 := by decide
  generalize tssSize = size at hlt
  generalize hlow : size + addr % 2 ^ 16 * 2 ^ 16 + addr / 2 ^ 16 % 2 ^ 8 * 2 ^ 32 + 0x89 * 2 ^ 40 +
    0 * 2 ^ 48 + addr / 2 ^ 24 % 2 ^ 8 * 2 ^ 56 = low
  have hmod : low % 2 ^ 16 = size := by omega
  have h16 : low / 2 ^ 16 = addr % 2 ^ 16 + addr / 2 ^ 16 % 2 ^ 8 * 2 ^ 16 + 0x89 * 2 ^ 24 +
      addr / 2 ^ 24 % 2 ^ 8 * 2 ^ 40 := by omega
  have h40 : low / 2 ^ 40 = 0x89 + addr / 2 ^ 24 % 2 ^ 8 * 2 ^ 16 := by omega
  have h44 : low / 2 ^ 44 = 0x8 + addr / 2 ^ 24 % 2 ^ 8 * 2 ^ 12 := by omega
  have h45 : low / 2 ^ 45 = 0x4 + addr / 2 ^ 24 % 2 ^ 8 * 2 ^ 11 := by omega
  have h47 : low / 2 ^ 47 = 0x1 + addr / 2 ^ 24 % 2 ^ 8 * 2 ^ 9 := by omega
  have h48 : low / 2 ^ 48 = addr / 2 ^ 24 % 2 ^ 8 * 2 ^ 8 := by omega
  have h53 : low / 2 ^ 53 = addr / 2 ^ 24 % 2 ^ 8 * 2 ^ 3 := by omega
  have h56 : low / 2 ^ 56 = addr / 2 ^ 24 % 2 ^ 8 := by omega
  have hsystem : low / 2 ^ 44 % 2 = 0 := by omega
  have hbase : low / 2 ^ 16 % 2 ^ 24 + low / 2 ^ 56 % 2 ^ 8 * 2 ^ 24 +
      addr / 2 ^ 32 % 2 ^ 32 % 2 ^ 32 * 2 ^ 32 = addr := by
    rw [h16, h56]
    omega
  unfold descriptorOf
  rw [hsystem, if_neg Nat.zero_ne_one, hbase, hmod, h40, h45, h47, h48, h53]
  simp only [Descriptor.mk.injEq, decide_eq_true_eq, decide_eq_false_iff_not, true_and]
  refine ⟨?_, ?_, ?_, ?_, ?_, ?_⟩ <;> omega

/-! ## One CPU -/

/-- **The stack pointers read back**, each at its place. -/
theorem tssStacks_setTss64 {rsp0 rsp1 rsp2 ist1 ist2 ist3 ist4 ist5 ist6 ist7 : Nat} (table : Nat)
    (hlt : ∀ v ∈ [rsp0, rsp1, rsp2, ist1, ist2, ist3, ist4, ist5, ist6, ist7], v < 2 ^ 64) :
    tssStacks (setTss64 m table rsp0 rsp1 rsp2 ist1 ist2 ist3 ist4 ist5 ist6 ist7) table =
      [rsp0, rsp1, rsp2, ist1, ist2, ist3, ist4, ist5, ist6, ist7] := by
  simp only [List.forall_mem_cons] at hlt
  obtain ⟨h0, h1, h2, h3, h4, h5, h6, h7, h8, h9, -⟩ := hlt
  unfold tssStacks setTss64
  simp (disch := omega) only [List.map_cons, List.map_nil, Mem.read64_write64_same,
    Mem.read64_write64_disjoint]

/-- The rest of memory stays. -/
theorem setTss64_other {rsp0 rsp1 rsp2 ist1 ist2 ist3 ist4 ist5 ist6 ist7 table : Nat}
    (hw : w < table ∨ table + tssSize ≤ w) :
    setTss64 m table rsp0 rsp1 rsp2 ist1 ist2 ist3 ist4 ist5 ist6 ist7 w = m w := by
  have hsize : 92 ≤ tssSize := by decide
  unfold setTss64
  simp (disch := omega) only [Mem.write64_other]

theorem tssStacks_congr {m' : Mem} {table : Nat}
    (h : ∀ w, table ≤ w → w < table + tssSize → m' w = m w) :
    tssStacks m' table = tssStacks m table := by
  have hsize : 92 ≤ tssSize := by decide
  unfold tssStacks
  refine List.map_congr_left fun k hk => Mem.read64_congr fun w h1 h2 => h w ?_ ?_
  · omega
  · have hle : k ≤ 84 := by
      simp only [List.mem_cons, List.not_mem_nil, or_false] at hk
      omega
    omega

/-- Where a CPU has its own. -/
def OwnSlot (cpu i : Nat) : Prop := i = 10 + cpu * 2 ∨ i = 10 + cpu * 2 + 1

def OwnTss (tss cpu w : Nat) : Prop := tssAddr tss cpu ≤ w ∧ w < tssAddr tss cpu + tssSize

/-- Where the stack begins that `alloc_frames` gives a CPU that finds these frames. -/
def stackTop (off : Nat) (frames : Bitmap) : Nat :=
  addW (physToVirt off (allocFrames frames (kThreadStackSize / pageSize)).1) kThreadStackSize

/-- What `tss_init` is for, on a CPU that has found the frames `frames`. -/
structure Loaded (off tss cpu : Nat) (frames : Bitmap) (s : SegState) : Prop where
  descriptor : selected s.gdt ((10 + cpu * 2) * 8) =
    { base := tssAddr tss cpu, limit := tssSize, type := 9, memory := false, dpl := 0,
      present := true, long := false }
  pointers : tssStacks s.machine.mem (tssAddr tss cpu) = List.replicate 10 (stackTop off frames)

theorem tssInit_loaded (off : Nat) (s : SegState) (haddr : tssAddr tss cpu < 2 ^ 64) :
    Loaded off tss cpu s.machine.frames (tssInit off tss cpu s) := by
  refine ⟨?_, tssStacks_setTss64 _ ?_⟩
  · unfold selected tssInit setTssDescriptor
    dsimp only
    rw [Nat.mul_div_cancel _ (by decide), Function.update_of_ne (Nat.lt_succ_self _).ne,
      Function.update_self, Function.update_self]
    exact descriptorOf_tss haddr
  · intro v hv
    have hv' : v = stackTop off s.machine.frames := by
      simp only [List.mem_cons, List.not_mem_nil, or_false, or_self] at hv
      exact hv
    rw [hv']
    exact addW_lt _ _

theorem tssInit_gdt (off tss : Nat) (s : SegState) (hi : ¬ OwnSlot cpu i) :
    (tssInit off tss cpu s).gdt i = s.gdt i := by
  unfold OwnSlot at hi
  unfold tssInit setTssDescriptor
  dsimp only
  rw [Function.update_of_ne (by omega), Function.update_of_ne (by omega)]

theorem tssInit_mem (off : Nat) (s : SegState) (hw : ¬ OwnTss tss cpu w) :
    (tssInit off tss cpu s).machine.mem w = s.machine.mem w := by
  unfold OwnTss at hw
  unfold tssInit
  dsimp only
  exact setTss64_other (by omega)

/-- One CPU leaves another's alone. -/
theorem Loaded.keep {d : Nat} (h : Loaded off tss d frames s) (hne : d ≠ cpu) :
    Loaded off tss d frames (tssInit off tss cpu s) := by
  obtain ⟨hdesc, hstacks⟩ := h
  have hslot : ∀ i, i = 10 + d * 2 ∨ i = 10 + d * 2 + 1 → ¬ OwnSlot cpu i := by
    intro i hi hown
    unfold OwnSlot at hown
    omega
  refine ⟨?_, ?_⟩
  · rw [← hdesc]
    unfold selected
    rw [Nat.mul_div_cancel _ (by decide), tssInit_gdt off tss s (hslot _ (.inl rfl)),
      tssInit_gdt off tss s (hslot _ (.inr rfl))]
  · rw [← hstacks]
    refine tssStacks_congr fun w h1 h2 => tssInit_mem off s fun hown => ?_
    unfold OwnTss tssAddr at *
    rcases Nat.lt_or_gt_of_ne hne with hlt | hlt
    · have hle := Nat.mul_le_mul_left tssSize hlt
      rw [Nat.mul_succ] at hle
      omega
    · have hle := Nat.mul_le_mul_left tssSize hlt
      rw [Nat.mul_succ] at hle
      omega

/-! ## Every CPU -/

/-- The CPUs, in the order in which they get there. -/
def tssInitAll (off tss : Nat) (cpus : List Nat) (s : SegState) : SegState :=
  cpus.foldl (fun s cpu => tssInit off tss cpu s) s

theorem tssInitAll_keep (h : Loaded off tss cpu frames s) (hcpus : cpu ∉ cpus) :
    Loaded off tss cpu frames (tssInitAll off tss cpus s) := by
  unfold tssInitAll
  induction cpus generalizing s with
  | nil => exact h
  | cons d cpus ih =>
    obtain ⟨hd, hcpus⟩ := not_or.mp (List.mem_cons.not.mp hcpus)
    exact ih (h.keep hd) hcpus

theorem tssInitAll_loaded (off : Nat) (s : SegState) (hnd : (before ++ cpu :: after).Nodup)
    (haddr : tssAddr tss cpu < 2 ^ 64) :
    Loaded off tss cpu (tssInitAll off tss before s).machine.frames
      (tssInitAll off tss (before ++ cpu :: after) s) := by
  have hsplit : tssInitAll off tss (before ++ cpu :: after) s =
      tssInitAll off tss after (tssInit off tss cpu (tssInitAll off tss before s)) := by
    unfold tssInitAll
    rw [List.foldl_append, List.foldl_cons]
  have hafter : cpu ∉ after := (List.nodup_cons.mp hnd.of_append_right).1
  rw [hsplit]
  exact tssInitAll_keep (tssInit_loaded off (tssInitAll off tss before s) haddr) hafter

theorem tssInitAll_gdt (off tss : Nat) (s : SegState) (hi : ∀ c ∈ cpus, ¬ OwnSlot c i) :
    (tssInitAll off tss cpus s).gdt i = s.gdt i := by
  unfold tssInitAll
  induction cpus generalizing s with
  | nil => rfl
  | cons d cpus ih =>
    obtain ⟨hd, hi⟩ := List.forall_mem_cons.mp hi
    rw [List.foldl_cons, ih _ hi, tssInit_gdt off tss s hd]

theorem tssInitAll_mem (off : Nat) (s : SegState) (hw : ∀ c ∈ cpus, ¬ OwnTss tss c w) :
    (tssInitAll off tss cpus s).machine.mem w = s.machine.mem w := by
  unfold tssInitAll
  induction cpus generalizing s with
  | nil => rfl
  | cons d cpus ih =>
    obtain ⟨hd, hw⟩ := List.forall_mem_cons.mp hw
    rw [List.foldl_cons, ih _ hw, tssInit_mem off s hd]

/-! ## The selectors -/

def codeSegment (dpl : Nat) : Descriptor := ⟨0, 0, 0xa, true, dpl, true, true⟩

def dataSegment (dpl : Nat) : Descriptor := ⟨0, 0, 2, true, dpl, true, false⟩

/-- The selectors that the kernel and the processor load stand for what is meant: those of a gate
and of `syscall` for the kernel's code, those of `sysretq` for a program's. -/
structure Selectors (gdt : Nat → Nat) : Prop where
  gate : ∀ (address : Trap → Nat) g, selected gdt (gateFor address g).selector = codeSegment 0
  syscallCode : ∀ (lstar : Word) (c : Core),
    selected gdt ((c.syscall lstar).seg .cs).toNat = codeSegment 0
  syscallStack : ∀ (lstar : Word) (c : Core),
    selected gdt ((c.syscall lstar).seg .ss).toNat = dataSegment 0
  sysretCode : ∀ c : Core, selected gdt (c.sysret.seg .cs).toNat = codeSegment 3
  sysretStack : ∀ c : Core, selected gdt (c.sysret.seg .ss).toNat = dataSegment 3
  /-- What `syscall_handler` writes into the frame is what `sysretq` loads. -/
  frame : ∀ (f : PtRegs) (userRegs result : Word) (c : Core),
    (syscallHandler f userRegs result).cs.setWidth 16 = c.sysret.seg .cs ∧
      (syscallHandler f userRegs result).ss.setWidth 16 = c.sysret.seg .ss

theorem selectors_of_gdtInit (h : ∀ i < 6, gdt i = gdtInit i) : Selectors gdt := by
  have hsel : ∀ sel, sel / 8 < 5 → selected gdt sel = selected gdtInit sel := by
    intro sel hlt
    unfold selected
    rw [h _ (by omega), h _ (by omega)]
  have hcs : (0x23 : Word).setWidth 16 = (star >>> 48).setWidth 16 + 16 ||| 3 := by decide
  have hss : (0x1B : Word).setWidth 16 = (star >>> 48).setWidth 16 + 8 ||| 3 := by decide
  refine ⟨fun _ _ => ?_, fun _ _ => ?_, fun _ _ => ?_, fun _ => ?_, fun _ => ?_,
    fun _ _ _ _ => ⟨hcs, hss⟩⟩
  · exact hsel 8 (by decide)
  · exact hsel 8 (by decide)
  · exact hsel 16 (by decide)
  · exact hsel 35 (by decide)
  · exact hsel 27 (by decide)

/--
**The segments hold, and each CPU has a task state segment of its own.**

In whatever order the CPUs run `tss_init`, the descriptor that each of them loads is that
of its own segment, which has in every place the stack that it was given, as the CPUs
before it left the frames. The segments below, which all of them use, stay what `gdt::init`
made them, so that every way into the kernel and out of it loads the code and the stack
that it should. Nothing outside is written.
-/
theorem segments_hold (off : Nat) (hnd : cpus.Nodup) (hcpus : ∀ c ∈ cpus, c < maxCpus)
    (htss : tss + tssSize * maxCpus ≤ 2 ^ 64) (hinit : s.gdt = gdtInit) :
    Selectors (tssInitAll off tss cpus s).gdt ∧
      (∀ before c after, cpus = before ++ c :: after → 10 + c * 2 + 1 < 10 + maxCpus * 2 ∧
        Loaded off tss c (tssInitAll off tss before s).machine.frames
          (tssInitAll off tss cpus s)) ∧
      (∀ i, (∀ c ∈ cpus, ¬ OwnSlot c i) → (tssInitAll off tss cpus s).gdt i = gdtInit i) ∧
      ∀ w, (∀ c ∈ cpus, ¬ OwnTss tss c w) →
        (tssInitAll off tss cpus s).machine.mem w = s.machine.mem w := by
  have haddr : ∀ c, c < maxCpus → tssAddr tss c < 2 ^ 64 := by
    intro c hc
    have hle := Nat.mul_le_mul_left tssSize hc
    have hpos : 0 < tssSize := by decide
    rw [Nat.mul_succ] at hle
    unfold tssAddr
    omega
  have hgdt : ∀ i, (∀ c ∈ cpus, ¬ OwnSlot c i) →
      (tssInitAll off tss cpus s).gdt i = gdtInit i := by
    intro i hi
    rw [tssInitAll_gdt off tss s hi, hinit]
  refine ⟨selectors_of_gdtInit fun i hi => hgdt i fun c _ hown => ?_, ?_, hgdt,
    fun w hw => tssInitAll_mem off s hw⟩
  · -- the slots of the task states come after all of these
    unfold OwnSlot at hown
    omega
  · intro before c after heq
    subst heq
    have hlt := hcpus c (List.mem_append_right _ List.mem_cons_self)
    exact ⟨by omega, tssInitAll_loaded off s hnd (haddr c hlt)⟩

/-- A machine with eight free frames. -/
def freeMachine : Machine := ⟨fun _ => 0, ⟨fun _ => 0xff, 8⟩⟩

/-- Two CPUs, the second one first. -/
theorem segments_hold_two :
    Selectors (tssInitAll 0 0x10000 [1, 0] ⟨gdtInit, freeMachine⟩).gdt ∧
      Loaded 0 0x10000 1 freeMachine.frames (tssInitAll 0 0x10000 [1, 0] ⟨gdtInit, freeMachine⟩) ∧
      Loaded 0 0x10000 0 (tssInitAll 0 0x10000 [1] ⟨gdtInit, freeMachine⟩).machine.frames
        (tssInitAll 0 0x10000 [1, 0] ⟨gdtInit, freeMachine⟩) := by
  obtain ⟨hsel, hloaded, -⟩ := @segments_hold 0x10000 ⟨gdtInit, freeMachine⟩ [1, 0] 0 (by decide)
    (by decide) (by decide) rfl
  exact ⟨hsel, (hloaded [] 1 [0] rfl).2, (hloaded [1] 0 [] rfl).2⟩

end IonOS.Arch
