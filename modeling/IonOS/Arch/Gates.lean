import IonOS.Lib.Memory
import IonOS.Lib.Word

/-!
# The interrupt descriptor table

`idt.cpp`: gates as `_set_gate` puts them together, and as a processor takes them
apart. `_set_gate` adds fields up, so a field that overflowed would spoil the next.
-/

namespace IonOS.Arch

open IonOS.Lib

/-! ## Gates -/

/-- The two words that `_set_gate` stores, in its order. -/
def setGate (attr ist codeAddr : Nat) : Nat × Nat :=
  let rax := 0x8 <<< 16
  -- `movw %dx, %ax`
  let rax := rax / 2 ^ 16 * 2 ^ 16 + codeAddr % 2 ^ 16
  let rcx := ist &&& 0x7
  let rcx := addW rcx (attr <<< 8)
  let rcx := rcx <<< 32 % 2 ^ 64
  let rax := addW rax rcx
  -- `movl %edx, %ecx`
  let rcx := codeAddr % 2 ^ 32
  let rcx := rcx >>> 16
  let rcx := rcx <<< 48 % 2 ^ 64
  let rax := addW rax rcx
  (rax, codeAddr >>> 32)

/-- A gate. -/
structure Gate where
  offset : Nat
  selector : Nat
  ist : Nat
  /-- 14 for an interrupt gate, 15 for a trap gate. -/
  type : Nat
  dpl : Nat
  present : Bool
deriving DecidableEq, Repr

/-- How a processor reads the two words. -/
def gateOf (low high : Nat) : Gate where
  offset := low % 2 ^ 16 + low / 2 ^ 48 % 2 ^ 16 * 2 ^ 16 + high % 2 ^ 32 * 2 ^ 32
  selector := low / 2 ^ 16 % 2 ^ 16
  ist := low / 2 ^ 32 % 8
  type := low / 2 ^ 40 % 16
  dpl := low / 2 ^ 45 % 4
  present := low / 2 ^ 47 % 2 = 1

/-- The words are what the fields add up to. -/
theorem setGate_eq {attr ist codeAddr : Nat} (hattr : attr < 2 ^ 8) :
    setGate attr ist codeAddr =
      (0x8 * 2 ^ 16 + codeAddr % 2 ^ 16 + (ist % 8 + attr * 2 ^ 8) * 2 ^ 32 +
        codeAddr / 2 ^ 16 % 2 ^ 16 * 2 ^ 48, codeAddr / 2 ^ 32) := by
  have hist : ist &&& 0x7 = ist % 8 := Nat.and_two_pow_sub_one_eq_mod ist 3
  have hattr' : attr <<< 8 = attr * 2 ^ 8 := Nat.shiftLeft_eq attr 8
  have hsel : 0x8 <<< 16 = 0x8 * 2 ^ 16 := Nat.shiftLeft_eq 0x8 16
  unfold setGate addW
  simp only [hist, hattr', hsel, Nat.shiftLeft_eq, Nat.shiftRight_eq_div_pow, Prod.mk.injEq]
  refine ⟨?_, trivial⟩
  omega

/-- The fields of words that do not overlap. -/
theorem gateOf_sum {lo ist attr mid high : Nat} (hlo : lo < 2 ^ 16) (hist : ist < 8)
    (hattr : attr < 2 ^ 8) (hmid : mid < 2 ^ 16) (hhigh : high < 2 ^ 32) :
    gateOf (0x8 * 2 ^ 16 + lo + (ist + attr * 2 ^ 8) * 2 ^ 32 + mid * 2 ^ 48) high =
      { offset := lo + mid * 2 ^ 16 + high * 2 ^ 32, selector := 0x8, ist := ist,
        type := attr % 16, dpl := attr / 2 ^ 5 % 4, present := attr / 2 ^ 7 = 1 } := by
  generalize hlow : 0x8 * 2 ^ 16 + lo + (ist + attr * 2 ^ 8) * 2 ^ 32 + mid * 2 ^ 48 = low
  have h16 : low / 2 ^ 16 = 0x8 + (ist + attr * 2 ^ 8) * 2 ^ 16 + mid * 2 ^ 32 := by omega
  have h32 : low / 2 ^ 32 = ist + attr * 2 ^ 8 + mid * 2 ^ 16 := by omega
  have h40 : low / 2 ^ 40 = attr + mid * 2 ^ 8 := by omega
  have h45 : low / 2 ^ 45 = attr / 2 ^ 5 + mid * 2 ^ 3 := by omega
  have h47 : low / 2 ^ 47 = attr / 2 ^ 7 + mid * 2 := by omega
  have h48 : low / 2 ^ 48 = mid := by omega
  have hmod : low % 2 ^ 16 = lo := by omega
  unfold gateOf
  rw [h16, h32, h40, h45, h47, h48, hmod, Nat.mod_eq_of_lt hmid, Nat.mod_eq_of_lt hhigh]
  simp only [Gate.mk.injEq, decide_eq_decide, true_and]
  refine ⟨?_, ?_, ?_, ?_, ?_⟩ <;> omega

/-- **A gate reads back**, for every address, every stack and every attribute byte. -/
theorem gateOf_setGate {attr ist codeAddr : Nat} (hattr : attr < 2 ^ 8)
    (haddr : codeAddr < 2 ^ 64) :
    gateOf (setGate attr ist codeAddr).1 (setGate attr ist codeAddr).2 =
      { offset := codeAddr, selector := 0x8, ist := ist % 8, type := attr % 16,
        dpl := attr / 2 ^ 5 % 4, present := attr / 2 ^ 7 = 1 } := by
  have hoffset : codeAddr % 2 ^ 16 + codeAddr / 2 ^ 16 % 2 ^ 16 * 2 ^ 16 +
      codeAddr / 2 ^ 32 * 2 ^ 32 = codeAddr := by omega
  rw [setGate_eq hattr, gateOf_sum (by omega) (by omega) hattr (by omega) (by omega), hoffset]

/-! ## The table -/

/-- `idt_table[n]`, a `gate_struct` of 16 bytes. -/
def gateAddr (table n : Nat) : Nat := table + 16 * n

def readGate (m : Mem) (table n : Nat) : Gate :=
  gateOf (m.read64 (gateAddr table n)) (m.read64 (gateAddr table n + 8))

def storeGate (m : Mem) (table n attr ist addr : Nat) : Mem :=
  (m.write64 (gateAddr table n) (setGate attr ist addr).1).write64 (gateAddr table n + 8)
    (setGate attr ist addr).2

def setIntrGate (m : Mem) (table n ist addr : Nat) : Mem := storeGate m table n 0x8E ist addr

def setTrapGate (m : Mem) (table n ist addr : Nat) : Mem := storeGate m table n 0x8F ist addr

def setSystemTrapGate (m : Mem) (table n ist addr : Nat) : Mem := storeGate m table n 0xEF ist addr

/-- The entries of `entry.S`. -/
inductive Trap where
  | divideError | debug | nmi | int3 | overflow | bounds | undefinedOpcode | devNotAvaliable
  | doubleFault | coprocessorSegmentOverrun | invalidTSS | segmentNotExists | stackSegmentFault
  | generalProtection | pageFault | x87FPUError | alignmentCheck | machineCheck | simdException
  | virtualizationException | lapicTimer
deriving DecidableEq, Repr

/-- Which of the three functions sets a gate. -/
inductive GateKind where
  | intr | trap | systemTrap
deriving DecidableEq, Repr

def GateKind.attr : GateKind → Nat
  | intr => 0x8E
  | trap => 0x8F
  | systemTrap => 0xEF

def GateKind.set : GateKind → Mem → Nat → Nat → Nat → Nat → Mem
  | intr => setIntrGate
  | trap => setTrapGate
  | systemTrap => setSystemTrapGate

/-- `idx_timer`. -/
def idxTimer : Nat := 0x20

/-- The calls of `idt::init`, in its order. -/
def idtCalls : List (GateKind × Nat × Trap) :=
  [(.trap, 0, .divideError), (.trap, 1, .debug), (.intr, 2, .nmi), (.systemTrap, 3, .int3),
    (.systemTrap, 4, .overflow), (.systemTrap, 5, .bounds), (.trap, 6, .undefinedOpcode),
    (.trap, 7, .devNotAvaliable), (.trap, 8, .doubleFault), (.trap, 9, .coprocessorSegmentOverrun),
    (.trap, 10, .invalidTSS), (.trap, 11, .segmentNotExists), (.trap, 12, .stackSegmentFault),
    (.trap, 13, .generalProtection), (.trap, 14, .pageFault), (.trap, 16, .x87FPUError),
    (.trap, 17, .alignmentCheck), (.trap, 18, .machineCheck), (.trap, 19, .simdException),
    (.trap, 20, .virtualizationException), (.intr, idxTimer, .lapicTimer)]

/-- `idt::init`, up to `lidt`. -/
def idtInit (address : Trap → Nat) (m : Mem) (table : Nat) : Mem :=
  idtCalls.foldl (fun m g => g.1.set m table g.2.1 0 (address g.2.2)) m

/-- The gate that a call of `idt::init` is for. -/
def gateFor (address : Trap → Nat) (g : GateKind × Nat × Trap) : Gate where
  offset := address g.2.2
  selector := 0x8
  ist := 0
  type := if g.1 = .intr then 14 else 15
  dpl := if g.1 = .systemTrap then 3 else 0
  present := true

variable {m : Mem} {table n k w attr ist addr : Nat} {address : Trap → Nat}

/-! ## One gate -/

theorem GateKind.set_eq (kind : GateKind) (m : Mem) (table n ist addr : Nat) :
    kind.set m table n ist addr = storeGate m table n kind.attr ist addr := by
  cases kind <;> rfl

theorem storeGate_other (hw : w < gateAddr table n ∨ gateAddr table n + 16 ≤ w) :
    storeGate m table n attr ist addr w = m w := by
  rw [storeGate, Mem.write64_other (by omega), Mem.write64_other (by omega)]

theorem readGate_storeGate (hattr : attr < 2 ^ 8) (haddr : addr < 2 ^ 64) :
    readGate (storeGate m table n attr ist addr) table n =
      { offset := addr, selector := 0x8, ist := ist % 8, type := attr % 16,
        dpl := attr / 2 ^ 5 % 4, present := attr / 2 ^ 7 = 1 } := by
  have hlow : (setGate attr ist addr).1 < 2 ^ 64 := by
    rw [setGate_eq hattr]
    omega
  have hhigh : (setGate attr ist addr).2 < 2 ^ 64 := by
    rw [setGate_eq hattr]
    omega
  rw [readGate, storeGate, Mem.read64_write64_same _ _ hhigh,
    Mem.read64_write64_disjoint _ _ (by omega), Mem.read64_write64_same _ _ hlow]
  exact gateOf_setGate hattr haddr

/-- Other gates stay. -/
theorem readGate_storeGate_ne (h : k ≠ n) :
    readGate (storeGate m table n attr ist addr) table k = readGate m table k := by
  have hfar : gateAddr table k + 16 ≤ gateAddr table n ∨
      gateAddr table n + 16 ≤ gateAddr table k := by
    unfold gateAddr
    omega
  rw [readGate, readGate]
  congr 1
  · exact Mem.read64_congr fun x h1 h2 => storeGate_other (by omega)
  · exact Mem.read64_congr fun x h1 h2 => storeGate_other (by omega)

/-! ## Every gate -/

theorem readGate_set (g : GateKind × Nat × Trap) (haddr : ∀ t, address t < 2 ^ 64) :
    readGate (g.1.set m table g.2.1 0 (address g.2.2)) table g.2.1 = gateFor address g := by
  obtain ⟨kind, n, t⟩ := g
  have hattr : kind.attr < 2 ^ 8 := by cases kind <;> decide
  rw [GateKind.set_eq, readGate_storeGate hattr (haddr t)]
  cases kind <;> rfl

/-- Gates that are set one after another, each for a vector of its own. -/
theorem readGate_foldl {calls : List (GateKind × Nat × Trap)}
    (hnd : (calls.map fun g => g.2.1).Nodup) (haddr : ∀ t, address t < 2 ^ 64) (n : Nat) :
    readGate (calls.foldl (fun m g => g.1.set m table g.2.1 0 (address g.2.2)) m) table n =
      match calls.find? fun g => g.2.1 = n with
      | some g => gateFor address g
      | none => readGate m table n := by
  induction calls generalizing m with
  | nil => rfl
  | cons g calls ih =>
    rw [List.map_cons, List.nodup_cons] at hnd
    obtain ⟨hnew, hnd⟩ := hnd
    rw [List.foldl_cons, ih hnd]
    by_cases hg : g.2.1 = n
    · have hnone : calls.find? (fun g => g.2.1 = n) = none := by
        rw [List.find?_eq_none]
        intro g' hg' heq
        rw [← hg, decide_eq_true_eq] at heq
        exact hnew (List.mem_map.mpr ⟨g', hg', heq⟩)
      rw [hnone, List.find?_cons_of_pos (by simpa using hg), ← hg]
      exact readGate_set g haddr
    · rw [List.find?_cons_of_neg (by simpa using hg)]
      cases calls.find? fun g => g.2.1 = n with
      | some g' => rfl
      | none =>
        dsimp only
        rw [GateKind.set_eq]
        exact readGate_storeGate_ne (Ne.symm hg)

theorem foldl_set_other {calls : List (GateKind × Nat × Trap)}
    (hcalls : ∀ g ∈ calls, g.2.1 < 256) (hw : w < table ∨ table + 4096 ≤ w) :
    calls.foldl (fun m g => g.1.set m table g.2.1 0 (address g.2.2)) m w = m w := by
  induction calls generalizing m with
  | nil => rfl
  | cons g calls ih =>
    have hn := hcalls g List.mem_cons_self
    rw [List.foldl_cons, ih fun g' hg' => hcalls g' (List.mem_cons_of_mem g hg'), GateKind.set_eq]
    exact storeGate_other (by unfold gateAddr; omega)

theorem readGate_idtInit (haddr : ∀ t, address t < 2 ^ 64) (n : Nat) :
    readGate (idtInit address m table) table n =
      match idtCalls.find? fun g => g.2.1 = n with
      | some g => gateFor address g
      | none => readGate m table n :=
  readGate_foldl (by decide) haddr n

/--
**The table, as a processor reads it.**

After `idt::init`, the gate of a vector is the one that the call for it asked for,
with its entry, the kernel's code segment and the current stack. A vector without a
call has the gate it had, and nothing outside the table is written.
-/
theorem idtInit_gates (haddr : ∀ t, address t < 2 ^ 64) :
    (∀ n, readGate (idtInit address m table) table n =
      match idtCalls.find? fun g => g.2.1 = n with
      | some g => gateFor address g
      | none => readGate m table n) ∧
    ∀ w, w < table ∨ table + 4096 ≤ w → idtInit address m table w = m w :=
  ⟨readGate_idtInit haddr, fun _ hw => foldl_set_other (by decide) hw⟩

/-- Every entry at one address, in a table at zero. -/
theorem idtInit_gates_flat :
    (∀ n, readGate (idtInit (fun _ => 0xffffffff80001000) (fun _ => 0) 0) 0 n =
      match idtCalls.find? fun g => g.2.1 = n with
      | some g => gateFor (fun _ => 0xffffffff80001000) g
      | none => readGate (fun _ => 0) 0 n) ∧
    ∀ w, w < 0 ∨ 0 + 4096 ≤ w →
      idtInit (fun _ => 0xffffffff80001000) (fun _ => 0) 0 w = (fun _ => 0 : Mem) w :=
  idtInit_gates fun _ => by decide

end IonOS.Arch
