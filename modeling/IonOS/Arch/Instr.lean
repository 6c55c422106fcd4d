import IonOS.Lib.Words
import IonOS.Lib.Word
import Mathlib.Data.List.Basic
import Mathlib.Logic.Function.Basic

/-!
# The instructions of the entry code

As much of x86-64 as `entry.S` is written in. Code is a list of instructions, and a
jump goes on with another list. A C function that is called is a step of its own: it
is a function on the state of the core, from its first instruction to its `ret`.

Addresses are words, memory is indexed by natural numbers, and a stack is where there
is room for it, so that nothing wraps.
-/

namespace IonOS.Arch

open IonOS.Lib

/-! ## The core -/

abbrev Word := BitVec 64

inductive Reg where
  | rax | rbx | rcx | rdx | rsi | rdi | rbp | rsp | r8 | r9 | r10 | r11 | r12 | r13 | r14 | r15
deriving DecidableEq, Repr

inductive Seg where
  | cs | ss | ds | es
deriving DecidableEq, Repr

/-- A core and the memory it sees. -/
structure Core where
  reg : Reg → Word
  seg : Seg → BitVec 16
  rip : Word
  rflags : Word
  mem : Mem

/-- The word at an address. -/
def wordAt (m : Mem) (a : Nat) : Word := .ofNat 64 (m.read64 a)

namespace Core

def set (c : Core) (r : Reg) (v : Word) : Core := { c with reg := Function.update c.reg r v }

def setSeg (c : Core) (s : Seg) (v : BitVec 16) : Core :=
  { c with seg := Function.update c.seg s v }

def load (c : Core) (a : Word) : Word := wordAt c.mem a.toNat

def store (c : Core) (a v : Word) : Core := { c with mem := c.mem.write64 a.toNat v.toNat }

def push (c : Core) (v : Word) : Core := (c.set .rsp (c.reg .rsp - 8)).store (c.reg .rsp - 8) v

def pop (c : Core) : Word × Core := (c.load (c.reg .rsp), c.set .rsp (c.reg .rsp + 8))

end Core

/-! ## Instructions -/

/-- An instruction that goes on with the next; the operands stand in the order of the source. -/
inductive Instr where
  | pushq (r : Reg)
  | pushqImm (v : Word)
  | popq (r : Reg)
  | movq (src dst : Reg)
  | movqImm (v : Word) (dst : Reg)
  | movqFromSeg (src : Seg) (dst : Reg)
  | movqToSeg (src : Reg) (dst : Seg)
  /-- `movq disp(base), dst` -/
  | movqLoad (disp : Word) (base dst : Reg)
  /-- `leaq symbol(%rip), dst` -/
  | leaq (symbol : Word) (dst : Reg)
  /-- `xchgq r, (base)` -/
  | xchgq (r base : Reg)
  | xorq (src dst : Reg)
  | addq (v : Word) (dst : Reg)
  | subq (v : Word) (dst : Reg)
  | cli
  | cld
deriving DecidableEq, Repr

/-- `IF`, bit 9 of the flags. -/
def ifMask : Word := 0x200

/-- `DF`, bit 10. -/
def dfMask : Word := 0x400

/-- What an instruction does. The arithmetic flags, which the code never looks at, are left as they
are. -/
def Instr.exec (c : Core) : Instr → Core
  | pushq r => c.push (c.reg r)
  | pushqImm v => c.push v
  | popq r => c.pop.2.set r c.pop.1
  | movq src dst => c.set dst (c.reg src)
  | movqImm v dst => c.set dst v
  | movqFromSeg src dst => c.set dst ((c.seg src).setWidth 64)
  | movqToSeg src dst => c.setSeg dst ((c.reg src).setWidth 16)
  | movqLoad disp base dst => c.set dst (c.load (c.reg base + disp))
  | leaq symbol dst => c.set dst symbol
  | xchgq r base => (c.store (c.reg base) (c.reg r)).set r (c.load (c.reg base))
  | xorq src dst => c.set dst (c.reg dst ^^^ c.reg src)
  | addq v dst => c.set dst (c.reg dst + v)
  | subq v dst => c.set dst (c.reg dst - v)
  | cli => { c with rflags := c.rflags &&& ~~~ifMask }
  | cld => { c with rflags := c.rflags &&& ~~~dfMask }

/-- Instructions one after another. -/
def execAll (c : Core) (is : List Instr) : Core := is.foldl Instr.exec c

variable {c : Core} {r r' : Reg} {v : Word}

@[simp] theorem set_reg_self (c : Core) (r : Reg) (v : Word) : (c.set r v).reg r = v :=
  Function.update_self _ _ _

theorem set_reg_ne (h : r' ≠ r) (v : Word) : (c.set r v).reg r' = c.reg r' :=
  Function.update_of_ne h _ _

@[simp] theorem set_seg (c : Core) (r : Reg) (v : Word) : (c.set r v).seg = c.seg := rfl

@[simp] theorem set_mem (c : Core) (r : Reg) (v : Word) : (c.set r v).mem = c.mem := rfl

@[simp] theorem set_rflags (c : Core) (r : Reg) (v : Word) : (c.set r v).rflags = c.rflags := rfl

@[simp] theorem push_seg (c : Core) (v : Word) : (c.push v).seg = c.seg := rfl

@[simp] theorem push_rflags (c : Core) (v : Word) : (c.push v).rflags = c.rflags := rfl

@[simp] theorem execAll_nil (c : Core) : execAll c [] = c := rfl

@[simp] theorem execAll_cons (c : Core) (i : Instr) (is : List Instr) :
    execAll c (i :: is) = execAll (i.exec c) is := rfl

@[simp] theorem execAll_append (c : Core) (is js : List Instr) :
    execAll c (is ++ js) = execAll (execAll c is) js := List.foldl_append

/-! ## Stacks -/

theorem wordAt_copied {m m' : Mem} {a b : Nat} (h : ∀ i < 8, m' (b + i) = m (a + i)) :
    wordAt m' b = wordAt m a :=
  congrArg (BitVec.ofNat 64) (Mem.read64_copied h)

/-- A word of a list reads back. -/
theorem wordAt_storeWords {m : Mem} {a k : Nat} {vs : List Word} (hk : k < vs.length) :
    wordAt (m.storeWords a (vs.map BitVec.toNat)) (a + 8 * k) = vs.getD k 0 := by
  have hlt : ∀ v ∈ vs.map BitVec.toNat, v < 2 ^ 64 := by
    intro v hv
    obtain ⟨w, -, rfl⟩ := List.mem_map.mp hv
    exact w.isLt
  have hlen : k < (vs.map BitVec.toNat).length := by
    rw [List.length_map]
    exact hk
  have hread := Mem.read64_storeWords (m := m) (a := a) hlt hlen
  rw [List.getD_eq_getElem _ _ hlen, List.getElem_map] at hread
  rw [wordAt, hread, BitVec.ofNat_toNat, BitVec.setWidth_eq, List.getD_eq_getElem]

/-- Words pushed one after another. -/
def Core.pushAll (c : Core) (vs : List Word) : Core := vs.foldl Core.push c

theorem pushAll_nil (c : Core) : c.pushAll [] = c := rfl

theorem pushAll_cons (c : Core) (v : Word) (vs : List Word) :
    c.pushAll (v :: vs) = (c.push v).pushAll vs := rfl

theorem push_reg_rsp (c : Core) (v : Word) : (c.push v).reg .rsp = c.reg .rsp - 8 := by
  change Function.update c.reg .rsp (c.reg .rsp - 8) .rsp = _
  rw [Function.update_self]

theorem push_sp (hroom : 8 ≤ (c.reg .rsp).toNat) (v : Word) :
    ((c.push v).reg .rsp).toNat = (c.reg .rsp).toNat - 8 := by
  rw [push_reg_rsp]
  bv_omega

/-- A push writes the word below the stack pointer. -/
theorem push_other {w : Nat} (hroom : 8 ≤ (c.reg .rsp).toNat) (v : Word)
    (hw : w + 8 < (c.reg .rsp).toNat ∨ (c.reg .rsp).toNat ≤ w) : (c.push v).mem w = c.mem w := by
  have hnat : (c.reg .rsp - 8).toNat = (c.reg .rsp).toNat - 8 := by bv_omega
  refine Mem.write64_other ?_
  rw [hnat]
  omega

theorem push_reg_ne (h : r ≠ .rsp) (v : Word) : (c.push v).reg r = c.reg r :=
  Function.update_of_ne h _ _

/-- Registers that are pushed have the values they had before the first push. -/
theorem execAll_pushq {rs : List Reg} (hrs : .rsp ∉ rs) :
    execAll c (rs.map .pushq) = c.pushAll (rs.map c.reg) := by
  induction rs generalizing c with
  | nil => rfl
  | cons r rs ih =>
    obtain ⟨hr, hrs⟩ := not_or.mp (List.mem_cons.not.mp hrs)
    have hregs : rs.map (c.push (c.reg r)).reg = rs.map c.reg := by
      refine List.map_congr_left fun r' hr' => push_reg_ne ?_ _
      rintro rfl
      exact hrs hr'
    rw [List.map_cons, List.map_cons, execAll_cons, Instr.exec, ih hrs, hregs, pushAll_cons]

theorem pushAll_rflags (c : Core) (vs : List Word) : (c.pushAll vs).rflags = c.rflags := by
  induction vs generalizing c with
  | nil => rfl
  | cons v vs ih => rw [pushAll_cons, ih, push_rflags]

theorem pushAll_reg_ne (h : r ≠ .rsp) (vs : List Word) : (c.pushAll vs).reg r = c.reg r := by
  induction vs generalizing c with
  | nil => rfl
  | cons v vs ih => rw [pushAll_cons, ih, push_reg_ne h]

/-- A register that is not the stack pointer may be set before or after a push. -/
theorem set_push (hr : r ≠ .rsp) (v w : Word) : (c.set r v).push w = (c.push w).set r v := by
  have hsp : Function.update c.reg r v .rsp = c.reg .rsp := Function.update_of_ne hr.symm _ _
  unfold Core.push Core.set Core.store
  dsimp only
  rw [hsp, Function.update_comm hr]

theorem set_set (c : Core) (r : Reg) (v w : Word) : (c.set r v).set r w = c.set r w := by
  unfold Core.set
  dsimp only
  rw [Function.update_idem]

/-- The stack from `rsp` to `top` holds these words, and memory is otherwise `m`. -/
structure Pushed (top : Word) (m : Mem) (vs : List Word) (c : Core) : Prop where
  sp : (c.reg .rsp).toNat + 8 * vs.length = top.toNat
  mem : c.mem = m.storeWords (c.reg .rsp).toNat (vs.map BitVec.toNat)

/-- An empty stack. -/
theorem pushed_nil (c : Core) : Pushed (c.reg .rsp) c.mem [] c := ⟨rfl, rfl⟩

section Pushed

variable {top : Word} {m : Mem} {vs : List Word} {c' : Core}

/-- Only the stack pointer and memory count. -/
theorem Pushed.congr (h : Pushed top m vs c) (hsp : c'.reg .rsp = c.reg .rsp)
    (hmem : c'.mem = c.mem) : Pushed top m vs c' :=
  ⟨by rw [hsp, h.sp], by rw [hmem, hsp, h.mem]⟩

theorem Pushed.set (h : Pushed top m vs c) (hr : r ≠ .rsp) (v : Word) :
    Pushed top m vs (c.set r v) :=
  h.congr (Function.update_of_ne hr.symm _ _) rfl

theorem Pushed.push (h : Pushed top m vs c) (hroom : 8 ≤ (c.reg .rsp).toNat) (v : Word) :
    Pushed top m (v :: vs) (c.push v) := by
  have hsp := push_sp hroom v
  refine ⟨?_, ?_⟩
  · rw [hsp, List.length_cons, ← h.sp]
    omega
  · rw [hsp, List.map_cons, Mem.storeWords_cons, Nat.sub_add_cancel hroom, ← h.mem, ← hsp,
      push_reg_rsp]
    rfl

/-- **What is pushed is a list of words**, the last one first. -/
theorem Pushed.pushAll (h : Pushed top m vs c) (ws : List Word)
    (hroom : 8 * ws.length ≤ (c.reg .rsp).toNat) :
    Pushed top m (ws.reverse ++ vs) (c.pushAll ws) := by
  induction ws generalizing c vs with
  | nil => exact h
  | cons w ws ih =>
    rw [List.length_cons] at hroom
    have hsp := push_sp (c := c) (by omega) w
    rw [pushAll_cons, List.reverse_cons, List.append_assoc, List.singleton_append]
    exact ih (h.push (by omega) w) (by omega)

end Pushed

/-! ## Pops -/

/-- Registers from the words at the stack pointer. -/
def Core.popped (c : Core) (rs : List Reg) : Core :=
  { c with reg := fun r =>
      if r = .rsp then c.reg .rsp + BitVec.ofNat 64 (8 * rs.length)
      else if r ∈ rs then wordAt c.mem ((c.reg .rsp).toNat + 8 * rs.idxOf r)
      else c.reg r }

theorem popped_reg {rs : List Reg} (h : r ∈ rs) (hne : r ≠ .rsp) :
    (c.popped rs).reg r = wordAt c.mem ((c.reg .rsp).toNat + 8 * rs.idxOf r) :=
  (if_neg hne).trans (if_pos h)

/-- There are more than `n` words from the stack pointer upwards. -/
def Holding (c : Core) (n : Nat) : Prop := (c.reg .rsp).toNat + 8 * n < 2 ^ 64

/-- **Registers that are popped are the words there**, the first one first. -/
theorem execAll_popq {rs : List Reg} (hrs : .rsp ∉ rs) (hnd : rs.Nodup)
    (hhold : Holding c rs.length) : execAll c (rs.map .popq) = c.popped rs := by
  induction rs generalizing c with
  | nil =>
    have hreg : c.reg = fun r =>
        if r = .rsp then c.reg .rsp + BitVec.ofNat 64 (8 * ([] : List Reg).length)
        else if r ∈ ([] : List Reg) then
          wordAt c.mem ((c.reg .rsp).toNat + 8 * ([] : List Reg).idxOf r)
        else c.reg r := by
      funext r
      by_cases hr : r = .rsp
      · rw [if_pos hr, hr]
        exact (BitVec.add_zero _).symm
      · rw [if_neg hr, if_neg List.not_mem_nil]
    unfold Core.popped
    rw [← hreg]
    rfl
  | cons r rs ih =>
    obtain ⟨hr, hrs⟩ := not_or.mp (List.mem_cons.not.mp hrs)
    obtain ⟨hnew, hnd⟩ := List.nodup_cons.mp hnd
    unfold Holding at hhold
    rw [List.length_cons] at hhold
    have hsp : (c.pop.2.set r c.pop.1).reg .rsp = c.reg .rsp + 8 := by
      change Function.update (Function.update c.reg .rsp (c.reg .rsp + 8)) r _ .rsp = _
      rw [Function.update_of_ne hr, Function.update_self]
    have hnat : (c.reg .rsp + 8).toNat = (c.reg .rsp).toNat + 8 := by bv_omega
    have hother : ∀ r', r' ≠ r → r' ≠ .rsp → (c.pop.2.set r c.pop.1).reg r' = c.reg r' := by
      intro r' h1 h2
      change Function.update (Function.update c.reg .rsp (c.reg .rsp + 8)) r _ r' = _
      rw [Function.update_of_ne h1, Function.update_of_ne h2]
    have hself : (c.pop.2.set r c.pop.1).reg r = wordAt c.mem (c.reg .rsp).toNat := by
      change Function.update (Function.update c.reg .rsp (c.reg .rsp + 8)) r _ r = _
      rw [Function.update_self]
      rfl
    have hhold' : Holding (c.pop.2.set r c.pop.1) rs.length := by
      unfold Holding
      rw [hsp, hnat]
      omega
    rw [List.map_cons, execAll_cons, Instr.exec, ih hrs hnd hhold']
    unfold Core.popped
    rw [hsp, hnat]
    have hreg : (fun r' => if r' = .rsp then c.reg .rsp + 8 + BitVec.ofNat 64 (8 * rs.length)
        else if r' ∈ rs then wordAt c.mem ((c.reg .rsp).toNat + 8 + 8 * rs.idxOf r')
        else (c.pop.2.set r c.pop.1).reg r') =
        fun r' => if r' = .rsp then c.reg .rsp + BitVec.ofNat 64 (8 * (r :: rs).length)
        else if r' ∈ r :: rs then wordAt c.mem ((c.reg .rsp).toNat + 8 * (r :: rs).idxOf r')
        else c.reg r' := by
      funext r'
      by_cases hstack : r' = .rsp
      · rw [if_pos hstack, if_pos hstack, List.length_cons, BitVec.add_assoc,
          show 8 * (rs.length + 1) = 8 + 8 * rs.length by omega, BitVec.ofNat_add]
        rfl
      rw [if_neg hstack, if_neg hstack]
      by_cases heq : r' = r
      · rw [heq, if_neg hnew, hself, if_pos List.mem_cons_self, List.idxOf_cons_self]
        rfl
      by_cases hmem : r' ∈ rs
      · rw [if_pos hmem, if_pos (List.mem_cons_of_mem r hmem), List.idxOf_cons_ne rs (Ne.symm heq)]
        congr 1
        omega
      · have hcons : r' ∉ r :: rs := by
          intro hin
          rcases List.mem_cons.mp hin with h | h
          · exact heq h
          · exact hmem h
        rw [if_neg hmem, if_neg hcons, hother r' heq hstack]
    rw [← hreg]
    rfl

end IonOS.Arch
