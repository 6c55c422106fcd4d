import IonOS.Arch.Gates
import IonOS.Arch.Instr

/-!
# Entering and leaving the kernel

`entry.S`: what a processor does when it takes a trap, the entries, `Err_Code` and
`Restore_all`. The entry code lays a `pt_regs` on the stack from the top down, half of
it pushed by the processor, and `Restore_all` takes one apart from the bottom up. What
lies between, the handler, may have put another frame under the stack pointer.
-/

namespace IonOS.Arch

open IonOS.Lib

/-! ## Frames -/

/-- `struct pt_regs`. -/
structure PtRegs where
  r15 : Word
  r14 : Word
  r13 : Word
  r12 : Word
  r11 : Word
  r10 : Word
  r9 : Word
  r8 : Word
  rbx : Word
  rcx : Word
  rdx : Word
  rsi : Word
  rdi : Word
  rbp : Word
  ds : Word
  es : Word
  rax : Word
  func : Word
  errcode : Word
  rip : Word
  cs : Word
  rflags : Word
  rsp : Word
  ss : Word
deriving DecidableEq, Repr

/-- The frame at an address, with the offsets of `entry.S`. -/
def ptRegs (m : Mem) (a : Nat) : PtRegs where
  r15 := wordAt m (a + 0x00)
  r14 := wordAt m (a + 0x08)
  r13 := wordAt m (a + 0x10)
  r12 := wordAt m (a + 0x18)
  r11 := wordAt m (a + 0x20)
  r10 := wordAt m (a + 0x28)
  r9 := wordAt m (a + 0x30)
  r8 := wordAt m (a + 0x38)
  rbx := wordAt m (a + 0x40)
  rcx := wordAt m (a + 0x48)
  rdx := wordAt m (a + 0x50)
  rsi := wordAt m (a + 0x58)
  rdi := wordAt m (a + 0x60)
  rbp := wordAt m (a + 0x68)
  ds := wordAt m (a + 0x70)
  es := wordAt m (a + 0x78)
  rax := wordAt m (a + 0x80)
  func := wordAt m (a + 0x88)
  errcode := wordAt m (a + 0x90)
  rip := wordAt m (a + 0x98)
  cs := wordAt m (a + 0xa0)
  rflags := wordAt m (a + 0xa8)
  rsp := wordAt m (a + 0xb0)
  ss := wordAt m (a + 0xb8)

/-- The words of a frame, from its address upwards. -/
def PtRegs.words (f : PtRegs) : List Word :=
  [f.r15, f.r14, f.r13, f.r12, f.r11, f.r10, f.r9, f.r8, f.rbx, f.rcx, f.rdx, f.rsi, f.rdi, f.rbp,
    f.ds, f.es, f.rax, f.func, f.errcode, f.rip, f.cs, f.rflags, f.rsp, f.ss]

/-- `sizeof(struct pt_regs)`. -/
def ptRegsBytes : Nat := 0xc0

/-- The state that a frame describes. -/
def PtRegs.resume (f : PtRegs) (m : Mem) : Core where
  reg
    | .rax => f.rax
    | .rbx => f.rbx
    | .rcx => f.rcx
    | .rdx => f.rdx
    | .rsi => f.rsi
    | .rdi => f.rdi
    | .rbp => f.rbp
    | .rsp => f.rsp
    | .r8 => f.r8
    | .r9 => f.r9
    | .r10 => f.r10
    | .r11 => f.r11
    | .r12 => f.r12
    | .r13 => f.r13
    | .r14 => f.r14
    | .r15 => f.r15
  seg
    | .cs => f.cs.setWidth 16
    | .ss => f.ss.setWidth 16
    | .ds => f.ds.setWidth 16
    | .es => f.es.setWidth 16
  rip := f.rip
  rflags := f.rflags
  mem := m

/-- The frame of a state. -/
def Core.frame (c : Core) (func errcode : Word) : PtRegs where
  r15 := c.reg .r15
  r14 := c.reg .r14
  r13 := c.reg .r13
  r12 := c.reg .r12
  r11 := c.reg .r11
  r10 := c.reg .r10
  r9 := c.reg .r9
  r8 := c.reg .r8
  rbx := c.reg .rbx
  rcx := c.reg .rcx
  rdx := c.reg .rdx
  rsi := c.reg .rsi
  rdi := c.reg .rdi
  rbp := c.reg .rbp
  ds := (c.seg .ds).setWidth 64
  es := (c.seg .es).setWidth 64
  rax := c.reg .rax
  func := func
  errcode := errcode
  rip := c.rip
  cs := (c.seg .cs).setWidth 64
  rflags := c.rflags
  rsp := c.reg .rsp
  ss := (c.seg .ss).setWidth 64

/-! ## The processor -/

/-- The vectors at which a processor pushes an error code. -/
def pushesError (vector : Nat) : Bool :=
  vector = 8 ∨ 10 ≤ vector ∧ vector ≤ 14 ∨ vector = 17 ∨ vector = 21

/-- The flags that every trap clears: `TF`, `NT`, `RF` and `VM`. -/
def trapMask : Word := 0x34100

/-- Where the frame goes: `rsp0` on the way in from user mode, else the stack in use. -/
def Core.stackTop (c : Core) (rsp0 : Word) : Word :=
  (if (c.seg .cs).setWidth 64 &&& (3 : Word) = 0 then c.reg .rsp else rsp0) &&& ~~~0xf

/-- A trap, up to the first instruction of its entry. `err` is the error code of a vector that
has one. -/
def deliver (g : Gate) (err : Option Word) (rsp0 : Word) (c : Core) : Core :=
  let words := [(c.seg .ss).setWidth 64, c.reg .rsp, c.rflags, (c.seg .cs).setWidth 64, c.rip]
  let c' := { c with reg := Function.update c.reg .rsp (c.stackTop rsp0) }
  let c' := c'.pushAll (words ++ err.toList)
  let rflags := c.rflags &&& ~~~trapMask
  { c' with
    rip := .ofNat 64 g.offset
    rflags := if g.type = 14 then rflags &&& ~~~ifMask else rflags
    seg := fun
      | .cs => .ofNat 16 g.selector
      | .ss => if (c.seg .cs).setWidth 64 &&& (3 : Word) = 0 then c.seg .ss else 0
      | s => c.seg s }

/-- `iretq`. -/
def Core.iretq (c : Core) : Core :=
  let a := (c.reg .rsp).toNat
  { c with
    rip := wordAt c.mem a
    rflags := wordAt c.mem (a + 0x10)
    reg := Function.update c.reg .rsp (wordAt c.mem (a + 0x18))
    seg := fun
      | .cs => (wordAt c.mem (a + 0x08)).setWidth 16
      | .ss => (wordAt c.mem (a + 0x20)).setWidth 16
      | s => c.seg s }

/-! ## The code -/

/-- The entries that push a zero for an error code. -/
def Trap.dummy : Trap → Bool
  | doubleFault | invalidTSS | segmentNotExists | stackSegmentFault | generalProtection
  | pageFault | alignmentCheck => false
  | _ => true

inductive Label where
  | entry (t : Trap)
  | errCode
  /-- Behind the call in `Err_Code`. -/
  | errCodeReturn
  | retFromException
  | restoreAll
deriving DecidableEq, Repr

/-- What ends a straight piece of code. -/
inductive Exit where
  | jmp (l : Label)
  /-- `callq *r`, with what follows the call. -/
  | call (r : Reg) (next : Label)
  | iretq

/-- What the entry code refers to. -/
structure Symbols where
  /-- The addresses of `do_divide_error` and so on. -/
  handler : Trap → Word
  /-- The address behind the call in `Err_Code`. -/
  ret : Word
  /-- A C function, by its address: the state in which it gets to `ret_from_exception`, by its own
  `ret` or from `thread_switch_to`. Most handlers halt. -/
  service : Word → Core → Option Core

/-- `ENTRY(divide_error)` and the others. -/
def entryCode (s : Symbols) (t : Trap) : List Instr :=
  (if t.dummy then [.pushqImm 0] else []) ++
    [.pushq .rax, .leaq (s.handler t) .rax, .xchgq .rax .rsp]

/-- The general registers, in the order in which `Err_Code` pushes them. -/
def savedRegs : List Reg :=
  [.rbp, .rdi, .rsi, .rdx, .rcx, .rbx, .r8, .r9, .r10, .r11, .r12, .r13, .r14, .r15]

/-- `rax` and the segments, as `Err_Code` and `asm_syscall_handler` push them. -/
def pushSegs : List Instr :=
  [.pushq .rax, .movqFromSeg .es .rax, .pushq .rax, .movqFromSeg .ds .rax, .pushq .rax]

/-- `Err_Code`, from the general registers up to the call. -/
def errCodeArgs : List Instr :=
  [.cld, .movqLoad 0x90 .rsp .rsi, .movqLoad 0x88 .rsp .rdx, .movqImm 0x10 .rdi,
    .movqToSeg .rdi .ds, .movqToSeg .rdi .es, .movq .rsp .rdi]

/-- `Err_Code`, up to the call. -/
def errCode : List Instr :=
  [.cli] ++ pushSegs ++ [.xorq .rax .rax] ++ savedRegs.map .pushq ++ errCodeArgs

/-- The segments and `rax`, and `skip` bytes that are of no use any more. -/
def popSegs (skip : Word) : List Instr :=
  [.popq .rax, .movqToSeg .rax .ds, .popq .rax, .movqToSeg .rax .es, .popq .rax, .addq skip .rsp]

/-- `Restore_all`, up to `iretq`. -/
def restoreAll : List Instr := savedRegs.reverse.map .popq ++ popSegs 0x10

def text (s : Symbols) : Label → List Instr × Exit
  | .entry t => (entryCode s t, .jmp .errCode)
  | .errCode => (errCode, .call .rdx .errCodeReturn)
  | .errCodeReturn => ([], .jmp .retFromException)
  | .retFromException => ([], .jmp .restoreAll)
  | .restoreAll => (restoreAll, .iretq)

/-- At most `fuel` pieces of code, up to `iretq`. -/
def run (s : Symbols) : Nat → Label → Core → Option Core
  | 0, _, _ => none
  | fuel + 1, l, c =>
    let c := execAll c (text s l).1
    match (text s l).2 with
    | .jmp l => run s fuel l c
    | .call r next => (s.service (c.reg r) (c.push s.ret)).bind (run s fuel next)
    | .iretq => some c.iretq

/-! ## Frames in memory -/

variable {m : Mem} {a : Nat} {f : PtRegs} {c d : Core} {s : Symbols} {t : Trap}

/-- A frame that was copied. -/
theorem ptRegs_copied {m' : Mem} {b : Nat} (h : ∀ i < ptRegsBytes, m' (b + i) = m (a + i)) :
    ptRegs m' b = ptRegs m a := by
  have hword : ∀ k, k + 8 ≤ ptRegsBytes → wordAt m' (b + k) = wordAt m (a + k) := by
    intro k hk
    refine wordAt_copied fun i hi => ?_
    rw [Nat.add_assoc, Nat.add_assoc]
    exact h (k + i) (by omega)
  unfold ptRegs
  rw [hword 0x00 (by decide), hword 0x08 (by decide), hword 0x10 (by decide),
    hword 0x18 (by decide), hword 0x20 (by decide), hword 0x28 (by decide), hword 0x30 (by decide),
    hword 0x38 (by decide), hword 0x40 (by decide), hword 0x48 (by decide), hword 0x50 (by decide),
    hword 0x58 (by decide), hword 0x60 (by decide), hword 0x68 (by decide), hword 0x70 (by decide),
    hword 0x78 (by decide), hword 0x80 (by decide), hword 0x88 (by decide), hword 0x90 (by decide),
    hword 0x98 (by decide), hword 0xa0 (by decide), hword 0xa8 (by decide), hword 0xb0 (by decide),
    hword 0xb8 (by decide)]

theorem words_length (f : PtRegs) : f.words.length = 24 := rfl

/-- **A frame reads back.** -/
theorem ptRegs_storeWords (m : Mem) (a : Nat) (f : PtRegs) :
    ptRegs (m.storeWords a (f.words.map BitVec.toNat)) a = f := by
  have hword : ∀ k, k < 24 →
      wordAt (m.storeWords a (f.words.map BitVec.toNat)) (a + 8 * k) = f.words.getD k 0 :=
    fun k hk => wordAt_storeWords hk
  unfold ptRegs
  rw [PtRegs.mk.injEq]
  exact ⟨hword 0 (by decide), hword 1 (by decide), hword 2 (by decide), hword 3 (by decide),
    hword 4 (by decide), hword 5 (by decide), hword 6 (by decide), hword 7 (by decide),
    hword 8 (by decide), hword 9 (by decide), hword 10 (by decide), hword 11 (by decide),
    hword 12 (by decide), hword 13 (by decide), hword 14 (by decide), hword 15 (by decide),
    hword 16 (by decide), hword 17 (by decide), hword 18 (by decide), hword 19 (by decide),
    hword 20 (by decide), hword 21 (by decide), hword 22 (by decide), hword 23 (by decide)⟩

/-- **A state is resumed from its own frame.** -/
theorem resume_frame (c : Core) (func errcode : Word) (m : Mem) :
    (c.frame func errcode).resume m = { c with mem := m } := by
  have hreg : ((c.frame func errcode).resume m).reg = c.reg := by
    funext r
    cases r <;> rfl
  have hseg : ((c.frame func errcode).resume m).seg = c.seg := by
    funext r
    cases r <;>
      exact (BitVec.setWidth_setWidth_of_le _ (by decide : 16 ≤ 64)).trans (BitVec.setWidth_eq _)
  unfold PtRegs.resume at hreg hseg ⊢
  dsimp only at hreg hseg
  rw [hreg, hseg]
  rfl

/-! ## Leaving -/

/-- What is left when the registers of a frame are popped, and `n` bytes of it are passed. -/
structure Restored (f : PtRegs) (a n : Nat) (c d : Core) : Prop where
  mem : d.mem = c.mem
  sp : d.reg .rsp = .ofNat 64 (a + n)
  ds : d.seg .ds = f.ds.setWidth 16
  es : d.seg .es = f.es.setWidth 16
  reg : ∀ r, r ≠ .rsp → d.reg r = (f.resume c.mem).reg r

theorem savedRegs_ne {r : Reg} (hr : r ∈ savedRegs) : r ≠ .rax ∧ r ≠ .rsp := by
  refine ⟨?_, ?_⟩
  · rintro rfl
    exact absurd hr (by decide)
  · rintro rfl
    exact absurd hr (by decide)

theorem popSegs_reg (c : Core) (skip : Word) :
    (execAll c (popSegs skip)).reg .rsp = c.reg .rsp + 0x18 + skip ∧
      (execAll c (popSegs skip)).reg .rax = c.load (c.reg .rsp + 0x10) ∧
      ∀ r, r ≠ .rax → r ≠ .rsp → (execAll c (popSegs skip)).reg r = c.reg r := by
  have htwo : c.reg .rsp + 8 + 8 = c.reg .rsp + 0x10 := by bv_omega
  have hthree : c.reg .rsp + 8 + 8 + 8 = c.reg .rsp + 0x18 := by bv_omega
  refine ⟨?_, ?_, fun r hrax hrsp => ?_⟩
  · rw [← hthree]
    simp [popSegs, Instr.exec, Core.pop, Core.set, Core.setSeg, Core.load, Function.update]
  · rw [← htwo]
    simp [popSegs, Instr.exec, Core.pop, Core.set, Core.setSeg, Core.load, Function.update]
  · simp [popSegs, Instr.exec, Core.pop, Core.set, Core.setSeg, Core.load, Function.update,
      hrax, hrsp]

theorem popSegs_seg (c : Core) (skip : Word) :
    (execAll c (popSegs skip)).seg .ds = (c.load (c.reg .rsp)).setWidth 16 ∧
      (execAll c (popSegs skip)).seg .es = (c.load (c.reg .rsp + 8)).setWidth 16 := by
  refine ⟨?_, ?_⟩ <;>
    simp [popSegs, Instr.exec, Core.pop, Core.set, Core.setSeg, Core.load, Function.update]

/-- **The registers that are popped are those of the frame at the stack pointer.** -/
theorem restored (h : Holding c 24) (skip : Word) :
    Restored (ptRegs c.mem (c.reg .rsp).toNat) (c.reg .rsp).toNat (0x88 + skip.toNat) c
      (execAll c (savedRegs.reverse.map .popq ++ popSegs skip)) := by
  unfold Holding at h
  have hpop : execAll c (savedRegs.reverse.map .popq) = c.popped savedRegs.reverse := by
    refine execAll_popq (by decide) (by decide) ?_
    unfold Holding
    change _ + 8 * 14 < _
    omega
  obtain ⟨hend, hrax, hother⟩ := popSegs_reg (c.popped savedRegs.reverse) skip
  obtain ⟨hds, hes⟩ := popSegs_seg (c.popped savedRegs.reverse) skip
  have hsp : (c.popped savedRegs.reverse).reg .rsp = c.reg .rsp + 0x70 := rfl
  have hmem : (execAll (c.popped savedRegs.reverse) (popSegs skip)).mem = c.mem := rfl
  have hval : ∀ r ∈ savedRegs.reverse, (execAll (c.popped savedRegs.reverse) (popSegs skip)).reg r =
      wordAt c.mem ((c.reg .rsp).toNat + 8 * savedRegs.reverse.idxOf r) := by
    intro r hr
    have hne := savedRegs_ne (List.mem_reverse.mp hr)
    rw [hother r hne.1 hne.2, popped_reg hr hne.2]
  rw [execAll_append, hpop]
  generalize execAll (c.popped savedRegs.reverse) (popSegs skip) = d at *
  have h70 : (c.reg .rsp + 0x70).toNat = (c.reg .rsp).toNat + 0x70 := by bv_omega
  have h78 : (c.reg .rsp + 0x70 + 8).toNat = (c.reg .rsp).toNat + 0x78 := by bv_omega
  have h80 : (c.reg .rsp + 0x70 + 0x10).toNat = (c.reg .rsp).toNat + 0x80 := by bv_omega
  rw [hsp, Core.load, h80] at hrax
  rw [hsp, Core.load, h70] at hds
  rw [hsp, Core.load, h78] at hes
  refine ⟨hmem, ?_, hds, hes, fun r hr => ?_⟩
  · rw [hend, hsp]
    apply BitVec.eq_of_toNat_eq
    rw [BitVec.toNat_ofNat]
    bv_omega
  · cases r with
    | rax => exact hrax
    | rsp => exact absurd rfl hr
    | _ => exact hval _ (by decide)

/-- **`Restore_all` goes on with the frame at the stack pointer.** -/
theorem restoreAll_iretq (h : Holding c 24) :
    (execAll c restoreAll).iretq = (ptRegs c.mem (c.reg .rsp).toNat).resume c.mem := by
  obtain ⟨hmem, hsp, hds, hes, hreg⟩ := restored h 0x10
  unfold Holding at h
  unfold restoreAll
  generalize execAll c (savedRegs.reverse.map .popq ++ popSegs 0x10) = d at *
  have hmem' : d.mem = c.mem := hmem
  have htop : (d.reg .rsp).toNat = (c.reg .rsp).toNat + 0x98 := by
    rw [hsp, BitVec.toNat_ofNat]
    exact Nat.mod_eq_of_lt (by change _ + 0x98 < _; omega)
  unfold Core.iretq
  rw [htop, hmem', PtRegs.resume, Core.mk.injEq]
  refine ⟨?_, ?_, rfl, rfl, rfl⟩
  · funext r
    cases r with
    | rsp => rfl
    | _ => exact hreg _ (by decide)
  · funext r
    cases r with
    | cs => rfl
    | ss => rfl
    | ds => exact hds
    | es => exact hes

/-! ## Entering -/

variable {top h : Word} {vs : List Word} {err : Option Word} {rsp0 : Word} {g : Gate}

/-- Pushing `rax`, and exchanging it for a handler's address, pushes the address. -/
theorem exchange_eq (c : Core) (h : Word) :
    execAll c [.pushq .rax, .leaq h .rax, .xchgq .rax .rsp] = c.push h := by
  have hload : wordAt (c.mem.write64 (c.reg .rsp - 8).toNat (c.reg .rax).toNat)
      (c.reg .rsp - 8).toNat = c.reg .rax := by
    rw [wordAt, Mem.read64_write64_same _ _ (c.reg .rax).isLt, BitVec.ofNat_toNat,
      BitVec.setWidth_eq]
  have hreg : Function.update (Function.update (Function.update c.reg .rsp (c.reg .rsp - 8)) .rax h)
      .rax (c.reg .rax) = Function.update c.reg .rsp (c.reg .rsp - 8) := by
    funext r
    cases r <;> rfl
  simp only [execAll_cons, execAll_nil, Instr.exec, Core.push, Core.set, Core.store, Core.load,
    Function.update_self, ne_eq, reduceCtorEq, not_false_eq_true, Function.update_of_ne,
    Mem.write64_write64_same, hload, hreg]

/-- What the processor pushes. -/
theorem deliver_pushed (g : Gate) (err : Option Word) (hroom : 0x30 ≤ (c.stackTop rsp0).toNat) :
    Pushed (c.stackTop rsp0) c.mem
      (err.toList ++ [c.rip, (c.seg .cs).setWidth 64, c.rflags, c.reg .rsp,
        (c.seg .ss).setWidth 64]) (deliver g err rsp0 c) := by
  have hbase := pushed_nil { c with reg := Function.update c.reg .rsp (c.stackTop rsp0) }
  dsimp only at hbase
  rw [Function.update_self] at hbase
  have hall := hbase.pushAll
    ([(c.seg .ss).setWidth 64, c.reg .rsp, c.rflags, (c.seg .cs).setWidth 64, c.rip] ++
      err.toList) (by
        dsimp only
        rw [Function.update_self]
        rw [List.length_append]
        cases err with
        | none => exact le_trans (by decide : 40 ≤ 48) hroom
        | some v => exact hroom)
  have hwords : ([(c.seg .ss).setWidth 64, c.reg .rsp, c.rflags, (c.seg .cs).setWidth 64, c.rip] ++
      err.toList).reverse ++ [] = err.toList ++ [c.rip, (c.seg .cs).setWidth 64, c.rflags,
        c.reg .rsp, (c.seg .ss).setWidth 64] := by
    cases err <;> rfl
  rw [hwords] at hall
  refine hall.congr ?_ ?_
  · unfold deliver
    rfl
  · unfold deliver
    rfl

theorem deliver_reg {r : Reg} (hr : r ≠ .rsp) : (deliver g err rsp0 c).reg r = c.reg r := by
  refine (pushAll_reg_ne hr _).trans ?_
  exact Function.update_of_ne hr _ _

/-- The entries, where the stack ends with the same words at every vector. -/
theorem entryCode_pushed (h : Pushed top m vs c) (hroom : 16 ≤ (c.reg .rsp).toNat) :
    Pushed top m (s.handler t :: (if t.dummy then 0 :: vs else vs))
      (execAll c (entryCode s t)) := by
  unfold entryCode
  rw [execAll_append, exchange_eq]
  by_cases ht : t.dummy = true
  · rw [if_pos ht, if_pos ht]
    have hone : Pushed top m (0 :: vs) (c.push 0) := h.push (by omega) 0
    refine hone.push ?_ _
    rw [push_reg_rsp]
    bv_omega
  · rw [if_neg ht, if_neg ht]
    exact h.push (by omega) _

theorem entryCode_reg {r : Reg} (hr : r ≠ .rsp) : (execAll c (entryCode s t)).reg r = c.reg r := by
  unfold entryCode
  rw [execAll_append, exchange_eq, push_reg_ne hr]
  split
  · exact push_reg_ne hr _
  · rfl

/-- What `Err_Code` does up to the call. -/
structure Entered (top : Word) (m : Mem) (vs : List Word) (c d : Core) : Prop where
  pushed : Pushed top m (savedRegs.reverse.map c.reg ++
    ((c.seg .ds).setWidth 64 :: (c.seg .es).setWidth 64 :: c.reg .rax :: vs)) d
  rdi : d.reg .rdi = d.reg .rsp
  rsi : d.reg .rsi = d.load (d.reg .rsp + 0x90)
  rdx : d.reg .rdx = d.load (d.reg .rsp + 0x88)
  ds : d.seg .ds = 0x10
  es : d.seg .es = 0x10
  rflags : d.rflags = c.rflags &&& ~~~ifMask &&& ~~~dfMask

theorem pushSegs_eq (c : Core) : execAll c pushSegs =
    (c.pushAll [c.reg .rax, (c.seg .es).setWidth 64, (c.seg .ds).setWidth 64]).set .rax
      ((c.seg .ds).setWidth 64) := by
  have hne : Reg.rax ≠ .rsp := by decide
  simp only [pushSegs, execAll_cons, execAll_nil, Instr.exec, set_reg_self, set_push hne, set_set,
    pushAll_cons, pushAll_nil, push_seg, set_seg]

theorem pushSegs_pushed (h : Pushed top m vs c) (hroom : 24 ≤ (c.reg .rsp).toNat) :
    Pushed top m ((c.seg .ds).setWidth 64 :: (c.seg .es).setWidth 64 :: c.reg .rax :: vs)
      (execAll c pushSegs) := by
  rw [pushSegs_eq]
  exact (h.pushAll [c.reg .rax, (c.seg .es).setWidth 64, (c.seg .ds).setWidth 64]
    hroom).set (by decide : Reg.rax ≠ .rsp) _

theorem pushSegs_reg {r : Reg} (hrax : r ≠ .rax) (hrsp : r ≠ .rsp) :
    (execAll c pushSegs).reg r = c.reg r := by
  rw [pushSegs_eq, set_reg_ne hrax, pushAll_reg_ne hrsp]

theorem savedRegs_pushed (h : Pushed top m vs c) (hroom : 8 * 14 ≤ (c.reg .rsp).toNat)
    (hregs : ∀ r ∈ savedRegs, c.reg r = d.reg r) :
    Pushed top m (savedRegs.reverse.map d.reg ++ vs) (execAll c (savedRegs.map .pushq)) := by
  have hmap : savedRegs.map c.reg = savedRegs.map d.reg := List.map_congr_left hregs
  have hall := h.pushAll (savedRegs.map d.reg) hroom
  rw [execAll_pushq (by decide), hmap]
  rw [← List.map_reverse] at hall
  exact hall

/-- What the end of `Err_Code` leaves. -/
structure Prepared (c d : Core) : Prop where
  mem : d.mem = c.mem
  sp : d.reg .rsp = c.reg .rsp
  rdi : d.reg .rdi = c.reg .rsp
  rsi : d.reg .rsi = c.load (c.reg .rsp + 0x90)
  rdx : d.reg .rdx = c.load (c.reg .rsp + 0x88)
  ds : d.seg .ds = 0x10
  es : d.seg .es = 0x10
  rflags : d.rflags = c.rflags &&& ~~~dfMask

theorem errCodeArgs_spec (c : Core) : Prepared c (execAll c errCodeArgs) := by
  refine ⟨rfl, ?_, ?_, ?_, ?_, ?_, ?_, rfl⟩ <;>
    simp [errCodeArgs, Instr.exec, Core.set, Core.setSeg, Core.load, Function.update]

theorem errCode_entered (h : Pushed top m vs c) (hroom : 8 * 17 ≤ (c.reg .rsp).toNat) :
    Entered top m vs c (execAll c errCode) := by
  have hcli : Pushed top m vs (execAll c [.cli]) := h.congr rfl rfl
  have hsegs := (pushSegs_pushed hcli (le_trans (by decide : 24 ≤ 8 * 17) hroom)).set
    (by decide : Reg.rax ≠ .rsp) 0
  have hsp := hsegs.sp
  have htop := h.sp
  have hregs : ∀ r ∈ savedRegs,
      ((execAll (execAll c [.cli]) pushSegs).set .rax 0).reg r = c.reg r := by
    intro r hr
    rw [set_reg_ne (savedRegs_ne hr).1, pushSegs_reg (savedRegs_ne hr).1 (savedRegs_ne hr).2]
    rfl
  have hxor : execAll (execAll (execAll c [.cli]) pushSegs) [.xorq .rax .rax] =
      (execAll (execAll c [.cli]) pushSegs).set .rax 0 := by
    simp only [execAll_cons, execAll_nil, Instr.exec, BitVec.xor_self]
    rfl
  have hall := savedRegs_pushed (d := c) hsegs (by
    simp only [List.length_cons] at hsp
    omega) hregs
  have hflags : (execAll ((execAll (execAll c [.cli]) pushSegs).set .rax 0)
      (savedRegs.map .pushq)).rflags = c.rflags &&& ~~~ifMask := by
    rw [execAll_pushq (by decide), pushAll_rflags, set_rflags, pushSegs_eq, set_rflags,
      pushAll_rflags]
    rfl
  unfold errCode
  rw [execAll_append, execAll_append, execAll_append, execAll_append, hxor]
  generalize execAll ((execAll (execAll c [.cli]) pushSegs).set .rax 0) (savedRegs.map .pushq) = d
    at *
  obtain ⟨hmem, hsp, hrdi, hrsi, hrdx, hds, hes, hrflags⟩ := errCodeArgs_spec d
  refine ⟨hall.congr hsp hmem, hrdi.trans hsp.symm, ?_, ?_, hds, hes, ?_⟩
  · rw [hrsi, hsp, Core.load, Core.load, hmem]
  · rw [hrdx, hsp, Core.load, Core.load, hmem]
  · rw [hrflags, hflags]

theorem entryCode_seg : (execAll c (entryCode s t)).seg = c.seg := by
  unfold entryCode
  rw [execAll_append, exchange_eq, push_seg]
  split <;> rfl

/-- The entries push a zero where the processor pushes nothing. -/
theorem dummy_pushesError : ∀ g ∈ idtCalls, g.2.2.dummy = !pushesError g.2.1 := by decide

theorem frame_words (c : Core) (func errcode : Word) :
    (c.frame func errcode).words = savedRegs.reverse.map c.reg ++
      ((c.seg .ds).setWidth 64 :: (c.seg .es).setWidth 64 :: c.reg .rax :: func :: errcode ::
        [c.rip, (c.seg .cs).setWidth 64, c.rflags, c.reg .rsp, (c.seg .ss).setWidth 64]) := rfl

/-- What a handler is called with: `a` is where the frame is. -/
structure Handed (c : Core) (func errcode : Word) (a : Nat) (d : Core) : Prop where
  frame : ptRegs d.mem a = c.frame func errcode
  regs : (d.reg .rdi).toNat = a
  errorCode : d.reg .rsi = errcode
  sp : (d.reg .rsp).toNat + 8 = a
  aligned : a % 16 = 0
  ds : d.seg .ds = 0x10
  es : d.seg .es = 0x10
  masked : d.rflags &&& ifMask = 0
  upward : d.rflags &&& dfMask = 0
  /-- Nothing but the frame and the return address is written. -/
  other : ∀ w, w < a - 8 ∨ a + ptRegsBytes ≤ w → d.mem w = c.mem w

/-- Bits that are masked away are not there. -/
theorem and_not_and (v mask : Word) : v &&& ~~~mask &&& mask = 0 := by
  rw [BitVec.and_assoc]
  simp

theorem stackTop_aligned (c : Core) (rsp0 : Word) : (c.stackTop rsp0).toNat % 16 = 0 := by
  unfold Core.stackTop
  generalize (if (c.seg .cs).setWidth 64 &&& (3 : Word) = 0 then c.reg .rsp else rsp0) = v
  have hmask := and_not_and v 0xf
  have hmod := congrArg BitVec.toNat hmask
  rw [BitVec.toNat_and] at hmod
  have hmod' : (v &&& ~~~(0xf : Word)).toNat % 2 ^ 4 = 0 := by
    rw [← Nat.and_two_pow_sub_one_eq_mod]
    exact hmod
  exact hmod'

/-- The frame of a trap, before the call. -/
theorem trap_entered {g : Gate} (herr : err.isSome = !t.dummy)
    (hroom : 0xc8 ≤ (c.stackTop rsp0).toNat) :
    let d := execAll (execAll (deliver g err rsp0 c) (entryCode s t)) errCode
    Pushed (c.stackTop rsp0) c.mem (c.frame (s.handler t) (err.getD 0)).words d ∧
      d.reg .rdi = d.reg .rsp ∧ d.reg .rsi = err.getD 0 ∧ d.reg .rdx = s.handler t ∧
      d.seg .ds = 0x10 ∧ d.seg .es = 0x10 ∧ d.rflags &&& ifMask = 0 ∧ d.rflags &&& dfMask = 0 := by
  have hdelivered := deliver_pushed (c := c) g err
    (le_trans (by decide) hroom)
  -- a vector without an error code gets a zero in its place
  have hwords : (if t.dummy then 0 :: (err.toList ++ [c.rip, (c.seg .cs).setWidth 64, c.rflags,
        c.reg .rsp, (c.seg .ss).setWidth 64]) else err.toList ++ [c.rip, (c.seg .cs).setWidth 64,
        c.rflags, c.reg .rsp, (c.seg .ss).setWidth 64]) =
      err.getD 0 :: [c.rip, (c.seg .cs).setWidth 64, c.rflags, c.reg .rsp,
        (c.seg .ss).setWidth 64] := by
    cases err with
    | none =>
      have ht : t.dummy = true := by simpa using herr.symm
      rw [if_pos ht]
      rfl
    | some e =>
      have ht : ¬ t.dummy = true := by simpa using herr.symm
      rw [if_neg ht]
      rfl
  have hroom0 : 16 ≤ ((deliver g err rsp0 c).reg .rsp).toNat := by
    have hsp := hdelivered.sp
    have hlen : err.toList.length ≤ 1 := Option.length_toList_le
    rw [List.length_append] at hsp
    change _ + 8 * (_ + 5) = _ at hsp
    omega
  have hentered := entryCode_pushed (s := s) (t := t) hdelivered hroom0
  rw [hwords] at hentered
  have hreg : ∀ r, r ≠ .rsp →
      (execAll (deliver g err rsp0 c) (entryCode s t)).reg r = c.reg r := by
    intro r hr
    rw [entryCode_reg hr, deliver_reg hr]
  have hseg := entryCode_seg (c := deliver g err rsp0 c) (s := s) (t := t)
  generalize execAll (deliver g err rsp0 c) (entryCode s t) = d₁ at *
  have hroom1 : 8 * 17 ≤ (d₁.reg .rsp).toNat := by
    have hsp := hentered.sp
    change _ + 8 * 7 = _ at hsp
    omega
  obtain ⟨hpushed, hrdi, hrsi, hrdx, hds, hes, hflags⟩ := errCode_entered hentered hroom1
  have hlist : savedRegs.reverse.map d₁.reg = savedRegs.reverse.map c.reg := by
    refine List.map_congr_left fun r hr => hreg r ?_
    rintro rfl
    exact absurd hr (by decide)
  have hdsc : d₁.seg .ds = c.seg .ds := congrFun hseg .ds
  have hesc : d₁.seg .es = c.seg .es := congrFun hseg .es
  rw [hlist, hdsc, hesc, hreg .rax (by decide), ← frame_words] at hpushed
  dsimp only
  generalize execAll d₁ errCode = d at *
  have hsp := hpushed.sp
  rw [words_length] at hsp
  have hframe : ptRegs d.mem (d.reg .rsp).toNat = c.frame (s.handler t) (err.getD 0) := by
    rw [hpushed.mem]
    exact ptRegs_storeWords _ _ _
  have hlt := (c.stackTop rsp0).isLt
  have h90 : (d.reg .rsp + 0x90).toNat = (d.reg .rsp).toNat + 0x90 := by bv_omega
  have h88 : (d.reg .rsp + 0x88).toNat = (d.reg .rsp).toNat + 0x88 := by bv_omega
  rw [Core.load, h90] at hrsi
  rw [Core.load, h88] at hrdx
  refine ⟨hpushed, hrdi, hrsi.trans (congrArg PtRegs.errcode hframe),
    hrdx.trans (congrArg PtRegs.func hframe), hds, hes, ?_, ?_⟩
  · rw [hflags, BitVec.and_assoc _ _ (~~~dfMask), BitVec.and_comm (~~~ifMask),
      ← BitVec.and_assoc]
    exact and_not_and _ _
  · rw [hflags]
    exact and_not_and _ _

/-! ## Traps -/

/--
**A trap is handled on a frame, and goes on from a frame.**

The handler gets the frame of the interrupted state, whatever vector it is and wherever
the processor put the stack, and the error code with it, if there is one. Where the
handler leaves the stack pointer, at this frame or another one, is what goes on: every
register, segment and flag is the one in that frame, so that a state which was
interrupted goes on as it was.
-/
theorem trap_resumes {kind : GateKind} {n : Nat} {table : Nat} {address : Trap → Nat}
    (hcall : (kind, n, t) ∈ idtCalls)
    (hgate : readGate c.mem table n = gateFor address (kind, n, t))
    (herr : err.isSome = pushesError n) (hroom : 0xc8 ≤ (c.stackTop rsp0).toNat) :
    (deliver (readGate c.mem table n) err rsp0 c).rip = .ofNat 64 (address t) ∧
    ∃ d, Handed c (s.handler t) (err.getD 0) ((c.stackTop rsp0).toNat - ptRegsBytes) d ∧
      ∀ fuel, 5 ≤ fuel →
        (s.service (s.handler t) d = none →
          run s fuel (.entry t) (deliver (readGate c.mem table n) err rsp0 c) = none) ∧
        ∀ e, s.service (s.handler t) d = some e → Holding e 24 →
          run s fuel (.entry t) (deliver (readGate c.mem table n) err rsp0 c) =
            some ((ptRegs e.mem (e.reg .rsp).toNat).resume e.mem) ∧
          ∀ (c₀ : Core) (func code : Word), ptRegs e.mem (e.reg .rsp).toNat = c₀.frame func code →
            run s fuel (.entry t) (deliver (readGate c.mem table n) err rsp0 c) =
              some { c₀ with mem := e.mem } := by
  have hdummy : err.isSome = !t.dummy := by
    have h := dummy_pushesError _ hcall
    rw [h, herr, Bool.not_not]
  obtain ⟨hpushed, hrdi, hrsi, hrdx, hds, hes, hif, hdf⟩ :=
    trap_entered (s := s) (g := readGate c.mem table n) hdummy hroom
  have hsp := hpushed.sp
  rw [words_length] at hsp
  have hrip : (deliver (readGate c.mem table n) err rsp0 c).rip = .ofNat 64 (address t) := by
    rw [hgate]
    rfl
  have hrun : ∀ fuel, 5 ≤ fuel →
      run s fuel (.entry t) (deliver (readGate c.mem table n) err rsp0 c) =
        (s.service (s.handler t) ((execAll (execAll (deliver (readGate c.mem table n) err rsp0 c)
          (entryCode s t)) errCode).push s.ret)).bind
            fun e => some (execAll e restoreAll).iretq := by
    intro fuel hfuel
    obtain ⟨k, rfl⟩ := Nat.exists_eq_add_of_le' hfuel
    rw [← hrdx]
    rfl
  generalize execAll (execAll (deliver (readGate c.mem table n) err rsp0 c) (entryCode s t))
    errCode = d at *
  refine ⟨hrip, d.push s.ret, ?_, fun fuel hfuel => ⟨fun hnone => ?_, fun e hsome hhold => ?_⟩⟩
  · have hcalled := hpushed.push (by omega) s.ret
    have hlow : ((d.push s.ret).reg .rsp).toNat + 8 = (c.stackTop rsp0).toNat - ptRegsBytes := by
      have hlen := hcalled.sp
      rw [List.length_cons, words_length] at hlen
      unfold ptRegsBytes
      omega
    have hmem := hcalled.mem
    rw [List.map_cons, Mem.storeWords_cons, hlow] at hmem
    have halign := stackTop_aligned c rsp0
    refine ⟨?_, ?_, ?_, hlow, ?_, hds, hes, hif, hdf, fun w hw => ?_⟩
    · rw [hmem, ptRegs_copied fun i _ => Mem.write64_other (by omega)]
      exact ptRegs_storeWords _ _ _
    · rw [push_reg_ne (by decide), hrdi]
      unfold ptRegsBytes
      omega
    · rw [push_reg_ne (by decide), hrsi]
    · unfold ptRegsBytes
      omega
    · rw [hmem, Mem.write64_other (by omega), Mem.storeWords_other]
      rw [List.length_map, words_length]
      unfold ptRegsBytes at hlow hw ⊢
      omega
  · rw [hrun fuel hfuel, hnone]
    rfl
  · have hgo : run s fuel (.entry t) (deliver (readGate c.mem table n) err rsp0 c) =
        some ((ptRegs e.mem (e.reg .rsp).toNat).resume e.mem) := by
      rw [hrun fuel hfuel, hsome, Option.bind_some, restoreAll_iretq hhold]
    refine ⟨hgo, fun c₀ func code hframe => ?_⟩
    rw [hgo, hframe, resume_frame]

/-! ### A timer interrupt -/

/-- Handlers that do nothing and return. -/
def quietSymbols : Symbols where
  handler _ := 0xffffffff80002000
  ret := 0xffffffff80001234
  service _ c := some { c with reg := Function.update c.reg .rsp (c.reg .rsp + 8) }

/-- A core in kernel mode, whose memory holds a table of gates. -/
def quietCore : Core where
  reg _ := 0x9008
  seg
    | .cs => 0x8
    | _ => 0x10
  rip := 0xffffffff80003000
  rflags := 0x202
  mem := idtInit (fun _ => 0xffffffff80001000) (fun _ => 0) 0x10000

theorem quietCore_gate : readGate quietCore.mem 0x10000 idxTimer =
    gateFor (fun _ => 0xffffffff80001000) (.intr, idxTimer, .lapicTimer) := by
  have hfind : idtCalls.find? (fun g => g.2.1 = idxTimer) =
      some (.intr, idxTimer, .lapicTimer) := by decide
  unfold quietCore
  rw [readGate_idtInit (fun _ => by decide), hfind]

theorem trap_resumes_timer :
    (deliver (readGate quietCore.mem 0x10000 idxTimer) none 0 quietCore).rip =
      .ofNat 64 0xffffffff80001000 ∧
    ∃ d, Handed quietCore (quietSymbols.handler .lapicTimer) ((none : Option Word).getD 0)
        ((quietCore.stackTop 0).toNat - ptRegsBytes) d ∧
      ∀ fuel, 5 ≤ fuel →
        (quietSymbols.service (quietSymbols.handler .lapicTimer) d = none →
          run quietSymbols fuel (.entry .lapicTimer)
            (deliver (readGate quietCore.mem 0x10000 idxTimer) none 0 quietCore) = none) ∧
        ∀ e, quietSymbols.service (quietSymbols.handler .lapicTimer) d = some e → Holding e 24 →
          run quietSymbols fuel (.entry .lapicTimer)
            (deliver (readGate quietCore.mem 0x10000 idxTimer) none 0 quietCore) =
              some ((ptRegs e.mem (e.reg .rsp).toNat).resume e.mem) ∧
          ∀ (c₀ : Core) (func code : Word), ptRegs e.mem (e.reg .rsp).toNat = c₀.frame func code →
            run quietSymbols fuel (.entry .lapicTimer)
              (deliver (readGate quietCore.mem 0x10000 idxTimer) none 0 quietCore) =
                some { c₀ with mem := e.mem } :=
  trap_resumes (by decide) quietCore_gate (by decide)
    (by decide)

end IonOS.Arch
