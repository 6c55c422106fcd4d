import IonOS.Arch.Entry

/-!
# System calls

`syscall`, `asm_syscall_handler` and `sysret`. The caller's registers go onto the caller's
own stack first, because `rsp` is all that the entry code knows; they are copied to the
thread's kernel stack for the call, and copied back for the way out.
-/

namespace IonOS.Arch

open IonOS.Lib

/-! ## The processor -/

/-- What `init` writes to `STAR`. -/
def star : Word := ((0x18 ||| 0x3) - 8) <<< 48 ||| 0x08 <<< 32

/-- What `init` writes to the mask of the flags. -/
def syscallMask : Word := 1 <<< 9

/-- `syscall`; `rip` is already behind it. -/
def Core.syscall (lstar : Word) (c : Core) : Core where
  reg := Function.update (Function.update c.reg .rcx c.rip) .r11 c.rflags
  rip := lstar
  rflags := c.rflags &&& ~~~syscallMask
  seg
    | .cs => (star >>> 32).setWidth 16 &&& 0xfffc
    | .ss => (star >>> 32).setWidth 16 + 8
    | s => c.seg s
  mem := c.mem

/-- `sysretq`. -/
def Core.sysret (c : Core) : Core :=
  { c with
    rip := c.reg .rcx
    rflags := c.reg .r11 &&& 0x3c7fd7 ||| 2
    seg := fun
      | .cs => (star >>> 48).setWidth 16 + 16 ||| 3
      | .ss => (star >>> 48).setWidth 16 + 8 ||| 3
      | s => c.seg s }

/-! ## The code -/

/-- What `syscall_handler` does to the frame, where `result` is what the call that it dispatches
to returns. -/
def syscallHandler (regs : PtRegs) (userRegs result : Word) : PtRegs :=
  { regs with
    rip := regs.rcx
    rflags := regs.r11
    cs := 0x23
    ss := 0x1B
    ds := 0x1B
    es := 0x1B
    rsp := userRegs + 0xc0
    rax := result }

/-- What the entry code calls. -/
structure SyscallCalls where
  /-- The addresses behind the four calls. -/
  ret : Nat → Word
  switchToKernelStack : Core → Core
  realMemcpy : Core → Core
  syscallHandler : Core → Core

/-- `asm_syscall_handler`, up to its first call. -/
def saveUser : List Instr :=
  [.cli, .cld, .subq 0x38 .rsp] ++ pushSegs ++ savedRegs.map .pushq ++ [.movq .rsp .r15]

/-- Behind the call of `switch_to_kernel_stack`. -/
def ontoKernelStack : List Instr :=
  [.subq 0xc0 .rax, .movq .rax .rsp, .movq .rsp .rdi, .movq .r15 .rsi, .movqImm 0xc0 .rdx]

def handlerArgs : List Instr := [.movq .rsp .rdi, .movq .r15 .rsi]

def copyBackArgs : List Instr := [.movq .r15 .rdi, .movq .rsp .rsi, .movqImm 0xc0 .rdx]

/-- `ret_from_syscall`. -/
def retFromSyscall : List Instr := savedRegs.reverse.map .popq ++ popSegs 0x38

/-- `asm_syscall_handler`, up to the call of `syscall_handler`. -/
def syscallEntry (f : SyscallCalls) (c : Core) : Core :=
  let c := execAll c saveUser
  let c := f.switchToKernelStack (c.push (f.ret 0))
  let c := execAll c ontoKernelStack
  let c := f.realMemcpy (c.push (f.ret 1))
  (execAll c handlerArgs).push (f.ret 2)

/-- `asm_syscall_handler`, behind the call of `syscall_handler`. -/
def syscallExit (f : SyscallCalls) (c : Core) : Core :=
  let c := execAll c copyBackArgs
  let c := f.realMemcpy (c.push (f.ret 3))
  let c := execAll c ([.movq .rax .rsp] ++ retFromSyscall)
  c.sysret

/-- `asm_syscall_handler`. -/
def asmSyscallHandler (f : SyscallCalls) (c : Core) : Core :=
  syscallExit f (f.syscallHandler (syscallEntry f c))

/-! ## What the calls promise -/

/-- The registers that a function keeps, apart from `rsp`. -/
def calleeSaved : List Reg := [.rbx, .rbp, .r12, .r13, .r14, .r15]

/-- A function that was called in `c` has returned in `d`. -/
structure Returns (c d : Core) : Prop where
  sp : d.reg .rsp = c.reg .rsp + 8
  kept : ∀ r ∈ calleeSaved, d.reg r = c.reg r
  seg : d.seg = c.seg

/-- `w` is not on the part of the stack that a function may use, called in `c`. -/
def OffStack (scratch : Nat) (c : Core) (w : Nat) : Prop :=
  w + scratch < (c.reg .rsp).toNat + 8 ∨ (c.reg .rsp).toNat + 8 ≤ w

/-- The functions keep to the calling convention, use at most `scratch` bytes of the stack they are
called on, and do what their names say. -/
structure CallsOk (f : SyscallCalls) (scratch : Nat) (kernelTop : Word) (answer : Core → Word) :
    Prop where
  switch : ∀ c, Returns c (f.switchToKernelStack c) ∧
    (f.switchToKernelStack c).reg .rax = kernelTop ∧
    ∀ w, OffStack scratch c w → (f.switchToKernelStack c).mem w = c.mem w
  memcpy : ∀ c, (∀ i < (c.reg .rdx).toNat, OffStack scratch c ((c.reg .rsi).toNat + i) ∧
      OffStack scratch c ((c.reg .rdi).toNat + i)) →
    ((c.reg .rsi).toNat + (c.reg .rdx).toNat ≤ (c.reg .rdi).toNat ∨
      (c.reg .rdi).toNat + (c.reg .rdx).toNat ≤ (c.reg .rsi).toNat) →
    Returns c (f.realMemcpy c) ∧ (f.realMemcpy c).reg .rax = c.reg .rdi ∧
    (∀ i < (c.reg .rdx).toNat,
      (f.realMemcpy c).mem ((c.reg .rdi).toNat + i) = c.mem ((c.reg .rsi).toNat + i)) ∧
    ∀ w, OffStack scratch c w →
      w < (c.reg .rdi).toNat ∨ (c.reg .rdi).toNat + (c.reg .rdx).toNat ≤ w →
      (f.realMemcpy c).mem w = c.mem w
  handler : ∀ c, (∀ i < ptRegsBytes, OffStack scratch c ((c.reg .rdi).toNat + i)) →
    Returns c (f.syscallHandler c) ∧
    ptRegs (f.syscallHandler c).mem (c.reg .rdi).toNat =
      syscallHandler (ptRegs c.mem (c.reg .rdi).toNat) (c.reg .rsi) (answer c)

/-! ## Onto the stack of the caller -/

variable {c d : Core} {f : SyscallCalls} {scratch : Nat} {kernelTop lstar : Word}
  {answer : Core → Word}

/-- The frame on the caller's stack: the words that are not pushed are what was there. -/
def Core.userFrame (c : Core) (old : PtRegs) : PtRegs :=
  { c.frame old.func old.errcode with
    rip := old.rip
    cs := old.cs
    rflags := old.rflags
    rsp := old.rsp
    ss := old.ss }

/-- What is pushed on the caller's stack. -/
def Core.userWords (c : Core) : List Word :=
  savedRegs.reverse.map c.reg ++ [(c.seg .ds).setWidth 64, (c.seg .es).setWidth 64, c.reg .rax]

theorem ptRegs_userWords (c : Core) (m : Mem) (a : Nat) :
    ptRegs (m.storeWords a (c.userWords.map BitVec.toNat)) a = c.userFrame (ptRegs m a) := by
  have hnew : ∀ k, k < 17 →
      wordAt (m.storeWords a (c.userWords.map BitVec.toNat)) (a + 8 * k) = c.userWords.getD k 0 :=
    fun k hk => wordAt_storeWords hk
  have hold : ∀ k, 0x88 ≤ k → wordAt (m.storeWords a (c.userWords.map BitVec.toNat)) (a + k) =
      wordAt m (a + k) := by
    intro k hk
    refine wordAt_copied fun i _ => Mem.storeWords_other (.inr ?_)
    change a + 8 * 17 ≤ _
    omega
  unfold ptRegs Core.userFrame
  rw [PtRegs.mk.injEq]
  exact ⟨hnew 0 (by decide), hnew 1 (by decide), hnew 2 (by decide), hnew 3 (by decide),
    hnew 4 (by decide), hnew 5 (by decide), hnew 6 (by decide), hnew 7 (by decide),
    hnew 8 (by decide), hnew 9 (by decide), hnew 10 (by decide), hnew 11 (by decide),
    hnew 12 (by decide), hnew 13 (by decide), hnew 14 (by decide), hnew 15 (by decide),
    hnew 16 (by decide), hold 0x88 (by decide), hold 0x90 (by decide), hold 0x98 (by decide),
    hold 0xa0 (by decide), hold 0xa8 (by decide), hold 0xb0 (by decide), hold 0xb8 (by decide)⟩

/-- The registers and the frame before the first call. -/
structure Saved (c d : Core) : Prop where
  sp : (d.reg .rsp).toNat + ptRegsBytes = (c.reg .rsp).toNat
  r15 : d.reg .r15 = d.reg .rsp
  frame : ptRegs d.mem (d.reg .rsp).toNat = c.userFrame (ptRegs c.mem (d.reg .rsp).toNat)
  other : ∀ w, w < (d.reg .rsp).toNat ∨ (c.reg .rsp).toNat ≤ w → d.mem w = c.mem w

theorem saveUser_spec (hroom : ptRegsBytes ≤ (c.reg .rsp).toNat) :
    Saved c (execAll c saveUser) := by
  have hsub : execAll c [.cli, .cld, .subq 0x38 .rsp] =
      (execAll c [.cli, .cld]).set .rsp (c.reg .rsp - 0x38) := rfl
  have hnat : (c.reg .rsp - 0x38).toNat = (c.reg .rsp).toNat - 0x38 := by
    unfold ptRegsBytes at hroom
    bv_omega
  have hreg : ∀ r, r ≠ .rsp → (execAll c [.cli, .cld, .subq 0x38 .rsp]).reg r = c.reg r := by
    intro r hr
    rw [hsub, set_reg_ne hr]
    rfl
  have hbase := pushed_nil (execAll c [.cli, .cld, .subq 0x38 .rsp])
  have hsp : ((execAll c [.cli, .cld, .subq 0x38 .rsp]).reg .rsp).toNat =
      (c.reg .rsp).toNat - 0x38 := by
    rw [hsub, set_reg_self, hnat]
  have hmem : (execAll c [.cli, .cld, .subq 0x38 .rsp]).mem = c.mem := rfl
  have hseg : (execAll c [.cli, .cld, .subq 0x38 .rsp]).seg = c.seg := rfl
  unfold ptRegsBytes at hroom
  unfold saveUser
  rw [execAll_append, execAll_append, execAll_append]
  generalize execAll c [.cli, .cld, .subq 0x38 .rsp] = c₀ at *
  have hsegs := pushSegs_pushed hbase (by omega)
  have hsp' := hsegs.sp
  simp only [List.length_cons, List.length_nil] at hsp'
  have hall := savedRegs_pushed (d := c) hsegs (by omega) fun r hr => by
    rw [pushSegs_reg (savedRegs_ne hr).1 (savedRegs_ne hr).2, hreg r (savedRegs_ne hr).2]
  rw [hreg .rax (by decide), hseg] at hall
  generalize execAll (execAll c₀ pushSegs) (savedRegs.map .pushq) = d at *
  have htop := hall.sp
  change _ + 8 * 17 = _ at htop
  have hwords : d.mem = c.mem.storeWords (d.reg .rsp).toNat (c.userWords.map BitVec.toNat) := by
    rw [hall.mem, hmem]
    rfl
  have hlast : (execAll d [.movq .rsp .r15]).reg .rsp = d.reg .rsp := rfl
  refine ⟨?_, ?_, ?_, ?_⟩
  · rw [hlast, ptRegsBytes]
    omega
  · rfl
  · rw [hlast]
    change ptRegs d.mem _ = _
    rw [hwords]
    exact ptRegs_userWords c c.mem _
  · intro w hw
    rw [hlast] at hw
    change d.mem w = _
    rw [hwords, Mem.storeWords_other]
    rw [List.length_map]
    change _ ∨ _ + 8 * 17 ≤ w
    omega

/-! ## Onto the stack of the kernel -/

theorem Returns.back {v : Word} (h : Returns (c.push v) d) : d.reg .rsp = c.reg .rsp := by
  rw [h.sp, push_reg_rsp, BitVec.sub_add_cancel]

theorem Returns.keeps {v : Word} {r : Reg} (h : Returns (c.push v) d) (hr : r ∈ calleeSaved) :
    d.reg r = c.reg r := by
  have hne : r ≠ .rsp := by
    rintro rfl
    exact absurd hr (by decide)
  rw [h.kept r hr, push_reg_ne hne]

theorem offStack_push {w : Nat} (hroom : 8 ≤ (c.reg .rsp).toNat) (v : Word) :
    OffStack scratch (c.push v) w ↔
      w + scratch < (c.reg .rsp).toNat ∨ (c.reg .rsp).toNat ≤ w := by
  unfold OffStack
  rw [push_sp hroom, Nat.sub_add_cancel hroom]

/-- The state in which `syscall_handler` is called. -/
structure Dispatched (scratch : Nat) (kernelTop : Word) (c d : Core) : Prop where
  rdi : (d.reg .rdi).toNat + ptRegsBytes = kernelTop.toNat
  rsi : (d.reg .rsi).toNat + ptRegsBytes = (c.reg .rsp).toNat
  sp : d.reg .rsp = d.reg .rdi - 8
  r15 : d.reg .r15 = d.reg .rsi
  frame : ptRegs d.mem (d.reg .rdi).toNat = c.userFrame (ptRegs c.mem (d.reg .rsi).toNat)
  other : ∀ w, w + scratch < (d.reg .rsi).toNat ∨ (c.reg .rsp).toNat ≤ w →
    w + scratch < (d.reg .rdi).toNat ∨ kernelTop.toNat ≤ w → d.mem w = c.mem w

/-- A frame has been copied by a call in `c`, from `rsi` to `rdi`. -/
structure FrameCopied (scratch : Nat) (c d : Core) : Prop where
  sp : d.reg .rsp = c.reg .rsp
  rax : d.reg .rax = c.reg .rdi
  kept : ∀ r ∈ calleeSaved, d.reg r = c.reg r
  frame : ptRegs d.mem (c.reg .rdi).toNat = ptRegs c.mem (c.reg .rsi).toNat
  other : ∀ w, w + scratch < (c.reg .rsp).toNat ∨ (c.reg .rsp).toNat ≤ w →
    w < (c.reg .rdi).toNat ∨ (c.reg .rdi).toNat + ptRegsBytes ≤ w → d.mem w = c.mem w

/-- `a` is not below the stack pointer, where a call may write. -/
def OffCalls (scratch : Nat) (c : Core) (a : Nat) : Prop :=
  a + ptRegsBytes + scratch ≤ (c.reg .rsp).toNat ∨ (c.reg .rsp).toNat ≤ a

theorem memcpy_call (hok : CallsOk f scratch kernelTop answer) (hscratch : 8 ≤ scratch) (v : Word)
    (hroom : 8 ≤ (c.reg .rsp).toNat) (hrdx : (c.reg .rdx).toNat = ptRegsBytes)
    (hsrc : OffCalls scratch c (c.reg .rsi).toNat) (hdst : OffCalls scratch c (c.reg .rdi).toNat)
    (hapart : (c.reg .rsi).toNat + ptRegsBytes ≤ (c.reg .rdi).toNat ∨
      (c.reg .rdi).toNat + ptRegsBytes ≤ (c.reg .rsi).toNat) :
    FrameCopied scratch c (f.realMemcpy (c.push v)) := by
  unfold OffCalls at hsrc hdst
  have hrsi : (c.push v).reg .rsi = c.reg .rsi := push_reg_ne (by decide) v
  have hrdi : (c.push v).reg .rdi = c.reg .rdi := push_reg_ne (by decide) v
  have hlen : (c.push v).reg .rdx = c.reg .rdx := push_reg_ne (by decide) v
  have hoff : ∀ w, OffStack scratch (c.push v) w ↔
      w + scratch < (c.reg .rsp).toNat ∨ (c.reg .rsp).toNat ≤ w :=
    fun w => offStack_push hroom v
  obtain ⟨hret, hrax, hcopy, hmem⟩ := hok.memcpy (c.push v)
    (by
      intro i hi
      rw [hlen, hrdx] at hi
      rw [hoff, hoff, hrsi, hrdi]
      omega)
    (by
      rw [hrsi, hrdi, hlen, hrdx]
      exact hapart)
  rw [hrdi, hrsi, hlen, hrdx] at hcopy
  rw [hrdi, hlen, hrdx] at hmem
  refine ⟨hret.back, hrax.trans hrdi, fun r hr => hret.keeps hr, ptRegs_copied fun i hi => ?_,
    fun w hw hw' => ?_⟩
  · rw [hcopy i hi, push_other hroom v (by omega)]
  · rw [hmem w ((hoff w).mpr hw) hw', push_other hroom v (by omega)]

theorem syscallEntry_spec (hok : CallsOk f scratch kernelTop answer) (hscratch : 8 ≤ scratch)
    (huser : ptRegsBytes + 8 ≤ (c.reg .rsp).toNat) (hkernel : ptRegsBytes + 8 ≤ kernelTop.toNat)
    (hapart : (c.reg .rsp).toNat + ptRegsBytes + scratch ≤ kernelTop.toNat ∨
      kernelTop.toNat + ptRegsBytes ≤ (c.reg .rsp).toNat) :
    Dispatched scratch kernelTop c (syscallEntry f c) := by
  unfold ptRegsBytes at huser hkernel hapart
  obtain ⟨hsp₁, hr15₁, hframe₁, hother₁⟩ := saveUser_spec (c := c) (by unfold ptRegsBytes; omega)
  unfold syscallEntry
  dsimp only
  generalize execAll c saveUser = s₁ at *
  unfold ptRegsBytes at hsp₁
  -- `switch_to_kernel_stack`, still on the caller's stack
  have hroom₁ : 8 ≤ (s₁.reg .rsp).toNat := by omega
  obtain ⟨hret₂, hrax₂, hmem₂⟩ := hok.switch (s₁.push (f.ret 0))
  have hr15₂ := hret₂.keeps (by decide : Reg.r15 ∈ calleeSaved)
  generalize f.switchToKernelStack (s₁.push (f.ret 0)) = s₂ at *
  have hstay₂ : ∀ w, w + scratch < (s₁.reg .rsp).toNat ∨ (s₁.reg .rsp).toNat ≤ w →
      s₂.mem w = s₁.mem w := by
    intro w hw
    rw [hmem₂ w ((offStack_push hroom₁ _).mpr hw), push_other hroom₁ _ (by omega)]
  -- onto the other stack
  have hmem₃ : (execAll s₂ ontoKernelStack).mem = s₂.mem := rfl
  have hrsp₃ : (execAll s₂ ontoKernelStack).reg .rsp = s₂.reg .rax - 0xc0 := rfl
  have hrdi₃ : (execAll s₂ ontoKernelStack).reg .rdi = s₂.reg .rax - 0xc0 := rfl
  have hrsi₃ : (execAll s₂ ontoKernelStack).reg .rsi = s₂.reg .r15 := rfl
  have hrdx₃ : (execAll s₂ ontoKernelStack).reg .rdx = 0xc0 := rfl
  have hr15₃ : (execAll s₂ ontoKernelStack).reg .r15 = s₂.reg .r15 := rfl
  generalize execAll s₂ ontoKernelStack = s₃ at *
  rw [hrax₂] at hrsp₃ hrdi₃
  have hlow : (kernelTop - 0xc0).toNat = kernelTop.toNat - 0xc0 := by bv_omega
  have hroom₃ : 8 ≤ (s₃.reg .rsp).toNat := by
    rw [hrsp₃, hlow]
    omega
  have hsi₃ : s₃.reg .rsi = s₁.reg .rsp := by rw [hrsi₃, hr15₂, hr15₁]
  obtain ⟨hback₄, -, hkept₄, hcopy₄, hmem₄⟩ := memcpy_call hok hscratch (f.ret 1) hroom₃
    (by rw [hrdx₃]; rfl)
    (by
      unfold OffCalls ptRegsBytes
      rw [hsi₃, hrsp₃, hlow]
      omega)
    (by
      unfold OffCalls
      rw [hrdi₃, hrsp₃]
      exact .inr (Nat.le_refl _))
    (by
      unfold ptRegsBytes
      rw [hsi₃, hrdi₃, hlow]
      omega)
  have hr15₄ := hkept₄ .r15 (by decide)
  rw [hrdi₃, hlow, hsi₃, hmem₃] at hcopy₄
  rw [hrsp₃, hrdi₃, hlow, hmem₃] at hmem₄
  generalize f.realMemcpy (s₃.push (f.ret 1)) = s₄ at *
  have hframe₄ : ptRegs s₄.mem (kernelTop.toNat - 0xc0) =
      c.userFrame (ptRegs c.mem (s₁.reg .rsp).toNat) := by
    rw [hcopy₄, ← hframe₁]
    exact ptRegs_copied fun i _ => hstay₂ _ (by omega)
  -- the arguments
  have hargs : execAll s₄ handlerArgs = (s₄.set .rdi (s₄.reg .rsp)).set .rsi (s₄.reg .r15) := rfl
  rw [hargs]
  have hrsp₄ : s₄.reg .rsp = kernelTop - 0xc0 := by rw [hback₄, hrsp₃]
  have hsi : s₄.reg .r15 = s₁.reg .rsp := by rw [hr15₄, hr15₃, hr15₂, hr15₁]
  generalize hd : (s₄.set .rdi (s₄.reg .rsp)).set .rsi (s₄.reg .r15) = s₅
  have hrdi₅ : s₅.reg .rdi = kernelTop - 0xc0 := by
    rw [← hd, set_reg_ne (by decide), set_reg_self, hrsp₄]
  have hrsi₅ : s₅.reg .rsi = s₁.reg .rsp := by rw [← hd, set_reg_self, hsi]
  have hrsp₅ : s₅.reg .rsp = kernelTop - 0xc0 := by
    rw [← hd, set_reg_ne (by decide), set_reg_ne (by decide), hrsp₄]
  have hr15₅ : s₅.reg .r15 = s₁.reg .rsp := by
    rw [← hd, set_reg_ne (by decide), set_reg_ne (by decide), hsi]
  have hmem₅ : s₅.mem = s₄.mem := by
    rw [← hd]
    rfl
  have hroom₅ : 8 ≤ (s₅.reg .rsp).toNat := by
    rw [hrsp₅, hlow]
    omega
  have hdi : ((s₅.push (f.ret 2)).reg .rdi).toNat = kernelTop.toNat - 0xc0 := by
    rw [push_reg_ne (by decide), hrdi₅, hlow]
  have hsi' : ((s₅.push (f.ret 2)).reg .rsi).toNat = (s₁.reg .rsp).toNat := by
    rw [push_reg_ne (by decide), hrsi₅]
  have hstay₅ : ∀ w, w + 8 < kernelTop.toNat - 0xc0 ∨ kernelTop.toNat - 0xc0 ≤ w →
      (s₅.push (f.ret 2)).mem w = s₄.mem w := by
    intro w hw
    rw [push_other hroom₅ _ (by rw [hrsp₅, hlow]; exact hw), hmem₅]
  refine ⟨?_, ?_, ?_, ?_, ?_, fun w hw hw' => ?_⟩
  · rw [hdi, ptRegsBytes]
    omega
  · rw [hsi', ptRegsBytes]
    exact hsp₁
  · rw [push_reg_rsp, push_reg_ne (by decide), hrsp₅, hrdi₅]
  · rw [push_reg_ne (by decide), push_reg_ne (by decide), hr15₅, hrsi₅]
  · rw [hdi, hsi', ← hframe₄]
    exact ptRegs_copied fun i _ => hstay₅ _ (by omega)
  · rw [hdi] at hw'
    rw [hsi'] at hw
    rw [hstay₅ w (by omega), hmem₄ w (by omega) (by unfold ptRegsBytes; omega),
      hstay₂ w (by omega), hother₁ w (by omega)]

/-! ## Back to the caller -/

/-- What a caller in `c` finds when its call has returned in `e`. `d` is where the handler was
called, `result` what it answered, `a` where the frame was on the caller's stack. -/
structure Answered (scratch : Nat) (kernelTop : Word) (f : SyscallCalls) (c d : Core)
    (result : Word) (e : Core) : Prop where
  reg : ∀ r, r ≠ .rax → r ≠ .rcx → r ≠ .r11 → e.reg r = c.reg r
  rax : e.reg .rax = result
  rcx : e.reg .rcx = c.rip
  r11 : e.reg .r11 = c.rflags
  rip : e.rip = c.rip
  rflags : e.rflags = c.rflags &&& 0x3c7fd7 ||| 2
  cs : e.seg .cs = 0x23
  ss : e.seg .ss = 0x1B
  ds : e.seg .ds = 0x1B
  es : e.seg .es = 0x1B
  /-- Below the caller's stack pointer, where the caller may have something of its own. -/
  frame : ptRegs e.mem (d.reg .rsi).toNat =
    syscallHandler (ptRegs d.mem (d.reg .rdi).toNat) (d.reg .rsi) result
  /-- Apart from that and the kernel's stack, memory is as the handler left it. -/
  other : ∀ w, w < (d.reg .rsi).toNat ∨ (c.reg .rsp).toNat ≤ w →
    w + scratch < (d.reg .rdi).toNat ∨ kernelTop.toNat ≤ w →
      e.mem w = (f.syscallHandler d).mem w

/-- **The way out**, from the frame that the handler was called with. -/
theorem syscallExit_answered (hok : CallsOk f scratch kernelTop answer)
    (hscratch : 8 ≤ scratch) (hkernel : ptRegsBytes + 8 ≤ kernelTop.toNat)
    (hapart : (c.reg .rsp).toNat + ptRegsBytes + scratch ≤ kernelTop.toNat ∨
      kernelTop.toNat + ptRegsBytes ≤ (c.reg .rsp).toNat)
    (hd : Dispatched scratch kernelTop (c.syscall lstar) d) :
    Answered scratch kernelTop f c d (answer d) (syscallExit f (f.syscallHandler d)) := by
  have hrsp : (c.syscall lstar).reg .rsp = c.reg .rsp := rfl
  obtain ⟨hrdi, hrsi, hsp, hr15, hframe, -⟩ := hd
  rw [hrsp] at hrsi
  unfold ptRegsBytes at hkernel hapart hrdi hrsi
  obtain ⟨hret, hanswer⟩ := hok.handler d fun i hi => .inr (by rw [hsp]; bv_omega)
  have hback : (f.syscallHandler d).reg .rsp = d.reg .rdi := by
    rw [hret.sp, hsp, BitVec.sub_add_cancel]
  have hr15' : (f.syscallHandler d).reg .r15 = d.reg .rsi := by
    rw [hret.kept .r15 (by decide), hr15]
  generalize he : f.syscallHandler d = e at *
  unfold syscallExit
  dsimp only
  have hrsp₁ : (execAll e copyBackArgs).reg .rsp = d.reg .rdi := hback
  have hrdi₁ : (execAll e copyBackArgs).reg .rdi = d.reg .rsi := hr15'
  have hrsi₁ : (execAll e copyBackArgs).reg .rsi = d.reg .rdi := hback
  have hrdx₁ : (execAll e copyBackArgs).reg .rdx = 0xc0 := rfl
  have hmem₁ : (execAll e copyBackArgs).mem = e.mem := rfl
  generalize execAll e copyBackArgs = e₁ at *
  obtain ⟨-, hrax₂, -, hcopy₂, hmem₂⟩ := memcpy_call hok hscratch (f.ret 3) (c := e₁)
    (by rw [hrsp₁]; omega) (by rw [hrdx₁]; rfl)
    (by
      unfold OffCalls
      rw [hrsi₁, hrsp₁]
      exact .inr (Nat.le_refl _))
    (by
      unfold OffCalls ptRegsBytes
      rw [hrdi₁, hrsp₁]
      omega)
    (by
      unfold ptRegsBytes
      rw [hrdi₁, hrsi₁]
      omega)
  rw [hrdi₁, hrsi₁, hmem₁] at hcopy₂
  rw [hrsp₁, hrdi₁, hmem₁] at hmem₂
  rw [hrdi₁] at hrax₂
  generalize f.realMemcpy (e₁.push (f.ret 3)) = e₂ at *
  have hmove : execAll e₂ [.movq .rax .rsp] = e₂.set .rsp (e₂.reg .rax) := rfl
  have hrsp₃ : (e₂.set .rsp (e₂.reg .rax)).reg .rsp = d.reg .rsi := by rw [set_reg_self, hrax₂]
  have hmem₃ : (e₂.set .rsp (e₂.reg .rax)).mem = e₂.mem := rfl
  rw [execAll_append, hmove, retFromSyscall]
  generalize e₂.set .rsp (e₂.reg .rax) = e₃ at *
  have hlt := (c.reg .rsp).isLt
  obtain ⟨hmem₄, hsp₄, hds₄, hes₄, hreg₄⟩ := restored (c := e₃)
    (by
      unfold Holding
      rw [hrsp₃]
      omega) 0x38
  have hanswered : ptRegs e₃.mem (e₃.reg .rsp).toNat = syscallHandler
      ((c.syscall lstar).userFrame (ptRegs (c.syscall lstar).mem (d.reg .rsi).toNat))
      (d.reg .rsi) (answer d) := by
    rw [hrsp₃, hmem₃, hcopy₂, hanswer, hframe]
  rw [hanswered] at hds₄ hes₄ hreg₄
  generalize execAll e₃ (savedRegs.reverse.map .popq ++ popSegs 0x38) = e₄ at *
  have hrcx : e₄.reg .rcx = c.rip := hreg₄ .rcx (by decide)
  have hr11 : e₄.reg .r11 = c.rflags := hreg₄ .r11 (by decide)
  refine ⟨fun r hrax hrcx hr11 => ?_, hreg₄ .rax (by decide), hrcx, hr11, hrcx, ?_, rfl, rfl, ?_,
    ?_, ?_, fun w hw hw' => ?_⟩
  · cases r with
    | rax => exact absurd rfl hrax
    | rcx => exact absurd rfl hrcx
    | r11 => exact absurd rfl hr11
    | rsp =>
      change e₄.reg .rsp = _
      rw [hsp₄, hrsp₃]
      apply BitVec.eq_of_toNat_eq
      rw [BitVec.toNat_ofNat]
      change ((d.reg .rsi).toNat + 0xc0) % _ = _
      omega
    | _ => exact hreg₄ _ (by decide)
  · change e₄.reg .r11 &&& 0x3c7fd7 ||| 2 = _
    rw [hr11]
  · exact hds₄
  · exact hes₄
  · change ptRegs e₄.mem _ = _
    rw [hmem₄, hmem₃, hcopy₂, hanswer]
  · change e₄.mem w = _
    rw [hmem₄, hmem₃, he]
    unfold ptRegsBytes at hmem₂
    exact hmem₂ w (by omega) (by omega)

/--
**A system call changes no register but the result**, apart from `rcx` and `r11`, which
`syscall` itself takes.

The handler gets the registers of the caller on the thread's kernel stack, and the
caller goes on behind its `syscall`, on its own stack, in user mode. But its registers
have been stored below its stack pointer on the way, over whatever the caller had there.
-/
theorem syscall_returns (hok : CallsOk f scratch kernelTop answer) (hscratch : 8 ≤ scratch)
    (huser : ptRegsBytes + 8 ≤ (c.reg .rsp).toNat) (hkernel : ptRegsBytes + 8 ≤ kernelTop.toNat)
    (hapart : (c.reg .rsp).toNat + ptRegsBytes + scratch ≤ kernelTop.toNat ∨
      kernelTop.toNat + ptRegsBytes ≤ (c.reg .rsp).toNat) :
    Dispatched scratch kernelTop (c.syscall lstar) (syscallEntry f (c.syscall lstar)) ∧
      Answered scratch kernelTop f c (syscallEntry f (c.syscall lstar))
        (answer (syscallEntry f (c.syscall lstar))) (asmSyscallHandler f (c.syscall lstar)) := by
  have hd := syscallEntry_spec (c := c.syscall lstar) hok hscratch huser hkernel hapart
  exact ⟨hd, syscallExit_answered hok hscratch hkernel hapart hd⟩

/-! ### A call -/

/-- Where a function returns, with `v` in `rax`. -/
def Core.returned (c : Core) (v : Word) : Core := (c.set .rsp (c.reg .rsp + 8)).set .rax v

theorem returned_returns (c : Core) (v : Word) (m : Mem) :
    Returns c { c.returned v with mem := m } := by
  refine ⟨rfl, fun r hr => ?_, rfl⟩
  have hne : r ≠ .rax ∧ r ≠ .rsp := by
    refine ⟨?_, ?_⟩
    · rintro rfl
      exact absurd hr (by decide)
    · rintro rfl
      exact absurd hr (by decide)
  change ((c.set .rsp (c.reg .rsp + 8)).set .rax v).reg r = _
  rw [set_reg_ne hne.1, set_reg_ne hne.2]

/-- Functions that do what they must, with a handler that answers zero. -/
def plainCalls (kernelTop : Word) : SyscallCalls where
  ret _ := 0
  switchToKernelStack c := c.returned kernelTop
  realMemcpy c := { c.returned (c.reg .rdi) with
    mem := fun w =>
      if (c.reg .rdi).toNat ≤ w ∧ w < (c.reg .rdi).toNat + (c.reg .rdx).toNat then
        c.mem ((c.reg .rsi).toNat + (w - (c.reg .rdi).toNat))
      else c.mem w }
  syscallHandler c := { c.returned 0 with
    mem := c.mem.storeWords (c.reg .rdi).toNat
      ((syscallHandler (ptRegs c.mem (c.reg .rdi).toNat) (c.reg .rsi) 0).words.map BitVec.toNat) }

theorem returned_rax (c : Core) (v : Word) : (c.returned v).reg .rax = v := set_reg_self _ _ _

theorem plainCalls_ok (kernelTop : Word) :
    CallsOk (plainCalls kernelTop) 8 kernelTop fun _ => 0 := by
  refine ⟨fun c => ?_, fun c hoff hapart => ?_, fun c hoff => ?_⟩
  · exact ⟨returned_returns c kernelTop c.mem, returned_rax c kernelTop, fun w _ => rfl⟩
  · refine ⟨returned_returns c (c.reg .rdi) _, returned_rax c (c.reg .rdi), fun i hi => ?_,
      fun w _ hw => ?_⟩
    · refine (if_pos ⟨Nat.le_add_right _ _, by omega⟩).trans ?_
      rw [Nat.add_sub_cancel_left]
    · exact if_neg (by omega)
  · exact ⟨returned_returns c 0 _, ptRegs_storeWords _ _ _⟩

/-- A core in user mode. -/
def userCore : Core where
  reg _ := 0x9000
  seg
    | .cs => 0x23
    | _ => 0x1B
  rip := 0x401000
  rflags := 0x202
  mem _ := 0

theorem syscall_returns_plain :
    Dispatched 8 0x20000 (userCore.syscall 0x1000)
        (syscallEntry (plainCalls 0x20000) (userCore.syscall 0x1000)) ∧
      Answered 8 0x20000 (plainCalls 0x20000) userCore
        (syscallEntry (plainCalls 0x20000) (userCore.syscall 0x1000)) 0
        (asmSyscallHandler (plainCalls 0x20000) (userCore.syscall 0x1000)) :=
  syscall_returns (plainCalls_ok 0x20000) (by decide) (by decide) (by decide) (by decide)

end IonOS.Arch
