import IonOS.Proc.Process

/-!
# Where a thread's stacks are used

A stack grows down, so what is put on it first lies just below its end.
`arch_context_init` and `asm_syscall_handler` both go down from the address that
the allocation starts at instead, and what they write is in the memory before it.
-/

namespace IonOS.Proc

open IonOS.Lib IonOS.Libs IonOS.Mm IonOS.Arch

/-! ## Frames on the stacks -/

def switchToKernelStack (t : Thread) : Nat :=
  if t.callInSignal then subW t.syscallStack (kThreadStackSize / 2) else t.syscallStack

/-- Where `asm_syscall_handler` puts the registers, `sizeof(struct pt_regs)` bytes. -/
def syscallFrame (t : Thread) : Nat := subW (switchToKernelStack t) 0xc0

/-- A thread as it was created, and what was allocated for it. -/
structure Made where
  thread : Thread
  stack : Nat
  syscallStack : Nat

/-- The byte at `a` is one of the stack at `stack`. -/
def OnStack (stack a : Nat) : Prop := subW a stack < kThreadStackSize

instance (stack a : Nat) : Decidable (OnStack stack a) := inferInstanceAs (Decidable (_ < _))

/-- The byte at `a` is allocated for the thread. -/
def Made.Own (m : Made) (a : Nat) : Prop := OnStack m.stack a ∨ OnStack m.syscallStack a

/-- The byte at `a` is written for the thread, on creation or in a call. -/
def Made.Uses (m : Made) (a : Nat) : Prop :=
  ∃ i < ptRegsSize, a = addW m.thread.archContext.context i ∨
    ∃ sig, a = addW (syscallFrame { m.thread with callInSignal := sig }) i

/-- What is owed to threads. -/
structure StacksOk (made : List Made) : Prop where
  context : ∀ m ∈ made, ∀ i < ptRegsSize,
    OnStack m.stack (addW m.thread.archContext.context i)
  syscall : ∀ m ∈ made, ∀ sig, ∀ i < ptRegsSize,
    OnStack m.syscallStack (addW (syscallFrame { m.thread with callInSignal := sig }) i)
  /-- Nobody uses what is another's, or what another uses. -/
  apart : made.Pairwise fun m m' => ∀ a, (m.Uses a → ¬ m'.Own a ∧ ¬ m'.Uses a) ∧
    (m'.Uses a → ¬ m.Own a)

/-! ## Runs of creations -/

structure StackState where
  kernel : Kernel
  made : List Made

/-- The addresses that `create` gets for the two stacks. -/
def stackAddrs (off : Nat) (k : Kernel) : Nat × Nat :=
  let (stackFrame, frames) := allocFrames k.machine.frames (kThreadStackSize / pageSize)
  let (syscallFrame, _) := allocFrames frames (kThreadStackSize / pageSize)
  (physToVirt off stackFrame, physToVirt off syscallFrame)

/-- `create`, and anything between two creations. -/
inductive StackStep (off : Nat) : StackState → StackState → Prop where
  | create {s : StackState} {cr3 entry tflags : Nat} {garbage : FxState} {p : ThreadPtr}
      {t : Thread} {k' : Kernel}
      (h : create off garbage s.kernel cr3 entry tflags = some (p, k'))
      (ht : k'.threads p = some t) :
      StackStep off s
        { kernel := k'
          made := ⟨t, (stackAddrs off s.kernel).1, (stackAddrs off s.kernel).2⟩ :: s.made }
  | other {s : StackState} {k' : Kernel} : StackStep off s { s with kernel := k' }

def StackStart (s : StackState) : Prop := s.made = []

variable {off : Nat} {s s' : StackState} {k k' : Kernel} {p : ThreadPtr} {t : Thread} {m : Made}

/-- Creation keeps both addresses, one of them less the registers. -/
theorem create_stacks {cr3 entry tflags : Nat} {garbage : FxState}
    (h : create off garbage k cr3 entry tflags = some (p, k')) (ht : k'.threads p = some t) :
    t.archContext.context = subW (stackAddrs off k).1 ptRegsSize ∧
      t.syscallStack = (stackAddrs off k).2 := by
  unfold create at h
  cases hfree : getFreeThread k with
  | none =>
      rw [hfree] at h
      exact nomatch h
  | some x =>
      rw [hfree] at h
      obtain ⟨rfl, rfl⟩ := Prod.mk.inj (Option.some.inj h)
      dsimp only at ht
      rw [Function.update_self] at ht
      obtain rfl := Option.some.inj ht
      exact ⟨rfl, rfl⟩

/-- Creation takes the frames of both. -/
theorem create_frames {cr3 entry tflags : Nat} {garbage : FxState}
    (h : create off garbage k cr3 entry tflags = some (p, k')) :
    k'.machine.frames =
      (allocFrames (allocFrames k.machine.frames (kThreadStackSize / pageSize)).2
        (kThreadStackSize / pageSize)).2 := by
  unfold create at h
  cases hfree : getFreeThread k with
  | none =>
      rw [hfree] at h
      exact nomatch h
  | some x =>
      rw [hfree] at h
      obtain ⟨-, rfl⟩ := Prod.mk.inj (Option.some.inj h)
      rfl

/-- What `create` leaves. -/
structure Below (m : Made) : Prop where
  context : m.thread.archContext.context = subW m.stack ptRegsSize
  syscall : m.thread.syscallStack = m.syscallStack

def AllBelow (s : StackState) : Prop := ∀ m ∈ s.made, Below m

theorem below_reachable (h : Reachable StackStart (StackStep off) s) : AllBelow s := by
  refine h.invariant ?_ ?_
  · intro s hs m hm
    rw [hs] at hm
    exact absurd hm List.not_mem_nil
  · intro s s' hi hs m hm
    cases hs with
    | create h ht =>
        rcases List.mem_cons.mp hm with rfl | hm
        · obtain ⟨hcontext, hsyscall⟩ := create_stacks h ht
          exact ⟨hcontext, hsyscall⟩
        · exact hi m hm
    | other => exact hi m hm

/-- Memory less than half the address space before a stack is not on it. -/
theorem not_onStack {stack d i : Nat} (hi : i < d) (hd : d < 2 ^ 63) :
    ¬ OnStack stack (addW (subW stack d) i) := by
  unfold OnStack addW subW kThreadStackSize
  omega

theorem Below.not_context (h : Below m) {i : Nat} (hi : i < ptRegsSize) :
    ¬ OnStack m.stack (addW m.thread.archContext.context i) := by
  rw [h.context]
  exact not_onStack hi (by decide)

theorem Below.not_syscall (h : Below m) (sig : Bool) {i : Nat} (hi : i < ptRegsSize) :
    ¬ OnStack m.syscallStack (addW (syscallFrame { m.thread with callInSignal := sig }) i) := by
  unfold ptRegsSize at hi
  unfold syscallFrame switchToKernelStack
  dsimp only
  rw [h.syscall]
  cases sig with
  | false => exact not_onStack hi (by decide)
  | true =>
      have htwice : subW (subW m.syscallStack (kThreadStackSize / 2)) 0xc0 =
          subW m.syscallStack (kThreadStackSize / 2 + 0xc0) := by
        unfold subW kThreadStackSize
        omega
      rw [if_pos rfl, htwice]
      exact not_onStack (by unfold kThreadStackSize; omega) (by decide)

/--
**The frames are on the stacks exactly as long as there is no thread.**

Whatever the allocator returns for the stacks of however many threads: not a byte of
the registers that creation saves is on the thread's stack, and not a byte of those
that a call saves on its syscall stack, in a signal or not.
-/
theorem stacksOk_iff (h : Reachable StackStart (StackStep off) s) :
    (StacksOk s.made ↔ s.made = []) ∧
    ∀ m ∈ s.made, ∀ i < ptRegsSize, ¬ OnStack m.stack (addW m.thread.archContext.context i) ∧
      ∀ sig, ¬ OnStack m.syscallStack
        (addW (syscallFrame { m.thread with callInSignal := sig }) i) := by
  have hbelow := below_reachable h
  refine ⟨⟨fun hok => ?_, fun hnil => ?_⟩, fun m hm i hi => ?_⟩
  · refine List.eq_nil_iff_forall_not_mem.mpr fun m hm => ?_
    have hzero : 0 < ptRegsSize := by decide
    exact (hbelow m hm).not_context hzero (hok.context m hm 0 hzero)
  · rw [hnil]
    exact ⟨fun m hm => absurd hm List.not_mem_nil, fun m hm => absurd hm List.not_mem_nil, .nil⟩
  · exact ⟨(hbelow m hm).not_context hi, fun sig => (hbelow m hm).not_syscall sig hi⟩

/-- A machine whose first frame is in use. -/
def stackKernel : Kernel :=
  { bootKernel with machine := ⟨fun _ => 0, ⟨fun i => if i = 0 then 254 else 255, 128⟩⟩ }

/-- The first thread on it. -/
theorem firstStack : ∃ k t, Reachable StackStart (StackStep 0xffff800000000000)
      ⟨k, [⟨t, 0xffff800000001000, 0xffff800000011000⟩]⟩ ∧
    getFreeThread k = some (.slot ⟨1, by decide⟩, 1) ∧
    k.machine.frames =
      (allocFrames (allocFrames stackKernel.machine.frames 16).2 16).2 := by
  have hfree : getFreeThread stackKernel = some (.idle ⟨0, by decide⟩, 0) :=
    getFreeThread_idle (by decide) rfl fun d hd => absurd hd (Nat.not_lt_zero _)
  obtain ⟨k, hk, hc⟩ := create_some 0xffff800000000000 emptyFx 0x1000 0x10 0 hfree
  obtain ⟨t, hthreads, -⟩ := hc.threads
  have ht : k.threads (.idle ⟨0, by decide⟩) = some t := by rw [hthreads, Function.update_self]
  have haddrs : stackAddrs 0xffff800000000000 stackKernel =
      (0xffff800000001000, 0xffff800000011000) := by decide
  have hr : Reachable StackStart (StackStep 0xffff800000000000) ⟨stackKernel, []⟩ :=
    .init (Eq.refl [])
  have hstep := hr.tail (.create hk ht)
  rw [haddrs] at hstep
  refine ⟨k, t, hstep, getFreeThread_slot (fun c hlt => ?_) (Nat.le_refl 1) ?_ fun j h1 h2 => ?_, ?_⟩
  · rw [hc.cpuCount] at hlt
    have hzero : c = ⟨0, by decide⟩ := Fin.ext (Nat.lt_one_iff.mp hlt)
    rw [hzero, ht]
    rfl
  · rw [hthreads, Function.update_of_ne ThreadPtr.noConfusion]
    rfl
  · exact absurd h2 (Nat.not_lt.mpr h1)
  · exact create_frames hk

/-- Its stacks are not right. -/
theorem stacksOk_first : ∃ s, Reachable StackStart (StackStep 0xffff800000000000) s ∧
    s.made.length = 1 ∧ ¬ StacksOk s.made := by
  obtain ⟨k, t, hr, -⟩ := firstStack
  exact ⟨_, hr, rfl, fun hok => nomatch (stacksOk_iff hr).1.mp hok⟩

/-- **Two threads**: the registers that the second is created with are on the syscall stack of the
first. -/
theorem stack_overrun : ∃ s m₁ m₂, Reachable StackStart (StackStep 0xffff800000000000) s ∧
    s.made = [m₂, m₁] ∧
    [m₁.stack, m₁.syscallStack, m₂.stack, m₂.syscallStack].Pairwise
      (fun a b => a + kThreadStackSize ≤ b) ∧
    (∀ i < ptRegsSize, OnStack m₁.syscallStack (addW m₂.thread.archContext.context i)) ∧
    ¬ StacksOk s.made := by
  obtain ⟨k₁, t₁, hr, hfree, hframes⟩ := firstStack
  obtain ⟨k₂, hk₂, hc⟩ := create_some 0xffff800000000000 emptyFx 0x1000 0x10 0 hfree
  obtain ⟨t₂, hthreads, -⟩ := hc.threads
  have ht : k₂.threads (.slot ⟨1, by decide⟩) = some t₂ := by rw [hthreads, Function.update_self]
  have haddrs : stackAddrs 0xffff800000000000 k₁ = (0xffff800000021000, 0xffff800000031000) := by
    unfold stackAddrs
    rw [hframes]
    decide
  have hcontext := (create_stacks hk₂ ht).1
  have hstep := hr.tail (.create hk₂ ht)
  rw [haddrs] at hstep hcontext
  have hthere : ∀ i < ptRegsSize,
      OnStack 0xffff800000011000 (addW t₂.archContext.context i) := by
    intro i hi
    rw [hcontext]
    unfold ptRegsSize at hi ⊢
    unfold OnStack addW subW kThreadStackSize
    omega
  refine ⟨_, _, _, hstep, rfl, by simp [kThreadStackSize], hthere, fun hok => ?_⟩
  -- the first thread's stack holds what the second uses
  have hpair := (List.pairwise_cons.mp hok.apart).1 _ List.mem_cons_self
  have hzero : 0 < ptRegsSize := by decide
  exact (((hpair _).1 ⟨0, hzero, .inl rfl⟩).1) (.inr (hthere 0 hzero))

end IonOS.Proc
