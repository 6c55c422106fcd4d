import IonOS.Arch.Table
import Mathlib.Data.Fintype.Sum
import Mathlib.Tactic.DeriveFintype

/-!
# Threads

`thread.hpp`, `thread.cpp` and the parts of `context.cpp` that make a thread. A
thread object is named by the slot that points to it, since a slot, once filled,
is never emptied. Heap objects are named by numbers that are not used twice; what
`malloc` leaves in them is a parameter where the source reads it. Locks are left
out: every function here runs from start to end.
-/

namespace IonOS.Proc

open IonOS.Lib IonOS.Libs IonOS.Mm IonOS.Arch

/-! ## Data -/

def kMaxThreadCount : Nat := 4096
def kThreadStackSize : Nat := 65536
def maxCpuNum : Nat := 64
def defaultFdNum : Nat := 32

theorem one_lt_kMaxThreadCount : 1 < kMaxThreadCount := by decide

theorem two_lt_kMaxThreadCount : 2 < kMaxThreadCount := by decide

theorem maxCpuNum_pos : 0 < maxCpuNum := by decide

/-- `sizeof(struct pt_regs)`, 24 words. -/
def ptRegsSize : Nat := 0xc0

/-- `run_state`. -/
inductive RunState where
  | kRunNone | kRunActive | kRunSuspended | kRunDeferred | kRunBlocked | kRunInterrupted
  | kRunTerminated
deriving DecidableEq, Repr

/-- An entry of `idle_threads` or of `threads`. -/
inductive ThreadPtr where
  | idle (cpu : Fin maxCpuNum)
  | slot (i : Fin kMaxThreadCount)
deriving DecidableEq, Fintype

/-- `fx_state`. -/
structure FxState where
  fcw : Nat
  mxcsr : Nat
  rest : Nat → UInt8

/-- `arch_context_t`; `context` is the address of a `pt_regs`. -/
structure ArchContext where
  context : Nat
  fpu : FxState
  fs : Nat
  gs : Nat
  fsbase : Nat
  gsbase : Nat

/-- `thread`. -/
structure Thread where
  id : Nat
  callInSignal : Bool
  cpuId : Nat
  jiffies : Nat
  archContext : ArchContext
  syscallStack : Nat
  /-- The `mm_context_t` it points to. -/
  mm : Nat
  /-- The `thread_file_info_t` it points to. -/
  fileInfo : Nat
  tflags : Nat
  status : Nat
  childVforkDone : Bool
  isVfork : Bool
  state : RunState

/-- `thread_file_info_t`; `fds` is the address of an array. -/
structure FileInfo where
  fds : Nat
  maxFdCount : Int
  refCount : Int

/-- The kernel's state, as far as threads are concerned. -/
structure Kernel where
  machine : Machine
  threads : ThreadPtr → Option Thread
  cpuCount : Nat
  cpuIdx : Nat
  mms : Nat → MmContext
  files : Nat → FileInfo
  /-- The entry of an `fds` array: an `fd_info_t`, or null. -/
  fds : Nat → Nat → Option Nat
  /-- The handle in an `fd_info_t`; there is only one kind. -/
  fdInfos : Nat → Nat
  /-- The next heap object. -/
  next : Nat
  /-- Heap objects given to `free`, the last one first. -/
  freed : List Nat

namespace Kernel

def setThread (k : Kernel) (p : ThreadPtr) (t : Thread) : Kernel :=
  { k with threads := Function.update k.threads p (some t) }

end Kernel

/-! ## Creation -/

/-- The slot that `get_free_thread` fills, and the id it gives. -/
def getFreeThread (k : Kernel) : Option (ThreadPtr × Nat) :=
  match (List.finRange maxCpuNum).find? fun i => i.val < k.cpuCount && (k.threads (.idle i)).isNone
  with
  | some i => some (.idle i, 0)
  | none =>
      ((List.finRange kMaxThreadCount).find? fun i =>
        1 ≤ i.val && (k.threads (.slot i)).isNone).map fun i => (.slot i, i.val)

def allocCpuId (k : Kernel) : Nat × Kernel :=
  (k.cpuIdx, { k with cpuIdx := (k.cpuIdx + 1) % k.cpuCount })

/-- `arch_context_init`; `stack` is the address that the caller got for the stack, `garbage` the
state that the memory for the FPU is in. The `memset` clears `sizeof(arch_context_t)` bytes. -/
def archContextInit (m : Mem) (garbage : FxState) (entry stack : Nat) : ArchContext × Mem :=
  let context := subW stack ptRegsSize
  let m := memset m context 0 48
  let m := m.write64 (addW context 0xa8) 0x200
  let m := m.write64 (addW context 0x98) entry
  let m := m.write64 (addW context 0xb0) (context &&& notW 0xa)
  let m := m.write64 (addW context 0xa0) 0x8
  let m := m.write64 (addW context 0xb8) 0x10
  let m := m.write64 (addW context 0x70) 0x10
  let m := m.write64 (addW context 0x78) 0x10
  ({ context := context, fpu := { garbage with mxcsr := 0x1f80, fcw := 0x037f },
     fs := 0x10, gs := 0x10, fsbase := 0, gsbase := 0 }, m)

/-- `create`. Without a free slot the source writes through a null pointer. `cr3` is
`get_current_page_table()`. -/
def create (off : Nat) (garbage : FxState) (k : Kernel) (cr3 entry tflags : Nat) :
    Option (ThreadPtr × Kernel) := do
  let (ptr, id) ← getFreeThread k
  let (cpuId, k) := allocCpuId k
  let (stackFrame, frames) := allocFrames k.machine.frames (kThreadStackSize / pageSize)
  let stack := physToVirt off stackFrame
  let (archContext, mem) := archContextInit k.machine.mem garbage entry stack
  let (syscallFrame, frames) := allocFrames frames (kThreadStackSize / pageSize)
  let syscallStack := physToVirt off syscallFrame
  let mm := k.next
  let fileInfo := k.next + 1
  let fds := k.next + 2
  let t : Thread :=
    { id := id, callInSignal := false, cpuId := cpuId, jiffies := 0, archContext := archContext
      syscallStack := syscallStack, mm := mm, fileInfo := fileInfo, tflags := tflags, status := 0
      childVforkDone := false, isVfork := false, state := .kRunNone }
  pure (ptr,
    { k with
      machine := ⟨mem, frames⟩
      threads := Function.update k.threads ptr (some t)
      mms := Function.update k.mms mm ⟨cr3, 1⟩
      files := Function.update k.files fileInfo ⟨fds, defaultFdNum, 1⟩
      fds := Function.update k.fds fds fun _ => none
      next := k.next + 3 })

/-- `init`: an idle thread for each CPU, and the first thread. -/
def threadInit (off : Nat) (garbage : FxState) (k : Kernel) (cr3 idleEntry initEntry : Nat) :
    Option Kernel := do
  let k := { k with threads := fun p => match p with
                                | .idle c => k.threads (.idle c)
                                | .slot _ => none }
  let k ← (List.range k.cpuCount).foldlM
    (fun k _ => (create off garbage k cr3 idleEntry 0).map (·.2)) k
  let k := { k with cpuIdx := 0 }
  (create off garbage k cr3 initEntry 1).map (·.2)

/-! ## Files -/

/-- The first `n` steps of the loop of `add_fd_info`. -/
def firstFree (fds : Nat → Option Nat) : Nat → Option Nat
  | 0 => none
  | n + 1 => (firstFree fds n).or (if (fds n).isNone then some n else none)

/-- `add_fd_info`; `(size_t)-1` when every entry is in use. -/
def addFdInfo (k : Kernel) (t : Thread) (f : Nat) : Nat × Kernel :=
  let info := k.files t.fileInfo
  match firstFree (k.fds info.fds) info.maxFdCount.toNat with
  | some i =>
      (i, { k with fds := Function.update k.fds info.fds
                            (Function.update (k.fds info.fds) i (some f)) })
  | none => (2 ^ 64 - 1, k)

/-! ## Search -/

/-- The loop of `search`, from the slots left and the best thread so far. -/
def searchFrom (k : Kernel) (state : RunState) (cpuId : Nat) :
    List (Fin kMaxThreadCount) → Option (Fin kMaxThreadCount × Thread) →
      Option (Fin kMaxThreadCount × Thread)
  | [], task => task
  | i :: is, task =>
      match k.threads (.slot i) with
      | none => task
      | some ptr =>
          if ptr.state ≠ state then searchFrom k state cpuId is task
          else if ptr.cpuId ≠ cpuId then searchFrom k state cpuId is task
          else
            match task with
            | none => searchFrom k state cpuId is (some (i, ptr))
            | some best =>
                if ptr.jiffies < best.2.jiffies then searchFrom k state cpuId is (some (i, ptr))
                else searchFrom k state cpuId is task

def search (k : Kernel) (state : RunState) (cpuId : Fin maxCpuNum) : Option ThreadPtr :=
  match searchFrom k state cpuId ((List.finRange kMaxThreadCount).drop 1) none with
  | some (i, _) => some (.slot i)
  | none =>
      if state = .kRunNone then
        if (k.threads (.idle cpuId)).isSome then some (.idle cpuId) else none
      else none

/-! ## What creation does -/

variable {off cr3 entry tflags id : Nat} {garbage : FxState} {k k' : Kernel} {p : ThreadPtr}

theorem getFreeThread_none (h : getFreeThread k = some (p, id)) : k.threads p = none := by
  unfold getFreeThread at h
  split at h
  · rename_i i hfound
    obtain ⟨rfl, -⟩ := Prod.mk.inj (Option.some.inj h)
    have := List.find?_some hfound
    simp only [Bool.and_eq_true, Option.isNone_iff_eq_none] at this
    exact this.2
  · obtain ⟨i, hfound, he⟩ := Option.map_eq_some_iff.mp h
    obtain ⟨rfl, -⟩ := Prod.mk.inj he
    have := List.find?_some hfound
    simp only [Bool.and_eq_true, Option.isNone_iff_eq_none] at this
    exact this.2

/-- `find?` on the indices in order finds the first. -/
theorem find?_finRange {n : Nat} {q : Fin n → Bool} {i : Fin n} (hi : q i = true)
    (hbefore : ∀ j : Fin n, j.val < i.val → q j = false) : (List.finRange n).find? q = some i := by
  rw [List.find?_eq_some_iff_getElem]
  refine ⟨hi, i.val, by simp, by simp, fun j hj => ?_⟩
  rw [hbefore _ (by simpa using hj)]
  rfl

/-- While an idle thread is missing, one is made. -/
theorem getFreeThread_idle {c : Fin maxCpuNum} (hc : c.val < k.cpuCount)
    (hnone : k.threads (.idle c) = none)
    (hbefore : ∀ d : Fin maxCpuNum, d.val < c.val → (k.threads (.idle d)).isSome) :
    getFreeThread k = some (.idle c, 0) := by
  unfold getFreeThread
  rw [find?_finRange (i := c) (by simp [hc, hnone]) fun d hd => ?_]
  simp [Option.isNone_eq_false_iff.mpr (hbefore d hd)]

/-- With all idle threads made, the first empty slot is used. -/
theorem getFreeThread_slot (hidle : ∀ c : Fin maxCpuNum, c.val < k.cpuCount →
      (k.threads (.idle c)).isSome) {i : Fin kMaxThreadCount} (hi : 1 ≤ i.val)
    (hnone : k.threads (.slot i) = none)
    (hbefore : ∀ j : Fin kMaxThreadCount, 1 ≤ j.val → j.val < i.val →
      (k.threads (.slot j)).isSome) : getFreeThread k = some (.slot i, i.val) := by
  unfold getFreeThread
  have hnoidle : ((List.finRange maxCpuNum).find? fun i =>
      i.val < k.cpuCount && (k.threads (.idle i)).isNone) = none := by
    refine List.find?_eq_none.mpr fun c _ => ?_
    by_cases hc : c.val < k.cpuCount
    · simp [Option.isNone_eq_false_iff.mpr (hidle c hc)]
    · simp [hc]
  rw [hnoidle, find?_finRange (i := i) (by simp [hi, hnone]) fun j hj => ?_]
  · rfl
  · by_cases h1 : 1 ≤ j.val
    · simp [Option.isNone_eq_false_iff.mpr (hbefore j h1 hj)]
    · simp [h1]

theorem firstFree_some {fds : Nat → Option Nat} {n i : Nat} (h : firstFree fds n = some i) :
    i < n ∧ fds i = none := by
  induction n with
  | zero => exact nomatch h
  | succ n ih =>
    rw [firstFree] at h
    rcases Option.or_eq_some_iff.mp h with h | ⟨-, h⟩
    · exact ⟨Nat.lt_succ_of_lt (ih h).1, (ih h).2⟩
    · split at h
      · obtain rfl := Option.some.inj h
        exact ⟨Nat.lt_succ_self _, Option.isNone_iff_eq_none.mp ‹_›⟩
      · exact nomatch h

theorem firstFree_none {fds : Nat → Option Nat} {n : Nat} (h : firstFree fds n = none) :
    ∀ i < n, fds i ≠ none := by
  induction n with
  | zero => exact fun i hi => absurd hi (Nat.not_lt_zero i)
  | succ n ih =>
    rw [firstFree, Option.or_eq_none_iff] at h
    intro i hi
    rcases Nat.lt_succ_iff_lt_or_eq.mp hi with hi | rfl
    · exact ih h.1 i hi
    · intro hnone
      rw [hnone] at h
      exact nomatch h.2

/-- **What `add_fd_info` does**: it fills the first free entry, if there is one. -/
theorem addFdInfo_cases (k : Kernel) (t : Thread) (f : Nat) :
    (∃ i < (k.files t.fileInfo).maxFdCount.toNat, k.fds (k.files t.fileInfo).fds i = none ∧
      addFdInfo k t f = (i,
        { k with
          fds := Function.update k.fds (k.files t.fileInfo).fds
            (Function.update (k.fds (k.files t.fileInfo).fds) i (some f)) })) ∨
    ((∀ i < (k.files t.fileInfo).maxFdCount.toNat, k.fds (k.files t.fileInfo).fds i ≠ none) ∧
      addFdInfo k t f = (2 ^ 64 - 1, k)) := by
  unfold addFdInfo
  dsimp only
  cases hfree : firstFree (k.fds (k.files t.fileInfo).fds) (k.files t.fileInfo).maxFdCount.toNat with
  | some i =>
      obtain ⟨hlt, hnone⟩ := firstFree_some hfree
      exact .inl ⟨i, hlt, hnone, rfl⟩
  | none => exact .inr ⟨firstFree_none hfree, rfl⟩

/-- **What `create` does.** -/
structure Created (k : Kernel) (cr3 tflags : Nat) (p : ThreadPtr) (k' : Kernel) : Prop where
  empty : k.threads p = none
  threads : ∃ t, k'.threads = Function.update k.threads p (some t) ∧ t.cpuId = k.cpuIdx ∧
    t.mm = k.next ∧ t.fileInfo = k.next + 1 ∧ t.tflags = tflags ∧ t.state = .kRunNone
  mms : k'.mms = Function.update k.mms k.next ⟨cr3, 1⟩
  files : k'.files = Function.update k.files (k.next + 1) ⟨k.next + 2, defaultFdNum, 1⟩
  fds : k'.fds = Function.update k.fds (k.next + 2) fun _ => none
  next : k'.next = k.next + 3
  freed : k'.freed = k.freed
  cpuCount : k'.cpuCount = k.cpuCount
  cpuIdx : k'.cpuIdx = (k.cpuIdx + 1) % k.cpuCount

theorem create_some (off : Nat) (garbage : FxState) (cr3 entry tflags : Nat)
    (hfree : getFreeThread k = some (p, id)) :
    ∃ k', create off garbage k cr3 entry tflags = some (p, k') ∧ Created k cr3 tflags p k' := by
  unfold create
  rw [hfree]
  exact ⟨_, rfl, getFreeThread_none hfree, ⟨_, rfl, rfl, rfl, rfl, rfl, rfl⟩, rfl, rfl, rfl, rfl, rfl,
    rfl, rfl⟩

theorem create_spec (h : create off garbage k cr3 entry tflags = some (p, k')) :
    (∃ id, getFreeThread k = some (p, id)) ∧ Created k cr3 tflags p k' := by
  cases hfree : getFreeThread k with
  | none =>
      rw [create, hfree] at h
      exact absurd h (by simp)
  | some x =>
      obtain ⟨q, id⟩ := x
      obtain ⟨k'', hk, hc⟩ := create_some off garbage cr3 entry tflags hfree
      obtain ⟨rfl, rfl⟩ := Prod.mk.inj (Option.some.inj (h.symm.trans hk))
      exact ⟨⟨id, rfl⟩, hc⟩

/-! ## What `init` leaves -/

/-- The kernel after the first `n` idle threads. -/
structure IdleMade (n cpuCount : Nat) (k : Kernel) : Prop where
  idle : ∀ c : Fin maxCpuNum, (k.threads (.idle c)).isSome ↔ c.val < n
  slot : ∀ i, k.threads (.slot i) = none
  fresh : ∀ c t, k.threads (.idle c) = some t → t.cpuId = c.val ∧ t.state = .kRunNone
  cpuIdx : k.cpuIdx = n % cpuCount
  cpuCount : k.cpuCount = cpuCount

theorem idleMade_create {n cpuCount : Nat} (off : Nat) (garbage : FxState) (cr3 entry : Nat)
    (hi : IdleMade n cpuCount k) (hn : n < cpuCount) (hmax : cpuCount ≤ maxCpuNum) :
    ∃ k', (create off garbage k cr3 entry 0).map (·.2) = some k' ∧
      IdleMade (n + 1) cpuCount k' := by
  let c : Fin maxCpuNum := ⟨n, by omega⟩
  have hnone : k.threads (.idle c) = none := by
    rw [← Option.not_isSome_iff_eq_none, hi.idle]
    exact Nat.lt_irrefl n
  have hfree : getFreeThread k = some (.idle c, 0) :=
    getFreeThread_idle (hi.cpuCount ▸ hn) hnone fun d hd => (hi.idle d).mpr hd
  obtain ⟨k', hk', hc⟩ := create_some off garbage cr3 entry 0 hfree
  obtain ⟨t, hthreads, hcpu, -, -, -, hstate⟩ := hc.threads
  have hother : ∀ d : Fin maxCpuNum, d ≠ c → k'.threads (.idle d) = k.threads (.idle d) := by
    intro d hd
    rw [hthreads, Function.update_of_ne]
    exact fun h => hd (ThreadPtr.idle.inj h)
  have hself : k'.threads (.idle c) = some t := by rw [hthreads, Function.update_self]
  refine ⟨k', by rw [hk']; rfl, fun d => ?_, fun i => ?_, fun d u hu => ?_, ?_, ?_⟩
  · by_cases hd : d = c
    · rw [hd, hself]
      exact iff_of_true rfl (Nat.lt_succ_self n)
    · rw [hother d hd, hi.idle]
      have : d.val ≠ n := fun h => hd (Fin.ext h)
      omega
  · rw [hthreads, Function.update_of_ne ThreadPtr.noConfusion]
    exact hi.slot i
  · by_cases hd : d = c
    · subst hd
      obtain rfl := Option.some.inj (hself.symm.trans hu)
      rw [hcpu, hi.cpuIdx, Nat.mod_eq_of_lt hn]
      exact ⟨rfl, hstate⟩
    · exact hi.fresh d u (hother d hd ▸ hu)
  · rw [hc.cpuIdx, hi.cpuIdx, hi.cpuCount, Nat.mod_add_mod]
  · rw [hc.cpuCount, hi.cpuCount]

/-- **`init`** makes the idle threads, each for its own CPU, and one more, for CPU 0. -/
theorem threadInit_spec (off : Nat) (garbage : FxState) (cr3 idleEntry initEntry : Nat)
    (hboot : ∀ c, k.threads (.idle c) = none) (hidx : k.cpuIdx = 0)
    (hmax : k.cpuCount ≤ maxCpuNum) :
    ∃ k', threadInit off garbage k cr3 idleEntry initEntry = some k' ∧
      k'.cpuCount = k.cpuCount ∧
      (∀ c : Fin maxCpuNum, (k'.threads (.idle c)).isSome ↔ c.val < k.cpuCount) ∧
      (∀ c t, k'.threads (.idle c) = some t → t.cpuId = c.val ∧ t.state = .kRunNone) ∧
      (∃ t, k'.threads (.slot ⟨1, by decide⟩) = some t ∧ t.cpuId = 0 ∧ t.state = .kRunNone) ∧
      ∀ i t, k'.threads (.slot i) = some t → i = ⟨1, by decide⟩ := by
  -- the loop
  have hloop : ∀ n ≤ k.cpuCount, ∀ k₀, IdleMade 0 k.cpuCount k₀ → ∃ k',
      (List.range n).foldlM (fun k _ => (create off garbage k cr3 idleEntry 0).map (·.2)) k₀ =
        some k' ∧ IdleMade n k.cpuCount k' := by
    intro n hn k₀ hk₀
    induction n with
    | zero => exact ⟨k₀, rfl, hk₀⟩
    | succ n ih =>
      obtain ⟨k₁, hk₁, hi₁⟩ := ih (by omega)
      obtain ⟨k₂, hk₂, hi₂⟩ := idleMade_create off garbage cr3 idleEntry hi₁ (by omega) hmax
      refine ⟨k₂, ?_, hi₂⟩
      rw [List.range_succ, List.foldlM_append, hk₁]
      simpa using hk₂
  let k₀ : Kernel := { k with threads := fun p => match p with
                                          | .idle c => k.threads (.idle c)
                                          | .slot _ => none }
  have hk₀ : IdleMade 0 k.cpuCount k₀ := by
    refine ⟨fun c => ?_, fun i => rfl, fun c t ht => ?_, ?_, rfl⟩
    · rw [show k₀.threads (.idle c) = none from hboot c]
      simp
    · rw [show k₀.threads (.idle c) = none from hboot c] at ht
      exact absurd ht (by simp)
    · rw [Nat.zero_mod]
      exact hidx
  obtain ⟨k₁, hk₁, hi⟩ := hloop k.cpuCount (Nat.le_refl _) k₀ hk₀
  let k₂ : Kernel := { k₁ with cpuIdx := 0 }
  have hfree : getFreeThread k₂ = some (.slot ⟨1, by decide⟩, 1) := by
    refine getFreeThread_slot (fun c hc => ?_) (Nat.le_refl 1) (hi.slot _) fun j h1 h2 => ?_
    · exact (hi.idle c).mpr (hi.cpuCount ▸ hc)
    · exact absurd h2 (Nat.not_lt.mpr h1)
  obtain ⟨k₃, hk₃, hc⟩ := create_some off garbage cr3 initEntry 1 hfree
  obtain ⟨t, hthreads, hcpu, -, -, -, hstate⟩ := hc.threads
  have hidle : ∀ c, k₃.threads (.idle c) = k₁.threads (.idle c) := fun c => by
    rw [hthreads, Function.update_of_ne ThreadPtr.noConfusion]
  refine ⟨k₃, ?_, hc.cpuCount.trans hi.cpuCount, fun c => ?_, fun c u hu => ?_, ⟨t, ?_, hcpu, hstate⟩,
    fun i u hu => ?_⟩
  · simp only [threadInit, Option.bind_eq_bind]
    rw [show (List.range k.cpuCount).foldlM _ _ = some k₁ from hk₁]
    simp only [Option.bind_some]
    rw [show create off garbage k₂ cr3 initEntry 1 = _ from hk₃]
    rfl
  · rw [hidle]
    exact hi.idle c
  · exact hi.fresh c u (hidle c ▸ hu)
  · rw [hthreads, Function.update_self]
  · by_contra hne
    rw [hthreads, Function.update_of_ne fun h => hne (ThreadPtr.slot.inj h),
      show k₂.threads (.slot i) = none from hi.slot i] at hu
    exact absurd hu (by simp)

/-- Memory and frames as the boot loader left them, no threads, one CPU. -/
def bootKernel : Kernel :=
  { machine := ⟨fun _ => 0, ⟨fun _ => 255, 64⟩⟩, threads := fun _ => none, cpuCount := 1, cpuIdx := 0
    mms := fun _ => ⟨0, 0⟩, files := fun _ => ⟨0, 0, 0⟩, fds := fun _ _ => none, fdInfos := fun _ => 0
    next := 0, freed := [] }

def emptyFx : FxState := ⟨0, 0, fun _ => 0⟩

end IonOS.Proc
