import IonOS.Lib.Runs
import IonOS.Proc.Thread

/-!
# Clone and exit

`k_clone_impl` and `k_exit_impl`. `cur` is what `get_current_thread` returns. A
clone first creates a thread of its own and then replaces parts of it, and what it
replaces is not given back. After an exit the CPU goes on with another thread,
which changes its registers and nothing here.
-/

namespace IonOS.Proc

open IonOS.Lib IonOS.Libs IonOS.Mm IonOS.Arch

def cloneVm : Nat := 0x00000100
def cloneFiles : Nat := 0x00000400
def cloneVfork : Nat := 0x00004000
def cloneSettls : Nat := 0x00080000
def cloneParentSettid : Nat := 0x00100000
def cloneChildSettid : Nat := 0x01000000

/-! ## Clone -/

/-- The first `n` steps of the loop that copies the open files. -/
def copyFds (k : Kernel) (dst src : Nat) : Nat → Kernel
  | 0 => k
  | i + 1 =>
      let k := copyFds k dst src i
      match k.fds src i with
      | some fd =>
          { k with
            fdInfos := Function.update k.fdInfos k.next (k.fdInfos fd)
            fds := Function.update k.fds dst (Function.update (k.fds dst) i (some k.next))
            next := k.next + 1 }
      | none => { k with fds := Function.update k.fds dst (Function.update (k.fds dst) i none) }

/-- The clone's `file_info`. Without `CLONE_FILES` it is new memory, which holds `garbage` and is
used as it is. -/
def cloneFileInfo (k : Kernel) (garbage : FileInfo) (fileInfo flags : Nat) : Nat × Kernel :=
  if flags &&& cloneFiles ≠ 0 then
    let info := k.files fileInfo
    (fileInfo, { k with files := Function.update k.files fileInfo
                                   { info with refCount := info.refCount + 1 } })
  else
    let new := k.next
    let k := { k with files := Function.update k.files new garbage, next := k.next + 1 }
    -- `memset(fds, 0, sizeof(fds))` clears one pointer
    let k := { k with fds := Function.update k.fds garbage.fds
                               (Function.update (k.fds garbage.fds) 0 none) }
    (new, copyFds k garbage.fds (k.files fileInfo).fds (k.files fileInfo).maxFdCount.toNat)

/-- The clone's `mm`. -/
def cloneMm (off : Nat) (k : Kernel) (mm flags : Nat) : Nat × Kernel :=
  match clonePageTable off k.machine (k.mms mm) flags with
  | (none, old, machine) => (mm, { k with machine := machine, mms := Function.update k.mms mm old })
  | (some new, old, machine) =>
      (k.next,
        { k with
          machine := machine
          mms := Function.update (Function.update k.mms mm old) k.next new
          next := k.next + 1 })

/-- `k_clone_impl` up to the wait of `CLONE_VFORK`, which nothing ends. -/
def kCloneImpl (off : Nat) (garbageFx : FxState) (garbageFile : FileInfo) (k : Kernel)
    (cur : ThreadPtr) (cr3 regs flags newsp parentTid childTid tls : Nat) :
    Option (ThreadPtr × Kernel) := do
  let current ← k.threads cur
  let (ptr, k) ← create off garbageFx k cr3 0 current.tflags
  let t ← k.threads ptr
  let current := { current with archContext := { current.archContext with context := regs } }
  -- `context_copy`
  let m := memcpy k.machine.mem t.archContext.context current.archContext.context ptRegsSize
  let (mm, k) := cloneMm off { k with machine := { k.machine with mem := m } } current.mm flags
  let m := k.machine.mem
  let m := if newsp ≠ 0 then m.write64 (addW t.archContext.context 0xb0) newsp else m
  let (fileInfo, k) := cloneFileInfo k garbageFile current.fileInfo flags
  let m := if flags &&& cloneParentSettid ≠ 0 then m.writeLE parentTid 4 current.id else m
  let m := if flags &&& cloneChildSettid ≠ 0 then m.writeLE childTid 4 t.id else m
  let t : Thread :=
    { t with
      callInSignal := current.callInSignal
      archContext :=
        { current.archContext with
          context := t.archContext.context
          fsbase := if flags &&& cloneSettls ≠ 0 then tls else current.archContext.fsbase }
      mm := mm, jiffies := current.jiffies, fileInfo := fileInfo, childVforkDone := false
      isVfork := flags &&& cloneVfork ≠ 0 }
  let current := { current with
    childVforkDone := if flags &&& cloneVfork ≠ 0 then false else current.childVforkDone }
  let k := { k with machine := { k.machine with mem := m } }
  pure (ptr, (k.setThread cur current).setThread ptr t)

/-- Where a caller of `k_clone_impl` is: back, with the value, or in the loop of `CLONE_VFORK`. -/
inductive CloneStatus where
  | done (value : Nat)
  | waiting
deriving DecidableEq, Repr

/-- The loop of `CLONE_VFORK` looks at `child_vfork_done`; `p` is the clone. -/
def cloneWait (k : Kernel) (cur p : ThreadPtr) : Option (CloneStatus × Kernel) := do
  let current ← k.threads cur
  if current.childVforkDone then
    let k := k.setThread cur { current with childVforkDone := false }
    let t ← k.threads p
    pure (.done t.id, k)
  else pure (.waiting, k)

/-- `k_clone_impl`, until it returns or has to wait. -/
def kCloneCall (off : Nat) (garbageFx : FxState) (garbageFile : FileInfo) (k : Kernel)
    (cur : ThreadPtr) (cr3 regs flags newsp parentTid childTid tls : Nat) :
    Option (CloneStatus × ThreadPtr × Kernel) := do
  let (p, k) ←
    kCloneImpl off garbageFx garbageFile k cur cr3 regs flags newsp parentTid childTid tls
  if flags &&& cloneVfork ≠ 0 then
    let (st, k) ← cloneWait k cur p
    pure (st, p, k)
  else
    let t ← k.threads p
    pure (.done t.id, p, k)

/-! ## Exit -/

/-- The first `n` steps of the loop that frees the open files. -/
def freeFds (fds : Nat → Option Nat) (freed : List Nat) : Nat → List Nat
  | 0 => freed
  | i + 1 =>
      match fds i with
      | some fd => fd :: freeFds fds freed i
      | none => freeFds fds freed i

/-- The thread's share in `ref_count` goes; at zero `free_page_table` is called. -/
def dropMm (off : Nat) (machine : Machine) (mm : MmContext) : MmContext × Machine :=
  let mm := { mm with refCount := subW mm.refCount 1 }
  if mm.refCount = 0 then freePageTable off machine mm else (mm, machine)

/-- `k_exit_impl` of the thread `t`, up to the switch. -/
def exitThread (off : Nat) (k : Kernel) (cur : ThreadPtr) (t : Thread) (exitCode : Nat) : Kernel :=
  let frames := freeFrames k.machine.frames
    (virtToPhys off (addW t.archContext.context ptRegsSize)) (kThreadStackSize / pageSize)
  let dropped := dropMm off { k.machine with frames := frames } (k.mms t.mm)
  let info := k.files t.fileInfo
  let freed := freeFds (k.fds info.fds) k.freed info.maxFdCount.toNat
  { k with
    machine := dropped.2
    mms := Function.update k.mms t.mm dropped.1
    freed := t.fileInfo :: info.fds :: freed
    threads := Function.update k.threads cur
      (some { t with status := exitCode, state := .kRunTerminated }) }

def kExitImpl (off : Nat) (k : Kernel) (cur : ThreadPtr) (exitCode : Nat) : Option Kernel :=
  (k.threads cur).map fun t => exitThread off k cur t exitCode

/-! ## What clone and exit do -/

variable {off cr3 regs flags newsp parentTid childTid tls exitCode : Nat} {garbageFx : FxState}
  {garbage : FileInfo} {k k' : Kernel} {cur p : ThreadPtr} {t : Thread}

theorem copyFds_spec (k : Kernel) (dst src n : Nat) :
    (copyFds k dst src n).threads = k.threads ∧ (copyFds k dst src n).mms = k.mms ∧
      (copyFds k dst src n).files = k.files ∧ (copyFds k dst src n).freed = k.freed ∧
      (copyFds k dst src n).cpuCount = k.cpuCount ∧ k.next ≤ (copyFds k dst src n).next := by
  induction n with
  | zero => exact ⟨rfl, rfl, rfl, rfl, rfl, Nat.le_refl _⟩
  | succ n ih =>
    obtain ⟨h1, h2, h3, h4, h5, h6⟩ := ih
    rw [copyFds]
    split
    · exact ⟨h1, h2, h3, h4, h5, Nat.le_succ_of_le h6⟩
    · exact ⟨h1, h2, h3, h4, h5, h6⟩

/-- The table of a clone: shared and counted, or new and not set up. -/
structure FileInfoCloned (k : Kernel) (garbage : FileInfo) (fileInfo flags new : Nat) (k' : Kernel) :
    Prop where
  threads : k'.threads = k.threads
  mms : k'.mms = k.mms
  freed : k'.freed = k.freed
  cpuCount : k'.cpuCount = k.cpuCount
  next : k.next ≤ k'.next
  shared : flags &&& cloneFiles ≠ 0 → new = fileInfo ∧ k'.fds = k.fds ∧
    k'.files = Function.update k.files fileInfo
      { k.files fileInfo with refCount := (k.files fileInfo).refCount + 1 }
  own : flags &&& cloneFiles = 0 → new = k.next ∧ k.next < k'.next ∧
    k'.files = Function.update k.files k.next garbage

theorem cloneFileInfo_spec (k : Kernel) (garbage : FileInfo) (fileInfo flags : Nat) :
    FileInfoCloned k garbage fileInfo flags (cloneFileInfo k garbage fileInfo flags).1
      (cloneFileInfo k garbage fileInfo flags).2 := by
  unfold cloneFileInfo
  by_cases h : flags &&& cloneFiles ≠ 0
  · rw [if_pos h]
    exact ⟨rfl, rfl, rfl, rfl, Nat.le_refl _, fun _ => ⟨rfl, rfl, rfl⟩, fun h' => absurd h' h⟩
  · rw [if_neg h]
    dsimp only
    obtain ⟨h1, h2, h3, h4, h5, h6⟩ := copyFds_spec
      { k with
        files := Function.update k.files k.next garbage, next := k.next + 1
        fds := Function.update k.fds garbage.fds (Function.update (k.fds garbage.fds) 0 none) }
      garbage.fds (Function.update k.files k.next garbage fileInfo).fds
      (Function.update k.files k.next garbage fileInfo).maxFdCount.toNat
    exact ⟨h1, h2, h4, h5, Nat.le_of_succ_le h6, fun h' => absurd h' h, fun _ => ⟨rfl, h6, h3⟩⟩

/-- The memory context of a clone: shared and counted, or new. -/
structure MmCloned (k : Kernel) (mm flags new : Nat) (k' : Kernel) : Prop where
  threads : k'.threads = k.threads
  files : k'.files = k.files
  fds : k'.fds = k.fds
  freed : k'.freed = k.freed
  cpuCount : k'.cpuCount = k.cpuCount
  shared : flags &&& cloneVm ≠ 0 → new = mm ∧ k'.next = k.next ∧
    k'.mms = Function.update k.mms mm { k.mms mm with refCount := addW (k.mms mm).refCount 1 }
  own : flags &&& cloneVm = 0 → new = k.next ∧ k'.next = k.next + 1 ∧
    ∃ phys, k'.mms = Function.update k.mms k.next ⟨phys, 1⟩

theorem clonePageTable_copies (off : Nat) (s : Machine) (old : MmContext)
    (h : flags &&& cloneVm = 0) :
    ∃ phys s', clonePageTable off s old flags = (some ⟨phys, 1⟩, old, s') := by
  have h : ¬ flags &&& 0x00000100 ≠ 0 := not_not.mpr h
  unfold clonePageTable
  rw [if_neg h]
  exact ⟨_, _, rfl⟩

theorem cloneMm_spec (off : Nat) (k : Kernel) (mm flags : Nat) :
    MmCloned k mm flags (cloneMm off k mm flags).1 (cloneMm off k mm flags).2 := by
  unfold cloneMm
  by_cases h : flags &&& cloneVm = 0
  · obtain ⟨phys, machine, he⟩ := clonePageTable_copies off k.machine (k.mms mm) h
    rw [he]
    refine ⟨rfl, rfl, rfl, rfl, rfl, fun h' => absurd h h', fun _ => ⟨rfl, rfl, phys, ?_⟩⟩
    dsimp only
    rw [Function.update_eq_self]
  · have he : clonePageTable off k.machine (k.mms mm) flags =
        (none, { k.mms mm with refCount := addW (k.mms mm).refCount 1 }, k.machine) := if_pos h
    rw [he]
    exact ⟨rfl, rfl, rfl, rfl, rfl, fun _ => ⟨rfl, rfl, rfl⟩, fun h' => absurd h' h⟩

/-- **What `k_clone_impl` does**: it creates, and replaces the new thread's context and table. -/
structure Cloned (k : Kernel) (garbage : FileInfo) (cur : ThreadPtr) (t : Thread)
    (cr3 flags : Nat) (p : ThreadPtr) (k' : Kernel) : Prop where
  spec : ∃ kc km kf mm fileInfo, Created k cr3 t.tflags p kc ∧ MmCloned kc t.mm flags mm km ∧
    FileInfoCloned km garbage t.fileInfo flags fileInfo kf ∧
    k'.mms = kf.mms ∧ k'.files = kf.files ∧ k'.fds = kf.fds ∧ k'.freed = kf.freed ∧
    k'.next = kf.next ∧ k'.cpuCount = kf.cpuCount ∧
    ∃ current child : Thread,
      k'.threads = Function.update (Function.update kf.threads cur (some current)) p (some child) ∧
      (current.mm = t.mm ∧ current.fileInfo = t.fileInfo ∧ current.state = t.state) ∧
      child.mm = mm ∧ child.fileInfo = fileInfo ∧ child.state = .kRunNone

theorem kCloneImpl_spec (hcur : k.threads cur = some t)
    (h : kCloneImpl off garbageFx garbage k cur cr3 regs flags newsp parentTid childTid tls =
      some (p, k')) : Cloned k garbage cur t cr3 flags p k' := by
  unfold kCloneImpl at h
  rw [hcur] at h
  simp only [Option.bind_eq_bind, Option.bind_some] at h
  obtain ⟨⟨ptr, kc⟩, hcreate, h⟩ := Option.bind_eq_some_iff.mp h
  obtain ⟨-, hc⟩ := create_spec hcreate
  obtain ⟨new, hthreads, -, -, -, -, hstate⟩ := hc.threads
  have hnew : kc.threads ptr = some new := by rw [hthreads, Function.update_self]
  dsimp only at h
  rw [hnew] at h
  simp only [Option.bind_some, Option.pure_def, Option.some.injEq, Prod.mk.injEq] at h
  obtain ⟨rfl, rfl⟩ := h
  let km₀ : Kernel :=
    { kc with machine :=
        { kc.machine with mem := memcpy kc.machine.mem new.archContext.context regs ptRegsSize } }
  have hmm₀ := cloneMm_spec off km₀ t.mm flags
  -- the copied registers are in memory only
  have hmm : MmCloned kc t.mm flags (cloneMm off km₀ t.mm flags).1 (cloneMm off km₀ t.mm flags).2 :=
    ⟨hmm₀.threads, hmm₀.files, hmm₀.fds, hmm₀.freed, hmm₀.cpuCount, hmm₀.shared, hmm₀.own⟩
  have hfile := cloneFileInfo_spec (cloneMm off km₀ t.mm flags).2 garbage t.fileInfo flags
  exact ⟨kc, _, _, _, _, hc, hmm, hfile, rfl, rfl, rfl, rfl, rfl, rfl, _, _, rfl, ⟨rfl, rfl, rfl⟩,
    rfl, rfl, hstate⟩

/-- With `CLONE_VFORK` the caller has something to wait for. -/
theorem kCloneImpl_current
    (h : kCloneImpl off garbageFx garbage k cur cr3 regs flags newsp parentTid childTid tls =
      some (p, k')) (hvfork : flags &&& cloneVfork ≠ 0) :
    ∃ u, k'.threads cur = some u ∧ u.childVforkDone = false := by
  unfold kCloneImpl at h
  obtain ⟨t, hcur, h⟩ := Option.bind_eq_some_iff.mp h
  obtain ⟨⟨ptr, kc⟩, hcreate, h⟩ := Option.bind_eq_some_iff.mp h
  obtain ⟨-, hc⟩ := create_spec hcreate
  obtain ⟨new, -, h⟩ := Option.bind_eq_some_iff.mp h
  obtain ⟨rfl, rfl⟩ := Prod.mk.inj (Option.some.inj h)
  have hne : cur ≠ ptr := by
    rintro rfl
    exact Option.some_ne_none t (hcur.symm.trans hc.empty)
  unfold Kernel.setThread
  dsimp only
  rw [Function.update_of_ne hne, Function.update_self]
  exact ⟨_, rfl, if_pos hvfork⟩

/-- Until somebody stores to `child_vfork_done` the loop goes on. -/
theorem cloneWait_waiting {u : Thread} (hu : k.threads cur = some u)
    (hdone : u.childVforkDone = false) : cloneWait k cur p = some (.waiting, k) := by
  rw [cloneWait, hu]
  simp only [Option.bind_eq_bind, Option.bind_some, hdone]
  rfl

/-- **How a clone comes back**: with the new thread's id, or, with `CLONE_VFORK`, not yet. -/
theorem kCloneCall_spec {st : CloneStatus} {child : Thread}
    (h : kCloneCall off garbageFx garbage k cur cr3 regs flags newsp parentTid childTid tls =
      some (st, p, k')) (hchild : k'.threads p = some child) :
    kCloneImpl off garbageFx garbage k cur cr3 regs flags newsp parentTid childTid tls =
        some (p, k') ∧
      (flags &&& cloneVfork = 0 → st = .done child.id) ∧
      (flags &&& cloneVfork ≠ 0 → st = .waiting ∧ cloneWait k' cur p = some (.waiting, k')) := by
  unfold kCloneCall at h
  obtain ⟨⟨ptr, kc⟩, hclone, h⟩ := Option.bind_eq_some_iff.mp h
  dsimp only at h
  by_cases hvfork : flags &&& cloneVfork ≠ 0
  · obtain ⟨u, hu, hdone⟩ := kCloneImpl_current hclone hvfork
    have hwait : cloneWait kc cur ptr = some (.waiting, kc) := cloneWait_waiting hu hdone
    rw [if_pos hvfork, hwait] at h
    obtain ⟨rfl, rfl, rfl⟩ : CloneStatus.waiting = st ∧ ptr = p ∧ kc = k' := by
      simpa using h
    exact ⟨hclone, fun h0 => absurd h0 hvfork, fun _ => ⟨rfl, hwait⟩⟩
  · rw [if_neg hvfork] at h
    obtain ⟨t', ht', h⟩ := Option.bind_eq_some_iff.mp h
    obtain ⟨rfl, rfl, rfl⟩ : CloneStatus.done t'.id = st ∧ ptr = p ∧ kc = k' := by
      simpa using h
    obtain rfl := Option.some.inj (ht'.symm.trans hchild)
    exact ⟨hclone, fun _ => rfl, fun h0 => absurd h0 hvfork⟩

/-- With a slot left a clone always goes through. -/
theorem kCloneImpl_total {id : Nat} (off cr3 regs flags newsp parentTid childTid tls : Nat)
    (garbageFx : FxState) (garbage : FileInfo) (hcur : k.threads cur = some t)
    (hfree : getFreeThread k = some (p, id)) :
    ∃ k', kCloneImpl off garbageFx garbage k cur cr3 regs flags newsp parentTid childTid tls =
      some (p, k') := by
  obtain ⟨kc, hcreate, hc⟩ := create_some off garbageFx cr3 0 t.tflags hfree
  obtain ⟨new, hthreads, -⟩ := hc.threads
  have hnew : kc.threads p = some new := by rw [hthreads, Function.update_self]
  unfold kCloneImpl
  rw [hcur]
  simp only [Option.bind_eq_bind, Option.bind_some]
  rw [hcreate]
  simp only [Option.bind_some]
  rw [hnew]
  simp only [Option.bind_some]
  exact ⟨_, Eq.refl _⟩

theorem kCloneCall_total {id : Nat} (off cr3 regs flags newsp parentTid childTid tls : Nat)
    (garbageFx : FxState) (garbage : FileInfo) (hcur : k.threads cur = some t)
    (hfree : getFreeThread k = some (p, id)) :
    ∃ st k' child,
      kCloneCall off garbageFx garbage k cur cr3 regs flags newsp parentTid childTid tls =
        some (st, p, k') ∧ k'.threads p = some child := by
  obtain ⟨k', hclone⟩ :=
    kCloneImpl_total off cr3 regs flags newsp parentTid childTid tls garbageFx garbage hcur hfree
  obtain ⟨_, _, _, _, _, _, -, -, -, -, -, -, -, -, _, child, hthreads, -⟩ :=
    (kCloneImpl_spec hcur hclone).spec
  have hchild : k'.threads p = some child := by rw [hthreads, Function.update_self]
  unfold kCloneCall
  rw [hclone]
  by_cases hvfork : flags &&& cloneVfork ≠ 0
  · obtain ⟨u, hu, hdone⟩ := kCloneImpl_current hclone hvfork
    refine ⟨.waiting, k', child, ?_, hchild⟩
    simp only [Option.bind_eq_bind, Option.bind_some, if_pos hvfork, cloneWait_waiting hu hdone]
    rfl
  · refine ⟨.done child.id, k', child, ?_, hchild⟩
    simp only [Option.bind_eq_bind, Option.bind_some, if_neg hvfork, hchild]
    rfl

end IonOS.Proc
