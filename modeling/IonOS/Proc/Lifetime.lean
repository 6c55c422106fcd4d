import IonOS.Proc.Process
import Mathlib.Algebra.BigOperators.Fin

/-!
# The life of an address space

An `mm_context_t` counts the threads that share it. `create` and `k_clone_impl`
count them up, `k_exit_impl` counts down and calls `free_page_table` at zero, which
goes through the tables when the count is one. So the tables are never released,
and `free_page_table` takes one from zero instead. The context that `create` makes
for a clone is replaced and forgotten with a count of one.
-/

namespace IonOS.Proc

open IonOS.Lib IonOS.Libs IonOS.Mm IonOS.Arch

/-! ## Counting threads -/

/-- A live thread whose `f` is `x`. -/
def Sharer (f : Thread → Nat) (x : Nat) : Option Thread → Bool
  | some t => t.state ≠ .kRunTerminated && f t == x
  | none => false

/-- The number of live threads whose `f` is `x`. -/
def sharers (f : Thread → Nat) (threads : ThreadPtr → Option Thread) (x : Nat) : Nat :=
  (Finset.univ.filter fun p => Sharer f x (threads p) = true).card

variable {f : Thread → Nat} {threads : ThreadPtr → Option Thread} {p cur : ThreadPtr} {x : Nat}
  {t : Thread}

theorem sharers_eq_sum : sharers f threads x = ∑ p, (Sharer f x (threads p)).toNat := by
  unfold sharers
  rw [Finset.card_filter]
  refine Finset.sum_congr rfl fun p _ => ?_
  cases Sharer f x (threads p) <;> rfl

/-- **Counting after one thread has changed.** -/
theorem sharers_update (f : Thread → Nat) (threads : ThreadPtr → Option Thread) (p : ThreadPtr)
    (o : Option Thread) (x : Nat) :
    sharers f (Function.update threads p o) x + (Sharer f x (threads p)).toNat =
      sharers f threads x + (Sharer f x o).toNat := by
  rw [sharers_eq_sum, sharers_eq_sum, ← Finset.add_sum_erase _ _ (Finset.mem_univ p),
    ← Finset.add_sum_erase _ (fun q => (Sharer f x (threads q)).toNat) (Finset.mem_univ p),
    Function.update_self]
  have hrest : ∑ q ∈ Finset.univ.erase p, (Sharer f x (Function.update threads p o q)).toNat =
      ∑ q ∈ Finset.univ.erase p, (Sharer f x (threads q)).toNat :=
    Finset.sum_congr rfl fun q hq => by rw [Function.update_of_ne (Finset.ne_of_mem_erase hq)]
  omega

theorem sharers_pos (h : threads p = some t) (hlive : t.state ≠ .kRunTerminated) (hf : f t = x) :
    0 < sharers f threads x :=
  Finset.card_pos.mpr ⟨p, Finset.mem_filter.mpr ⟨Finset.mem_univ p, by simp [h, Sharer, hlive, hf]⟩⟩

/-- Two live threads count as two. -/
theorem one_lt_sharers {q : ThreadPtr} {u : Thread} (hne : p ≠ q) (hp : threads p = some t)
    (hq : threads q = some u) (hlive : t.state ≠ .kRunTerminated ∧ u.state ≠ .kRunTerminated)
    (hf : f t = x ∧ f u = x) : 1 < sharers f threads x := by
  refine Finset.one_lt_card.mpr ⟨p, ?_, q, ?_, hne⟩
  · exact Finset.mem_filter.mpr ⟨Finset.mem_univ p, by simp [hp, Sharer, hlive.1, hf.1]⟩
  · exact Finset.mem_filter.mpr ⟨Finset.mem_univ q, by simp [hq, Sharer, hlive.2, hf.2]⟩

theorem sharers_eq_zero (h : ∀ p t, threads p = some t → t.state ≠ .kRunTerminated → f t ≠ x) :
    sharers f threads x = 0 := by
  refine Finset.card_eq_zero.mpr (Finset.filter_eq_empty_iff.mpr fun p _ hs => ?_)
  cases hp : threads p with
  | none => simp [hp, Sharer] at hs
  | some t =>
      simp only [hp, Sharer, Bool.and_eq_true, decide_eq_true_eq, beq_iff_eq] at hs
      exact h p t hp hs.1 hs.2

theorem sharers_le (f : Thread → Nat) (threads : ThreadPtr → Option Thread) (x : Nat) :
    sharers f threads x ≤ maxCpuNum + kMaxThreadCount := by
  have hcard : Fintype.card ThreadPtr = maxCpuNum + kMaxThreadCount := by
    let e : ThreadPtr ≃ Fin maxCpuNum ⊕ Fin kMaxThreadCount :=
      { toFun := fun p => p.casesOn Sum.inl Sum.inr
        invFun := Sum.elim .idle .slot
        left_inv := fun p => by cases p <;> rfl
        right_inv := fun q => by cases q <;> rfl }
    rw [Fintype.card_congr e, Fintype.card_sum, Fintype.card_fin, Fintype.card_fin]
  exact (Finset.card_le_univ _).trans_eq hcard

/-- Threads keep what they share, and whether they live. -/
theorem sharers_same (f : Thread → Nat) {threads threads' : ThreadPtr → Option Thread}
    (h : ∀ p, (threads' p).map (fun t => (f t, t.state == .kRunTerminated)) =
      (threads p).map fun t => (f t, t.state == .kRunTerminated)) (x : Nat) :
    sharers f threads' x = sharers f threads x := by
  have hsame : ∀ p, Sharer f x (threads' p) = Sharer f x (threads p) := by
    intro p
    have h := h p
    cases h1 : threads' p with
    | none =>
        cases h2 : threads p with
        | none => rfl
        | some u =>
            rw [h1, h2] at h
            exact nomatch h
    | some u' =>
        cases h2 : threads p with
        | none =>
            rw [h1, h2] at h
            exact nomatch h
        | some u =>
            rw [h1, h2] at h
            simp only [Option.map_some, Option.some.injEq, Prod.mk.injEq] at h
            have hstate : (u'.state = .kRunTerminated) = (u.state = .kRunTerminated) := by
              simpa using congrArg (· = true) h.2
            simp only [Sharer, h.1, ne_eq, hstate]
  simp only [sharers, hsame]

/-! ## Runs -/

/-- The kernel, and a record of what its calls have allocated and released. -/
structure ProcState where
  kernel : Kernel
  /-- The `mm_context_t`s allocated. -/
  contexts : List Nat
  /-- Those whose tables `free_page_table_recursive` went through. -/
  released : List Nat
  /-- The `thread_file_info_t`s that `create` made for threads that are not clones. -/
  tables : List Nat
  /-- Those that a clone left behind, or made. -/
  cloned : List Nat

/-- `k_exit_impl` calls `free_page_table` with a count of 0, and that goes through the tables for a
count of 1. -/
def releases (mm : MmContext) : Bool :=
  let mm := { mm with refCount := subW mm.refCount 1 }
  mm.refCount == 0 && mm.refCount == 1

/-- What preemption and calls about other things may do: threads keep what they share. -/
structure Elsewhere (k k' : Kernel) : Prop where
  threads : ∀ p, (k'.threads p).map (fun t => (t.mm, t.fileInfo, t.state == .kRunTerminated)) =
    (k.threads p).map fun t => (t.mm, t.fileInfo, t.state == .kRunTerminated)
  mms : k'.mms = k.mms
  files : k'.files = k.files
  fds : k'.fds = k.fds
  next : k.next ≤ k'.next
  freed : k'.freed = k.freed
  cpuCount : k'.cpuCount = k.cpuCount

/-- The calls that a run is made of. -/
inductive ProcEvent where
  | create
  | clone (cur : ThreadPtr) (flags : Nat)
  | exit (cur : ThreadPtr)
  | openFd (cur : ThreadPtr)
  | other

/-- Calls by live threads, in any order, as far as `ok` lets them. -/
inductive ProcStep (ok : ProcState → ProcEvent → Prop) : ProcState → ProcState → Prop where
  | create {s : ProcState} {off cr3 entry tflags : Nat} {garbage : FxState} {p : ThreadPtr}
      {k' : Kernel} (hok : ok s .create)
      (h : create off garbage s.kernel cr3 entry tflags = some (p, k')) :
      ProcStep ok s
        { s with
          kernel := k'
          contexts := s.kernel.next :: s.contexts
          tables := (s.kernel.next + 1) :: s.tables }
  | clone {s : ProcState} {off cr3 regs flags newsp parentTid childTid tls : Nat}
      {garbageFx : FxState} {garbage : FileInfo} {cur p : ThreadPtr} {t child : Thread}
      {k' : Kernel} (hok : ok s (.clone cur flags)) (hcur : s.kernel.threads cur = some t)
      (hlive : t.state ≠ .kRunTerminated)
      (h : kCloneImpl off garbageFx garbage s.kernel cur cr3 regs flags newsp parentTid childTid tls =
        some (p, k')) (hchild : k'.threads p = some child) :
      ProcStep ok s
        { s with
          kernel := k'
          contexts := child.mm :: s.kernel.next :: s.contexts
          cloned := (s.kernel.next + 1) ::
            (if flags &&& cloneFiles = 0 then [child.fileInfo] else []) ++ s.cloned }
  | exit {s : ProcState} {off exitCode : Nat} {cur : ThreadPtr} {t : Thread} {k' : Kernel}
      (hok : ok s (.exit cur)) (hcur : s.kernel.threads cur = some t)
      (hlive : t.state ≠ .kRunTerminated)
      (h : kExitImpl off s.kernel cur exitCode = some k') :
      ProcStep ok s
        { s with
          kernel := k'
          released := if releases (s.kernel.mms t.mm) then t.mm :: s.released else s.released }
  | openFd {s : ProcState} {cur : ThreadPtr} {t : Thread} {handle : Nat}
      (hok : ok s (.openFd cur)) (hcur : s.kernel.threads cur = some t)
      (hlive : t.state ≠ .kRunTerminated) :
      ProcStep ok s
        { s with
          kernel := (addFdInfo
            { s.kernel with
              fdInfos := Function.update s.kernel.fdInfos s.kernel.next handle
              next := s.kernel.next + 1 } t s.kernel.next).2 }
  | other {s : ProcState} {k' : Kernel} (hok : ok s .other) (h : Elsewhere s.kernel k') :
      ProcStep ok s { s with kernel := k' }

theorem ProcStep.weaken {ok : ProcState → ProcEvent → Prop} {s s' : ProcState}
    (h : ProcStep ok s s') : ProcStep (fun _ _ => True) s s' := by
  cases h with
  | create _ h => exact .create trivial h
  | clone _ hcur hlive h hchild => exact .clone trivial hcur hlive h hchild
  | exit _ hcur hlive h => exact .exit trivial hcur hlive h
  | openFd _ hcur hlive => exact .openFd trivial hcur hlive
  | other _ h => exact .other trivial h

/-- No thread yet. -/
structure ProcStart (s : ProcState) : Prop where
  threads : ∀ p, s.kernel.threads p = none
  freed : s.kernel.freed = []
  contexts : s.contexts = []
  released : s.released = []
  tables : s.tables = []
  cloned : s.cloned = []

/-! ## Exit -/

/-- **What `k_exit_impl` does** to the context, and to threads and files. -/
structure Exited (k : Kernel) (cur : ThreadPtr) (t : Thread) (k' : Kernel) : Prop where
  threads : ∃ t', k'.threads = Function.update k.threads cur (some t') ∧
    t'.state = .kRunTerminated ∧ t'.mm = t.mm ∧ t'.fileInfo = t.fileInfo
  mms : k'.mms = Function.update k.mms t.mm
    { k.mms t.mm with
      refCount :=
        if subW (k.mms t.mm).refCount 1 = 0 then 2 ^ 64 - 1 else subW (k.mms t.mm).refCount 1 }
  files : k'.files = k.files
  fds : k'.fds = k.fds
  next : k'.next = k.next
  freed : k'.freed = t.fileInfo :: (k.files t.fileInfo).fds ::
    freeFds (k.fds (k.files t.fileInfo).fds) k.freed (k.files t.fileInfo).maxFdCount.toNat
  cpuCount : k'.cpuCount = k.cpuCount

theorem dropMm_eq (off : Nat) (machine : Machine) (mm : MmContext) :
    dropMm off machine mm =
      if subW mm.refCount 1 = 0 then
        freePageTable off machine { mm with refCount := subW mm.refCount 1 }
      else ({ mm with refCount := subW mm.refCount 1 }, machine) := by
  delta dropMm
  with_reducible rfl

/-- With a count of zero `free_page_table` counts down, and does nothing else. -/
theorem freePageTable_zero (off : Nat) (machine : Machine) (phys : Nat) :
    freePageTable off machine ⟨phys, 0⟩ = (⟨phys, 2 ^ 64 - 1⟩, machine) := by
  have hwrap : subW 0 1 = 2 ^ 64 - 1 := by decide
  delta freePageTable
  rw [← hwrap]
  exact if_neg Nat.zero_ne_one

/-- The count after an exit. -/
theorem dropMm_count (off : Nat) (machine : Machine) (mm : MmContext) :
    (dropMm off machine mm).1 =
      { mm with
        refCount := if subW mm.refCount 1 = 0 then 2 ^ 64 - 1 else subW mm.refCount 1 } := by
  rw [dropMm_eq]
  by_cases hzero : subW mm.refCount 1 = 0
  · rw [if_pos hzero, if_pos hzero, hzero, freePageTable_zero]
  · rw [if_neg hzero, if_neg hzero]

theorem kExitImpl_spec {off exitCode : Nat} {k k' : Kernel} (hcur : k.threads cur = some t)
    (h : kExitImpl off k cur exitCode = some k') : Exited k cur t k' := by
  rw [kExitImpl, hcur, Option.map_some] at h
  obtain rfl := Option.some.inj h
  refine ⟨⟨{ t with status := exitCode, state := .kRunTerminated }, ?_, rfl, rfl, rfl⟩, ?_, ?_, ?_,
    ?_, ?_, ?_⟩
  case refine_2 =>
    let frames := freeFrames k.machine.frames
      (virtToPhys off (addW t.archContext.context ptRegsSize)) (kThreadStackSize / pageSize)
    rw [← dropMm_count off { k.machine with frames := frames }]
    delta exitThread
    with_reducible rfl
  all_goals
    delta exitThread
    with_reducible rfl

/-- An exit always goes through. -/
theorem kExitImpl_total {k : Kernel} (off exitCode : Nat) (hcur : k.threads cur = some t) :
    ∃ k', kExitImpl off k cur exitCode = some k' := by
  rw [kExitImpl, hcur, Option.map_some]
  exact ⟨_, Eq.refl _⟩

theorem releases_false (mm : MmContext) : releases mm = false := by
  unfold releases
  simp only [Bool.and_eq_false_iff, beq_eq_false_iff_ne]
  omega

/-! ## Address spaces -/

variable {s s' : ProcState}

/-- What is owed to an `mm_context_t`. -/
structure MmOk (s : ProcState) (x : Nat) : Prop where
  /-- It counts the threads that share it. -/
  count : (s.kernel.mms x).refCount = sharers (·.mm) s.kernel.threads x
  /-- Its tables are released once the last is gone, once, -/
  once : s.released.count x = if sharers (·.mm) s.kernel.threads x = 0 then 1 else 0
  /-- and not while another thread uses them through another context. -/
  alone : x ∈ s.released → ∀ p t, s.kernel.threads p = some t → t.state ≠ .kRunTerminated →
    (s.kernel.mms t.mm).pageTablePhys ≠ (s.kernel.mms x).pageTablePhys

/-- What holds in every run. -/
structure MmInv (s : ProcState) : Prop where
  released : s.released = []
  below : ∀ x ∈ s.contexts, x < s.kernel.next
  known : ∀ p t, s.kernel.threads p = some t → t.mm ∈ s.contexts
  /-- A context in use counts right, -/
  used : ∀ x ∈ s.contexts, 0 < sharers (·.mm) s.kernel.threads x →
    (s.kernel.mms x).refCount = sharers (·.mm) s.kernel.threads x
  /-- and one that is not in use does not count zero. -/
  unused : ∀ x ∈ s.contexts, sharers (·.mm) s.kernel.threads x = 0 →
    (s.kernel.mms x).refCount ≠ 0

theorem mmInv_start (h : ProcStart s) : MmInv s := by
  refine ⟨h.released, ?_, fun p t hp => ?_, ?_, ?_⟩
  · simp [h.contexts]
  · rw [h.threads p] at hp
    exact absurd hp (by simp)
  · simp [h.contexts]
  · simp [h.contexts]

/-- Nobody shares an object that does not exist yet. -/
theorem MmInv.fresh (hi : MmInv s) (h : s.kernel.next ≤ x) :
    sharers (·.mm) s.kernel.threads x = 0 :=
  sharers_eq_zero fun p t hp _ hx => by
    have := hi.below _ (hi.known p t hp)
    omega

/-- **One more thread shares `y`**, and contexts that are new count one. -/
theorem mmInv_gain {y : Nat} (hi : MmInv s) (hreleased : s'.released = s.released)
    (hbelow : ∀ x ∈ s'.contexts, x < s'.kernel.next)
    (hknown : ∀ p t, s'.kernel.threads p = some t → t.mm ∈ s'.contexts)
    (hsharers : ∀ x, sharers (·.mm) s'.kernel.threads x =
      sharers (·.mm) s.kernel.threads x + if x = y then 1 else 0)
    (hused : y ∈ s.contexts → 0 < sharers (·.mm) s.kernel.threads y)
    (hcount : ∀ x ∈ s'.contexts,
      (x ∈ s.contexts ∧ (s'.kernel.mms x).refCount =
        (s.kernel.mms x).refCount + if x = y then 1 else 0) ∨
      (s.kernel.next ≤ x ∧ (s'.kernel.mms x).refCount = 1)) : MmInv s' := by
  refine ⟨hreleased.trans hi.released, hbelow, hknown, fun x hx hpos => ?_, fun x hx hzero => ?_⟩
  · rw [hsharers] at hpos ⊢
    rcases hcount x hx with ⟨hold, hc⟩ | ⟨hnew, hc⟩
    · rw [hc]
      by_cases hxy : x = y
      · rw [hi.used x hold (hxy ▸ hused (hxy ▸ hold))]
      · rw [if_neg hxy] at hpos ⊢
        rw [hi.used x hold hpos]
    · rw [hi.fresh hnew] at hpos ⊢
      rw [hc]
      split at hpos
      · simp [*]
      · exact absurd hpos (by omega)
  · rw [hsharers] at hzero
    rcases hcount x hx with ⟨hold, hc⟩ | ⟨-, hc⟩
    · rw [hc]
      have := hi.unused x hold (by omega)
      omega
    · rw [hc]
      exact Nat.one_ne_zero

/-- A new thread in an empty slot counts for what it shares. -/
theorem sharers_insert (f : Thread → Nat) {threads : ThreadPtr → Option Thread} {p : ThreadPtr}
    {t : Thread} (hp : threads p = none) (hlive : t.state ≠ .kRunTerminated) (x : Nat) :
    sharers f (Function.update threads p (some t)) x =
      sharers f threads x + if x = f t then 1 else 0 := by
  have h := sharers_update f threads p (some t) x
  rw [hp] at h
  have hnew : (Sharer f x (some t)).toNat = if x = f t then 1 else 0 := by
    by_cases hx : x = f t
    · simp [Sharer, hlive, hx]
    · simp [Sharer, hlive, hx, Ne.symm hx]
  rw [hnew] at h
  simpa [Sharer] using h

/-- A thread that keeps what it shares does not change the count. -/
theorem sharers_keep (f : Thread → Nat) {threads : ThreadPtr → Option Thread} {p : ThreadPtr}
    {t t' : Thread} (hp : threads p = some t) (hstate : t'.state = t.state) (hf : f t' = f t)
    (x : Nat) : sharers f (Function.update threads p (some t')) x = sharers f threads x := by
  have h := sharers_update f threads p (some t') x
  have hsame : Sharer f x (some t') = Sharer f x (threads p) := by
    rw [hp]
    simp only [Sharer, hstate, hf]
  rw [hsame] at h
  omega

theorem mmInv_create {cr3 tflags : Nat} {k' : Kernel} (hi : MmInv s)
    (hc : Created s.kernel cr3 tflags p k') {tables : List Nat} :
    MmInv { s with kernel := k', contexts := s.kernel.next :: s.contexts, tables := tables } := by
  obtain ⟨t, hthreads, -, hmm, -, -, hstate⟩ := hc.threads
  have hlive : t.state ≠ .kRunTerminated := by rw [hstate]; decide
  refine mmInv_gain (y := s.kernel.next) hi rfl ?_ ?_ ?_ ?_ ?_
  · intro x hx
    dsimp only at hx ⊢
    rw [hc.next]
    rcases List.mem_cons.mp hx with rfl | hx
    · omega
    · have := hi.below x hx
      omega
  · intro q u hq
    dsimp only at hq
    rw [hthreads] at hq
    by_cases hqp : q = p
    · rw [hqp, Function.update_self] at hq
      obtain rfl := Option.some.inj hq
      rw [hmm]
      exact List.mem_cons_self
    · rw [Function.update_of_ne hqp] at hq
      exact List.mem_cons_of_mem _ (hi.known q u hq)
  · intro x
    dsimp only
    rw [hthreads, sharers_insert _ hc.empty hlive, hmm]
  · intro hmem
    exact absurd (hi.below _ hmem) (Nat.lt_irrefl _)
  · intro x hx
    dsimp only at hx ⊢
    rw [hc.mms]
    rcases List.mem_cons.mp hx with rfl | hx
    · exact .inr ⟨Nat.le_refl _, by rw [Function.update_self]⟩
    · have hne : x ≠ s.kernel.next := Nat.ne_of_lt (hi.below x hx)
      exact .inl ⟨hx, by rw [Function.update_of_ne hne, if_neg hne, Nat.add_zero]⟩

/-- **What a clone does to the threads**: one more, and the caller keeps what it shares. -/
theorem Cloned.threads_eq {k k' : Kernel} {garbage : FileInfo} {cr3 flags : Nat}
    (hcur : k.threads cur = some t) (hc : Cloned k garbage cur t cr3 flags p k') :
    k.threads p = none ∧ ∃ current child,
      k'.threads = Function.update (Function.update k.threads cur (some current)) p (some child) ∧
      (current.mm = t.mm ∧ current.fileInfo = t.fileInfo ∧ current.state = t.state) ∧
      child.state = .kRunNone ∧
      (child.mm = if flags &&& cloneVm = 0 then k.next + 3 else t.mm) ∧
      (flags &&& cloneFiles ≠ 0 → child.fileInfo = t.fileInfo) ∧
      (flags &&& cloneFiles = 0 → k.next + 3 ≤ child.fileInfo ∧ child.fileInfo < k'.next) ∧
      k'.next ≥ k.next + 3 + if flags &&& cloneVm = 0 then 1 else 0 := by
  obtain ⟨kc, km, kf, mm, fileInfo, hcreate, hmm, hfile, -, -, -, -, hnext, -, current, child,
    hthreads, hcurrent, hcmm, hcfile, hstate⟩ := hc.spec
  obtain ⟨new, hnew, -⟩ := hcreate.threads
  have hne : cur ≠ p := by
    rintro rfl
    rw [hcreate.empty] at hcur
    exact absurd hcur (by simp)
  have hkf : kf.threads = Function.update k.threads p (some new) := by
    rw [hfile.threads, hmm.threads, hnew]
  have hfnext := hfile.next
  refine ⟨hcreate.empty, current, child, ?_, hcurrent, hstate, ?_, fun h => ?_, fun h => ?_, ?_⟩
  · rw [hthreads, hkf, Function.update_comm hne.symm, Function.update_idem]
  · rw [hcmm]
    by_cases h : flags &&& cloneVm = 0
    · rw [if_pos h, (hmm.own h).1, hcreate.next]
    · rw [if_neg h, (hmm.shared h).1]
  · rw [hcfile]
    exact (hfile.shared h).1
  · obtain ⟨h1, h2, -⟩ := hfile.own h
    rw [hcfile, h1, hnext]
    have : kc.next ≤ km.next := by
      by_cases hv : flags &&& cloneVm = 0
      · have := (hmm.own hv).2.1
        omega
      · exact Nat.le_of_eq (hmm.shared hv).2.1.symm
    have := hcreate.next
    omega
  · by_cases h : flags &&& cloneVm = 0
    · rw [if_pos h]
      have := (hmm.own h).2.1
      have := hcreate.next
      omega
    · rw [if_neg h]
      have := (hmm.shared h).2.1
      have := hcreate.next
      omega

theorem Cloned.sharers {k k' : Kernel} {garbage : FileInfo} {cr3 flags : Nat} {child : Thread}
    (hcur : k.threads cur = some t) (hc : Cloned k garbage cur t cr3 flags p k')
    (hchild : k'.threads p = some child) (f : Thread → Nat)
    (hf : ∀ u : Thread, u.mm = t.mm → u.fileInfo = t.fileInfo → f u = f t) (x : Nat) :
    sharers f k'.threads x = sharers f k.threads x + if x = f child then 1 else 0 := by
  obtain ⟨hempty, current, child', hthreads, ⟨hm, hi, hs⟩, hstate, -⟩ := hc.threads_eq hcur
  rw [hthreads, Function.update_self] at hchild
  obtain rfl := Option.some.inj hchild
  have hlive : child'.state ≠ .kRunTerminated := by rw [hstate]; decide
  have hne : p ≠ cur := by
    rintro rfl
    rw [hempty] at hcur
    exact absurd hcur (by simp)
  have hempty' : Function.update k.threads cur (some current) p = none := by
    rw [Function.update_of_ne hne, hempty]
  rw [hthreads, sharers_insert f hempty' hlive, sharers_keep f hcur hs (hf current hm hi)]

theorem mmInv_clone {cr3 flags : Nat} {garbage : FileInfo} {k' : Kernel} {child : Thread}
    {cloned : List Nat} (hi : MmInv s) (hcur : s.kernel.threads cur = some t)
    (hlive : t.state ≠ .kRunTerminated) (hc : Cloned s.kernel garbage cur t cr3 flags p k')
    (hchild : k'.threads p = some child) :
    MmInv { s with
            kernel := k', contexts := child.mm :: s.kernel.next :: s.contexts, cloned := cloned } := by
  have hsharers := hc.sharers hcur hchild (·.mm) (fun _ h _ => h)
  obtain ⟨hempty, current, child', hthreads, ⟨hm, -⟩, -, hcmm, -, -, hnext⟩ := hc.threads_eq hcur
  have hchild' : child' = child := by
    rw [hthreads, Function.update_self] at hchild
    exact Option.some.inj hchild
  rw [hchild'] at hcmm
  obtain ⟨kc, km, kf, mm, fileInfo, hcreate, hmm, hfile, hmms, -⟩ := hc.spec
  have hcount := sharers_le (·.mm) s.kernel.threads t.mm
  have htmm := hi.known cur t hcur
  have hbelow := hi.below _ htmm
  have hpos : 0 < IonOS.Proc.sharers (·.mm) s.kernel.threads t.mm := sharers_pos hcur hlive rfl
  have href := hi.used _ htmm hpos
  refine mmInv_gain (y := child.mm) hi rfl ?_ ?_ hsharers ?_ ?_
  · intro x hx
    dsimp only at hx ⊢
    rcases List.mem_cons.mp hx with rfl | hx
    · rw [hcmm]
      split
      · rw [if_pos ‹_›] at hnext
        omega
      · omega
    · rcases List.mem_cons.mp hx with rfl | hx
      · omega
      · have := hi.below x hx
        omega
  · intro q u hq
    dsimp only at hq
    by_cases hqp : q = p
    · rw [hqp, hchild] at hq
      obtain rfl := Option.some.inj hq
      exact List.mem_cons_self
    · rw [hthreads, Function.update_of_ne hqp] at hq
      refine List.mem_cons_of_mem _ (List.mem_cons_of_mem _ ?_)
      by_cases hqc : q = cur
      · rw [hqc, Function.update_self] at hq
        obtain rfl := Option.some.inj hq
        rw [hm]
        exact htmm
      · rw [Function.update_of_ne hqc] at hq
        exact hi.known q u hq
  · intro hmem
    rw [hcmm] at hmem ⊢
    split at hmem
    · have := hi.below _ hmem
      omega
    · rw [if_neg ‹_›]
      exact hpos
  · intro x hx
    dsimp only at hx ⊢
    rw [hmms, hfile.mms]
    by_cases hvm : flags &&& cloneVm = 0
    · obtain ⟨-, -, phys, he⟩ := hmm.own hvm
      rw [if_pos hvm] at hcmm
      rw [he, hcreate.mms, hcreate.next]
      rcases List.mem_cons.mp hx with rfl | hx
      · refine .inr ⟨by omega, ?_⟩
        rw [hcmm, Function.update_self]
      · have hne : x ≠ s.kernel.next + 3 := by
          rcases List.mem_cons.mp hx with rfl | hx
          · omega
          · have := hi.below x hx
            omega
        rw [Function.update_of_ne hne, if_neg (hcmm ▸ hne)]
        rcases List.mem_cons.mp hx with rfl | hx
        · exact .inr ⟨Nat.le_refl _, by rw [Function.update_self]⟩
        · have hne' : x ≠ s.kernel.next := Nat.ne_of_lt (hi.below x hx)
          exact .inl ⟨hx, by rw [Function.update_of_ne hne', Nat.add_zero]⟩
    · obtain ⟨-, -, he⟩ := hmm.shared hvm
      rw [if_neg hvm] at hcmm
      rw [he, hcreate.mms]
      have hne : t.mm ≠ s.kernel.next := Nat.ne_of_lt hbelow
      rw [Function.update_of_ne hne]
      have hone : addW (s.kernel.mms t.mm).refCount 1 = (s.kernel.mms t.mm).refCount + 1 := by
        rw [href]
        refine addW_of_lt ?_
        unfold maxCpuNum kMaxThreadCount at hcount
        omega
      by_cases hxm : x = t.mm
      · rw [hxm, Function.update_self, hone, if_pos hcmm.symm]
        exact .inl ⟨htmm, rfl⟩
      · rw [Function.update_of_ne hxm, if_neg (hcmm ▸ hxm)]
        have hx' : x = s.kernel.next ∨ x ∈ s.contexts := by
          rcases List.mem_cons.mp hx with rfl | hx
          · exact absurd hcmm hxm
          · exact List.mem_cons.mp hx
        rcases hx' with rfl | hx'
        · exact .inr ⟨Nat.le_refl _, by rw [Function.update_self]⟩
        · have hne' : x ≠ s.kernel.next := Nat.ne_of_lt (hi.below x hx')
          exact .inl ⟨hx', by rw [Function.update_of_ne hne', Nat.add_zero]⟩

/-- A thread that ends no longer counts. -/
theorem sharers_exit (f : Thread → Nat) {threads : ThreadPtr → Option Thread} {p : ThreadPtr}
    {t t' : Thread} (hp : threads p = some t) (hlive : t.state ≠ .kRunTerminated)
    (hdead : t'.state = .kRunTerminated) (x : Nat) :
    sharers f (Function.update threads p (some t')) x + (if x = f t then 1 else 0) =
      sharers f threads x := by
  have h := sharers_update f threads p (some t') x
  have hold : (Sharer f x (threads p)).toNat = if x = f t then 1 else 0 := by
    rw [hp]
    by_cases hx : x = f t
    · simp [Sharer, hlive, hx]
    · simp [Sharer, hlive, hx, Ne.symm hx]
  have hnew : (Sharer f x (some t')).toNat = 0 := by simp [Sharer, hdead]
  rw [hold, hnew] at h
  exact h

theorem mmInv_exit {k' : Kernel} (hi : MmInv s) (hcur : s.kernel.threads cur = some t)
    (hlive : t.state ≠ .kRunTerminated) (he : Exited s.kernel cur t k') :
    MmInv { s with
            kernel := k'
            released := if releases (s.kernel.mms t.mm) then t.mm :: s.released else s.released } := by
  obtain ⟨t', hthreads, hdead, hm, -⟩ := he.threads
  have hsharers : ∀ x, sharers (·.mm) k'.threads x + (if x = t.mm then 1 else 0) =
      sharers (·.mm) s.kernel.threads x := by
    intro x
    rw [hthreads]
    exact sharers_exit (·.mm) hcur hlive hdead x
  have htmm := hi.known cur t hcur
  have href := hi.used _ htmm (sharers_pos hcur hlive rfl)
  have hcount := sharers_le (·.mm) s.kernel.threads t.mm
  have hone := hsharers t.mm
  rw [if_pos rfl] at hone
  unfold maxCpuNum kMaxThreadCount at hcount
  have hsub : subW (s.kernel.mms t.mm).refCount 1 = sharers (·.mm) k'.threads t.mm := by
    rw [href, subW_of_le (by omega) (by omega)]
    omega
  refine ⟨?_, ?_, fun q u hq => ?_, fun x hx hpos => ?_, fun x hx hzero => ?_⟩
  · dsimp only
    rw [releases_false, if_neg Bool.false_ne_true]
    exact hi.released
  · dsimp only
    rw [he.next]
    exact hi.below
  · dsimp only at hq ⊢
    rw [hthreads] at hq
    by_cases hqc : q = cur
    · rw [hqc, Function.update_self] at hq
      obtain rfl := Option.some.inj hq
      rw [hm]
      exact htmm
    · rw [Function.update_of_ne hqc] at hq
      exact hi.known q u hq
  · dsimp only at hx hpos ⊢
    rw [he.mms]
    have hx' := hsharers x
    by_cases hxm : x = t.mm
    · rw [hxm] at hpos ⊢
      rw [Function.update_self]
      dsimp only
      rw [hsub, if_neg (by omega)]
    · rw [if_neg hxm] at hx'
      rw [Function.update_of_ne hxm, hi.used x hx (by omega)]
      omega
  · dsimp only at hx hzero ⊢
    rw [he.mms]
    have hx' := hsharers x
    by_cases hxm : x = t.mm
    · rw [hxm] at hzero ⊢
      rw [Function.update_self]
      dsimp only
      -- the last one out: the count wraps
      rw [hsub, if_pos hzero]
      decide
    · rw [if_neg hxm] at hx'
      rw [Function.update_of_ne hxm]
      exact hi.unused x hx (by omega)

/-- Steps that leave contexts and what threads share alone. -/
theorem mmInv_keep {k' : Kernel} (hi : MmInv s) (hmms : k'.mms = s.kernel.mms)
    (hnext : s.kernel.next ≤ k'.next)
    (hthreads : ∀ p, (k'.threads p).map (fun t => (t.mm, t.state == .kRunTerminated)) =
      (s.kernel.threads p).map fun t => (t.mm, t.state == .kRunTerminated)) :
    MmInv { s with kernel := k' } := by
  have hsharers := sharers_same (·.mm) hthreads
  refine ⟨hi.released, fun x hx => ?_, fun p t hp => ?_, fun x hx => ?_, fun x hx => ?_⟩
  · exact Nat.lt_of_lt_of_le (hi.below x hx) hnext
  · have h := hthreads p
    dsimp only at hp
    rw [hp] at h
    obtain ⟨u, hu, he⟩ := Option.map_eq_some_iff.mp h.symm
    rw [← (Prod.mk.inj he).1]
    exact hi.known p u hu
  · dsimp only
    rw [hsharers, hmms]
    exact hi.used x hx
  · dsimp only
    rw [hsharers, hmms]
    exact hi.unused x hx

theorem addFdInfo_spec (k : Kernel) (t : Thread) (fd : Nat) :
    (addFdInfo k t fd).2.threads = k.threads ∧ (addFdInfo k t fd).2.mms = k.mms ∧
      (addFdInfo k t fd).2.files = k.files ∧ (addFdInfo k t fd).2.next = k.next ∧
      (addFdInfo k t fd).2.freed = k.freed := by
  rcases addFdInfo_cases k t fd with ⟨i, -, -, he⟩ | ⟨-, he⟩
  · rw [he]
    exact ⟨rfl, rfl, rfl, rfl, rfl⟩
  · rw [he]
    exact ⟨rfl, rfl, rfl, rfl, rfl⟩

theorem mmInv_step {ok : ProcState → ProcEvent → Prop} (hi : MmInv s) (hs : ProcStep ok s s') :
    MmInv s' := by
  cases hs with
  | create _ h => exact mmInv_create hi (create_spec h).2
  | clone _ hcur hlive h hchild =>
      exact mmInv_clone hi hcur hlive (kCloneImpl_spec hcur h) hchild
  | exit _ hcur hlive h => exact mmInv_exit hi hcur hlive (kExitImpl_spec hcur h)
  | openFd _ hcur hlive =>
      obtain ⟨h1, h2, -, h4, -⟩ := addFdInfo_spec _ _ _
      refine mmInv_keep hi h2 ?_ fun p => by rw [h1]
      rw [h4]
      exact Nat.le_succ _
  | other _ h =>
      refine mmInv_keep hi h.mms h.next fun p => ?_
      have := congrArg (Option.map fun x => (x.1, x.2.2)) (h.threads p)
      simpa only [Option.map_map, Function.comp_def] using this

theorem mmInv_reachable {ok : ProcState → ProcEvent → Prop}
    (h : Reachable ProcStart (ProcStep ok) s) : MmInv s :=
  h.invariant (fun _ => mmInv_start) fun _ _ => mmInv_step

/--
**An address space is accounted for exactly while a live thread uses it.**

In every state of every run, whatever is cloned with what, and whoever exits when:
a context allocated so far has the right count, and its tables have been released
as often as they should, if and only if some live thread uses it.
-/
theorem mmOk_iff (h : Reachable ProcStart (ProcStep fun _ _ => True) s) (hx : x ∈ s.contexts) :
    MmOk s x ↔ ∃ p t, s.kernel.threads p = some t ∧ t.state ≠ .kRunTerminated ∧ t.mm = x := by
  have hi := mmInv_reachable h
  constructor
  · intro hok
    by_contra hnone
    have hzero : sharers (·.mm) s.kernel.threads x = 0 :=
      sharers_eq_zero fun p t hp hl hm => hnone ⟨p, t, hp, hl, hm⟩
    exact hi.unused x hx hzero (hok.count.trans hzero)
  · rintro ⟨p, t, hp, hl, hm⟩
    have hpos : 0 < sharers (·.mm) s.kernel.threads x := sharers_pos hp hl hm
    refine ⟨hi.used x hx hpos, ?_, fun hmem => ?_⟩
    · rw [hi.released, if_neg (by omega)]
      rfl
    · rw [hi.released] at hmem
      exact absurd hmem (by simp)

/-! ## One thread -/

/-- A run of a single creation. -/
theorem oneThread (ok : ProcState → ProcEvent → Prop) (hok : ∀ s, ok s .create) :
    ∃ s p t, Reachable ProcStart (ProcStep ok) s ∧ s.kernel.threads p = some t ∧
      t.state = .kRunNone ∧ t.mm = 0 ∧ t.fileInfo = 1 ∧ s.contexts = [0] ∧ s.tables = [1] ∧
      s.cloned = [] ∧ s.released = [] ∧ s.kernel.mms 0 = ⟨0x1000, 1⟩ ∧ s.kernel.freed = [] ∧
      s.kernel.files 1 = ⟨2, defaultFdNum, 1⟩ ∧ s.kernel.fds 2 = (fun _ => none) ∧
      (∀ q u, s.kernel.threads q = some u → q = p) ∧
      getFreeThread s.kernel = some (.slot ⟨1, by decide⟩, 1) := by
  have hfree : getFreeThread bootKernel = some (.idle ⟨0, by decide⟩, 0) :=
    getFreeThread_idle (by decide) rfl fun d hd => absurd hd (Nat.not_lt_zero _)
  obtain ⟨k, hk, hc⟩ := create_some 0xffff800000000000 emptyFx 0x1000 0x10 0 hfree
  obtain ⟨t, hthreads, -, hmm, hfile, -, hstate⟩ := hc.threads
  have hstart : ProcStart ⟨bootKernel, [], [], [], []⟩ :=
    ⟨fun _ => rfl, rfl, rfl, rfl, rfl, rfl⟩
  refine ⟨_, .idle ⟨0, by decide⟩, t, (Reachable.init hstart).tail (.create (hok _) hk), ?_,
    hstate, hmm, hfile, rfl, rfl, rfl, rfl, ?_, hc.freed, ?_, ?_, fun q u hq => ?_, ?_⟩
  · rw [hthreads, Function.update_self]
  · rw [hc.mms]
    rfl
  · rw [hc.files]
    rfl
  · rw [hc.fds]
    rfl
  · by_contra hne
    dsimp only at hq
    rw [hthreads, Function.update_of_ne hne] at hq
    exact absurd hq (by simp [bootKernel])
  · dsimp only
    refine getFreeThread_slot (fun c hlt => ?_) (Nat.le_refl 1) ?_ fun j h1 h2 => ?_
    · rw [hc.cpuCount] at hlt
      have hzero : c = ⟨0, by decide⟩ := Fin.ext (Nat.lt_one_iff.mp hlt)
      rw [hthreads, hzero, Function.update_self]
      rfl
    · rw [hthreads, Function.update_of_ne ThreadPtr.noConfusion]
      rfl
    · exact absurd h2 (Nat.not_lt.mpr h1)

/-- The thread `p` uses the first context and the first table. -/
def Uses (s : ProcState) (p : ThreadPtr) : Prop :=
  ∃ t, s.kernel.threads p = some t ∧ t.state = .kRunNone ∧ t.mm = 0 ∧ t.fileInfo = 1

/-- A run of a creation and a clone that shares everything. -/
theorem twoThreads (ok : ProcState → ProcEvent → Prop) (hcreate : ∀ s, ok s .create)
    (hclone : ∀ s cur, ok s (.clone cur (cloneVm ||| cloneFiles))) :
    ∃ s p q, Reachable ProcStart (ProcStep ok) s ∧ p ≠ q ∧ Uses s p ∧ Uses s q ∧
      0 ∈ s.contexts ∧ s.tables = [1] := by
  obtain ⟨s, p, t, hr, hp, hstate, hmm, hfile, hctx, htables, -, -, -, -, -, -, -, hfree⟩ :=
    oneThread ok hcreate
  have hlive : t.state ≠ .kRunTerminated := by rw [hstate]; decide
  have hvm : (cloneVm ||| cloneFiles) &&& cloneVm ≠ 0 := by decide
  have hfiles : (cloneVm ||| cloneFiles) &&& cloneFiles ≠ 0 := by decide
  obtain ⟨k, hk⟩ := kCloneImpl_total 0xffff800000000000 0x1000 0 (cloneVm ||| cloneFiles) 0 0 0 0
    emptyFx ⟨0, 0, 0⟩ hp hfree
  obtain ⟨hempty, current, child, hthreads, ⟨hcmm, hcfile, hcstate⟩, hstate', hmm', hfile', -⟩ :=
    (kCloneImpl_spec hp hk).threads_eq hp
  have hne : p ≠ .slot ⟨1, by decide⟩ := by
    intro heq
    rw [← heq, hp] at hempty
    exact Option.some_ne_none t hempty
  have hchild : k.threads (.slot ⟨1, by decide⟩) = some child := by
    rw [hthreads, Function.update_self]
  have hparent : k.threads p = some current := by
    rw [hthreads, Function.update_of_ne hne, Function.update_self]
  rw [if_neg hvm] at hmm'
  refine ⟨_, p, .slot ⟨1, by decide⟩, hr.tail (.clone (hclone _ _) hp hlive hk hchild), hne,
    ⟨current, hparent, hcstate.trans hstate, hcmm.trans hmm, hcfile.trans hfile⟩,
    ⟨child, hchild, hstate', hmm'.trans hmm, (hfile' hfiles).trans hfile⟩, ?_, htables⟩
  rw [hctx]
  exact List.mem_cons_of_mem _ (List.mem_cons_of_mem _ List.mem_cons_self)

/-- A context that two threads share. -/
theorem mmOk_shared : ∃ s, Reachable ProcStart (ProcStep fun _ _ => True) s ∧
    1 < sharers (·.mm) s.kernel.threads 0 ∧ MmOk s 0 := by
  obtain ⟨s, p, q, hr, hne, ⟨t, ht, htstate, htmm, -⟩, ⟨u, hu, hustate, humm, -⟩, hmem, -⟩ :=
    twoThreads (fun _ _ => True) (fun _ => trivial) fun _ _ => trivial
  have htlive : t.state ≠ .kRunTerminated := by rw [htstate]; decide
  have hulive : u.state ≠ .kRunTerminated := by rw [hustate]; decide
  exact ⟨s, hr, one_lt_sharers hne ht hu ⟨htlive, hulive⟩ ⟨htmm, humm⟩,
    (mmOk_iff hr hmem).mpr ⟨p, t, ht, htlive, htmm⟩⟩

/-- **The only thread exits**: its count wraps, and the tables stay. -/
theorem mm_wraps : ∃ s, Reachable ProcStart (ProcStep fun _ _ => True) s ∧ 0 ∈ s.contexts ∧
    (s.kernel.mms 0).refCount = 2 ^ 64 - 1 ∧ sharers (·.mm) s.kernel.threads 0 = 0 ∧
    s.released = [] ∧ ¬ MmOk s 0 := by
  obtain ⟨s, p, t, hr, hp, hstate, hmm, -, hctx, -, -, hreleased, hmms, -, -, -, honly, -⟩ :=
    oneThread (fun _ _ => True) fun _ => trivial
  have hlive : t.state ≠ .kRunTerminated := by rw [hstate]; decide
  obtain ⟨k', hk'⟩ := kExitImpl_total 0xffff800000000000 0 hp
  have he := kExitImpl_spec hp hk'
  obtain ⟨t', hthreads, hdead, -⟩ := he.threads
  have hzero : sharers (·.mm) k'.threads 0 = 0 := by
    refine sharers_eq_zero fun q u hq hl _ => ?_
    rw [hthreads] at hq
    by_cases hqp : q = p
    · rw [hqp, Function.update_self] at hq
      obtain rfl := Option.some.inj hq
      exact hl hdead
    · rw [Function.update_of_ne hqp] at hq
      exact hqp (honly q u hq)
  have href : (k'.mms 0).refCount = 2 ^ 64 - 1 := by
    have hsub : subW 1 1 = 0 := by decide
    rw [he.mms, hmm, Function.update_self, hmms]
    dsimp only
    rw [hsub, if_pos rfl]
  have hstep : ProcStep (fun _ _ => True) s
      { s with
        kernel := k'
        released := if releases (s.kernel.mms t.mm) then t.mm :: s.released else s.released } :=
    .exit trivial hp hlive hk'
  rw [releases_false, if_neg Bool.false_ne_true] at hstep
  refine ⟨_, hr.tail hstep, ?_, href, hzero, hreleased, fun hok => ?_⟩
  · simp [hctx]
  · have := hok.count
    dsimp only at this
    rw [href, hzero] at this
    exact absurd this (by decide)

end IonOS.Proc
