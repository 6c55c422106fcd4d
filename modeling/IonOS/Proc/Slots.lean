import IonOS.Proc.Lifetime

/-!
# What a thread gives back

`create` gives a thread a slot, 16 frames for its stack and 16 for its syscall
stack. `k_exit_impl` gives back 16 frames, those from where the saved registers
end, and nothing puts null into a slot. So slots run out after enough creations,
however many of the threads are gone, and `create` then writes through the null
pointer that `get_free_thread` returns.
-/

namespace IonOS.Proc

open IonOS.Lib IonOS.Libs IonOS.Mm IonOS.Arch

/-! ## Slots -/

/-- The number of slots in use. -/
def occupied (k : Kernel) : Nat := (Finset.univ.filter fun p => (k.threads p).isSome).card

def isLive : Option Thread → Bool
  | some t => t.state ≠ .kRunTerminated
  | none => false

/-- The number of threads that have not terminated. -/
def live (k : Kernel) : Nat := (Finset.univ.filter fun p => isLive (k.threads p)).card

/-- What is owed to `create`: slots are in use by threads that live, and it fails only when there
are `kMaxThreadCount - 1` of them. -/
structure SlotsOk (k : Kernel) : Prop where
  used : occupied k = live k
  full : ∀ off garbage cr3 entry tflags, create off garbage k cr3 entry tflags = none →
    kMaxThreadCount - 1 ≤ live k

/-- No thread exits. -/
def NoExit (_ : ProcState) : ProcEvent → Prop
  | .exit _ => False
  | _ => True

variable {s s' : ProcState} {k k' : Kernel} {cur p : ThreadPtr} {t : Thread}

/-- No slot is left that `get_free_thread` looks at. -/
def Full (k : Kernel) : Prop :=
  (∀ c : Fin maxCpuNum, c.val < k.cpuCount → (k.threads (.idle c)).isSome) ∧
    ∀ i : Fin kMaxThreadCount, 1 ≤ i.val → (k.threads (.slot i)).isSome

/-- **When `create` writes through a null pointer.** -/
theorem create_none_iff (off : Nat) (garbage : FxState) (k : Kernel) (cr3 entry tflags : Nat) :
    create off garbage k cr3 entry tflags = none ↔ Full k := by
  have hfree : create off garbage k cr3 entry tflags = none ↔ getFreeThread k = none := by
    cases hfree : getFreeThread k with
    | none => simp [create, hfree]
    | some x =>
        obtain ⟨k', hk', -⟩ := create_some off garbage cr3 entry tflags hfree
        simp [hk']
  rw [hfree]
  unfold getFreeThread Full
  constructor
  · intro h
    split at h
    · cases h
    · rename_i hidle
      have hslot := Option.map_eq_none_iff.mp h
      refine ⟨fun c hc => ?_, fun i hi => ?_⟩
      · have := List.find?_eq_none.mp hidle c (List.mem_finRange c)
        rw [Option.isSome_iff_ne_none]
        simpa [hc] using this
      · have := List.find?_eq_none.mp hslot i (List.mem_finRange i)
        rw [Option.isSome_iff_ne_none]
        simpa [hi] using this
  · intro h
    obtain ⟨hidle, hslot⟩ := h
    have hnoidle : ((List.finRange maxCpuNum).find? fun i =>
        i.val < k.cpuCount && (k.threads (.idle i)).isNone) = none := by
      refine List.find?_eq_none.mpr fun c _ => ?_
      by_cases hc : c.val < k.cpuCount
      · simp [Option.isNone_eq_false_iff.mpr (hidle c hc)]
      · simp [hc]
    rw [hnoidle]
    refine Option.map_eq_none_iff.mpr (List.find?_eq_none.mpr fun i _ => ?_)
    by_cases hi : 1 ≤ i.val
    · simp [Option.isNone_eq_false_iff.mpr (hslot i hi)]
    · simp [hi]

/-- All slots in use are a lot of them. -/
theorem full_le (h : Full k) : kMaxThreadCount - 1 ≤ occupied k := by
  let zero : Fin kMaxThreadCount := ⟨0, by decide⟩
  have hcard : ((Finset.univ.erase zero).image ThreadPtr.slot).card = kMaxThreadCount - 1 := by
    rw [Finset.card_image_of_injective _ fun _ _ => ThreadPtr.slot.inj,
      Finset.card_erase_of_mem (Finset.mem_univ _), Finset.card_univ, Fintype.card_fin]
  rw [← hcard]
  refine Finset.card_le_card fun p hp => ?_
  obtain ⟨i, hi, rfl⟩ := Finset.mem_image.mp hp
  have hne : i ≠ zero := Finset.ne_of_mem_erase hi
  have hpos : 1 ≤ i.val := Nat.one_le_iff_ne_zero.mpr fun h0 => hne (Fin.ext h0)
  exact Finset.mem_filter.mpr ⟨Finset.mem_univ _, h.2 i hpos⟩

/-- With nobody gone the slots are right. -/
theorem slotsOk_of_live (h : ∀ p t, k.threads p = some t → t.state ≠ .kRunTerminated) :
    SlotsOk k := by
  have hused : occupied k = live k := by
    refine congrArg Finset.card (Finset.filter_congr fun p _ => ?_)
    cases hp : k.threads p with
    | none => exact Iff.rfl
    | some t => simp [isLive, h p t hp]
  refine ⟨hused, fun off garbage cr3 entry tflags hnone => ?_⟩
  rw [← hused]
  exact full_le ((create_none_iff ..).mp hnone)

/-- A thread that is gone keeps its slot, and then they are not. -/
theorem not_slotsOk (hcur : k.threads cur = some t) (hdead : t.state = .kRunTerminated) :
    ¬ SlotsOk k := by
  intro hok
  refine Nat.ne_of_gt (Finset.card_lt_card ?_) hok.used
  refine (Finset.ssubset_iff_of_subset fun p hp => ?_).mpr ⟨cur, ?_, ?_⟩
  · have hlive := (Finset.mem_filter.mp hp).2
    refine Finset.mem_filter.mpr ⟨Finset.mem_univ p, ?_⟩
    cases hp : k.threads p with
    | none =>
        rw [hp] at hlive
        exact nomatch hlive
    | some _ => rfl
  · exact Finset.mem_filter.mpr ⟨Finset.mem_univ _, by rw [hcur]; rfl⟩
  · intro hmem
    have hlive := (Finset.mem_filter.mp hmem).2
    rw [hcur] at hlive
    simp [isLive, hdead] at hlive

/-! ## Runs -/

/-- Nobody is gone. -/
def AllLive (s : ProcState) : Prop :=
  ∀ p t, s.kernel.threads p = some t → t.state ≠ .kRunTerminated

/-- The thread at `cur` is gone. -/
def Gone (cur : ThreadPtr) (s : ProcState) : Prop :=
  ∃ t, s.kernel.threads cur = some t ∧ t.state = .kRunTerminated

/-- A step that changes no thread's life keeps both. -/
theorem map_state (h : ∀ p, (k'.threads p).map (fun t => t.state == .kRunTerminated) =
      (k.threads p).map fun t => t.state == .kRunTerminated) (hp : k'.threads p = some t) :
    ∃ u, k.threads p = some u ∧ (u.state = .kRunTerminated ↔ t.state = .kRunTerminated) := by
  have hmap := h p
  rw [hp] at hmap
  obtain ⟨u, hu, he⟩ := Option.map_eq_some_iff.mp hmap.symm
  refine ⟨u, hu, ?_⟩
  rw [← beq_iff_eq, ← beq_iff_eq (a := t.state), he]

theorem allLive_step (hi : AllLive s) (hs : ProcStep NoExit s s') : AllLive s' := by
  intro q u hq
  cases hs with
  | @create _ _ _ _ _ p _ _ h =>
      obtain ⟨t, hthreads, -, -, -, -, hstate⟩ := (create_spec h).2.threads
      dsimp only at hq
      rw [hthreads] at hq
      by_cases hqp : q = p
      · rw [hqp, Function.update_self] at hq
        rw [← Option.some.inj hq, hstate]
        decide
      · rw [Function.update_of_ne hqp] at hq
        exact hi q u hq
  | @clone _ _ _ _ _ _ _ _ _ _ caller p _ _ _ _ hcur hlive h hchild =>
      obtain ⟨-, current, child, hthreads, ⟨-, -, hcstate⟩, hstate, -⟩ :=
        (kCloneImpl_spec hcur h).threads_eq hcur
      dsimp only at hq
      rw [hthreads] at hq
      by_cases hqp : q = p
      · rw [hqp, Function.update_self] at hq
        rw [← Option.some.inj hq, hstate]
        decide
      · rw [Function.update_of_ne hqp] at hq
        by_cases hqc : q = caller
        · rw [hqc, Function.update_self] at hq
          rw [← Option.some.inj hq, hcstate]
          exact hlive
        · rw [Function.update_of_ne hqc] at hq
          exact hi q u hq
  | exit hok => exact hok.elim
  | openFd =>
      rw [(addFdInfo_spec _ _ _).1] at hq
      exact hi q u hq
  | other _ h =>
      have hmap := fun p => congrArg (Option.map fun x => x.2.2) (h.threads p)
      simp only [Option.map_map, Function.comp_def] at hmap
      obtain ⟨v, hv, hiff⟩ := map_state hmap hq
      exact fun hdead => hi q v hv (hiff.mpr hdead)

/-- **A thread that is gone stays in its slot**, whatever happens. -/
theorem gone_step {ok : ProcState → ProcEvent → Prop} (hi : Gone cur s) (hs : ProcStep ok s s') :
    Gone cur s' := by
  obtain ⟨t, ht, hdead⟩ := hi
  cases hs with
  | @create _ _ _ _ _ p _ _ h =>
      have hc := (create_spec h).2
      obtain ⟨new, hthreads, -⟩ := hc.threads
      have hne : cur ≠ p := fun he => by
        rw [he, hc.empty] at ht
        exact nomatch ht
      refine ⟨t, ?_, hdead⟩
      dsimp only
      rw [hthreads, Function.update_of_ne hne]
      exact ht
  | @clone _ _ _ _ _ _ _ _ _ _ caller p _ _ _ _ hcur hlive h hchild =>
      obtain ⟨hempty, current, child, hthreads, -⟩ := (kCloneImpl_spec hcur h).threads_eq hcur
      have hne : cur ≠ p := fun he => by
        rw [he, hempty] at ht
        exact nomatch ht
      have hnec : cur ≠ caller := fun he => by
        rw [he, hcur] at ht
        exact hlive (Option.some.inj ht ▸ hdead)
      refine ⟨t, ?_, hdead⟩
      dsimp only
      rw [hthreads, Function.update_of_ne hne, Function.update_of_ne hnec]
      exact ht
  | @exit _ _ caller _ _ _ hcur hlive h =>
      obtain ⟨gone, hthreads, -⟩ := (kExitImpl_spec hcur h).threads
      have hnec : cur ≠ caller := fun he => by
        rw [he, hcur] at ht
        exact hlive (Option.some.inj ht ▸ hdead)
      refine ⟨t, ?_, hdead⟩
      dsimp only
      rw [hthreads, Function.update_of_ne hnec]
      exact ht
  | openFd =>
      refine ⟨t, ?_, hdead⟩
      rw [(addFdInfo_spec _ _ _).1]
      exact ht
  | other _ h =>
      have hmap := fun p => congrArg (Option.map fun x => x.2.2) (h.threads p)
      simp only [Option.map_map, Function.comp_def] at hmap
      obtain ⟨v, hv, hiff⟩ := map_state (fun p => (hmap p).symm) ht
      exact ⟨v, hv, hiff.mpr hdead⟩

/-! ## Frames -/

/-- The frames of a stack. -/
def stackFrames : Nat := kThreadStackSize / pageSize

/-- A stack that starts at the physical address `stack`: frames of the allocator, all in use. -/
def Held (k : Kernel) (stack : Nat) : Prop :=
  stack / pageSize + stackFrames ≤ k.machine.frames.size ∧
    ∀ f, InRange (stack, stackFrames) f → k.machine.frames.get f = false

/-- All the frames of a stack are free. -/
def Returned (k : Kernel) (stack : Nat) : Prop :=
  ∀ f, InRange (stack, stackFrames) f → k.machine.frames.get f = true

/-- The physical address `k_exit_impl` frees from. -/
def exitStack (off : Nat) (t : Thread) : Nat :=
  virtToPhys off (addW t.archContext.context ptRegsSize)

/-- At a count of zero the machine stays as it is, so an exit frees no tables. -/
theorem dropMm_machine (off : Nat) (machine : Machine) (mm : MmContext) :
    (dropMm off machine mm).2 = machine := by
  rw [dropMm_eq]
  by_cases hzero : subW mm.refCount 1 = 0
  · rw [if_pos hzero, hzero, freePageTable_zero]
  · rw [if_neg hzero]

theorem exitThread_eq (off exitCode : Nat) (k : Kernel) (cur : ThreadPtr) (t : Thread) :
    exitThread off k cur t exitCode =
      { k with
        machine :=
          (dropMm off
            { k.machine with
              frames := freeFrames k.machine.frames
                (virtToPhys off (addW t.archContext.context ptRegsSize))
                (kThreadStackSize / pageSize) }
            (k.mms t.mm)).2
        mms := Function.update k.mms t.mm
          (dropMm off
            { k.machine with
              frames := freeFrames k.machine.frames
                (virtToPhys off (addW t.archContext.context ptRegsSize))
                (kThreadStackSize / pageSize) }
            (k.mms t.mm)).1
        freed := t.fileInfo :: (k.files t.fileInfo).fds ::
          freeFds (k.fds (k.files t.fileInfo).fds) k.freed (k.files t.fileInfo).maxFdCount.toNat
        threads := Function.update k.threads cur
          (some { t with status := exitCode, state := .kRunTerminated }) } := by
  delta exitThread
  with_reducible rfl

theorem exit_frames {off exitCode : Nat} (hcur : k.threads cur = some t)
    (h : kExitImpl off k cur exitCode = some k') :
    k'.machine.frames = freeFrames k.machine.frames (exitStack off t) stackFrames := by
  rw [kExitImpl, hcur, Option.map_some] at h
  obtain rfl := Option.some.inj h
  rw [exitThread_eq, dropMm_machine]
  rfl

/-- What an exit does to a frame. -/
theorem exit_get {off exitCode f : Nat} (hcur : k.threads cur = some t)
    (h : kExitImpl off k cur exitCode = some k') :
    k'.machine.frames.get f =
      if exitStack off t / pageSize < k.machine.frames.size ∧
        InRange (exitStack off t, stackFrames) f then true else k.machine.frames.get f := by
  have hlt : exitStack off t / pageSize < 2 ^ 52 := by
    have : exitStack off t < 2 ^ 64 := subW_lt _ _
    unfold pageSize
    omega
  have hn : stackFrames = 16 := by decide
  rw [exit_frames hcur h, freeFrames]
  by_cases hsize : exitStack off t / pageSize < k.machine.frames.size
  · rw [Bitmap.get_setRange hsize (by omega), addW_of_lt (by omega)]
    simp only [InRange, hsize, true_and]
  · rw [Bitmap.setRange_of_le (Nat.le_of_not_lt hsize), if_neg fun h => hsize h.1]

/-- **A stack is given back if and only if the registers are saved where creation put them.** -/
theorem exit_returned {off exitCode stack : Nat} (hcur : k.threads cur = some t)
    (h : kExitImpl off k cur exitCode = some k') (hheld : Held k stack) :
    Returned k' stack ↔ exitStack off t / pageSize = stack / pageSize := by
  have hn : stackFrames = 16 := by decide
  obtain ⟨hinside, hused⟩ := hheld
  constructor
  · intro hall
    -- the first and the last frame
    have hfreed : ∀ f, InRange (stack, stackFrames) f → InRange (exitStack off t, stackFrames) f := by
      intro f hf
      have hfree := hall f hf
      rw [exit_get hcur h] at hfree
      split at hfree
      · rename_i hin
        exact hin.2
      · rw [hused f hf] at hfree
        exact nomatch hfree
    have hfirst := hfreed (stack / pageSize) ⟨Nat.le_refl _, by dsimp only; omega⟩
    have hlast := hfreed (stack / pageSize + 15) ⟨Nat.le_add_right _ _, by dsimp only; omega⟩
    unfold InRange at hfirst hlast
    dsimp only at hfirst hlast
    omega
  · intro hsame f hf
    rw [exit_get hcur h, if_pos]
    unfold InRange at hf ⊢
    dsimp only at hf ⊢
    omega

/--
**Slots and frames are accounted for exactly as long as nobody exits.**

In every run without an exit the slots are in use by threads that live, and
`create` fails only when `kMaxThreadCount - 1` of them are there: by a write through
the null pointer. After an exit they are never right again. And the exit gives back
one of the thread's two stacks at most, its own if and only if its registers are
saved where its creation put them.
-/
theorem slots_iff (h : Reachable ProcStart (ProcStep NoExit) s) :
    SlotsOk s.kernel ∧
    (∀ off garbage cr3 entry tflags,
      create off garbage s.kernel cr3 entry tflags = none ↔ Full s.kernel) ∧
    ∀ off exitCode cur t k', s.kernel.threads cur = some t →
      kExitImpl off s.kernel cur exitCode = some k' →
      (∀ s₁ s₂, s₁.kernel = k' → Reachable (· = s₁) (ProcStep fun _ _ => True) s₂ →
        ¬ SlotsOk s₂.kernel) ∧
      (∀ stack, Held s.kernel stack →
        (Returned k' stack ↔ exitStack off t / pageSize = stack / pageSize)) ∧
      ∀ stack syscallStack, Held s.kernel stack → Held s.kernel syscallStack →
        Apart (stack, stackFrames) (syscallStack, stackFrames) →
        ¬ (Returned k' stack ∧ Returned k' syscallStack) := by
  have hlive : AllLive s := h.invariant
    (fun s hs p t hp => by rw [hs.threads p] at hp; exact nomatch hp) fun _ _ => allLive_step
  refine ⟨slotsOk_of_live hlive, fun off garbage cr3 entry tflags => create_none_iff .., ?_⟩
  intro off exitCode cur t k' hcur hexit
  refine ⟨fun s₁ s₂ hs₁ hr => ?_, fun stack hheld => exit_returned hcur hexit hheld, ?_⟩
  · obtain ⟨gone, hthreads, hdead, -⟩ := (kExitImpl_spec hcur hexit).threads
    have hgone : Gone cur s₂ := by
      refine hr.invariant (fun s hs => ⟨gone, ?_, hdead⟩) fun _ _ => gone_step
      rw [hs, hs₁, hthreads, Function.update_self]
    obtain ⟨u, hu, hdead⟩ := hgone
    exact not_slotsOk hu hdead
  · intro stack syscallStack hstack hsyscall hapart ⟨h1, h2⟩
    have hn : stackFrames = 16 := by decide
    have h1 := (exit_returned hcur hexit hstack).mp h1
    have h2 := (exit_returned hcur hexit hsyscall).mp h2
    unfold Apart at hapart
    dsimp only at hapart
    omega

/-- The slots of a thread and a clone that shares everything with it. -/
theorem slots_shared : ∃ s p q, Reachable ProcStart (ProcStep NoExit) s ∧ p ≠ q ∧ Uses s p ∧
    Uses s q ∧ SlotsOk s.kernel := by
  obtain ⟨s, p, q, hr, hne, hp, hq, -⟩ := twoThreads NoExit (fun _ => trivial) fun _ _ => trivial
  exact ⟨s, p, q, hr, hne, hp, hq, (slots_iff hr).1⟩

/-- **The only thread exits**, and its slot stays in use. -/
theorem slot_kept : ∃ s, Reachable ProcStart (ProcStep fun _ _ => True) s ∧
    live s.kernel = 0 ∧ 0 < occupied s.kernel ∧ ¬ SlotsOk s.kernel := by
  obtain ⟨s, p, t, hr, hp, hstate, -, -, -, -, -, -, -, -, -, -, honly, -⟩ :=
    oneThread (fun _ _ => True) fun _ => trivial
  have hlive : t.state ≠ .kRunTerminated := by rw [hstate]; decide
  obtain ⟨k', hk'⟩ := kExitImpl_total 0xffff800000000000 0 hp
  obtain ⟨gone, hthreads, hdead, -⟩ := (kExitImpl_spec hp hk').threads
  have hgone : k'.threads p = some gone := by rw [hthreads, Function.update_self]
  refine ⟨_, hr.tail (.exit trivial hp hlive hk'), ?_, ?_, not_slotsOk hgone hdead⟩
  · refine Finset.card_eq_zero.mpr (Finset.filter_eq_empty_iff.mpr fun q _ hq => ?_)
    dsimp only at hq
    by_cases hqp : q = p
    · rw [hqp, hgone] at hq
      simp [isLive, hdead] at hq
    · rw [hthreads, Function.update_of_ne hqp] at hq
      cases hu : s.kernel.threads q with
      | none =>
          rw [hu] at hq
          exact nomatch hq
      | some u => exact hqp (honly q u hu)
  · refine Finset.card_pos.mpr ⟨p, Finset.mem_filter.mpr ⟨Finset.mem_univ _, ?_⟩⟩
    dsimp only
    rw [hgone]
    rfl

end IonOS.Proc
