import IonOS.Lib.Runs
import IonOS.Proc.Thread

/-!
# Scheduling

`do_lapic_timer`, `switch_to` and `thread_switch_to`. A switch loads the context of
the thread it goes to but never tells the CPU that this is the current thread now:
`get_current_thread` keeps its first answer, the idle thread. The first switch
leaves a CPU with the wrong thread in that place, and the second stores the frame
of the thread it interrupts in the idle thread's context.
-/

namespace IonOS.Proc

open IonOS.Lib IonOS.Arch

/-! ## Switching -/

/-- The registers of a CPU that a switch reads or writes. -/
structure Cpu where
  /-- `IA32_KERNEL_GS_BASE`, where `get_current_thread` looks. -/
  current : ThreadPtr
  cr3 : Nat
  fpu : FxState
  fs : Nat
  gs : Nat
  fsbase : Nat
  gsbase : Nat
  /-- `rsp0` of the CPU's task state segment. -/
  rsp0 : Nat
  /-- The frame that the CPU returns to. -/
  rsp : Nat

/-- The kernel and its CPUs. The last two fields are not in the source: they record what the switches
have done. -/
structure System where
  kernel : Kernel
  cpus : Fin maxCpuNum → Cpu
  /-- The thread whose context `thread_switch_to` loaded last. -/
  loaded : Fin maxCpuNum → Option ThreadPtr
  /-- Where a thread was interrupted when a switch last took it off its CPU. -/
  switchedOut : ThreadPtr → Option Nat

/-- `thread_switch_to`: the contexts of `prev` and the CPU afterwards. -/
def threadSwitchTo (cpu : Cpu) (intrFrame : Option Nat) (prev : Option ArchContext)
    (next : ArchContext) : Option ArchContext × Cpu :=
  let (prev, cpu) :=
    match intrFrame, prev with
    | some intrFrame, some prev =>
        (some { prev with context := intrFrame, fpu := cpu.fpu, fsbase := cpu.fsbase,
                          gsbase := cpu.gsbase },
          { cpu with fpu := next.fpu })
    | _, _ => (prev, cpu)
  (prev, { cpu with
    rsp0 := addW next.context ptRegsSize
    fs := next.fs, gs := next.gs, fsbase := next.fsbase, gsbase := next.gsbase
    rsp := next.context })

namespace System

/-- The thread whose code a CPU executes. -/
def running (s : System) (c : Fin maxCpuNum) : ThreadPtr := (s.loaded c).getD (s.cpus c).current

end System

/-- `switch_to`; a thread that does not exist would be a null pointer. -/
def switchTo (s : System) (c : Fin maxCpuNum) (regs : Nat) (fromPtr toPtr : ThreadPtr) :
    Option System := do
  let toThread ← s.kernel.threads toPtr
  let cpu := { s.cpus c with cr3 := (s.kernel.mms toThread.mm).pageTablePhys }
  let fromThread ← s.kernel.threads fromPtr
  let k := s.kernel.setThread fromPtr { fromThread with state := .kRunNone }
  let toThread ← k.threads toPtr
  let k := k.setThread toPtr { toThread with state := .kRunActive }
  let fromThread ← k.threads fromPtr
  let toThread ← k.threads toPtr
  let (prev, cpu) := threadSwitchTo cpu (some regs) (some fromThread.archContext) toThread.archContext
  pure
    { kernel := k.setThread fromPtr { fromThread with archContext := prev.getD fromThread.archContext }
      cpus := Function.update s.cpus c cpu
      loaded := Function.update s.loaded c (some toPtr)
      switchedOut := Function.update s.switchedOut (s.running c) (some regs) }

def doLapicTimer (s : System) (c : Fin maxCpuNum) (regs : Nat) : Option System :=
  let next := search s.kernel .kRunNone c
  if some (s.cpus c).current ≠ next then
    match next with
    | some next => switchTo s c regs (s.cpus c).current next
    | none => none
  else some s

/-! ## Runs -/

/-- Timer interrupts on any of the CPUs, each as far as `ok` lets it, and what their threads do with
the registers in between. -/
inductive TimerStep (ok : System → Fin maxCpuNum → Prop) : System → System → Prop where
  | tick {s t : System} {c : Fin maxCpuNum} {regs : Nat} (hc : c.val < s.kernel.cpuCount)
      (hok : ok s c) (h : doLapicTimer s c regs = some t) : TimerStep ok s t
  | run {s : System} {c : Fin maxCpuNum} (fpu : FxState) (fsbase gsbase : Nat) :
      TimerStep ok s
        { s with cpus := Function.update s.cpus c
                  { s.cpus c with fpu := fpu, fsbase := fsbase, gsbase := gsbase } }

/-- What `thread::init` and the other CPUs' start leave: any threads, none of which has run. -/
structure Started (s : System) : Prop where
  idle : ∀ c : Fin maxCpuNum, c.val < s.kernel.cpuCount → (s.kernel.threads (.idle c)).isSome
  idleCpu : ∀ c t, s.kernel.threads (.idle c) = some t → t.cpuId = c
  fresh : ∀ p t, s.kernel.threads p = some t → t.state = .kRunNone
  current : ∀ c : Fin maxCpuNum, c.val < s.kernel.cpuCount → (s.cpus c).current = .idle c
  loaded : ∀ c, s.loaded c = none
  switchedOut : ∀ p, s.switchedOut p = none

/-- What scheduling owes a CPU. -/
structure Scheduled (s : System) (c : Fin maxCpuNum) : Prop where
  /-- The current thread is the one switched to last. -/
  current : ∀ p, s.loaded c = some p → (s.cpus c).current = p
  /-- No other thread of the CPU counts as active. -/
  active : ∀ p t, s.kernel.threads p = some t → t.cpuId = c → t.state = .kRunActive →
    p = (s.cpus c).current
  /-- A thread that was switched out can be chosen again, and resumes where it was. -/
  resumable : ∀ p t regs, s.kernel.threads p = some t → t.cpuId = c →
    s.switchedOut p = some regs → s.running c ≠ p →
      t.state = .kRunNone ∧ t.archContext.context = regs

/-- The timer finds no thread to switch to. -/
def NoSwitch (s : System) (c : Fin maxCpuNum) : Prop :=
  search s.kernel .kRunNone c = some (s.cpus c).current

variable {s t : System} {c d : Fin maxCpuNum} {k : Kernel} {regs : Nat} {p : ThreadPtr}

/-! ## One interrupt -/

theorem searchFrom_spec {state : RunState} {cpuId : Nat} {i : Fin kMaxThreadCount} {u : Thread}
    {is : List (Fin kMaxThreadCount)} {task : Option (Fin kMaxThreadCount × Thread)}
    (h : searchFrom k state cpuId is task = some (i, u)) :
    task = some (i, u) ∨ k.threads (.slot i) = some u ∧ u.cpuId = cpuId := by
  induction is generalizing task with
  | nil => exact .inl h
  | cons j is ih =>
    rw [searchFrom] at h
    split at h
    · exact .inl h
    · rename_i ptr hptr
      split at h
      · exact ih h
      split at h
      · exact ih h
      rename_i hcpu
      have hnew : some (j, ptr) = some (i, u) → k.threads (.slot i) = some u ∧ u.cpuId = cpuId := by
        intro he
        obtain ⟨rfl, rfl⟩ := Prod.mk.inj (Option.some.inj he)
        exact ⟨hptr, not_not.mp hcpu⟩
      split at h
      · exact .inr ((ih h).elim hnew id)
      · split at h
        · exact .inr ((ih h).elim hnew id)
        · exact ih h

/-- The thread found exists and belongs to the CPU. -/
theorem search_spec {state : RunState} (h : search k state c = some p) :
    ∃ u, k.threads p = some u ∧ (p = .idle c ∨ u.cpuId = c.val) := by
  unfold search at h
  split at h
  · rename_i i u hfound
    obtain rfl := Option.some.inj h
    rcases searchFrom_spec hfound with h | ⟨h, hcpu⟩
    · exact absurd h (by simp)
    · exact ⟨u, h, .inr hcpu⟩
  · split at h
    · split at h
      · rename_i hsome
        obtain rfl := Option.some.inj h
        obtain ⟨u, hu⟩ := Option.isSome_iff_exists.mp hsome
        exact ⟨u, hu, .inl rfl⟩
      · exact absurd h (by simp)
    · exact absurd h (by simp)

/-- Without a ready thread there is the idle thread. -/
theorem search_total (hidle : (k.threads (.idle c)).isSome) :
    ∃ p, search k .kRunNone c = some p := by
  unfold search
  split
  · exact ⟨_, rfl⟩
  · exact ⟨.idle c, by simp [hidle]⟩

/-- **What a switch does**: the two threads change, and the CPU records where it went. -/
structure Switched (s : System) (c : Fin maxCpuNum) (regs : Nat) (fromPtr toPtr : ThreadPtr)
    (fromThread toThread : Thread) (t : System) : Prop where
  threads : ∃ f g : Thread, t.kernel.threads =
      Function.update (Function.update s.kernel.threads toPtr (some g)) fromPtr (some f) ∧
    (f.cpuId = fromThread.cpuId ∧ f.state = .kRunNone ∧ f.archContext.context = regs) ∧
    g.cpuId = toThread.cpuId ∧ g.state = .kRunActive
  cpuCount : t.kernel.cpuCount = s.kernel.cpuCount
  current : ∀ d, (t.cpus d).current = (s.cpus d).current
  loaded : t.loaded = Function.update s.loaded c (some toPtr)
  switchedOut : t.switchedOut = Function.update s.switchedOut (s.running c) (some regs)

theorem switchTo_some (c : Fin maxCpuNum) (regs : Nat) {fromPtr toPtr : ThreadPtr} (hne : fromPtr ≠ toPtr) {f g : Thread}
    (hfrom : s.kernel.threads fromPtr = some f) (hto : s.kernel.threads toPtr = some g) :
    ∃ t, switchTo s c regs fromPtr toPtr = some t ∧ Switched s c regs fromPtr toPtr f g t := by
  let f' : Thread :=
    { f with
      state := .kRunNone
      archContext :=
        { f.archContext with
          context := regs, fpu := (s.cpus c).fpu, fsbase := (s.cpus c).fsbase
          gsbase := (s.cpus c).gsbase } }
  unfold switchTo
  simp only [hto, hfrom, Kernel.setThread, threadSwitchTo, Option.bind_eq_bind,
    Option.bind_some, Option.pure_def, Function.update_self, Option.getD_some,
    Function.update_of_ne hne, Function.update_of_ne hne.symm, Option.some.injEq,
    exists_eq_left']
  refine ⟨⟨f', { g with state := .kRunActive }, ?_, ⟨rfl, rfl, rfl⟩, rfl, rfl⟩, rfl, fun d => ?_,
    rfl, rfl⟩
  · rw [Function.update_comm hne, Function.update_idem]
  · by_cases hd : d = c
    · subst hd
      simp
    · simp only [Function.update_of_ne hd]

theorem switchTo_spec {fromPtr toPtr : ThreadPtr} (hne : fromPtr ≠ toPtr)
    (h : switchTo s c regs fromPtr toPtr = some t) :
    ∃ f g, s.kernel.threads fromPtr = some f ∧ s.kernel.threads toPtr = some g ∧
      Switched s c regs fromPtr toPtr f g t := by
  cases hto : s.kernel.threads toPtr with
  | none =>
      rw [switchTo, hto] at h
      exact absurd h (by simp)
  | some g =>
      cases hfrom : s.kernel.threads fromPtr with
      | none =>
          rw [switchTo, hto, hfrom] at h
          exact absurd h (by simp)
      | some f =>
          obtain ⟨t', ht', hsw⟩ := switchTo_some c regs hne hfrom hto
          obtain rfl := Option.some.inj (h.symm.trans ht')
          exact ⟨f, g, rfl, rfl, hsw⟩

/-- A timer interrupt switches, or does nothing. -/
theorem doLapicTimer_cases (h : doLapicTimer s c regs = some t) :
    (NoSwitch s c ∧ t = s) ∨
      ∃ next, next ≠ (s.cpus c).current ∧ search s.kernel .kRunNone c = some next ∧
        switchTo s c regs (s.cpus c).current next = some t := by
  unfold doLapicTimer at h
  dsimp only at h
  split at h
  · rename_i hne
    split at h
    · rename_i next hnext
      refine .inr ⟨next, ?_, hnext, h⟩
      rintro rfl
      exact hne hnext.symm
    · exact absurd h (by simp)
  · rename_i he
    exact .inl ⟨(not_not.mp he).symm, (Option.some.inj h).symm⟩

/-! ## All runs -/

/-- What holds in every run. -/
structure CpuInv (s : System) : Prop where
  idle : ∀ c : Fin maxCpuNum, c.val < s.kernel.cpuCount → (s.kernel.threads (.idle c)).isSome
  idleCpu : ∀ c t, s.kernel.threads (.idle c) = some t → t.cpuId = c
  /-- Nothing ever changes the current thread. -/
  current : ∀ c : Fin maxCpuNum, c.val < s.kernel.cpuCount → (s.cpus c).current = .idle c
  /-- A CPU runs threads of its own. -/
  own : ∀ c p, s.loaded c = some p → ∃ t, s.kernel.threads p = some t ∧ t.cpuId = c.val

/-- What holds of a CPU as long as it has not switched. -/
structure Unswitched (c : Fin maxCpuNum) (s : System) : Prop where
  loaded : s.loaded c = none
  fresh : ∀ p t, s.kernel.threads p = some t → t.cpuId = c → t.state = .kRunNone
  switchedOut : ∀ p t, s.kernel.threads p = some t → t.cpuId = c → s.switchedOut p = none

theorem started_inv (h : Started s) : CpuInv s :=
  ⟨h.idle, h.idleCpu, h.current, fun c p hp => by
    rw [h.loaded c] at hp
    exact absurd hp (by simp)⟩

theorem started_unswitched (h : Started s) : Unswitched c s :=
  ⟨h.loaded c, fun p t hp _ => h.fresh p t hp, fun p _ _ _ => h.switchedOut p⟩

/-- A thread keeps its CPU across a switch. -/
theorem Switched.cpuId {fromPtr toPtr : ThreadPtr} {f g : Thread}
    (hfrom : s.kernel.threads fromPtr = some f) (hto : s.kernel.threads toPtr = some g)
    (h : Switched s c regs fromPtr toPtr f g t) (q : ThreadPtr) :
    (t.kernel.threads q).map (·.cpuId) = (s.kernel.threads q).map (·.cpuId) := by
  obtain ⟨f', g', hthreads, ⟨hf, -⟩, hg, -⟩ := h.threads
  rw [hthreads]
  by_cases hq1 : q = fromPtr
  · rw [hq1, Function.update_self, hfrom, Option.map_some, Option.map_some, hf]
  · rw [Function.update_of_ne hq1]
    by_cases hq2 : q = toPtr
    · rw [hq2, Function.update_self, hto, Option.map_some, Option.map_some, hg]
    · rw [Function.update_of_ne hq2]

theorem cpuInv_switch {toPtr : ThreadPtr} (hi : CpuInv s) (hc : c.val < s.kernel.cpuCount)
    (hfound : search s.kernel .kRunNone c = some toPtr) (hne : toPtr ≠ (s.cpus c).current)
    (h : switchTo s c regs (s.cpus c).current toPtr = some t) : CpuInv t := by
  obtain ⟨f, g, hfrom, hto, hsw⟩ := switchTo_spec hne.symm h
  have hcpu := hsw.cpuId hfrom hto
  have hsome : ∀ q, (t.kernel.threads q).isSome = (s.kernel.threads q).isSome := by
    intro q
    rw [← Option.isSome_map (f := Thread.cpuId), hcpu, Option.isSome_map]
  refine ⟨fun d hd => ?_, fun d u hu => ?_, fun d hd => ?_, fun d q hq => ?_⟩
  · rw [hsome]
    exact hi.idle d (hsw.cpuCount ▸ hd)
  · have := hcpu (.idle d)
    rw [hu] at this
    obtain ⟨u', hu', he⟩ := Option.map_eq_some_iff.mp this.symm
    have he : u'.cpuId = u.cpuId := he
    exact he.symm.trans (hi.idleCpu d u' hu')
  · rw [hsw.current]
    exact hi.current d (hsw.cpuCount ▸ hd)
  · have hold : ∃ u', s.kernel.threads q = some u' ∧ u'.cpuId = d.val := by
      rw [hsw.loaded] at hq
      by_cases hd : d = c
      · subst hd
        rw [Function.update_self] at hq
        obtain rfl := Option.some.inj hq
        obtain ⟨u, hu, rfl | hu'⟩ := search_spec hfound
        · exact absurd (hi.current d hc).symm hne
        · exact ⟨u, hu, hu'⟩
      · rw [Function.update_of_ne hd] at hq
        exact hi.own d q hq
    obtain ⟨u', hu', he⟩ := hold
    have := hcpu q
    rw [hu', Option.map_some] at this
    obtain ⟨u, hu, hcu⟩ := Option.map_eq_some_iff.mp this
    exact ⟨u, hu, hcu.trans he⟩

theorem cpuInv_step {ok : System → Fin maxCpuNum → Prop} (hi : CpuInv s)
    (hs : TimerStep ok s t) : CpuInv t := by
  cases hs with
  | tick hc _ h =>
      rcases doLapicTimer_cases h with ⟨-, rfl⟩ | ⟨next, hne, hfound, hsw⟩
      · exact hi
      · exact cpuInv_switch hi hc hfound hne hsw
  | run fpu fsbase gsbase =>
      rename_i d
      refine ⟨hi.idle, hi.idleCpu, fun e he => ?_, hi.own⟩
      rw [← hi.current e he]
      by_cases h : e = d
      · subst h
        simp
      · simp only [Function.update_of_ne h]

/-- **A switch on one CPU leaves the threads of another alone.** -/
theorem unswitched_switch {toPtr : ThreadPtr} (hi : CpuInv s) (hd : d.val < s.kernel.cpuCount)
    (hu : Unswitched c s) (hdc : d ≠ c) (hfound : search s.kernel .kRunNone d = some toPtr)
    (hne : toPtr ≠ (s.cpus d).current) (h : switchTo s d regs (s.cpus d).current toPtr = some t) :
    Unswitched c t := by
  obtain ⟨f, g, hfrom, hto, hsw⟩ := switchTo_spec hne.symm h
  have hcurrent := hi.current d hd
  have hval : d.val ≠ c.val := fun h => hdc (Fin.ext h)
  obtain ⟨f', g', hthreads, ⟨hf, -⟩, hg, -⟩ := hsw.threads
  have hfcpu : f.cpuId = d := hi.idleCpu d f (hcurrent ▸ hfrom)
  have hgcpu : g.cpuId = d := by
    obtain ⟨u, hu, rfl | hu'⟩ := search_spec hfound
    · exact absurd hcurrent.symm hne
    · obtain rfl := Option.some.inj (hto.symm.trans hu)
      exact hu'
  -- a thread of `c` is neither of the two
  have hold : ∀ q u, t.kernel.threads q = some u → u.cpuId = c.val →
      s.kernel.threads q = some u := by
    intro q u hq hcu
    rw [hthreads] at hq
    by_cases hq1 : q = (s.cpus d).current
    · rw [hq1, Function.update_self] at hq
      obtain rfl := Option.some.inj hq
      exact absurd (hfcpu ▸ hf.symm.trans hcu) hval
    · rw [Function.update_of_ne hq1] at hq
      by_cases hq2 : q = toPtr
      · rw [hq2, Function.update_self] at hq
        obtain rfl := Option.some.inj hq
        exact absurd (hgcpu ▸ hg.symm.trans hcu) hval
      · rwa [Function.update_of_ne hq2] at hq
  refine ⟨?_, fun q u hq hcu => hu.fresh q u (hold q u hq hcu) hcu, fun q u hq hcu => ?_⟩
  · rw [hsw.loaded, Function.update_of_ne hdc.symm]
    exact hu.loaded
  · have hq' := hold q u hq hcu
    have hrunning : q ≠ s.running d := by
      rintro rfl
      have hown : ∃ u', s.kernel.threads (s.running d) = some u' ∧ u'.cpuId = d.val := by
        unfold System.running
        cases hl : s.loaded d with
        | none => exact ⟨f, hfrom, hfcpu⟩
        | some p => exact hi.own d p hl
      obtain ⟨u', hu', hdu⟩ := hown
      obtain rfl := Option.some.inj (hq'.symm.trans hu')
      exact hval (hdu.symm.trans hcu)
    rw [hsw.switchedOut, Function.update_of_ne hrunning]
    exact hu.switchedOut q u hq' hcu

theorem unswitched_step (hi : CpuInv s) (hu : Unswitched c s)
    (hs : TimerStep (fun s d => d = c → NoSwitch s d) s t) : Unswitched c t := by
  cases hs with
  | tick hd hok h =>
      rename_i d _
      rcases doLapicTimer_cases h with ⟨-, rfl⟩ | ⟨next, hne, hfound, hsw⟩
      · exact hu
      · have hdc : d ≠ c := by
          intro hdc
          have hno : search s.kernel .kRunNone d = some (s.cpus d).current := hok hdc
          rw [hfound] at hno
          exact hne (Option.some.inj hno)
        exact unswitched_switch hi hd hu hdc hfound hne hsw
  | run fpu fsbase gsbase => exact ⟨hu.loaded, hu.fresh, hu.switchedOut⟩

theorem cpuInv_reachable {ok : System → Fin maxCpuNum → Prop}
    (h : Reachable Started (TimerStep ok) s) : CpuInv s :=
  h.invariant (fun _ => started_inv) fun _ _ => cpuInv_step

theorem unswitched_reachable
    (h : Reachable Started (TimerStep fun s d => d = c → NoSwitch s d) s) : Unswitched c s :=
  h.invariant' (fun _ => started_unswitched) fun _ _ hr hu hs =>
    unswitched_step (cpuInv_reachable hr) hu hs

theorem unswitched_scheduled (hu : Unswitched c s) : Scheduled s c := by
  refine ⟨fun p hp => ?_, fun p t hp hc ha => ?_, fun p t regs hp hc hout => ?_⟩
  · rw [hu.loaded] at hp
    exact absurd hp (by simp)
  · rw [hu.fresh p t hp hc] at ha
    exact absurd ha (by simp)
  · rw [hu.switchedOut p t hp hc] at hout
    exact absurd hout (by simp)

/--
**A CPU is scheduled properly exactly until it first switches.**

In every run of all CPUs, as long as no timer interrupt of this one has found
another thread to go to, its state is as it should be; and the next interrupt
leaves it so if and only if it, too, finds none.
-/
theorem scheduled_iff (hc : c.val < s.kernel.cpuCount)
    (h : Reachable Started (TimerStep fun s d => d = c → NoSwitch s d) s) :
    Scheduled s c ∧
      ∀ regs, ∃ t, doLapicTimer s c regs = some t ∧ (Scheduled t c ↔ NoSwitch s c) := by
  have hi := cpuInv_reachable h
  have hscheduled := unswitched_scheduled (unswitched_reachable h)
  refine ⟨hscheduled, fun regs => ?_⟩
  obtain ⟨next, hnext⟩ := search_total (hi.idle c hc)
  by_cases hne : (s.cpus c).current = next
  · have hno : NoSwitch s c := hnext.trans (congrArg some hne.symm)
    refine ⟨s, ?_, fun _ => hno, fun _ => hscheduled⟩
    unfold doLapicTimer
    dsimp only
    rw [if_neg]
    exact not_not.mpr hno.symm
  · obtain ⟨g, hg, -⟩ := search_spec hnext
    obtain ⟨f, hf⟩ := Option.isSome_iff_exists.mp (hi.current c hc ▸ hi.idle c hc)
    obtain ⟨t, ht, hsw⟩ := switchTo_some c regs hne hf hg
    refine ⟨t, ?_, fun hs => ?_, fun hno => ?_⟩
    · unfold doLapicTimer
      dsimp only
      rw [if_pos (by rw [hnext]; simpa using hne), hnext]
      exact ht
    · have hloaded : t.loaded c = some next := by rw [hsw.loaded, Function.update_self]
      have := hs.current next hloaded
      rw [hsw.current] at this
      exact absurd this hne
    · exact absurd (Option.some.inj (hno.symm.trans hnext)) hne

/-! ## After boot -/

/-- Every CPU on its idle thread. -/
def idleCpu (c : Fin maxCpuNum) : Cpu := ⟨.idle c, 0, emptyFx, 0, 0, 0, 0, 0, 0⟩

/-- The machine after `init`: no thread but the first in a slot, and that one on the first CPU. -/
theorem boot_started {n : Nat} (hmax : n ≤ maxCpuNum) :
    ∃ k, threadInit 0xffff800000000000 emptyFx { bootKernel with cpuCount := n } 0x1000 0x10 0x20 =
        some k ∧
      k.cpuCount = n ∧ Started ⟨k, idleCpu, fun _ => none, fun _ => none⟩ ∧
      (∃ t, k.threads (.slot ⟨1, by decide⟩) = some t ∧ t.cpuId = 0 ∧ t.state = .kRunNone) ∧
      ∀ i t, k.threads (.slot i) = some t → t.cpuId = 0 := by
  obtain ⟨k, hk, hcount, hidle, hcpu, hinit, hslot⟩ := threadInit_spec 0xffff800000000000 emptyFx
    0x1000 0x10 0x20 (k := { bootKernel with cpuCount := n }) (fun _ => rfl) rfl hmax
  have hcount : k.cpuCount = n := hcount
  refine ⟨k, hk, hcount, ⟨fun c hc => (hidle c).mpr (hcount ▸ hc), fun c t ht => (hcpu c t ht).1,
    fun p t ht => ?_, fun _ _ => rfl, fun _ => rfl, fun _ => rfl⟩, hinit, fun i t ht => ?_⟩
  · cases p with
    | idle c => exact (hcpu c t ht).2
    | slot i =>
        obtain rfl := hslot i t ht
        obtain ⟨u, hu, -, hstate⟩ := hinit
        obtain rfl := Option.some.inj (ht.symm.trans hu)
        exact hstate
  · obtain rfl := hslot i t ht
    obtain ⟨u, hu, hzero, -⟩ := hinit
    obtain rfl := Option.some.inj (ht.symm.trans hu)
    exact hzero

/-- A thread once found stays found, or a better one does. -/
theorem searchFrom_isSome (k : Kernel) (state : RunState) (cpuId : Nat)
    (is : List (Fin kMaxThreadCount)) {task : Option (Fin kMaxThreadCount × Thread)}
    (h : task.isSome) :
    (searchFrom k state cpuId is task).isSome := by
  induction is generalizing task with
  | nil => exact h
  | cons i is ih =>
    rw [searchFrom]
    split
    · exact h
    · split
      · exact ih h
      split
      · exact ih h
      split
      · exact ih rfl
      · split
        · exact ih rfl
        · exact ih h

/-- A ready thread in the first slot is found before the idle thread. -/
theorem search_first {u : Thread} (hu : k.threads (.slot ⟨1, by decide⟩) = some u)
    (hcpu : u.cpuId = c.val) (hstate : u.state = .kRunNone) :
    search k .kRunNone c ≠ some (.idle c) := by
  have hlist : ∃ is, (List.finRange kMaxThreadCount).drop 1 = ⟨1, by decide⟩ :: is := by
    have hlen : 1 < (List.finRange kMaxThreadCount).length := by simp [kMaxThreadCount]
    exact ⟨(List.finRange kMaxThreadCount).drop 2, (List.drop_eq_getElem_cons hlen).trans (by simp)⟩
  obtain ⟨is, his⟩ := hlist
  unfold search
  rw [his, searchFrom, hu]
  simp only [hstate, hcpu, ne_eq, not_true_eq_false, if_false]
  have hsome : (some ((⟨1, by decide⟩ : Fin kMaxThreadCount), u)).isSome := rfl
  obtain ⟨x, hx⟩ := Option.isSome_iff_exists.mp (searchFrom_isSome k .kRunNone c.val is hsome)
  rw [hx]
  simp

/-- A CPU without threads in slots finds none to go to. -/
theorem noSwitch_alone (hi : CpuInv s) (hc : c.val < s.kernel.cpuCount)
    (halone : ∀ i u, s.kernel.threads (.slot i) = some u → u.cpuId ≠ c.val) : NoSwitch s c := by
  obtain ⟨p, hp⟩ := search_total (hi.idle c hc)
  obtain ⟨u, hu, hown⟩ := search_spec hp
  rw [NoSwitch, hi.current c hc, hp]
  cases p with
  | slot i => exact absurd (hown.resolve_left ThreadPtr.noConfusion) (halone i u hu)
  | idle d =>
      have hd : d = c := by
        rcases hown with hidle | hcpu
        · exact ThreadPtr.idle.inj hidle
        · exact Fin.ext ((hi.idleCpu d u hu).symm.trans hcpu)
      rw [hd]

/-- The first CPU. -/
def bootCpu : Fin maxCpuNum := ⟨0, maxCpuNum_pos⟩

/-- The first interrupt of the first CPU takes its idle thread off. -/
theorem boot_switches {n : Nat} (hpos : 0 < n) (hmax : n ≤ maxCpuNum) :
    ∃ k t next f g,
      threadInit 0xffff800000000000 emptyFx { bootKernel with cpuCount := n } 0x1000 0x10 0x20 =
        some k ∧
      k.cpuCount = n ∧ Started ⟨k, idleCpu, fun _ => none, fun _ => none⟩ ∧
      (∀ i u, k.threads (.slot i) = some u → u.cpuId = 0) ∧ ThreadPtr.idle bootCpu ≠ next ∧
      k.threads (.idle bootCpu) = some f ∧ k.threads next = some g ∧
      doLapicTimer ⟨k, idleCpu, fun _ => none, fun _ => none⟩ bootCpu 0x8000 = some t ∧
      Switched ⟨k, idleCpu, fun _ => none, fun _ => none⟩ bootCpu 0x8000 (.idle bootCpu) next
        f g t := by
  obtain ⟨k, hk, hcount, hstarted, ⟨u, hu, hcpu, hstate⟩, hslots⟩ := boot_started hmax
  let s : System := ⟨k, idleCpu, fun _ => none, fun _ => none⟩
  have hidle := hstarted.idle bootCpu (show 0 < k.cpuCount from hcount ▸ hpos)
  obtain ⟨next, hnext⟩ := search_total hidle
  have hne : ThreadPtr.idle bootCpu ≠ next := by
    intro heq
    exact search_first (c := bootCpu) hu hcpu hstate (heq ▸ hnext)
  obtain ⟨g, hg, -⟩ := search_spec hnext
  obtain ⟨f, hf⟩ := Option.isSome_iff_exists.mp hidle
  obtain ⟨t, ht, hsw⟩ := switchTo_some (s := s) bootCpu 0x8000 hne hf hg
  refine ⟨k, t, next, f, g, hk, hcount, hstarted, hslots, hne, hf, hg, ?_, hsw⟩
  unfold doLapicTimer
  dsimp only
  rw [if_pos (fun h => hne (Option.some.inj (h.trans hnext))), hnext]
  exact ht

/-- **Two CPUs, of which the second has no threads.** It has been interrupted, and the first one has
switched. -/
theorem scheduled_second : ∃ s, Reachable Started
      (TimerStep fun s d => d = ⟨1, by decide⟩ → NoSwitch s d) s ∧
    s.switchedOut (.idle bootCpu) = some 0x8000 ∧ Scheduled s ⟨1, by decide⟩ ∧
    ∃ t, doLapicTimer s ⟨1, by decide⟩ 0x9000 = some t ∧ Scheduled t ⟨1, by decide⟩ := by
  obtain ⟨k, t, next, f, g, -, hcount, hstarted, hslots, -, hf, hg, ht, hsw⟩ :=
    boot_switches (n := 2) (by decide) (by decide)
  let c : Fin maxCpuNum := ⟨1, by decide⟩
  have hc : c.val < k.cpuCount := hcount ▸ (by decide : 1 < 2)
  have h0 : Reachable Started (TimerStep fun s d => d = c → NoSwitch s d)
      ⟨k, idleCpu, fun _ => none, fun _ => none⟩ := .init hstarted
  have hno0 : NoSwitch ⟨k, idleCpu, fun _ => none, fun _ => none⟩ c := by
    refine noSwitch_alone (cpuInv_reachable h0) hc fun i u hu => ?_
    rw [hslots i u hu]
    exact Nat.zero_ne_one
  obtain ⟨s₁, hs₁, -⟩ := (scheduled_iff hc h0).2 0x8000
  have h1 := h0.tail (.tick hc (fun _ => hno0) hs₁)
  have hsame : s₁ = ⟨k, idleCpu, fun _ => none, fun _ => none⟩ := by
    rcases doLapicTimer_cases hs₁ with ⟨-, heq⟩ | ⟨next', hne, hfound, -⟩
    · exact heq
    · exact absurd (Option.some.inj (hfound.symm.trans hno0)) hne
  rw [hsame] at h1
  have hfirst : bootCpu.val < k.cpuCount := hcount ▸ (by decide : 0 < 2)
  have h2 := h1.tail (.tick hfirst (fun heq => absurd heq (by decide)) ht)
  have hct : c.val < t.kernel.cpuCount := by
    rw [hsw.cpuCount]
    exact hc
  have hno : NoSwitch t c := by
    refine noSwitch_alone (cpuInv_reachable h2) hct fun i u hu => ?_
    have hcpu := hsw.cpuId hf hg (.slot i)
    rw [hu] at hcpu
    obtain ⟨v, hv, heq⟩ := Option.map_eq_some_iff.mp hcpu.symm
    have hzero := hslots i v hv
    have heq : v.cpuId = u.cpuId := heq
    rw [← heq, hzero]
    exact Nat.zero_ne_one
  obtain ⟨u, hu, hiff⟩ := (scheduled_iff hct h2).2 0x9000
  refine ⟨t, h2, ?_, (scheduled_iff hct h2).1, u, hu, hiff.mpr hno⟩
  rw [hsw.switchedOut]
  exact Function.update_self _ _ _

/-- **The first interrupt after boot** leaves the idle thread current. -/
theorem boot_unscheduled : ∃ k, threadInit 0xffff800000000000 emptyFx bootKernel 0x1000 0x10 0x20 =
      some k ∧ Started ⟨k, idleCpu, fun _ => none, fun _ => none⟩ ∧
      ∃ t, doLapicTimer ⟨k, idleCpu, fun _ => none, fun _ => none⟩ ⟨0, by decide⟩ 0x8000 = some t ∧
        ¬ Scheduled t ⟨0, by decide⟩ := by
  obtain ⟨k, t, next, f, g, hk, -, hstarted, -, hne, -, -, ht, hsw⟩ :=
    boot_switches Nat.one_pos (by decide)
  refine ⟨k, hk, hstarted, t, ht, fun hs => ?_⟩
  have hloaded : t.loaded bootCpu = some next := by rw [hsw.loaded, Function.update_self]
  have hcurrent := hs.current next hloaded
  rw [hsw.current] at hcurrent
  exact hne hcurrent

end IonOS.Proc
