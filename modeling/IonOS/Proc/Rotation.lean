import IonOS.Proc.Schedule

/-!
# What the scheduler does with a thread

`scheduled_iff` says that a switch leaves a CPU in disorder. This is what comes of it in
the long run: a thread that is switched to stays active for good, because the thread
that `switch_to` takes for the old one is always the idle thread. So each thread has one
turn, and the turn of the last one does not end.
-/

namespace IonOS.Proc

open IonOS.Lib IonOS.Arch

variable {s t : System} {c d : Fin maxCpuNum} {k : Kernel} {regs : Nat} {p : ThreadPtr}

/-- Timer interrupts without restriction. -/
abbrev AnyTimerStep : System → System → Prop := TimerStep fun _ _ => True

/-! ## What is found -/

/-- A thread found in a slot is in the state asked for. -/
theorem searchFrom_state {state : RunState} {cpuId : Nat} {i : Fin kMaxThreadCount} {u : Thread}
    {is : List (Fin kMaxThreadCount)} {task : Option (Fin kMaxThreadCount × Thread)}
    (htask : ∀ j v, task = some (j, v) → v.state = state)
    (h : searchFrom k state cpuId is task = some (i, u)) : u.state = state := by
  induction is generalizing task with
  | nil => exact htask i u h
  | cons j is ih =>
    rw [searchFrom] at h
    split at h
    · exact htask i u h
    · rename_i ptr hptr
      split at h
      · exact ih htask h
      split at h
      · exact ih htask h
      rename_i hstate _
      have hnew : ∀ j' v, some (j, ptr) = some (j', v) → v.state = state := by
        intro j' v he
        obtain ⟨-, rfl⟩ := Prod.mk.inj (Option.some.inj he)
        exact not_not.mp hstate
      split at h
      · exact ih hnew h
      · split at h
        · exact ih hnew h
        · exact ih htask h

/-- The timer finds a thread in a slot, which has not run, or the idle thread. -/
theorem search_found (h : search k .kRunNone c = some p) :
    p = .idle c ∨ ∃ i u, p = .slot i ∧ k.threads (.slot i) = some u ∧ u.cpuId = c.val ∧
      u.state = .kRunNone := by
  unfold search at h
  split at h
  · rename_i i u hfound
    obtain rfl := Option.some.inj h
    rcases searchFrom_spec hfound with hnone | ⟨hu, hcpu⟩
    · exact absurd hnone (by simp)
    · exact .inr ⟨i, u, rfl, hu, hcpu, searchFrom_state (fun _ _ he => absurd he (by simp)) hfound⟩
  · split at h
    · split at h
      · exact .inl (Option.some.inj h).symm
      · exact absurd h (by simp)
    · exact absurd h (by simp)

/-- **One interrupt**: nothing, or from the idle thread to one in a slot that has not run. -/
theorem tick_cases (hi : CpuInv s) (hc : c.val < s.kernel.cpuCount)
    (h : doLapicTimer s c regs = some t) :
    t = s ∨ ∃ i u f, s.kernel.threads (.slot i) = some u ∧ u.cpuId = c.val ∧
      u.state = .kRunNone ∧ s.kernel.threads (.idle c) = some f ∧
      Switched s c regs (.idle c) (.slot i) f u t := by
  rcases doLapicTimer_cases h with ⟨-, rfl⟩ | ⟨next, hne, hfound, hsw⟩
  · exact .inl rfl
  · rw [hi.current c hc] at hne hsw
    obtain ⟨f, g, hf, hg, hswitched⟩ := switchTo_spec hne.symm hsw
    rcases search_found hfound with rfl | ⟨i, u, rfl, hu, hcpu, hstate⟩
    · exact absurd rfl hne
    · obtain rfl := Option.some.inj (hu.symm.trans hg)
      exact .inr ⟨i, u, f, hu, hcpu, hstate, hf, hswitched⟩

/-! ## One turn each -/

/-- Threads in slots that have had a CPU stay active, and the one that has it has had no other. -/
structure TurnInv (s : System) : Prop where
  loaded : ∀ c p, s.loaded c = some p →
    ∃ i u, p = .slot i ∧ s.kernel.threads (.slot i) = some u ∧ u.state = .kRunActive
  out : ∀ i, (s.switchedOut (.slot i)).isSome →
    ∃ u, s.kernel.threads (.slot i) = some u ∧ u.state = .kRunActive
  turn : ∀ c : Fin maxCpuNum, c.val < s.kernel.cpuCount → s.switchedOut (s.running c) = none

theorem turnInv_started (h : Started s) : TurnInv s := by
  refine ⟨fun c p hp => ?_, fun i hi => ?_, fun c _ => h.switchedOut _⟩
  · rw [h.loaded c] at hp
    exact nomatch hp
  · rw [h.switchedOut] at hi
    exact nomatch hi

/-- A thread in a slot that is active is left alone. -/
theorem Switched.active {f u v : Thread} {i j : Fin kMaxThreadCount}
    (h : Switched s c regs (.idle c) (.slot i) f u t) (hu : s.kernel.threads (.slot i) = some u)
    (hfresh : u.state = .kRunNone) (hv : s.kernel.threads (.slot j) = some v)
    (hactive : v.state = .kRunActive) : t.kernel.threads (.slot j) = some v := by
  have hne : j ≠ i := by
    rintro rfl
    obtain rfl := Option.some.inj (hu.symm.trans hv)
    rw [hfresh] at hactive
    exact nomatch hactive
  obtain ⟨f', g', hthreads, -⟩ := h.threads
  rw [hthreads, Function.update_of_ne (by simp), Function.update_of_ne (by simpa using hne)]
  exact hv

/-- The thread that is switched to is active. -/
theorem Switched.turned {f u : Thread} {i : Fin kMaxThreadCount}
    (h : Switched s c regs (.idle c) (.slot i) f u t) :
    ∃ v, t.kernel.threads (.slot i) = some v ∧ v.state = .kRunActive := by
  obtain ⟨f', g', hthreads, -, -, hactive⟩ := h.threads
  refine ⟨g', ?_, hactive⟩
  rw [hthreads, Function.update_of_ne (by simp), Function.update_self]

/-- CPUs run threads of their own, so they do not run the same one. -/
theorem running_ne (hi : CpuInv s) (hc : c.val < s.kernel.cpuCount) (hd : d.val < s.kernel.cpuCount)
    (hne : c ≠ d) : s.running c ≠ s.running d := by
  have hown : ∀ e : Fin maxCpuNum, e.val < s.kernel.cpuCount →
      ∃ u, s.kernel.threads (s.running e) = some u ∧ u.cpuId = e.val := by
    intro e he
    unfold System.running
    cases hl : s.loaded e with
    | none =>
      rw [Option.getD_none, hi.current e he]
      obtain ⟨u, hu⟩ := Option.isSome_iff_exists.mp (hi.idle e he)
      exact ⟨u, hu, hi.idleCpu e u hu⟩
    | some p => exact hi.own e p hl
  intro heq
  obtain ⟨u, hu, hcu⟩ := hown c hc
  obtain ⟨v, hv, hdv⟩ := hown d hd
  rw [heq] at hu
  obtain rfl := Option.some.inj (hu.symm.trans hv)
  exact hne (Fin.ext (hcu.symm.trans hdv))

theorem turnInv_switched {f u : Thread} {i : Fin kMaxThreadCount} (hi : CpuInv s) (hv : TurnInv s)
    (hc : c.val < s.kernel.cpuCount) (hu : s.kernel.threads (.slot i) = some u)
    (hfresh : u.state = .kRunNone) (hsw : Switched s c regs (.idle c) (.slot i) f u t) :
    TurnInv t := by
  -- the thread that is interrupted is not the one that is switched to
  have hnew : s.running c ≠ .slot i := by
    intro heq
    unfold System.running at heq
    cases hl : s.loaded c with
    | none =>
      rw [hl, Option.getD_none, hi.current c hc] at heq
      exact nomatch heq
    | some p =>
      rw [hl, Option.getD_some] at heq
      obtain ⟨j, v, rfl, hvj, hactive⟩ := hv.loaded c p hl
      rw [heq, hu] at hvj
      obtain rfl := Option.some.inj hvj
      rw [hfresh] at hactive
      exact nomatch hactive
  have hkeep : ∀ j, (∃ v, s.kernel.threads (.slot j) = some v ∧ v.state = .kRunActive) →
      ∃ v, t.kernel.threads (.slot j) = some v ∧ v.state = .kRunActive := by
    rintro j ⟨v, hvj, hactive⟩
    exact ⟨v, hsw.active hu hfresh hvj hactive, hactive⟩
  refine ⟨fun e p hp => ?_, fun j hj => ?_, fun e he => ?_⟩
  · rw [hsw.loaded] at hp
    by_cases hec : e = c
    · rw [hec, Function.update_self] at hp
      obtain rfl := Option.some.inj hp
      obtain ⟨v, hvi, hactive⟩ := hsw.turned
      exact ⟨i, v, rfl, hvi, hactive⟩
    · rw [Function.update_of_ne hec] at hp
      obtain ⟨j, v, rfl, hvj, hactive⟩ := hv.loaded e p hp
      exact ⟨j, v, rfl, hsw.active hu hfresh hvj hactive, hactive⟩
  · rw [hsw.switchedOut] at hj
    by_cases hrun : ThreadPtr.slot j = s.running c
    · refine hkeep j ?_
      unfold System.running at hrun
      cases hl : s.loaded c with
      | none =>
        rw [hl, Option.getD_none, hi.current c hc] at hrun
        exact nomatch hrun
      | some p =>
        rw [hl, Option.getD_some] at hrun
        obtain ⟨j', v, hp, hvj, hactive⟩ := hv.loaded c p hl
        rw [← hrun] at hp
        obtain rfl := ThreadPtr.slot.inj hp
        exact ⟨v, hvj, hactive⟩
    · rw [Function.update_of_ne hrun] at hj
      exact hkeep j (hv.out j hj)
  · rw [hsw.cpuCount] at he
    rw [hsw.switchedOut]
    by_cases hec : e = c
    · have hrun : t.running e = .slot i := by
        unfold System.running
        rw [hsw.loaded, hec, Function.update_self, Option.getD_some]
      rw [hrun, Function.update_of_ne hnew.symm]
      by_contra hsome
      obtain ⟨v, hvi, hactive⟩ := hv.out i (Option.isSome_iff_ne_none.mpr hsome)
      obtain rfl := Option.some.inj (hu.symm.trans hvi)
      rw [hfresh] at hactive
      exact nomatch hactive
    · have hrun : t.running e = s.running e := by
        unfold System.running
        rw [hsw.loaded, Function.update_of_ne hec, hsw.current]
      rw [hrun, Function.update_of_ne (running_ne hi he hc hec)]
      exact hv.turn e he

theorem turnInv_step (hi : CpuInv s) (hv : TurnInv s) (hs : AnyTimerStep s t) : TurnInv t := by
  cases hs with
  | tick hc _ h =>
    rcases tick_cases hi hc h with rfl | ⟨i, u, f, hu, -, hfresh, -, hsw⟩
    · exact hv
    · exact turnInv_switched hi hv hc hu hfresh hsw
  | run fpu fsbase gsbase =>
    rename_i d
    refine ⟨hv.loaded, hv.out, fun e he => ?_⟩
    rw [← hv.turn e he]
    unfold System.running
    by_cases hed : e = d
    · rw [hed]
      simp
    · simp only [Function.update_of_ne hed]

theorem turnInv_reachable (h : Reachable Started AnyTimerStep s) : TurnInv s :=
  h.invariant' (fun _ => turnInv_started) fun _ _ hr hv hs =>
    turnInv_step (cpuInv_reachable hr) hv hs

/-! ## Runs from here on -/

/-- The states that timer interrupts lead to from `s`. -/
abbrev Later (s : System) : System → Prop := Reachable (fun s' => s' = s) AnyTimerStep

theorem Later.reachable (h : Later s t) (hs : Reachable Started AnyTimerStep s) :
    Reachable Started AnyTimerStep t := by
  induction h with
  | init h =>
    rw [h]
    exact hs
  | tail _ hst ih => exact ih.tail hst

/-- What was switched out is on record for good. -/
theorem switchedOut_step (hi : CpuInv s) (hs : AnyTimerStep s t)
    (hp : (s.switchedOut p).isSome) : (t.switchedOut p).isSome := by
  cases hs with
  | tick hc _ h =>
    rename_i c regs _
    rcases tick_cases hi hc h with rfl | ⟨i, u, f, -, -, -, -, hsw⟩
    · exact hp
    · rw [hsw.switchedOut]
      by_cases heq : p = s.running c
      · rw [heq, Function.update_self]
        rfl
      · rw [Function.update_of_ne heq]
        exact hp
  | run fpu fsbase gsbase => exact hp

theorem Later.switchedOut (h : Later s t) (hs : Reachable Started AnyTimerStep s)
    (hp : (s.switchedOut p).isSome) : (t.switchedOut p).isSome := by
  induction h with
  | init h =>
    rw [h]
    exact hp
  | tail hr hst ih => exact switchedOut_step (cpuInv_reachable (Later.reachable hr hs)) hst ih

/-- Every thread of a CPU has had its turn. -/
def AllTurned (c : Fin maxCpuNum) (s : System) : Prop :=
  ∀ i u, s.kernel.threads (.slot i) = some u → u.cpuId = c.val → u.state ≠ .kRunNone

theorem allTurned_step (hi : CpuInv s) (hall : AllTurned c s) (hs : AnyTimerStep s t) :
    AllTurned c t ∧ t.running c = s.running c := by
  cases hs with
  | tick hd _ h =>
    rename_i d regs _
    rcases tick_cases hi hd h with rfl | ⟨i, u, f, hu, hcpu, hfresh, -, hsw⟩
    · exact ⟨hall, rfl⟩
    have hdc : c ≠ d := by
      rintro rfl
      exact hall i u hu hcpu hfresh
    refine ⟨fun j v hv hvc => ?_, ?_⟩
    · obtain ⟨f', g', hthreads, -, -, hactive⟩ := hsw.threads
      rw [hthreads, Function.update_of_ne (by simp)] at hv
      by_cases hj : j = i
      · rw [hj, Function.update_self] at hv
        obtain rfl := Option.some.inj hv
        rw [hactive]
        simp
      · rw [Function.update_of_ne (by simpa using hj)] at hv
        exact hall j v hv hvc
    · unfold System.running
      rw [hsw.loaded, Function.update_of_ne hdc, hsw.current]
  | run fpu fsbase gsbase =>
    rename_i d
    refine ⟨hall, ?_⟩
    unfold System.running
    by_cases hcd : c = d
    · rw [hcd]
      simp
    · simp only [Function.update_of_ne hcd]

theorem Later.allTurned (h : Later s t) (hs : Reachable Started AnyTimerStep s)
    (hall : AllTurned c s) : AllTurned c t ∧ t.running c = s.running c := by
  induction h with
  | init h =>
    rw [h]
    exact ⟨hall, rfl⟩
  | tail hr hst ih =>
    obtain ⟨hturned, hrun⟩ := ih
    obtain ⟨hturned', hrun'⟩ :=
      allTurned_step (cpuInv_reachable (Later.reachable hr hs)) hturned hst
    exact ⟨hturned', hrun'.trans hrun⟩

/-- A thread in a slot that counts as active goes on doing so. -/
theorem active_step {j : Fin kMaxThreadCount} (hi : CpuInv s) (hs : AnyTimerStep s t)
    (hj : ∃ v, s.kernel.threads (.slot j) = some v ∧ v.state = .kRunActive) :
    ∃ v, t.kernel.threads (.slot j) = some v ∧ v.state = .kRunActive := by
  cases hs with
  | tick hc _ h =>
    rcases tick_cases hi hc h with rfl | ⟨i, u, f, hu, -, hfresh, -, hsw⟩
    · exact hj
    · obtain ⟨v, hv, hactive⟩ := hj
      exact ⟨v, hsw.active hu hfresh hv hactive, hactive⟩
  | run fpu fsbase gsbase => exact hj

theorem Later.active {j : Fin kMaxThreadCount} (h : Later s t)
    (hs : Reachable Started AnyTimerStep s)
    (hj : ∃ v, s.kernel.threads (.slot j) = some v ∧ v.state = .kRunActive) :
    ∃ v, t.kernel.threads (.slot j) = some v ∧ v.state = .kRunActive := by
  induction h with
  | init h =>
    rw [h]
    exact hj
  | tail hr hst ih => exact active_step (cpuInv_reachable (Later.reachable hr hs)) hst ih

/-- What the timer makes of the threads, from a state on. -/
structure OneTurn (s : System) : Prop where
  /-- No switch has changed what `get_current_thread` answers. -/
  current : ∀ c : Fin maxCpuNum, c.val < s.kernel.cpuCount → (s.cpus c).current = .idle c
  /-- So a switch puts the idle thread back to `kRunNone`, and goes to a thread in a slot. -/
  switch : ∀ (c : Fin maxCpuNum) regs t, c.val < s.kernel.cpuCount →
    doLapicTimer s c regs = some t →
      t = s ∨ ∃ i f u, Switched s c regs (.idle c) (.slot i) f u t
  /-- One in a slot that is active stays active, whether it runs or not. -/
  active : ∀ i, (∃ u, s.kernel.threads (.slot i) = some u ∧ u.state = .kRunActive) →
    ∀ t, Later s t → ∃ v, t.kernel.threads (.slot i) = some v ∧ v.state = .kRunActive
  /-- One that has been taken off its CPU does not run again. -/
  once : ∀ p regs, s.switchedOut p = some regs → ∀ t, Later s t →
    ∀ c : Fin maxCpuNum, c.val < t.kernel.cpuCount → t.running c ≠ p
  /-- The last one runs for ever. -/
  last : ∀ c, AllTurned c s → ∀ t, Later s t → t.running c = s.running c

/--
**Every thread has one turn.**

In every run of timer interrupts, on any number of CPUs, a thread that has been taken off
its CPU never has one again: what `switch_to` takes for it is the idle thread, which is
always current, so the thread itself stays active and is not found. And when all the
threads of a CPU have had their turn, the one that is running then runs for ever.
-/
theorem one_turn (h : Reachable Started AnyTimerStep s) : OneTurn s := by
  have hi := cpuInv_reachable h
  refine ⟨hi.current, fun c regs t hc ht => ?_, fun i hj t ht => ht.active h hj,
    fun p regs hp t ht c hc heq => ?_, fun c hall t ht => (ht.allTurned h hall).2⟩
  · rcases tick_cases hi hc ht with heq | ⟨i, u, f, -, -, -, -, hsw⟩
    · exact .inl heq
    · exact .inr ⟨i, f, u, hsw⟩
  · have hout := ht.switchedOut h (p := p) (by rw [hp]; rfl)
    rw [← heq, (turnInv_reachable (ht.reachable h)).turn c hc] at hout
    exact nomatch hout

/-- One CPU, whose idle thread has been taken off it for the first thread. -/
theorem one_turn_switched : ∃ s i, Reachable Started AnyTimerStep s ∧
    s.switchedOut (.idle bootCpu) = some 0x8000 ∧ s.loaded bootCpu = some (.slot i) ∧
      OneTurn s := by
  obtain ⟨k, t, next, f, g, -, hcount, hstarted, -, hne, -, -, ht, hsw⟩ :=
    boot_switches Nat.one_pos (by decide)
  have h0 : Reachable Started AnyTimerStep ⟨k, idleCpu, fun _ => none, fun _ => none⟩ :=
    .init hstarted
  have hc : bootCpu.val < k.cpuCount := hcount ▸ Nat.one_pos
  have hr := h0.tail (.tick hc trivial ht)
  have hone := one_turn hr
  have hloaded : t.loaded bootCpu = some next := by rw [hsw.loaded, Function.update_self]
  obtain ⟨i, u, hslot, -⟩ := (turnInv_reachable hr).loaded bootCpu next hloaded
  refine ⟨t, i, hr, ?_, ?_, hone⟩
  · rw [hsw.switchedOut]
    exact Function.update_self _ _ _
  · rw [hloaded, hslot]

end IonOS.Proc
