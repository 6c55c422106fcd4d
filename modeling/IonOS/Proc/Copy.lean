import IonOS.Proc.Files

/-!
# A clone's own table of files

Without `CLONE_FILES`, `k_clone_impl` takes new memory for the child's table and goes
on to copy the parent's descriptors, but sets none of its fields: where the copies go,
how many there are and who counts them is what the memory held before.
-/

namespace IonOS.Proc

open IonOS.Lib IonOS.Libs

/-- The arrays of descriptors allocated during a clone and how long they are. There is only the one
that `create` makes, for a table that the clone then replaces. -/
def arraysMade (k : Kernel) : List (Nat × Int) := [(k.next + 2, defaultFdNum)]

/-- The parent's table and what it refers to were allocated before. -/
structure TableKnown (k : Kernel) (x : Nat) : Prop where
  self : x < k.next
  array : (k.files x).fds < k.next
  entries : ∀ i f, i < (k.files x).maxFdCount.toNat → k.fds (k.files x).fds i = some f → f < k.next

/-- `dst` has copies of the first `n` entries of `src`, each in a new object. -/
structure EntriesCopied (k : Kernel) (dst src n : Nat) (k' : Kernel) : Prop where
  null : ∀ i < n, k'.fds dst i = none ↔ k.fds src i = none
  copy : ∀ i f, i < n → k.fds src i = some f →
    ∃ f', k'.fds dst i = some f' ∧ k.next ≤ f' ∧ f' < k'.next ∧ k'.fdInfos f' = k.fdInfos f
  distinct : ∀ i j f, i < n → j < n → k'.fds dst i = some f → k'.fds dst j = some f → i = j

/-- **What is owed**: a table for one user, with an array of its own and copies in it, and nothing
else is touched. -/
structure TableCopied (k : Kernel) (x y : Nat) (k' : Kernel) : Prop where
  refCount : (k'.files y).refCount = 1
  maxFdCount : (k'.files y).maxFdCount = (k.files x).maxFdCount
  own : ∃ n, ((k'.files y).fds, n) ∈ arraysMade k ∧ (k.files x).maxFdCount ≤ n
  entries : EntriesCopied k (k'.files y).fds (k.files x).fds (k.files x).maxFdCount.toNat k'
  kept : ∀ o < k.next, k'.files o = k.files o ∧ k'.fds o = k.fds o ∧ k'.fdInfos o = k.fdInfos o

/-- The memory for the child's table happens to hold a count of one, the parent's length, and the
address of the array that has just been made, long enough for the parent's entries. -/
structure HoldsTable (k : Kernel) (parent garbage : FileInfo) : Prop where
  refCount : garbage.refCount = 1
  maxFdCount : garbage.maxFdCount = parent.maxFdCount
  array : ∃ n, (garbage.fds, n) ∈ arraysMade k ∧ parent.maxFdCount ≤ n

variable {off cr3 regs flags newsp parentTid childTid tls x : Nat} {garbageFx : FxState}
  {garbage : FileInfo} {k k' : Kernel} {cur p : ThreadPtr} {t child : Thread}

/-! ## The loop -/

/-- The loop writes to the array and to new objects. -/
structure LoopKept (k : Kernel) (dst : Nat) (k' : Kernel) : Prop where
  next : k.next ≤ k'.next
  fds : ∀ y ≠ dst, k'.fds y = k.fds y
  fdInfos : ∀ o < k.next, k'.fdInfos o = k.fdInfos o

theorem copyFds_kept (k : Kernel) (dst src n : Nat) : LoopKept k dst (copyFds k dst src n) := by
  induction n with
  | zero => exact ⟨Nat.le_refl _, fun _ _ => rfl, fun _ _ => rfl⟩
  | succ n ih =>
    rw [copyFds]
    have hfds : ∀ (v : Nat → Option Nat), ∀ y ≠ dst,
        Function.update (copyFds k dst src n).fds dst v y = k.fds y := by
      intro v y hy
      rw [Function.update_of_ne hy, ih.fds y hy]
    cases (copyFds k dst src n).fds src n with
    | none => exact ⟨ih.next, hfds _, ih.fdInfos⟩
    | some fd =>
      refine ⟨Nat.le_succ_of_le ih.next, hfds _, fun o ho => ?_⟩
      have hne : o ≠ (copyFds k dst src n).next := Nat.ne_of_lt (Nat.lt_of_lt_of_le ho ih.next)
      dsimp only
      rw [Function.update_of_ne hne, ih.fdInfos o ho]

/-- **The loop copies**, into an array that is not the one it reads. -/
theorem copyFds_copied {dst src n : Nat} (hne : src ≠ dst)
    (hknown : ∀ i f, i < n → k.fds src i = some f → f < k.next) :
    EntriesCopied k dst src n (copyFds k dst src n) := by
  induction n with
  | zero =>
    exact ⟨fun i hi => absurd hi (Nat.not_lt_zero i), fun i _ hi => absurd hi (Nat.not_lt_zero i),
      fun i _ _ hi => absurd hi (Nat.not_lt_zero i)⟩
  | succ n ih =>
    have ih := ih fun i f hi => hknown i f (Nat.lt_succ_of_lt hi)
    have hkept := copyFds_kept k dst src n
    have hsrc : (copyFds k dst src n).fds src n = k.fds src n := by rw [hkept.fds src hne]
    -- the entries before stay
    have hold : ∀ (v : Option Nat) (i : Nat), i < n →
        Function.update ((copyFds k dst src n).fds dst) n v i = (copyFds k dst src n).fds dst i :=
      fun v i hi => Function.update_of_ne (Nat.ne_of_lt hi) ..
    rw [copyFds, hsrc]
    cases hentry : k.fds src n with
    | none =>
      dsimp only
      refine ⟨fun i hi => ?_, fun i f hi hf => ?_, fun i j f hi hj hif hjf => ?_⟩
      · dsimp only
        rw [Function.update_self]
        rcases Nat.lt_succ_iff_lt_or_eq.mp hi with hi | rfl
        · rw [hold _ i hi, ih.null i hi]
        · rw [Function.update_self, hentry]
      · rcases Nat.lt_succ_iff_lt_or_eq.mp hi with hi | rfl
        · obtain ⟨f', hf', hcopy⟩ := ih.copy i f hi hf
          refine ⟨f', ?_, hcopy⟩
          dsimp only
          rw [Function.update_self, hold _ i hi, hf']
        · rw [hentry] at hf
          exact absurd hf (by simp)
      · dsimp only at hif hjf
        rw [Function.update_self] at hif hjf
        have hlt : ∀ i, i < n + 1 →
            Function.update ((copyFds k dst src n).fds dst) n none i = some f → i < n := by
          intro i hi hf
          rcases Nat.lt_succ_iff_lt_or_eq.mp hi with hi | rfl
          · exact hi
          · rw [Function.update_self] at hf
            exact absurd hf (by simp)
        have hi := hlt i hi hif
        have hj := hlt j hj hjf
        rw [hold _ i hi] at hif
        rw [hold _ j hj] at hjf
        exact ih.distinct i j f hi hj hif hjf
    | some fd =>
      have hfd : fd < k.next := hknown n fd (Nat.lt_succ_self n) hentry
      -- an object made before is not the one made now
      have hearlier : ∀ {i f'}, i < n → (copyFds k dst src n).fds dst i = some f' →
          f' < (copyFds k dst src n).next := by
        intro i f' hi hf'
        cases hfi : k.fds src i with
        | none =>
          rw [(ih.null i hi).mpr hfi] at hf'
          exact absurd hf' (by simp)
        | some f =>
          obtain ⟨f'', hf'', -, hlt, -⟩ := ih.copy i f hi hfi
          obtain rfl := Option.some.inj (hf'.symm.trans hf'')
          exact hlt
      refine ⟨fun i hi => ?_, fun i f hi hf => ?_, fun i j f hi hj hif hjf => ?_⟩
      · dsimp only
        rw [Function.update_self]
        rcases Nat.lt_succ_iff_lt_or_eq.mp hi with hi | rfl
        · rw [hold _ i hi, ih.null i hi]
        · rw [Function.update_self, hentry]
          simp
      · dsimp only
        rcases Nat.lt_succ_iff_lt_or_eq.mp hi with hi | rfl
        · obtain ⟨f', hf', hge, hlt, hinfo⟩ := ih.copy i f hi hf
          refine ⟨f', by rw [Function.update_self, hold _ i hi, hf'], hge, by omega, ?_⟩
          rw [Function.update_of_ne (Nat.ne_of_lt hlt), hinfo]
        · obtain rfl := Option.some.inj (hentry.symm.trans hf)
          refine ⟨(copyFds k dst src i).next, by rw [Function.update_self, Function.update_self],
            hkept.next, Nat.lt_succ_self _, ?_⟩
          rw [Function.update_self, hkept.fdInfos fd hfd]
      · dsimp only at hif hjf
        rw [Function.update_self] at hif hjf
        rcases Nat.lt_succ_iff_lt_or_eq.mp hi with hi | hi <;>
          rcases Nat.lt_succ_iff_lt_or_eq.mp hj with hj | hj
        · rw [hold _ i hi] at hif
          rw [hold _ j hj] at hjf
          exact ih.distinct i j f hi hj hif hjf
        · rw [hold _ i hi] at hif
          rw [hj, Function.update_self] at hjf
          have := hearlier hi hif
          have := Option.some.inj hjf
          omega
        · rw [hold _ j hj] at hjf
          rw [hi, Function.update_self] at hif
          have := hearlier hj hjf
          have := Option.some.inj hif
          omega
        · rw [hi, hj]

/-! ## The clone -/

/-- The kernel when `create` has made a thread and the page tables are copied. -/
structure FilesMade (k km : Kernel) : Prop where
  files : km.files = Function.update k.files (k.next + 1) ⟨k.next + 2, defaultFdNum, 1⟩
  fds : km.fds = Function.update k.fds (k.next + 2) fun _ => none
  fdInfos : km.fdInfos = k.fdInfos
  next : k.next + 3 ≤ km.next

theorem create_fdInfos {entry tflags : Nat}
    (h : create off garbageFx k cr3 entry tflags = some (p, k')) : k'.fdInfos = k.fdInfos := by
  unfold create at h
  cases hfree : getFreeThread k with
  | none =>
      rw [hfree] at h
      exact absurd h (by simp)
  | some x =>
      rw [hfree] at h
      obtain ⟨-, rfl⟩ := Prod.mk.inj (Option.some.inj h)
      rfl

theorem cloneMm_fdInfos (off : Nat) (k : Kernel) (mm flags : Nat) :
    (cloneMm off k mm flags).2.fdInfos = k.fdInfos := by
  unfold cloneMm
  split <;> rfl

/-- **The child's table** is what `cloneFileInfo` makes. -/
theorem kCloneImpl_files (hcur : k.threads cur = some t)
    (h : kCloneImpl off garbageFx garbage k cur cr3 regs flags newsp parentTid childTid tls =
      some (p, k')) (hchild : k'.threads p = some child) :
    ∃ km, FilesMade k km ∧ child.fileInfo = (cloneFileInfo km garbage t.fileInfo flags).1 ∧
      k'.files = (cloneFileInfo km garbage t.fileInfo flags).2.files ∧
      k'.fds = (cloneFileInfo km garbage t.fileInfo flags).2.fds ∧
      k'.fdInfos = (cloneFileInfo km garbage t.fileInfo flags).2.fdInfos ∧
      k'.next = (cloneFileInfo km garbage t.fileInfo flags).2.next := by
  unfold kCloneImpl at h
  rw [hcur] at h
  simp only [Option.bind_eq_bind, Option.bind_some] at h
  obtain ⟨⟨ptr, kc⟩, hcreate, h⟩ := Option.bind_eq_some_iff.mp h
  obtain ⟨-, hc⟩ := create_spec hcreate
  obtain ⟨new, hthreads, -⟩ := hc.threads
  have hnew : kc.threads ptr = some new := by rw [hthreads, Function.update_self]
  dsimp only at h
  rw [hnew] at h
  simp only [Option.bind_some, Option.pure_def, Option.some.injEq, Prod.mk.injEq] at h
  obtain ⟨rfl, rfl⟩ := h
  let kr : Kernel :=
    { kc with machine :=
        { kc.machine with mem := memcpy kc.machine.mem new.archContext.context regs ptRegsSize } }
  have hmm := cloneMm_spec off kr t.mm flags
  have hnext : kc.next ≤ (cloneMm off kr t.mm flags).2.next := by
    by_cases hv : flags &&& cloneVm = 0
    · exact Nat.le_of_lt (Nat.lt_of_lt_of_eq (Nat.lt_succ_self _) (hmm.own hv).2.1.symm)
    · exact Nat.le_of_eq (hmm.shared hv).2.1.symm
  have hinfos : kc.fdInfos = k.fdInfos := create_fdInfos hcreate
  have hmade : FilesMade k (cloneMm off kr t.mm flags).2 :=
    ⟨hmm.files.trans hc.files, hmm.fds.trans hc.fds,
      (cloneMm_fdInfos off kr t.mm flags).trans hinfos, hc.next ▸ hnext⟩
  refine ⟨(cloneMm off kr t.mm flags).2, hmade, ?_, rfl, rfl, rfl, rfl⟩
  unfold Kernel.setThread at hchild
  dsimp only at hchild
  rw [Function.update_self] at hchild
  obtain rfl := Option.some.inj hchild
  rfl

/-- The table of a parent is there when it is copied. -/
theorem FilesMade.parent {km : Kernel} (hm : FilesMade k km) (hx : TableKnown k x) :
    km.files x = k.files x ∧ km.fds (k.files x).fds = k.fds (k.files x).fds := by
  have := hx.self
  have := hx.array
  rw [hm.files, hm.fds, Function.update_of_ne (by omega), Function.update_of_ne (by omega)]
  exact ⟨rfl, rfl⟩

/-- **With the right memory the table is copied.** -/
theorem cloneFileInfo_copied {km : Kernel} (hm : FilesMade k km) (hx : TableKnown k x)
    (hflags : flags &&& cloneFiles = 0) (hg : HoldsTable k (k.files x) garbage)
    (hfiles : k'.files = (cloneFileInfo km garbage x flags).2.files)
    (hfds : k'.fds = (cloneFileInfo km garbage x flags).2.fds)
    (hinfos : k'.fdInfos = (cloneFileInfo km garbage x flags).2.fdInfos)
    (hnext : k'.next = (cloneFileInfo km garbage x flags).2.next) :
    TableCopied k x (cloneFileInfo km garbage x flags).1 k' := by
  obtain ⟨hself, harray⟩ := hm.parent hx
  have hn := hm.next
  obtain ⟨n, hmem, hroom⟩ := hg.array
  obtain ⟨hdst, rfl⟩ := Prod.mk.inj (List.mem_singleton.mp hmem)
  have hx₁ := hx.self
  have hx₂ := hx.array
  -- the call, with what it reads put in
  let kn : Kernel :=
    { km with
      files := Function.update km.files km.next garbage, next := km.next + 1
      fds := Function.update km.fds garbage.fds (Function.update (km.fds garbage.fds) 0 none) }
  have hread : Function.update km.files km.next garbage x = k.files x := by
    rw [Function.update_of_ne (by omega), hself]
  have he : cloneFileInfo km garbage x flags = (km.next,
      copyFds kn garbage.fds (k.files x).fds (k.files x).maxFdCount.toNat) := by
    unfold cloneFileInfo
    rw [if_neg (not_not.mpr hflags)]
    dsimp only
    rw [hread]
  rw [he] at hfiles hfds hinfos hnext ⊢
  have hsrc : (k.files x).fds ≠ garbage.fds := by omega
  have hkn : kn.fds (k.files x).fds = k.fds (k.files x).fds := by
    show Function.update km.fds _ _ _ = _
    rw [Function.update_of_ne hsrc, harray]
  have hloop := copyFds_kept kn garbage.fds (k.files x).fds (k.files x).maxFdCount.toNat
  have hcopied : EntriesCopied kn garbage.fds (k.files x).fds (k.files x).maxFdCount.toNat
      (copyFds kn garbage.fds (k.files x).fds (k.files x).maxFdCount.toNat) := by
    refine copyFds_copied hsrc fun i f hi hf => ?_
    have hlt := hx.entries i f hi (hkn ▸ hf)
    show f < km.next + 1
    omega
  have hfiles' : k'.files = Function.update km.files km.next garbage :=
    hfiles.trans (copyFds_spec kn _ _ _).2.2.1
  have hy : k'.files km.next = garbage := by rw [hfiles', Function.update_self]
  refine ⟨by rw [hy]; exact hg.refCount, by rw [hy]; exact hg.maxFdCount,
    ⟨_, by rw [hy]; exact hmem, hroom⟩, ?_, fun o ho => ⟨?_, ?_, ?_⟩⟩
  · rw [hy]
    refine ⟨fun i hi => ?_, fun i f hi hf => ?_, fun i j f hi hj => ?_⟩
    · rw [hfds, hcopied.null i hi, hkn]
    · obtain ⟨f', hf', hge, hlt, hinfo⟩ := hcopied.copy i f hi (hkn ▸ hf)
      refine ⟨f', by rw [hfds, hf'], ?_, hnext ▸ hlt, ?_⟩
      · have : km.next + 1 ≤ f' := hge
        omega
      · rw [hinfos, hinfo]
        exact congrFun hm.fdInfos f
    · rw [hfds]
      exact hcopied.distinct i j f hi hj
  · rw [hfiles', Function.update_of_ne (by omega), hm.files, Function.update_of_ne (by omega)]
  · rw [hfds, hloop.fds o (by omega)]
    show Function.update km.fds _ _ _ = _
    rw [Function.update_of_ne (by omega), hm.fds, Function.update_of_ne (by omega)]
  · have hlt : o < kn.next := by
      show o < km.next + 1
      omega
    rw [hinfos, hloop.fdInfos o hlt]
    exact congrFun hm.fdInfos o

/--
**Which clones copy the table.**

A clone without `CLONE_FILES` copies its parent's table if and only if the memory for
the child's happened to hold the result: one user, the parent's length, and the
address of the array that `create` made a moment before, which is long enough.
-/
theorem tableCopied_iff (hcur : k.threads cur = some t) (hx : TableKnown k t.fileInfo)
    (hflags : flags &&& cloneFiles = 0)
    (h : kCloneImpl off garbageFx garbage k cur cr3 regs flags newsp parentTid childTid tls =
      some (p, k')) (hchild : k'.threads p = some child) :
    TableCopied k t.fileInfo child.fileInfo k' ↔ HoldsTable k (k.files t.fileInfo) garbage := by
  constructor
  · intro hc
    have hgarbage := ((kCloneImpl_spec hcur h).garbage hcur hchild hflags).1
    have hcount := hc.refCount
    have hmax := hc.maxFdCount
    have hown := hc.own
    rw [hgarbage] at hcount hmax hown
    exact ⟨hcount, hmax, hown⟩
  · intro hg
    obtain ⟨km, hm, hnew, hfiles, hfds, hinfos, hnext⟩ := kCloneImpl_files hcur h hchild
    rw [hnew]
    exact cloneFileInfo_copied hm hx hflags hg hfiles hfds hinfos hnext

/-- The tables of a run are known. -/
theorem FileInv.tableKnown {s : ProcState} (hi : FileInv s) (hx : x ∈ s.tables) :
    TableKnown s.kernel x :=
  ⟨hi.self hx, hi.array_lt hx, fun i f hlt hf => hi.below x hx f (.inr (.inr ⟨i, hlt, hf⟩))⟩

/-- A run of a creation, after which the thread opens a file. -/
theorem openedThread : ∃ s p t f, Reachable ProcStart (ProcStep FilesSafe) s ∧
    s.kernel.threads p = some t ∧ t.fileInfo ∈ s.tables ∧ Entry s.kernel t.fileInfo f ∧
      (s.kernel.files t.fileInfo).maxFdCount = defaultFdNum ∧
      getFreeThread s.kernel = some (.slot ⟨1, one_lt_kMaxThreadCount⟩, 1) := by
  obtain ⟨s, p, t, hr, hp, hstate, -, hfile, -, htables, -, -, -, -, hfiles, hfds, -, hfree⟩ :=
    oneThread FilesSafe fun _ => trivial
  have hlive : t.state ≠ .kRunTerminated := by rw [hstate]; decide
  have hmem : t.fileInfo ∈ s.tables := by
    rw [hfile, htables]
    exact List.mem_cons_self
  have hmax : (s.kernel.files t.fileInfo).maxFdCount = defaultFdNum := by rw [hfile, hfiles]
  have hopen : Reachable ProcStart (ProcStep FilesSafe)
      { s with kernel := (addFdInfo (newFdInfo s.kernel 12) t s.kernel.next).2 } :=
    hr.tail (.openFd trivial hp hlive)
  rcases addFdInfo_cases (newFdInfo s.kernel 12) t s.kernel.next with
    ⟨i, hlt, -, he⟩ | ⟨hfull, -⟩
  · rw [he] at hopen
    refine ⟨_, p, t, s.kernel.next, hopen, hp, hmem, ⟨i, hlt, ?_⟩, hmax, hfree⟩
    dsimp only [newFdInfo]
    rw [Function.update_self, Function.update_self]
  · -- the table is empty before
    refine absurd ?_ (hfull 0 ?_)
    · dsimp only [newFdInfo]
      rw [hfile, hfiles, hfds]
    · dsimp only [newFdInfo]
      rw [hmax]
      decide

/-- Its table, copied into memory that holds the result. -/
theorem tableCopied_opened : ∃ s p t f garbage k' child,
    Reachable ProcStart (ProcStep FilesSafe) s ∧ s.kernel.threads p = some t ∧
      Entry s.kernel t.fileInfo f ∧
      kCloneImpl 0xffff800000000000 emptyFx garbage s.kernel p 0x1000 0 0 0 0 0 0 =
        some (.slot ⟨1, one_lt_kMaxThreadCount⟩, k') ∧
      k'.threads (.slot ⟨1, one_lt_kMaxThreadCount⟩) = some child ∧
      TableCopied s.kernel t.fileInfo child.fileInfo k' := by
  obtain ⟨s, p, t, f, hr, hp, hmem, hentry, hmax, hfree⟩ := openedThread
  have hknown := (fileInv_reachable hr).tableKnown hmem
  let garbage : FileInfo := ⟨s.kernel.next + 2, defaultFdNum, 1⟩
  obtain ⟨k', hk'⟩ := kCloneImpl_total 0xffff800000000000 0x1000 0 0 0 0 0 0 emptyFx garbage hp hfree
  obtain ⟨-, _, child, hthreads, -⟩ := (kCloneImpl_spec hp hk').threads_eq hp
  have hchild : k'.threads (.slot ⟨1, one_lt_kMaxThreadCount⟩) = some child := by
    rw [hthreads, Function.update_self]
  have hholds : HoldsTable s.kernel (s.kernel.files t.fileInfo) garbage :=
    ⟨rfl, hmax.symm, defaultFdNum, List.mem_singleton.mpr rfl, Int.le_of_eq hmax⟩
  have hcopied := (tableCopied_iff hp hknown (Nat.zero_and _) hk' hchild).mpr hholds
  exact ⟨s, p, t, f, garbage, k', child, hr, hp, hentry, hk', hchild, hcopied⟩

/-- **The memory for the child's table was the parent's once**: count and length are right, and the
child gets the parent's array. -/
theorem table_shared : ∃ s p t k' child,
    Reachable ProcStart (ProcStep FilesSafe) s ∧ s.kernel.threads p = some t ∧
      kCloneImpl 0xffff800000000000 emptyFx (s.kernel.files t.fileInfo) s.kernel p 0x1000 0 0 0 0 0
        0 = some (.slot ⟨1, one_lt_kMaxThreadCount⟩, k') ∧
      k'.threads (.slot ⟨1, one_lt_kMaxThreadCount⟩) = some child ∧
      (k'.files child.fileInfo).fds = (s.kernel.files t.fileInfo).fds ∧
      ¬ TableCopied s.kernel t.fileInfo child.fileInfo k' := by
  obtain ⟨s, p, t, hr, hp, -, -, hfile, -, htables, -, -, -, -, -, -, -, hfree⟩ :=
    oneThread FilesSafe fun _ => trivial
  have hmem : t.fileInfo ∈ s.tables := by simp [hfile, htables]
  have harray := (fileInv_reachable hr).array_lt hmem
  obtain ⟨k', hk'⟩ := kCloneImpl_total 0xffff800000000000 0x1000 0 0 0 0 0 0 emptyFx
    (s.kernel.files t.fileInfo) hp hfree
  have hc := kCloneImpl_spec hp hk'
  obtain ⟨-, _, child, hthreads, -⟩ := hc.threads_eq hp
  have hchild : k'.threads (.slot ⟨1, one_lt_kMaxThreadCount⟩) = some child := by
    rw [hthreads, Function.update_self]
  have hgarbage := (hc.garbage hp hchild (Nat.zero_and _)).1
  refine ⟨s, p, t, k', child, hr, hp, hk', hchild, by rw [hgarbage], fun hcopied => ?_⟩
  obtain ⟨n, hown, -⟩ := hcopied.own
  rw [hgarbage] at hown
  have := (Prod.mk.inj (List.mem_singleton.mp hown)).1
  omega

end IonOS.Proc
