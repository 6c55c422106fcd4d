import IonOS.Proc.Lifetime

/-!
# The life of a table of open files

A `thread_file_info_t` counts the threads that share it, and `k_exit_impl` does not
look at the count: it frees the table, its array and its files at every exit. So a
table is freed once and in time as long as no thread that shares it with a live one
exits. The table that `create` makes for a clone is replaced and forgotten.
-/

namespace IonOS.Proc

open IonOS.Lib IonOS.Libs IonOS.Mm IonOS.Arch

/-! ## What is owed -/

/-- `o` is a file in the table `x`. -/
def Entry (k : Kernel) (x o : Nat) : Prop :=
  ∃ i < (k.files x).maxFdCount.toNat, k.fds (k.files x).fds i = some o

/-- `o` is the table `x`, its array or one of its files. -/
def Owned (k : Kernel) (x o : Nat) : Prop := o = x ∨ o = (k.files x).fds ∨ Entry k x o

/-- The number of live threads that use the table `x`. -/
def users (k : Kernel) (x : Nat) : Nat := sharers (·.fileInfo) k.threads x

/-- What is owed to a table. -/
structure FileOk (k : Kernel) (x : Nat) : Prop where
  /-- It counts the threads that share it, while it is there. -/
  count : x ∉ k.freed → (k.files x).refCount = users k x
  /-- All of it is freed once the last is gone, once, and not before. -/
  freed : ∀ o, Owned k x o → k.freed.count o = if users k x = 0 then 1 else 0

/-- Clones share the table, and a thread exits only when it is the last to use its own. -/
def FilesSafe (s : ProcState) : ProcEvent → Prop
  | .clone _ flags => flags &&& cloneFiles ≠ 0
  | .exit cur => ∀ t, s.kernel.threads cur = some t → users s.kernel t.fileInfo = 1
  | _ => True

/-- What holds in every run of such steps. -/
structure FileInv (s : ProcState) : Prop where
  known : ∀ p t, s.kernel.threads p = some t → t.fileInfo ∈ s.tables
  count : ∀ x ∈ s.tables, 0 < users s.kernel x → (s.kernel.files x).refCount = users s.kernel x
  freed : ∀ x ∈ s.tables, ∀ o, Owned s.kernel x o →
    s.kernel.freed.count o = if users s.kernel x = 0 then 1 else 0
  /-- A table, its array and its files are different objects, -/
  array : ∀ x ∈ s.tables, (s.kernel.files x).fds ≠ x ∧
    ∀ o, Entry s.kernel x o → o ≠ x ∧ o ≠ (s.kernel.files x).fds
  inj : ∀ x ∈ s.tables, ∀ i j o, i < (s.kernel.files x).maxFdCount.toNat →
    j < (s.kernel.files x).maxFdCount.toNat → s.kernel.fds (s.kernel.files x).fds i = some o →
    s.kernel.fds (s.kernel.files x).fds j = some o → i = j
  /-- and nothing of one belongs to another. -/
  apart : ∀ x ∈ s.tables, ∀ y ∈ s.tables, x ≠ y → ∀ o, Owned s.kernel x o → ¬ Owned s.kernel y o
  below : ∀ x ∈ s.tables, ∀ o, Owned s.kernel x o → o < s.kernel.next
  freedBelow : ∀ o ∈ s.kernel.freed, o < s.kernel.next
  /-- A table left behind belongs to nobody. -/
  cloned : ∀ y ∈ s.cloned, y < s.kernel.next ∧ y ∉ s.kernel.freed ∧
    ∀ x ∈ s.tables, ¬ Owned s.kernel x y

variable {s s' : ProcState} {k k' : Kernel} {x y o : Nat} {cur p : ThreadPtr} {t : Thread}

theorem FileInv.self (hi : FileInv s) (hx : x ∈ s.tables) : x < s.kernel.next :=
  hi.below x hx x (.inl rfl)

theorem FileInv.fileOk (hi : FileInv s) (hx : x ∈ s.tables) : FileOk s.kernel x := by
  refine ⟨fun hnot => hi.count x hx ?_, hi.freed x hx⟩
  -- a table that is not freed is in use
  by_contra hzero
  have hone := hi.freed x hx x (.inl rfl)
  rw [if_pos (by omega), List.count_eq_zero_of_not_mem hnot] at hone
  exact absurd hone (by decide)

theorem FileInv.unused (hi : FileInv s) (hy : y ∈ s.cloned) : users s.kernel y = 0 :=
  sharers_eq_zero fun p t hp _ hf =>
    (hi.cloned y hy).2.2 y (hf ▸ hi.known p t hp) (.inl rfl)

/-- A table left behind is never freed. -/
theorem FileInv.not_fileOk (hi : FileInv s) (hy : y ∈ s.cloned) : ¬ FileOk s.kernel y := by
  intro hok
  have hone := hok.freed y (.inl rfl)
  rw [if_pos (hi.unused hy), List.count_eq_zero_of_not_mem (hi.cloned y hy).2.1] at hone
  exact absurd hone (by decide)

theorem fileInv_start (h : ProcStart s) : FileInv s := by
  refine ⟨fun p t hp => ?_, ?_, ?_, ?_, ?_, ?_, ?_, ?_, ?_⟩
  · rw [h.threads p] at hp
    exact nomatch hp
  · simp [h.tables]
  · simp [h.tables]
  · simp [h.tables]
  · simp [h.tables]
  · simp [h.tables]
  · simp [h.tables]
  · simp [h.freed]
  · simp [h.cloned]

/-! ## Tables that stay as they are -/

/-- The table `x` and its array have not changed. -/
structure Same (k k' : Kernel) (x : Nat) : Prop where
  fds : (k'.files x).fds = (k.files x).fds
  max : (k'.files x).maxFdCount = (k.files x).maxFdCount
  entries : k'.fds (k.files x).fds = k.fds (k.files x).fds

theorem Same.entry (h : Same k k' x) : Entry k' x o ↔ Entry k x o := by
  unfold Entry
  rw [h.fds, h.max, h.entries]

theorem Same.owned (h : Same k k' x) : Owned k' x o ↔ Owned k x o := by
  unfold Owned
  rw [h.fds, h.entry]

/-- **Steps that keep the tables there were**, and may add one with nothing in it, or forget it. -/
structure Grown (s s' : ProcState) (new : List Nat) : Prop where
  same : ∀ x ∈ s.tables, Same s.kernel s'.kernel x
  next : s.kernel.next ≤ s'.kernel.next
  freed : s'.kernel.freed = s.kernel.freed
  tables : s'.tables = new ++ s.tables
  /-- A new table has an array of its own, -/
  fresh : ∀ x ∈ new, s.kernel.next ≤ x ∧ x + 1 < s'.kernel.next ∧
    (s'.kernel.files x).fds = x + 1 ∧ ∀ i, s'.kernel.fds (x + 1) i = none
  /-- and there is one at most. -/
  one : new.length ≤ 1

theorem Grown.owned {new : List Nat} (hg : Grown s s' new) (hx : x ∈ new) :
    Owned s'.kernel x o ↔ o = x ∨ o = x + 1 := by
  obtain ⟨-, -, hfds, hnone⟩ := hg.fresh x hx
  unfold Owned Entry
  rw [hfds]
  constructor
  · intro ho
    rcases ho with ho | ho | ⟨i, -, he⟩
    · exact .inl ho
    · exact .inr ho
    · rw [hnone] at he
      exact nomatch he
  · intro ho
    rcases ho with ho | ho
    · exact .inl ho
    · exact .inr (.inl ho)

/-- The parts of the invariant that are about tables, and not about threads. -/
theorem FileInv.grow (hi : FileInv s) (new : List Nat) (hg : Grown s s' new)
    (hknown : ∀ p t, s'.kernel.threads p = some t → t.fileInfo ∈ s'.tables)
    (hcount : ∀ x ∈ s'.tables, (s'.kernel.files x).refCount = users s'.kernel x ∨
      (users s'.kernel x = 0 ∧ x ∈ s.tables))
    (husers : ∀ x ∈ s.tables, users s'.kernel x = 0 ↔ users s.kernel x = 0)
    (hnew : ∀ x ∈ new, 0 < users s'.kernel x)
    (hcloned : ∀ y ∈ s'.cloned, y ∈ s.cloned ∨
      (s.kernel.next ≤ y ∧ y < s'.kernel.next ∧ new = [])) : FileInv s' := by
  have hfresh : ∀ x ∈ new, ∀ o, Owned s'.kernel x o → s.kernel.next ≤ o ∧ o < s'.kernel.next := by
    intro x hx o ho
    have := hg.fresh x hx
    rcases (hg.owned hx).mp ho with rfl | rfl
    · omega
    · omega
  have hold : ∀ x ∈ s.tables, ∀ o, Owned s'.kernel x o → o < s.kernel.next := fun x hx o ho =>
    hi.below x hx o ((hg.same x hx).owned.mp ho)
  have hmem : ∀ x, x ∈ s'.tables → x ∈ new ∨ x ∈ s.tables := by
    intro x hx
    rw [hg.tables] at hx
    exact List.mem_append.mp hx
  have hnext := hg.next
  refine ⟨hknown, fun x hx hpos => ?_, fun x hx o ho => ?_, fun x hx => ?_, fun x hx => ?_,
    fun x hx y hy hne o ho ho' => ?_, fun x hx o ho => ?_, fun o ho => ?_, fun y hy => ?_⟩
  · rcases hcount x hx with h | ⟨h, -⟩
    · exact h
    · omega
  · rw [hg.freed]
    rcases hmem x hx with hx | hx
    · have hpos := hnew x hx
      rw [if_neg (by omega)]
      refine List.count_eq_zero_of_not_mem fun hmem => ?_
      have := hi.freedBelow o hmem
      have := hfresh x hx o ho
      omega
    · rw [hi.freed x hx o ((hg.same x hx).owned.mp ho)]
      simp only [husers x hx]
  · rcases hmem x hx with hx | hx
    · obtain ⟨-, -, hfds, hnone⟩ := hg.fresh x hx
      rw [hfds]
      refine ⟨Nat.succ_ne_self x, fun o ⟨i, _, he⟩ => ?_⟩
      rw [hfds, hnone] at he
      exact nomatch he
    · have hs := hg.same x hx
      rw [hs.fds]
      obtain ⟨h1, h2⟩ := hi.array x hx
      exact ⟨h1, fun o ho => h2 o (hs.entry.mp ho)⟩
  · rcases hmem x hx with hx | hx
    · obtain ⟨-, -, hfds, hnone⟩ := hg.fresh x hx
      intro i j o _ _ he
      rw [hfds, hnone] at he
      exact nomatch he
    · have hs := hg.same x hx
      rw [hs.fds, hs.max, hs.entries]
      exact hi.inj x hx
  · rcases hmem x hx with hx | hx
    · rcases hmem y hy with hy | hy
      · -- there is one new table only
        have hone := hg.one
        match new, hx, hy, hone with
        | [z], hx, hy, _ =>
            rw [List.mem_singleton.mp hx, List.mem_singleton.mp hy] at hne
            exact hne rfl
      · have := hfresh x hx o ho
        have := hold y hy o ho'
        omega
    · rcases hmem y hy with hy | hy
      · have := hfresh y hy o ho'
        have := hold x hx o ho
        omega
      · exact hi.apart x hx y hy hne o ((hg.same x hx).owned.mp ho) ((hg.same y hy).owned.mp ho')
  · rcases hmem x hx with hx | hx
    · exact (hfresh x hx o ho).2
    · have := hold x hx o ho
      omega
  · rw [hg.freed] at ho
    have := hi.freedBelow o ho
    omega
  · rw [hg.freed]
    rcases hcloned y hy with hy | ⟨h1, h2, rfl⟩
    · obtain ⟨hlt, hnot, hnobody⟩ := hi.cloned y hy
      refine ⟨by omega, hnot, fun x hx ho => ?_⟩
      rcases hmem x hx with hx | hx
      · have := hfresh x hx y ho
        omega
      · exact hnobody x hx ((hg.same x hx).owned.mp ho)
    · refine ⟨h2, fun hmem => ?_, fun x hx ho => ?_⟩
      · have := hi.freedBelow y hmem
        omega
      · rcases hmem x hx with hx | hx
        · exact absurd hx List.not_mem_nil
        · have := hold x hx y ho
          omega

/-! ## One step -/

theorem users_create {cr3 tflags : Nat} (hc : Created k cr3 tflags p k') (x : Nat) :
    users k' x = users k x + if x = k.next + 1 then 1 else 0 := by
  obtain ⟨t, hthreads, -, -, hfile, -, hstate⟩ := hc.threads
  have hlive : t.state ≠ .kRunTerminated := by rw [hstate]; decide
  unfold users
  rw [hthreads, sharers_insert _ hc.empty hlive, hfile]

/-- `create` leaves the tables there are alone. -/
theorem same_create {cr3 tflags : Nat} (hc : Created k cr3 tflags p k') (hx : x < k.next)
    (harr : (k.files x).fds < k.next) : Same k k' x := by
  have hfiles : k'.files x = k.files x := by
    rw [hc.files, Function.update_of_ne (by omega)]
  refine ⟨by rw [hfiles], by rw [hfiles], ?_⟩
  rw [hc.fds, Function.update_of_ne (by omega)]

theorem FileInv.array_lt (hi : FileInv s) (hx : x ∈ s.tables) :
    (s.kernel.files x).fds < s.kernel.next := hi.below x hx _ (.inr (.inl rfl))

theorem fileInv_create {cr3 tflags : Nat} (hi : FileInv s) (hc : Created s.kernel cr3 tflags p k')
    {contexts : List Nat} :
    FileInv { s with
              kernel := k', contexts := contexts, tables := (s.kernel.next + 1) :: s.tables } := by
  have husers := users_create hc
  have hzero : users s.kernel (s.kernel.next + 1) = 0 := by
    refine sharers_eq_zero fun q u hq _ hf => ?_
    have := hi.self (hi.known q u hq)
    omega
  obtain ⟨t, hthreads, -, -, hfile, -, -⟩ := hc.threads
  refine hi.grow [s.kernel.next + 1] ⟨fun x hx => ?_, ?_, hc.freed, rfl, fun x hx => ?_,
    Nat.le_refl 1⟩ ?_ ?_ ?_ ?_ fun y hy => .inl hy
  · exact same_create hc (hi.self hx) (hi.array_lt hx)
  · rw [hc.next]
    exact Nat.le_add_right _ _
  · obtain rfl := List.mem_singleton.mp hx
    dsimp only
    rw [hc.next, hc.files, Function.update_self, hc.fds]
    refine ⟨by omega, by omega, rfl, fun i => ?_⟩
    rw [Function.update_self]
  · intro q u hq
    dsimp only at hq ⊢
    rw [hthreads] at hq
    by_cases hqp : q = p
    · rw [hqp, Function.update_self] at hq
      rw [← Option.some.inj hq, hfile]
      exact List.mem_cons_self
    · rw [Function.update_of_ne hqp] at hq
      exact List.mem_cons_of_mem _ (hi.known q u hq)
  · intro x hx
    dsimp only at hx ⊢
    rw [husers, hc.files]
    rcases List.mem_cons.mp hx with rfl | hx
    · rw [Function.update_self, if_pos rfl, hzero]
      exact .inl rfl
    · have hne : x ≠ s.kernel.next + 1 := by
        have := hi.self hx
        omega
      rw [Function.update_of_ne hne, if_neg hne, Nat.add_zero]
      rcases Nat.eq_zero_or_pos (users s.kernel x) with h0 | hpos
      · exact .inr ⟨h0, hx⟩
      · exact .inl (hi.count x hx hpos)
  · intro x hx
    dsimp only
    rw [husers, if_neg (by have := hi.self hx; omega), Nat.add_zero]
  · intro x hx
    dsimp only
    rw [husers, if_pos (List.mem_singleton.mp hx)]
    exact Nat.succ_pos _

/-- A clone that shares the table: what becomes of it. -/
theorem Cloned.files {garbage : FileInfo} {cr3 flags : Nat}
    (hc : Cloned k garbage cur t cr3 flags p k') (hflags : flags &&& cloneFiles ≠ 0) :
    k'.files = Function.update (Function.update k.files (k.next + 1)
        ⟨k.next + 2, defaultFdNum, 1⟩) t.fileInfo
      { Function.update k.files (k.next + 1) ⟨k.next + 2, defaultFdNum, 1⟩ t.fileInfo with
        refCount := (Function.update k.files (k.next + 1) ⟨k.next + 2, defaultFdNum, 1⟩
          t.fileInfo).refCount + 1 } ∧
      k'.fds = Function.update k.fds (k.next + 2) (fun _ => none) ∧ k'.freed = k.freed := by
  obtain ⟨kc, km, kf, mm, fileInfo, hcreate, hmm, hfile, -, hfiles, hfds, hfreed, -⟩ := hc.spec
  obtain ⟨-, hsfds, hsfiles⟩ := hfile.shared hflags
  refine ⟨?_, ?_, ?_⟩
  · rw [hfiles, hsfiles, hmm.files, hcreate.files]
  · rw [hfds, hsfds, hmm.fds, hcreate.fds]
  · rw [hfreed, hfile.freed, hmm.freed, hcreate.freed]

theorem fileInv_clone {cr3 flags : Nat} {garbage : FileInfo} {child : Thread} (hi : FileInv s)
    (hcur : s.kernel.threads cur = some t) (hlive : t.state ≠ .kRunTerminated)
    (hc : Cloned s.kernel garbage cur t cr3 flags p k') (hchild : k'.threads p = some child)
    (hflags : flags &&& cloneFiles ≠ 0) {contexts : List Nat} :
    FileInv { s with
              kernel := k', contexts := contexts, cloned := (s.kernel.next + 1) :: s.cloned } := by
  have hsharers := hc.sharers hcur hchild (·.fileInfo) (fun _ _ h => h)
  obtain ⟨hempty, current, child', hthreads, ⟨-, hcfile, -⟩, -, -, hshared, -, hnext⟩ :=
    hc.threads_eq hcur
  obtain rfl : child' = child := by
    rw [hthreads, Function.update_self] at hchild
    exact Option.some.inj hchild
  obtain ⟨hfiles, hfds, hfreed⟩ := hc.files hflags
  have hmem := hi.known cur t hcur
  have hself := hi.self hmem
  have hpos : 0 < users s.kernel t.fileInfo := sharers_pos hcur hlive rfl
  have husers : ∀ x, users k' x = users s.kernel x + if x = t.fileInfo then 1 else 0 := by
    intro x
    rw [← hshared hflags]
    exact hsharers x
  rw [Function.update_of_ne (by omega)] at hfiles
  have hfile : ∀ x ∈ s.tables, k'.files x =
      { s.kernel.files x with
        refCount := (s.kernel.files x).refCount + if x = t.fileInfo then 1 else 0 } := by
    intro x hx
    rw [hfiles]
    by_cases hxt : x = t.fileInfo
    · rw [hxt, Function.update_self, if_pos rfl]
    · have := hi.self hx
      rw [Function.update_of_ne hxt, Function.update_of_ne (by omega), if_neg hxt, Int.add_zero]
  refine hi.grow [] ⟨fun x hx => ?_, by dsimp only; omega, hfreed, rfl,
    fun x hx => absurd hx List.not_mem_nil, Nat.zero_le 1⟩ ?_ ?_ ?_
    (fun x hx => absurd hx List.not_mem_nil) ?_
  · have := hi.array_lt hx
    refine ⟨by dsimp only; rw [hfile x hx], by dsimp only; rw [hfile x hx], ?_⟩
    dsimp only
    rw [hfds, Function.update_of_ne (by omega)]
  · intro q u hq
    dsimp only at hq ⊢
    rw [hthreads] at hq
    by_cases hqp : q = p
    · rw [hqp, Function.update_self] at hq
      rw [← Option.some.inj hq, hshared hflags]
      exact hmem
    · rw [Function.update_of_ne hqp] at hq
      by_cases hqc : q = cur
      · rw [hqc, Function.update_self] at hq
        rw [← Option.some.inj hq, hcfile]
        exact hmem
      · rw [Function.update_of_ne hqc] at hq
        exact hi.known q u hq
  · intro x hx
    dsimp only at hx ⊢
    rw [husers, hfile x hx]
    rcases Nat.eq_zero_or_pos (users s.kernel x) with h0 | hx0
    · have hne : x ≠ t.fileInfo := fun h => by
        rw [h] at h0
        omega
      exact .inr ⟨by rw [h0, if_neg hne], hx⟩
    · refine .inl ?_
      dsimp only
      rw [hi.count x hx hx0]
      split
      · rfl
      · rfl
  · intro x hx
    dsimp only
    rw [husers]
    by_cases hxt : x = t.fileInfo
    · rw [hxt]
      omega
    · rw [if_neg hxt, Nat.add_zero]
  · intro y hy
    rcases List.mem_cons.mp hy with rfl | hy
    · exact .inr ⟨by omega, by dsimp only; omega, rfl⟩
    · exact .inl hy

/-- How often the loop frees a file, if no file is in the table twice. -/
theorem count_freeFds {fds : Nat → Option Nat} (freed : List Nat) {n : Nat}
    (hinj : ∀ i j o, i < n → j < n → fds i = some o → fds j = some o → i = j) :
    ((∃ i < n, fds i = some o) → (freeFds fds freed n).count o = freed.count o + 1) ∧
      ((¬ ∃ i < n, fds i = some o) → (freeFds fds freed n).count o = freed.count o) := by
  induction n with
  | zero => exact ⟨fun ⟨i, hi, _⟩ => absurd hi (Nat.not_lt_zero i), fun _ => rfl⟩
  | succ n ih =>
    obtain ⟨ihin, ihout⟩ := ih fun i j o h h' => hinj i j o (by omega) (by omega)
    rw [freeFds]
    cases hn : fds n with
    | none =>
        have hsame : (∃ i < n + 1, fds i = some o) ↔ ∃ i < n, fds i = some o := by
          constructor
          · intro ⟨i, hlt, he⟩
            rcases Nat.lt_succ_iff_lt_or_eq.mp hlt with hlt | rfl
            · exact ⟨i, hlt, he⟩
            · rw [hn] at he
              exact nomatch he
          · intro ⟨i, hlt, he⟩
            exact ⟨i, by omega, he⟩
        rw [hsame]
        exact ⟨ihin, ihout⟩
    | some fd =>
        by_cases hfd : fd = o
        · subst hfd
          have hnot : ¬ ∃ i < n, fds i = some fd := by
            intro ⟨i, hlt, he⟩
            have := hinj i n fd (by omega) (by omega) he hn
            omega
          refine ⟨fun _ => ?_, fun h => absurd ⟨n, Nat.lt_succ_self n, hn⟩ h⟩
          rw [List.count_cons_self, ihout hnot]
        · have hsame : (∃ i < n + 1, fds i = some o) ↔ ∃ i < n, fds i = some o := by
            constructor
            · intro ⟨i, hlt, he⟩
              rcases Nat.lt_succ_iff_lt_or_eq.mp hlt with hlt | rfl
              · exact ⟨i, hlt, he⟩
              · exact absurd (Option.some.inj (hn.symm.trans he)) hfd
            · intro ⟨i, hlt, he⟩
              exact ⟨i, by omega, he⟩
          rw [hsame]
          dsimp only
          rw [List.count_cons_of_ne hfd]
          exact ⟨ihin, ihout⟩

/-- **An exit frees all of the thread's table**, each object once, and nothing else. -/
theorem count_exit (hi : FileInv s) (hx : t.fileInfo ∈ s.tables)
    (he : Exited s.kernel cur t k') :
    (Owned s.kernel t.fileInfo o → k'.freed.count o = s.kernel.freed.count o + 1) ∧
      (¬ Owned s.kernel t.fileInfo o → k'.freed.count o = s.kernel.freed.count o) := by
  obtain ⟨hne, hentries⟩ := hi.array _ hx
  obtain ⟨hin, hout⟩ := count_freeFds (o := o) s.kernel.freed (hi.inj _ hx)
  have hcons : ∀ a l, List.count o (a :: l) = List.count o l + if a = o then 1 else 0 := by
    intro a l
    rw [List.count_cons]
    simp only [beq_iff_eq]
  rw [he.freed, hcons, hcons]
  constructor
  · intro ho
    by_cases hself : t.fileInfo = o
    · have hno : ¬ Entry s.kernel t.fileInfo o := fun h => (hentries o h).1 hself.symm
      rw [if_pos hself, if_neg fun h => hne (h.trans hself.symm), hout hno]
    · rw [if_neg hself]
      by_cases harr : (s.kernel.files t.fileInfo).fds = o
      · have hno : ¬ Entry s.kernel t.fileInfo o := fun h => (hentries o h).2 harr.symm
        rw [if_pos harr, hout hno]
      · rw [if_neg harr]
        rcases ho with ho | ho | ho
        · exact absurd ho.symm hself
        · exact absurd ho.symm harr
        · exact hin ho
  · intro ho
    have hself : ¬ t.fileInfo = o := fun h => ho (.inl h.symm)
    have harr : ¬ (s.kernel.files t.fileInfo).fds = o := fun h => ho (.inr (.inl h.symm))
    rw [if_neg hself, if_neg harr, hout fun h => ho (.inr (.inr h)), Nat.add_zero]

theorem users_exit (hcur : k.threads cur = some t) (hlive : t.state ≠ .kRunTerminated)
    (he : Exited k cur t k') (x : Nat) :
    users k' x + (if x = t.fileInfo then 1 else 0) = users k x := by
  obtain ⟨t', hthreads, hdead, -, -⟩ := he.threads
  unfold users
  rw [hthreads]
  exact sharers_exit (·.fileInfo) hcur hlive hdead x

theorem Exited.same (he : Exited k cur t k') (x : Nat) : Same k k' x := by
  refine ⟨?_, ?_, ?_⟩
  · rw [he.files]
  · rw [he.files]
  · rw [he.fds]

/-- The last user of a table exits. -/
theorem fileInv_exit (hi : FileInv s) (hcur : s.kernel.threads cur = some t)
    (hlive : t.state ≠ .kRunTerminated) (he : Exited s.kernel cur t k')
    (hsole : users s.kernel t.fileInfo = 1) (released : List Nat) :
    FileInv { s with kernel := k', released := released } := by
  have hmem := hi.known cur t hcur
  have husers := users_exit hcur hlive he
  obtain ⟨t', hthreads, -, -, hfile⟩ := he.threads
  refine ⟨fun q u hq => ?_, fun x hx hpos => ?_, fun x hx o ho => ?_, fun x hx => ?_, fun x hx => ?_,
    fun x hx y hy hne o ho ho' => ?_, fun x hx o ho => ?_, fun o ho => ?_, fun y hy => ?_⟩
  · dsimp only at hq ⊢
    rw [hthreads] at hq
    by_cases hqc : q = cur
    · rw [hqc, Function.update_self] at hq
      rw [← Option.some.inj hq, hfile]
      exact hmem
    · rw [Function.update_of_ne hqc] at hq
      exact hi.known q u hq
  · dsimp only at hx hpos ⊢
    have hx' := husers x
    rw [he.files]
    by_cases hxt : x = t.fileInfo
    · rw [if_pos hxt, hxt, hsole] at hx'
      rw [hxt] at hpos
      omega
    · rw [if_neg hxt] at hx'
      rw [hi.count x hx (by omega)]
      omega
  · dsimp only at hx ho ⊢
    have hx' := husers x
    have ho := (he.same x).owned.mp ho
    obtain ⟨hin, hout⟩ := count_exit (o := o) hi hmem he
    have hold := hi.freed x hx o ho
    by_cases hxt : x = t.fileInfo
    · rw [if_pos hxt, hxt, hsole] at hx'
      rw [hxt] at ho hold ⊢
      rw [hsole, if_neg Nat.one_ne_zero] at hold
      rw [hin ho, hold, if_pos (by omega)]
    · rw [if_neg hxt, Nat.add_zero] at hx'
      rw [hout (hi.apart x hx _ hmem hxt o ho), hold, hx']
  · have hs := he.same x
    dsimp only
    rw [hs.fds]
    obtain ⟨h1, h2⟩ := hi.array x hx
    exact ⟨h1, fun o ho => h2 o (hs.entry.mp ho)⟩
  · have hs := he.same x
    dsimp only
    rw [hs.fds, hs.max, hs.entries]
    exact hi.inj x hx
  · exact hi.apart x hx y hy hne o ((he.same x).owned.mp ho) ((he.same y).owned.mp ho')
  · dsimp only
    rw [he.next]
    exact hi.below x hx o ((he.same x).owned.mp ho)
  · dsimp only at ho ⊢
    rw [he.next]
    by_cases hown : Owned s.kernel t.fileInfo o
    · exact hi.below _ hmem o hown
    · refine hi.freedBelow o (List.count_pos_iff.mp ?_)
      rw [← (count_exit hi hmem he).2 hown]
      exact List.count_pos_iff.mpr ho
  · obtain ⟨hlt, hnot, hnobody⟩ := hi.cloned y hy
    dsimp only
    rw [he.next]
    refine ⟨hlt, fun hfreed => ?_, fun x hx ho => hnobody x hx ((he.same x).owned.mp ho)⟩
    have hcount := (count_exit hi hmem he).2 (hnobody _ hmem)
    rw [List.count_eq_zero_of_not_mem hnot] at hcount
    have := List.count_pos_iff.mpr hfreed
    omega

/-- The kernel with one more `fd_info`. -/
def newFdInfo (k : Kernel) (handle : Nat) : Kernel :=
  { k with fdInfos := Function.update k.fdInfos k.next handle, next := k.next + 1 }

/-- A file more in a live thread's table. -/
theorem FileInv.put (hi : FileInv s) (hx : x ∈ s.tables) (hused : 0 < users s.kernel x) {i : Nat}
    (hlt : i < (s.kernel.files x).maxFdCount.toNat)
    (hfree : s.kernel.fds (s.kernel.files x).fds i = none) {handle : Nat} :
    FileInv { s with
              kernel :=
                { newFdInfo s.kernel handle with
                  fds := Function.update s.kernel.fds (s.kernel.files x).fds
                    (Function.update (s.kernel.fds (s.kernel.files x).fds) i
                      (some s.kernel.next)) } } := by
  let k' : Kernel :=
    { newFdInfo s.kernel handle with
      fds := Function.update s.kernel.fds (s.kernel.files x).fds
        (Function.update (s.kernel.fds (s.kernel.files x).fds) i (some s.kernel.next)) }
  have harray : k'.fds (s.kernel.files x).fds =
      Function.update (s.kernel.fds (s.kernel.files x).fds) i (some s.kernel.next) :=
    Function.update_self _ _ _
  have hother : ∀ y ∈ s.tables, y ≠ x →
      k'.fds (s.kernel.files y).fds = s.kernel.fds (s.kernel.files y).fds := by
    intro y hy hne
    refine Function.update_of_ne (fun h => ?_) _ _
    exact hi.apart y hy x hx hne _ (.inr (.inl rfl)) (.inr (.inl h))
  have hentry : ∀ y ∈ s.tables, ∀ o,
      Entry k' y o ↔ Entry s.kernel y o ∨ (y = x ∧ o = s.kernel.next) := by
    intro y hy o
    by_cases hyx : y = x
    · subst hyx
      constructor
      · intro ⟨j, hj, he⟩
        rw [show (k'.files y).fds = (s.kernel.files y).fds from rfl, harray] at he
        by_cases hji : j = i
        · rw [hji, Function.update_self] at he
          exact .inr ⟨rfl, (Option.some.inj he).symm⟩
        · rw [Function.update_of_ne hji] at he
          exact .inl ⟨j, hj, he⟩
      · intro ho
        rcases ho with ⟨j, hj, he⟩ | ⟨-, rfl⟩
        · refine ⟨j, hj, ?_⟩
          have hji : j ≠ i := by
            intro h
            rw [h, hfree] at he
            exact nomatch he
          rw [show (k'.files y).fds = (s.kernel.files y).fds from rfl, harray,
            Function.update_of_ne hji]
          exact he
        · refine ⟨i, hlt, ?_⟩
          rw [show (k'.files y).fds = (s.kernel.files y).fds from rfl, harray,
            Function.update_self]
    · have hsame : Entry k' y o ↔ Entry s.kernel y o := by
        unfold Entry
        rw [show (k'.files y) = s.kernel.files y from rfl, hother y hy hyx]
      rw [hsame]
      exact ⟨.inl, fun h => h.resolve_right fun h => hyx h.1⟩
  have howned : ∀ y ∈ s.tables, ∀ o,
      Owned k' y o ↔ Owned s.kernel y o ∨ (y = x ∧ o = s.kernel.next) := by
    intro y hy o
    unfold Owned
    rw [hentry y hy, show k'.files y = s.kernel.files y from rfl, or_assoc, or_assoc]
  have hnew : ∀ y ∈ s.tables, ¬ Owned s.kernel y s.kernel.next := fun y hy h =>
    Nat.lt_irrefl _ (hi.below y hy _ h)
  refine ⟨hi.known, hi.count, fun y hy o ho => ?_, fun y hy => ⟨(hi.array y hy).1, ?_⟩,
    fun y hy => ?_, fun y hy z hz hne o ho ho' => ?_, fun y hy o ho => ?_,
    fun o ho => Nat.lt_succ_of_lt (hi.freedBelow o ho), fun y hy => ?_⟩
  · rcases (howned y hy o).mp ho with ho | ⟨rfl, rfl⟩
    · exact hi.freed y hy o ho
    · have hnot : s.kernel.next ∉ s.kernel.freed := fun h =>
        Nat.lt_irrefl _ (hi.freedBelow _ h)
      refine (List.count_eq_zero_of_not_mem hnot).trans ?_
      exact (if_neg (Nat.ne_of_gt hused)).symm
  · intro o ho
    rcases (hentry y hy o).mp ho with ho | ⟨-, rfl⟩
    · exact (hi.array y hy).2 o ho
    · exact ⟨fun h => hnew y hy (.inl h), fun h => hnew y hy (.inr (.inl h))⟩
  · intro j l o hj hl he he'
    replace he : k'.fds (s.kernel.files y).fds j = some o := he
    replace he' : k'.fds (s.kernel.files y).fds l = some o := he'
    by_cases hyx : y = x
    · subst hyx
      rw [harray] at he he'
      by_cases hji : j = i
      · by_cases hli : l = i
        · rw [hji, hli]
        · -- the new file is not an old one
          rw [hji, Function.update_self] at he
          rw [Function.update_of_ne hli] at he'
          obtain rfl := Option.some.inj he
          exact absurd (.inr (.inr ⟨l, hl, he'⟩)) (hnew y hy)
      · rw [Function.update_of_ne hji] at he
        by_cases hli : l = i
        · rw [hli, Function.update_self] at he'
          obtain rfl := Option.some.inj he'
          exact absurd (.inr (.inr ⟨j, hj, he⟩)) (hnew y hy)
        · rw [Function.update_of_ne hli] at he'
          exact hi.inj y hy j l o hj hl he he'
    · rw [hother y hy hyx] at he he'
      exact hi.inj y hy j l o hj hl he he'
  · rcases (howned y hy o).mp ho with ho | ⟨rfl, rfl⟩
    · rcases (howned z hz o).mp ho' with ho' | ⟨-, rfl⟩
      · exact hi.apart y hy z hz hne o ho ho'
      · exact hnew y hy ho
    · rcases (howned z hz _).mp ho' with ho' | ⟨rfl, -⟩
      · exact hnew z hz ho'
      · exact hne rfl
  · rcases (howned y hy o).mp ho with ho | ⟨-, rfl⟩
    · exact Nat.lt_succ_of_lt (hi.below y hy o ho)
    · exact Nat.lt_succ_self _
  · obtain ⟨hltn, hnot, hnobody⟩ := hi.cloned y hy
    refine ⟨Nat.lt_succ_of_lt hltn, hnot, fun z hz ho => ?_⟩
    rcases (howned z hz y).mp ho with ho | ⟨-, rfl⟩
    · exact hnobody z hz ho
    · exact Nat.lt_irrefl _ hltn

/-- What threads share, and tables, stay as they are. -/
theorem FileInv.keep (hi : FileInv s) (hfiles : k'.files = s.kernel.files)
    (hfds : k'.fds = s.kernel.fds) (hfreed : k'.freed = s.kernel.freed)
    (hnext : s.kernel.next ≤ k'.next)
    (hthreads : ∀ p, (k'.threads p).map (fun t => (t.fileInfo, t.state == .kRunTerminated)) =
      (s.kernel.threads p).map fun t => (t.fileInfo, t.state == .kRunTerminated)) :
    FileInv { s with kernel := k' } := by
  have husers : ∀ x, users k' x = users s.kernel x := sharers_same (·.fileInfo) hthreads
  refine hi.grow [] ⟨fun x _ => ⟨?_, ?_, ?_⟩, hnext, hfreed, rfl,
    fun x hx => absurd hx List.not_mem_nil, Nat.zero_le 1⟩ (fun p t hp => ?_) (fun x hx => ?_)
    (fun x _ => by rw [husers]) (fun x hx => absurd hx List.not_mem_nil) fun y hy => .inl hy
  · dsimp only
    rw [hfiles]
  · dsimp only
    rw [hfiles]
  · dsimp only
    rw [hfds]
  · have h := hthreads p
    dsimp only at hp
    rw [hp] at h
    obtain ⟨u, hu, he⟩ := Option.map_eq_some_iff.mp h.symm
    rw [← (Prod.mk.inj he).1]
    exact hi.known p u hu
  · dsimp only at hx ⊢
    rw [husers, hfiles]
    rcases Nat.eq_zero_or_pos (users s.kernel x) with h0 | hpos
    · exact .inr ⟨h0, hx⟩
    · exact .inl (hi.count x hx hpos)

/-- A file is opened in the table of a live thread. -/
theorem fileInv_openFd {handle : Nat} (hi : FileInv s) (hcur : s.kernel.threads cur = some t)
    (hlive : t.state ≠ .kRunTerminated) :
    FileInv { s with
              kernel := (addFdInfo (newFdInfo s.kernel handle) t s.kernel.next).2 } := by
  rcases addFdInfo_cases (newFdInfo s.kernel handle) t s.kernel.next with
    ⟨i, hlt, hfree, he⟩ | ⟨-, he⟩
  · rw [he]
    exact hi.put (hi.known cur t hcur) (sharers_pos hcur hlive rfl) hlt hfree
  · -- the table is full, and the new file is in no table
    rw [he]
    exact hi.keep rfl rfl rfl (Nat.le_succ _) fun _ => rfl

theorem fileInv_step (hi : FileInv s) (hs : ProcStep FilesSafe s s') : FileInv s' := by
  cases hs with
  | create _ h => exact fileInv_create hi (create_spec h).2
  | clone hok hcur hlive h hchild =>
      have hnone : ¬ _ &&& cloneFiles = 0 := hok
      rw [if_neg hnone]
      exact fileInv_clone hi hcur hlive (kCloneImpl_spec hcur h) hchild hok
  | exit hok hcur hlive h =>
      exact fileInv_exit hi hcur hlive (kExitImpl_spec hcur h) (hok _ hcur) _
  | openFd _ hcur hlive => exact fileInv_openFd hi hcur hlive
  | other _ h =>
      refine hi.keep h.files h.fds h.freed h.next fun p => ?_
      have := congrArg (Option.map fun x => (x.2.1, x.2.2)) (h.threads p)
      simpa only [Option.map_map, Function.comp_def] using this

theorem fileInv_reachable (h : Reachable ProcStart (ProcStep FilesSafe) s) : FileInv s :=
  h.invariant (fun _ => fileInv_start) fun _ _ => fileInv_step

/-! ## Which tables are right -/

/-- Without `CLONE_FILES` the clone gets whatever its new memory held. -/
theorem Cloned.garbage {garbage : FileInfo} {cr3 flags : Nat} {child : Thread}
    (hcur : k.threads cur = some t) (hc : Cloned k garbage cur t cr3 flags p k')
    (hchild : k'.threads p = some child) (hflags : flags &&& cloneFiles = 0) :
    k'.files child.fileInfo = garbage ∧ k.next ≤ child.fileInfo := by
  obtain ⟨-, current, child₁, hthreads₁, -, -, -, -, hown, -⟩ := hc.threads_eq hcur
  obtain ⟨kc, km, kf, mm, fileInfo, -, -, hfile, -, hfiles, -, -, -, -, current₂, child₂, hthreads₂,
    -, -, hcfile, -⟩ := hc.spec
  obtain rfl : child₁ = child := by
    rw [hthreads₁, Function.update_self] at hchild
    exact Option.some.inj hchild
  obtain rfl : child₂ = child₁ := by
    rw [hthreads₂, Function.update_self] at hchild
    exact Option.some.inj hchild
  obtain ⟨hnew, -, hupdate⟩ := hfile.own hflags
  refine ⟨?_, by have := (hown hflags).1; omega⟩
  rw [hfiles, hupdate, hcfile, hnew, Function.update_self]

/-- The count of a table made without `CLONE_FILES` is right by chance. -/
theorem count_clone {cr3 flags : Nat} {garbage : FileInfo} {child : Thread} (hi : FileInv s)
    (hcur : s.kernel.threads cur = some t) (hc : Cloned s.kernel garbage cur t cr3 flags p k')
    (hchild : k'.threads p = some child) (hflags : flags &&& cloneFiles = 0) :
    (k'.files child.fileInfo).refCount = users k' child.fileInfo ↔ garbage.refCount = 1 := by
  obtain ⟨hfile, hfresh⟩ := hc.garbage hcur hchild hflags
  have hnobody : users s.kernel child.fileInfo = 0 := by
    refine sharers_eq_zero fun q u hq _ hf => ?_
    have := hi.self (hi.known q u hq)
    omega
  have husers : users k' child.fileInfo = users s.kernel child.fileInfo + _ :=
    hc.sharers hcur hchild (·.fileInfo) (fun _ _ h => h) child.fileInfo
  rw [hfile, husers, hnobody, if_pos rfl]
  rfl

/-- An exit leaves the tables right if nobody else uses the thread's. -/
theorem fileOk_exit (hi : FileInv s) (hcur : s.kernel.threads cur = some t)
    (hlive : t.state ≠ .kRunTerminated) (he : Exited s.kernel cur t k') :
    (∀ x ∈ s.tables, FileOk k' x) ↔ users s.kernel t.fileInfo = 1 := by
  have hmem := hi.known cur t hcur
  constructor
  · intro hok
    have hfreed := (hok _ hmem).freed t.fileInfo (.inl rfl)
    have hcount := (count_exit (o := t.fileInfo) hi hmem he).1 (.inl rfl)
    have husers := users_exit hcur hlive he t.fileInfo
    rw [if_pos rfl] at husers
    -- the table is free now, so nobody may use it
    rw [hcount] at hfreed
    split at hfreed
    · omega
    · exact absurd hfreed (Nat.succ_ne_zero _)
  · intro hsole x hx
    exact (fileInv_exit hi hcur hlive he hsole s.released).fileOk hx

/--
**Tables of open files are right while nobody shares one and exits.**

In every run in which clones share their table, and a thread exits only when no
other live thread uses its table: the tables that `create` made for its own threads
are right and those that clones left behind are not. So all are right if and only if
there was no clone. The next exit keeps them right if and only if the thread is the
only user of its table; and the next clone that does not share has a count that is
right if and only if the memory for it happened to hold a one.
-/
theorem fileOk_iff (h : Reachable ProcStart (ProcStep FilesSafe) s) :
    (∀ x ∈ s.tables ++ s.cloned, FileOk s.kernel x ↔ x ∈ s.tables) ∧
    ((∀ x ∈ s.tables ++ s.cloned, FileOk s.kernel x) ↔ s.cloned = []) ∧
    (∀ off exitCode cur t k', s.kernel.threads cur = some t → t.state ≠ .kRunTerminated →
      kExitImpl off s.kernel cur exitCode = some k' →
      ((∀ x ∈ s.tables, FileOk k' x) ↔ users s.kernel t.fileInfo = 1)) ∧
    ∀ off garbageFx garbage cur t cr3 regs flags newsp parentTid childTid tls p k' child,
      s.kernel.threads cur = some t →
      kCloneImpl off garbageFx garbage s.kernel cur cr3 regs flags newsp parentTid childTid tls =
        some (p, k') →
      k'.threads p = some child → flags &&& cloneFiles = 0 →
      ((k'.files child.fileInfo).refCount = users k' child.fileInfo ↔ garbage.refCount = 1) := by
  have hi := fileInv_reachable h
  refine ⟨fun x hx => ?_, ?_, ?_, ?_⟩
  · refine ⟨fun hok => ?_, fun hx => hi.fileOk hx⟩
    rcases List.mem_append.mp hx with hx | hx
    · exact hx
    · exact absurd hok (hi.not_fileOk hx)
  · constructor
    · intro hok
      refine List.eq_nil_iff_forall_not_mem.mpr fun y hy => ?_
      exact hi.not_fileOk hy (hok y (List.mem_append_right _ hy))
    · intro hnil x hx
      rw [hnil, List.append_nil] at hx
      exact hi.fileOk hx
  · intro off exitCode cur t k' hcur hlive hexit
    exact fileOk_exit hi hcur hlive (kExitImpl_spec hcur hexit)
  · intro off garbageFx garbage cur t cr3 regs flags newsp parentTid childTid tls p k' child hcur
      hclone hchild hflags
    exact count_clone hi hcur (kCloneImpl_spec hcur hclone) hchild hflags

/-- A table that two threads share. -/
theorem fileOk_shared : ∃ s, Reachable ProcStart (ProcStep FilesSafe) s ∧ 1 < users s.kernel 1 ∧
    FileOk s.kernel 1 := by
  obtain ⟨s, p, q, hr, hne, ⟨t, ht, htstate, -, htfile⟩, ⟨u, hu, hustate, -, hufile⟩, -, htables⟩ :=
    twoThreads FilesSafe (fun _ => trivial) fun _ _ =>
      (by decide : (cloneVm ||| cloneFiles) &&& cloneFiles ≠ 0)
  have htlive : t.state ≠ .kRunTerminated := by rw [htstate]; decide
  have hulive : u.state ≠ .kRunTerminated := by rw [hustate]; decide
  have hmem : 1 ∈ s.tables := by
    rw [htables]
    exact List.mem_cons_self
  exact ⟨s, hr, one_lt_sharers hne ht hu ⟨htlive, hulive⟩ ⟨htfile, hufile⟩,
    ((fileOk_iff hr).1 1 (List.mem_append_left _ hmem)).mpr hmem⟩

/-- **A parent exits before the child** that shares its files: their table is free, with the array,
and the child uses it. -/
theorem file_freedEarly : ∃ s p child, Reachable ProcStart (ProcStep fun _ _ => True) s ∧
    s.kernel.threads p = some child ∧ child.state ≠ .kRunTerminated ∧ child.fileInfo = 1 ∧
    1 ∈ s.kernel.freed ∧ (s.kernel.files 1).fds ∈ s.kernel.freed ∧
    (s.kernel.files 1).refCount = 2 ∧ ¬ FileOk s.kernel 1 := by
  obtain ⟨s, p, t, hr, hp, hstate, -, hfile, -, htables, -, -, -, -, hfiles, -, -, hfree⟩ :=
    oneThread FilesSafe fun _ => trivial
  have hlive : t.state ≠ .kRunTerminated := by rw [hstate]; decide
  have hflags : (cloneVm ||| cloneFiles) &&& cloneFiles ≠ 0 := by decide
  obtain ⟨k₁, hk₁⟩ := kCloneImpl_total 0xffff800000000000 0x1000 0 (cloneVm ||| cloneFiles) 0 0 0 0
    emptyFx ⟨0, 0, 0⟩ hp hfree
  have hc := kCloneImpl_spec hp hk₁
  obtain ⟨hempty, current, child, hthreads, ⟨-, hcfile, hcstate⟩, hchildstate, -, hshared, -⟩ :=
    hc.threads_eq hp
  have hne : p ≠ .slot ⟨1, by decide⟩ := by
    intro h
    rw [← h, hp] at hempty
    exact nomatch hempty
  have hchild : k₁.threads (.slot ⟨1, by decide⟩) = some child := by
    rw [hthreads, Function.update_self]
  have hparent : k₁.threads p = some current := by
    rw [hthreads, Function.update_of_ne hne, Function.update_self]
  have hr₁ := hr.tail (.clone hflags hp hlive hk₁ hchild)
  have hi := fileInv_reachable hr₁
  -- both use the table
  have htwo : users k₁ 1 = 2 := by
    have hone := (fileInv_reachable hr).count 1 (by simp [htables]) (sharers_pos hp hlive hfile)
    rw [hfiles] at hone
    replace hone : (1 : Int) = users s.kernel 1 := hone
    have := hc.sharers hp hchild (·.fileInfo) (fun _ _ h => h) 1
    rw [if_pos (hfile.symm.trans (hshared hflags).symm)] at this
    unfold users at hone ⊢
    omega
  have hlive₁ : current.state ≠ .kRunTerminated := by rw [hcstate]; exact hlive
  obtain ⟨k₂, hk₂⟩ := kExitImpl_total 0xffff800000000000 0 hparent
  have he := kExitImpl_spec hparent hk₂
  have hone : current.fileInfo = 1 := hcfile.trans hfile
  have hmem : current.fileInfo ∈ s.tables := by simp [hone, htables]
  have hfreed := fun o => (count_exit (o := o) hi hmem he).1
  obtain ⟨t', hexit, -⟩ := he.threads
  have hr₂ := hr₁.mono fun _ _ h => h.weaken
  refine ⟨_, .slot ⟨1, by decide⟩, child, hr₂.tail (.exit trivial hparent hlive₁ hk₂), ?_, by rw [hchildstate]; decide,
    (hshared hflags).trans hfile, ?_, ?_, ?_, ?_⟩
  · dsimp only
    rw [hexit, Function.update_of_ne hne.symm]
    exact hchild
  · have := hfreed 1 (.inl hone.symm)
    exact List.count_pos_iff.mp (by dsimp only; omega)
  · have := hfreed _ (.inr (.inl rfl))
    dsimp only at this ⊢
    rw [hone] at this
    rw [he.files]
    exact List.count_pos_iff.mp (by omega)
  · dsimp only
    rw [he.files]
    have := hi.count 1 (by simp [htables]) (by dsimp only; omega)
    dsimp only at this
    rw [this, htwo]
    rfl
  · intro hok
    have hall : ∀ x ∈ s.tables, FileOk k₂ x := by
      intro x hx
      rw [htables, List.mem_singleton] at hx
      rw [hx]
      exact hok
    have := (fileOk_exit hi hparent hlive₁ he).mp hall
    rw [hone] at this
    dsimp only at this
    omega

end IonOS.Proc
