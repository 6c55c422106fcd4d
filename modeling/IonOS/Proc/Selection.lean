import IonOS.Lib.Runs
import IonOS.Proc.Thread

/-!
# Which thread `search` selects

`search` goes through `threads[]` from 1 on and stops at the first empty slot. That
loses nothing, since `get_free_thread` fills the first one: the slots in use are
always an interval from 1 (`SlotInv`). The idle threads come first, one for each CPU,
while `alloc_cpu_id` counts the CPUs in the same order.
-/

namespace IonOS.Proc

open IonOS.Lib IonOS.Libs IonOS.Mm IonOS.Arch

/-! ## Runs -/

/-- Between two calls of `create`: run states, `jiffies` and the CPUs of threads other than the idle
ones change as they like, and so does everything that has no part in it. -/
structure Rescheduled (k k' : Kernel) : Prop where
  cpuCount : k'.cpuCount = k.cpuCount
  slot : ∀ i, (k'.threads (.slot i)).map (·.id) = (k.threads (.slot i)).map (·.id)
  idle : ∀ c, (k'.threads (.idle c)).map (·.cpuId) = (k.threads (.idle c)).map (·.cpuId)

/-- Threads are made, and change. -/
inductive ThreadStep (off : Nat) : Kernel → Kernel → Prop where
  | create {k k' : Kernel} {garbage : FxState} {cr3 entry tflags : Nat} {p : ThreadPtr}
      (h : create off garbage k cr3 entry tflags = some (p, k')) : ThreadStep off k k'
  | change {k k' : Kernel} (h : Rescheduled k k') : ThreadStep off k k'

/-- The kernel as `init` leaves it. -/
def ThreadStart (off : Nat) (k : Kernel) : Prop :=
  ∃ k₀ garbage cr3 idleEntry initEntry, (∀ c, k₀.threads (.idle c) = none) ∧ k₀.cpuIdx = 0 ∧
    k₀.cpuCount ≤ maxCpuNum ∧ threadInit off garbage k₀ cr3 idleEntry initEntry = some k

/-! ## What is owed -/

/-- A thread that `search` may return. -/
structure Candidate (k : Kernel) (state : RunState) (cpuId : Nat) (i : Fin kMaxThreadCount)
    (t : Thread) : Prop where
  slot : k.threads (.slot i) = some t
  inState : t.state = state
  onCpu : t.cpuId = cpuId

/-- The one with the least `jiffies` and, among those, the lowest index. -/
structure Selected (k : Kernel) (state : RunState) (cpuId : Nat) (i : Fin kMaxThreadCount)
    (t : Thread) : Prop extends Candidate k state cpuId i t where
  least : ∀ j u, Candidate k state cpuId j u → t.jiffies < u.jiffies ∨
    t.jiffies = u.jiffies ∧ i ≤ j

/-- The result of `search` for a CPU. -/
def SearchExact (k : Kernel) (state : RunState) (c : Fin maxCpuNum) : Prop :=
  (∃ i t, Selected k state c i t ∧ search k state c = some (.slot i)) ∨
    (∀ i t, ¬ Candidate k state c i t) ∧
      search k state c = if state = .kRunNone then some (.idle c) else none

/-- What makes `search` exact. -/
structure SlotInv (k : Kernel) : Prop where
  /-- The slots in use are those from 1 to some index. -/
  filled : ∃ n, ∀ i, (k.threads (.slot i)).isSome ↔ 1 ≤ i.val ∧ i.val ≤ n
  ids : ∀ i t, k.threads (.slot i) = some t → t.id = i
  idle : ∀ c : Fin maxCpuNum, c.val < k.cpuCount →
    ∃ t, k.threads (.idle c) = some t ∧ t.cpuId = c

variable {off cr3 entry tflags id : Nat} {garbage : FxState} {k k' : Kernel} {p : ThreadPtr}
  {state : RunState} {c : Fin maxCpuNum}

/-! ## The search -/

/-- `task` is the best thread of the slots below `m`, if one of them is a candidate. -/
structure BestBelow (k : Kernel) (state : RunState) (cpuId m : Nat)
    (task : Option (Fin kMaxThreadCount × Thread)) : Prop where
  nobody : task = none → ∀ i t, i.val < m → ¬ Candidate k state cpuId i t
  best : ∀ i t, task = some (i, t) → i.val < m ∧ Candidate k state cpuId i t ∧
    ∀ j u, j.val < m → Candidate k state cpuId j u →
      t.jiffies < u.jiffies ∨ t.jiffies = u.jiffies ∧ i ≤ j

variable {cpuId m m' : Nat} {task : Option (Fin kMaxThreadCount × Thread)} {i : Fin kMaxThreadCount}
  {t : Thread}

/-- Slots without a candidate do not matter. -/
theorem BestBelow.extend (h : BestBelow k state cpuId m task) (hle : m ≤ m')
    (hno : ∀ j u, m ≤ j.val → j.val < m' → ¬ Candidate k state cpuId j u) :
    BestBelow k state cpuId m' task := by
  refine ⟨fun hnone j u hj hc => ?_, fun i t hsome => ?_⟩
  · by_cases hjm : j.val < m
    · exact h.nobody hnone j u hjm hc
    · exact hno j u (by omega) hj hc
  · obtain ⟨hi, hcand, hleast⟩ := h.best i t hsome
    refine ⟨by omega, hcand, fun j u hj hc => ?_⟩
    by_cases hjm : j.val < m
    · exact hleast j u hjm hc
    · exact absurd hc (hno j u (by omega) hj)

/-- A candidate with fewer `jiffies` takes over. -/
theorem BestBelow.take (h : BestBelow k state cpuId i.val task) (hc : Candidate k state cpuId i t)
    (hless : ∀ j u, task = some (j, u) → t.jiffies < u.jiffies) :
    BestBelow k state cpuId (i.val + 1) (some (i, t)) := by
  refine ⟨by simp, fun i' t' hsome => ?_⟩
  obtain ⟨rfl, rfl⟩ := Prod.mk.inj (Option.some.inj hsome)
  refine ⟨Nat.lt_succ_self _, hc, fun j u hj hu => ?_⟩
  by_cases hji : j = i
  · rw [hji] at hu
    obtain rfl := Option.some.inj (hc.slot.symm.trans hu.slot)
    exact .inr ⟨rfl, Fin.le_of_eq hji.symm⟩
  · have hlt : j.val < i.val := by
      have : j.val ≠ i.val := fun h => hji (Fin.ext h)
      omega
    cases htask : task with
    | none => exact absurd hu (h.nobody htask j u hlt)
    | some x =>
      have hx := hless x.1 x.2 htask
      have := (h.best x.1 x.2 htask).2.2 j u hlt hu
      omega

/-- One without stays behind those before it. -/
theorem BestBelow.keep {j : Fin kMaxThreadCount} {u : Thread}
    (h : BestBelow k state cpuId i.val (some (j, u))) (hi : k.threads (.slot i) = some t)
    (hle : u.jiffies ≤ t.jiffies) : BestBelow k state cpuId (i.val + 1) (some (j, u)) := by
  refine ⟨by simp, fun j' u' hsome => ?_⟩
  obtain ⟨rfl, rfl⟩ := Prod.mk.inj (Option.some.inj hsome)
  obtain ⟨hj, hcand, hleast⟩ := h.best j u rfl
  refine ⟨by omega, hcand, fun l v hl hv => ?_⟩
  by_cases hli : l = i
  · rw [hli] at hv ⊢
    obtain rfl := Option.some.inj (hi.symm.trans hv.slot)
    have hji : j ≤ i := Fin.le_def.mpr (Nat.le_of_lt hj)
    rcases Nat.lt_or_eq_of_le hle with hlt | heq
    · exact .inl hlt
    · exact .inr ⟨heq, hji⟩
  · have : l.val ≠ i.val := fun h => hli (Fin.ext h)
    exact hleast l v (by omega) hv

/-- **The loop keeps the best thread**, and where it stops there are no more. -/
theorem searchFrom_best {n : Nat}
    (hfilled : ∀ i, (k.threads (.slot i)).isSome ↔ 1 ≤ i.val ∧ i.val ≤ n) (hm : 1 ≤ m)
    (hle : m ≤ kMaxThreadCount) (h : BestBelow k state cpuId m task) :
    BestBelow k state cpuId kMaxThreadCount
      (searchFrom k state cpuId ((List.finRange kMaxThreadCount).drop m) task) := by
  induction hd : kMaxThreadCount - m generalizing m task with
  | zero =>
    have hend : m = kMaxThreadCount := by omega
    rw [hend] at h ⊢
    rw [List.drop_of_length_le (Nat.le_of_eq List.length_finRange)]
    exact h
  | succ d ih =>
    have hlt : m < kMaxThreadCount := by omega
    rw [List.drop_eq_getElem_cons (by simpa using hlt), List.getElem_finRange]
    have hgo : ∀ {task'}, BestBelow k state cpuId (m + 1) task' →
        BestBelow k state cpuId kMaxThreadCount
          (searchFrom k state cpuId ((List.finRange kMaxThreadCount).drop (m + 1)) task') := by
      intro task' h'
      have hnext : kMaxThreadCount - (m + 1) = d := by omega
      have hle' : m + 1 ≤ kMaxThreadCount := hlt
      exact ih (Nat.succ_pos m) hle' h' hnext
    let i : Fin kMaxThreadCount := ⟨m, hlt⟩
    show BestBelow k state cpuId kMaxThreadCount (searchFrom k state cpuId (i :: _) task)
    rw [searchFrom]
    cases hi : k.threads (.slot i) with
    | none =>
      have hend : n < m := by
        by_contra hn
        have := (hfilled i).mpr ⟨hm, by simpa using hn⟩
        rw [hi] at this
        exact absurd this (by simp)
      refine h.extend hle fun j u hj _ hc => ?_
      have hsome := (hfilled j).mp (by rw [hc.slot]; rfl)
      omega
    | some ptr =>
      have hskip : ¬ Candidate k state cpuId i ptr → BestBelow k state cpuId (m + 1) task := by
        intro hno
        refine h.extend (Nat.le_succ m) fun j u hj hj' hc => hno ?_
        obtain rfl : j = i := Fin.ext (by show j.val = m; omega)
        obtain rfl := Option.some.inj (hi.symm.trans hc.slot)
        exact hc
      dsimp only
      by_cases hstate : ptr.state = state
      · rw [if_neg (not_not.mpr hstate)]
        by_cases hcpu : ptr.cpuId = cpuId
        · rw [if_neg (not_not.mpr hcpu)]
          have hcand : Candidate k state cpuId i ptr := ⟨hi, hstate, hcpu⟩
          cases task with
          | none => exact hgo (h.take (i := i) hcand fun j u he => nomatch he)
          | some best =>
            dsimp only
            by_cases hless : ptr.jiffies < best.2.jiffies
            · rw [if_pos hless]
              refine hgo (h.take (i := i) hcand fun j u he => ?_)
              obtain rfl := Option.some.inj he
              exact hless
            · rw [if_neg hless]
              exact hgo (BestBelow.keep (i := i) h hi (by omega))
        · rw [if_pos hcpu]
          exact hgo (hskip fun hc => hcpu hc.onCpu)
      · rw [if_pos hstate]
        exact hgo (hskip fun hc => hstate hc.inState)

/-- **`search` is exact** as long as the slots in use are an interval. -/
theorem search_exact (hi : SlotInv k) (hc : c.val < k.cpuCount) : SearchExact k state c := by
  obtain ⟨n, hfilled⟩ := hi.filled
  have hstart : BestBelow k state c.val 1 none := by
    refine ⟨fun _ i t hi1 hcand => ?_, fun i t hsome => nomatch hsome⟩
    have := (hfilled i).mp (by rw [hcand.slot]; rfl)
    omega
  have hone : 1 ≤ kMaxThreadCount := Nat.le_of_lt one_lt_kMaxThreadCount
  have hbest := searchFrom_best hfilled (Nat.le_refl 1) hone hstart
  unfold SearchExact search
  cases hfound : searchFrom k state c.val ((List.finRange kMaxThreadCount).drop 1) none with
  | none =>
    obtain ⟨t, ht, -⟩ := hi.idle c hc
    refine .inr ⟨fun i t => hbest.nobody hfound i t i.isLt, ?_⟩
    dsimp only
    rw [ht]
    rfl
  | some x =>
    obtain ⟨i, t⟩ := x
    obtain ⟨-, hcand, hleast⟩ := hbest.best i t hfound
    exact .inl ⟨i, t, ⟨hcand, fun j u hu => hleast j u j.isLt hu⟩, rfl⟩

/-! ## Creation -/

/-- **The slot that is filled**, and the id that goes with it. -/
theorem getFreeThread_cases (h : getFreeThread k = some (p, id)) :
    (∃ c : Fin maxCpuNum, p = .idle c ∧ c.val < k.cpuCount) ∨
      ∃ i : Fin kMaxThreadCount, p = .slot i ∧ id = i ∧ 1 ≤ i.val ∧
        ∀ j : Fin kMaxThreadCount, 1 ≤ j.val → j.val < i.val → (k.threads (.slot j)).isSome := by
  unfold getFreeThread at h
  split at h
  · rename_i c hfound
    obtain ⟨rfl, -⟩ := Prod.mk.inj (Option.some.inj h)
    have hc := List.find?_some hfound
    simp only [Bool.and_eq_true, decide_eq_true_eq] at hc
    exact .inl ⟨c, rfl, hc.1⟩
  · obtain ⟨i, hfound, he⟩ := Option.map_eq_some_iff.mp h
    obtain ⟨rfl, rfl⟩ := Prod.mk.inj he
    obtain ⟨hi, n, hn, hget, hbefore⟩ := List.find?_eq_some_iff_getElem.mp hfound
    simp only [Bool.and_eq_true, decide_eq_true_eq] at hi
    refine .inr ⟨i, rfl, rfl, hi.1, fun j h1 hj => ?_⟩
    rw [List.getElem_finRange] at hget
    have hin : i.val = n := (congrArg Fin.val hget).symm
    have hno := hbefore j.val (by omega)
    rw [List.getElem_finRange] at hno
    by_contra hnone
    simp only [Bool.not_eq_true, Option.isSome_eq_false_iff] at hnone
    have hslot : (k.threads (.slot j)).isNone = true := hnone
    simp [h1, hslot] at hno

theorem create_thread (h : create off garbage k cr3 entry tflags = some (p, k')) :
    ∃ id t, getFreeThread k = some (p, id) ∧ t.id = id ∧
      k'.threads = Function.update k.threads p (some t) ∧ k'.cpuCount = k.cpuCount := by
  unfold create at h
  cases hfree : getFreeThread k with
  | none =>
      rw [hfree] at h
      exact absurd h (by simp)
  | some x =>
      rw [hfree] at h
      obtain ⟨rfl, rfl⟩ := Prod.mk.inj (Option.some.inj h)
      exact ⟨x.2, _, rfl, rfl, rfl, rfl⟩

/-- The thread in a slot has the slot's number for its id. -/
def IdsMatch (k : Kernel) : Prop := ∀ i t, k.threads (.slot i) = some t → t.id = i

theorem idsMatch_create (hi : IdsMatch k)
    (h : create off garbage k cr3 entry tflags = some (p, k')) : IdsMatch k' := by
  obtain ⟨id, t, hfree, hid, hthreads, -⟩ := create_thread h
  intro i u hu
  rw [hthreads] at hu
  by_cases hp : .slot i = p
  · rw [← hp, Function.update_self] at hu
    obtain rfl := Option.some.inj hu
    rcases getFreeThread_cases hfree with ⟨c, hc, -⟩ | ⟨j, hj, hidj, -⟩
    · exact ThreadPtr.noConfusion (hp.trans hc)
    · obtain rfl := ThreadPtr.slot.inj (hp.trans hj)
      rw [hid, hidj]
  · rw [Function.update_of_ne hp] at hu
    exact hi i u hu

/-- What each step of a loop keeps, the loop keeps. -/
theorem foldlM_keeps {α β : Type} {f : α → β → Option α} {P : α → Prop}
    (hstep : ∀ a b a', P a → f a b = some a' → P a') (l : List β) {a a' : α} (ha : P a)
    (h : l.foldlM f a = some a') : P a' := by
  induction l generalizing a with
  | nil =>
      obtain rfl := Option.some.inj h
      exact ha
  | cons b l ih =>
      rw [List.foldlM_cons] at h
      obtain ⟨x, hx, h⟩ := Option.bind_eq_some_iff.mp h
      exact ih (hstep a b x ha hx) h

theorem idsMatch_threadInit {idleEntry initEntry : Nat}
    (h : threadInit off garbage k cr3 idleEntry initEntry = some k') : IdsMatch k' := by
  have hmap : ∀ {k k' : Kernel} {entry tflags}, IdsMatch k →
      (create off garbage k cr3 entry tflags).map (·.2) = some k' → IdsMatch k' := by
    intro k k' entry tflags hi h
    obtain ⟨⟨p, k''⟩, hc, rfl⟩ := Option.map_eq_some_iff.mp h
    exact idsMatch_create hi hc
  unfold threadInit at h
  obtain ⟨k₁, hk₁, h⟩ := Option.bind_eq_some_iff.mp h
  -- no slot is in use before the first thread is made
  have hclear : ∀ threads, (∀ i, threads (.slot i) = none) → IdsMatch { k with threads } := by
    intro threads hnone i t ht
    exact absurd ((hnone i).symm.trans ht) (by simp)
  have hids : IdsMatch k₁ :=
    foldlM_keeps (fun _ _ _ hi hs => hmap hi hs) _ (hclear _ fun _ => rfl) hk₁
  have hids₂ : IdsMatch { k₁ with cpuIdx := 0 } := hids
  exact hmap hids₂ h

/-! ## The invariant -/

theorem slotInv_start (h : ThreadStart off k) : SlotInv k := by
  obtain ⟨k₀, garbage, cr3, idleEntry, initEntry, hboot, hidx, hmax, hinit⟩ := h
  obtain ⟨k', hk', hcount, hidle, hcpu, ⟨t, ht, -⟩, honly⟩ :=
    threadInit_spec off garbage cr3 idleEntry initEntry hboot hidx hmax
  obtain rfl := Option.some.inj (hinit.symm.trans hk')
  refine ⟨⟨1, fun i => ?_⟩, idsMatch_threadInit hinit, fun c hc => ?_⟩
  · constructor
    · intro hsome
      obtain ⟨u, hu⟩ := Option.isSome_iff_exists.mp hsome
      rw [honly i u hu]
      exact ⟨Nat.le_refl 1, Nat.le_refl 1⟩
    · rintro ⟨h1, h2⟩
      obtain rfl : i = ⟨1, one_lt_kMaxThreadCount⟩ := Fin.ext (by show i.val = 1; omega)
      rw [show k.threads (.slot ⟨1, one_lt_kMaxThreadCount⟩) = some t from ht]
      rfl
  · obtain ⟨u, hu⟩ := Option.isSome_iff_exists.mp ((hidle c).mpr (hcount ▸ hc))
    exact ⟨u, hu, (hcpu c u hu).1⟩

/-- **Creation extends the interval by one.** -/
theorem slotInv_create (hi : SlotInv k)
    (h : create off garbage k cr3 entry tflags = some (p, k')) : SlotInv k' := by
  have hids := idsMatch_create hi.ids h
  have hempty := (create_spec h).2.empty
  obtain ⟨id, t, hfree, -, hthreads, hcount⟩ := create_thread h
  obtain ⟨n, hfilled⟩ := hi.filled
  rcases getFreeThread_cases hfree with ⟨c, rfl, hc⟩ | ⟨i, rfl, -, h1, hbefore⟩
  · obtain ⟨u, hu, -⟩ := hi.idle c hc
    exact nomatch hempty.symm.trans hu
  · have hin : i.val = n + 1 := by
      have hno : ¬ (1 ≤ i.val ∧ i.val ≤ n) := fun hle => by
        have hsome := (hfilled i).mpr hle
        rw [hempty] at hsome
        exact absurd hsome (by simp)
      by_contra hne
      -- the slot right behind the interval would be in use
      have hlt : n + 1 < i.val := by omega
      have := (hfilled ⟨n + 1, by omega⟩).mp (hbefore _ (Nat.succ_pos n) hlt)
      dsimp only at this
      omega
    refine ⟨⟨n + 1, fun j => ?_⟩, hids, fun c hc => ?_⟩
    · rw [hthreads]
      by_cases hji : j = i
      · rw [hji, Function.update_self]
        exact iff_of_true rfl ⟨h1, by omega⟩
      · have hne : ThreadPtr.slot j ≠ .slot i := fun h => hji (ThreadPtr.slot.inj h)
        have hval : j.val ≠ i.val := fun h => hji (Fin.ext h)
        rw [Function.update_of_ne hne, hfilled]
        omega
    · rw [hthreads, Function.update_of_ne ThreadPtr.noConfusion]
      exact hi.idle c (hcount ▸ hc)

theorem slotInv_change (hi : SlotInv k) (h : Rescheduled k k') : SlotInv k' := by
  obtain ⟨n, hfilled⟩ := hi.filled
  refine ⟨⟨n, fun i => ?_⟩, fun i t ht => ?_, fun c hc => ?_⟩
  · have hsome := congrArg Option.isSome (h.slot i)
    rw [Option.isSome_map, Option.isSome_map] at hsome
    rw [hsome, hfilled]
  · have hid := h.slot i
    rw [ht, Option.map_some] at hid
    obtain ⟨u, hu, he⟩ := Option.map_eq_some_iff.mp hid.symm
    rw [← he]
    exact hi.ids i u hu
  · obtain ⟨t, ht, hcpu⟩ := hi.idle c (h.cpuCount ▸ hc)
    have hidle := h.idle c
    rw [ht, Option.map_some] at hidle
    obtain ⟨u, hu, he⟩ := Option.map_eq_some_iff.mp hidle
    exact ⟨u, hu, he.trans hcpu⟩

theorem slotInv_step (hi : SlotInv k) (h : ThreadStep off k k') : SlotInv k' := by
  cases h with
  | create h => exact slotInv_create hi h
  | change h => exact slotInv_change hi h

/--
**Thread selection is exact.**

From `init` on, whatever is created and however threads change in between: the slots
in use are an interval from 1, a thread's id is its slot's number, each CPU's idle
thread is its own, and `search` finds the thread with the least `jiffies` and the
lowest index, or the idle thread where it should, or nothing.
-/
theorem selection_exact (h : Reachable (ThreadStart off) (ThreadStep off) k) :
    (∃ n, ∀ i, (k.threads (.slot i)).isSome ↔ 1 ≤ i.val ∧ i.val ≤ n) ∧
      (∀ i t, k.threads (.slot i) = some t → t.id = i) ∧
      (∀ c : Fin maxCpuNum, c.val < k.cpuCount →
        ∃ t, k.threads (.idle c) = some t ∧ t.cpuId = c) ∧
      ∀ state (c : Fin maxCpuNum), c.val < k.cpuCount → SearchExact k state c := by
  have hi : SlotInv k :=
    h.invariant (fun _ hs => slotInv_start hs) fun _ _ hi hs => slotInv_step hi hs
  exact ⟨hi.filled, hi.ids, hi.idle, fun state c hc => search_exact hi hc⟩

/-- One CPU, and a thread made after the first: it is in the second slot, and selection is exact. -/
theorem selection_second : ∃ k, Reachable (ThreadStart 0xffff800000000000)
      (ThreadStep 0xffff800000000000) k ∧
    (k.threads (.slot ⟨1, by decide⟩)).isSome ∧ (k.threads (.slot ⟨2, by decide⟩)).isSome ∧
      SearchExact k .kRunNone ⟨0, by decide⟩ := by
  obtain ⟨k, hk, hcount, hidle, -, ⟨t, ht, -⟩, hslot⟩ := threadInit_spec (k := bootKernel)
    0xffff800000000000 emptyFx 0x1000 0x10 0x20 (fun c => rfl) rfl (by decide)
  have hstart : ThreadStart 0xffff800000000000 k :=
    ⟨bootKernel, emptyFx, 0x1000, 0x10, 0x20, fun c => rfl, rfl, by decide, hk⟩
  have hempty : k.threads (.slot ⟨2, by decide⟩) = none := by
    refine Option.eq_none_iff_forall_ne_some.mpr fun u hu => ?_
    exact absurd (hslot _ u hu) (by decide)
  have hfree : getFreeThread k = some (.slot ⟨2, by decide⟩, 2) := by
    refine getFreeThread_slot (fun c hc => (hidle c).mpr (hcount ▸ hc)) (by decide) hempty
      fun j h1 h2 => ?_
    obtain rfl : j = ⟨1, by decide⟩ := Fin.ext (Nat.le_antisymm (Nat.le_of_lt_succ h2) h1)
    rw [ht]
    rfl
  obtain ⟨k', hcreate, hmade⟩ :=
    create_some 0xffff800000000000 emptyFx 0x1000 0x20 0 hfree
  obtain ⟨u, hthreads, -⟩ := hmade.threads
  have hr : Reachable (ThreadStart 0xffff800000000000) (ThreadStep 0xffff800000000000) k' :=
    .tail (.init hstart) (.create hcreate)
  have hcpu : (⟨0, by decide⟩ : Fin maxCpuNum).val < k'.cpuCount := by
    rw [hmade.cpuCount, hcount]
    exact Nat.one_pos
  refine ⟨k', hr, ?_, ?_, (selection_exact hr).2.2.2 .kRunNone _ hcpu⟩
  · rw [hthreads, Function.update_of_ne (by decide), ht]
    rfl
  · rw [hthreads, Function.update_self]
    rfl

end IonOS.Proc
