import IonOS.Lib.Guarded
import IonOS.Lib.Word
import Mathlib.Logic.Function.Basic

/-!
# Spinlocks

`spinlock.hpp`, one atomic instruction a step, for any number of actors. An actor is a
flow of control with a flags register of its own: a CPU, or an interrupt handler that
a CPU is in, since the flags of what it interrupted are saved on its stack.

The lock keeps the sections apart and interrupts away from them. The flags are another
matter: `spin_unlock` gives the lock away before it reads what `spin_lock` has saved in
it, and by then the next holder may have saved its own.
-/

namespace IonOS.Arch

open IonOS.Lib

variable {ι σ : Type} [DecidableEq ι]

/-! ## The code -/

/-- `IF`, the bit of `RFLAGS`. -/
def interruptFlag : Nat := 9

/-- `cli`. -/
def cli (flags : Nat) : Nat := flags &&& notW 0x200

/-- `lock btsl $0`: the carry and the new word. -/
def btsl (word : Nat) : Bool × Nat := (word.testBit 0, word ||| 1)

/-- `lock btrl $0`. -/
def btrl (word : Nat) : Nat := word &&& notW 1

/-- Where an actor is, with the local variable `flags` and what is left of its section. The flags
that `spin_lock` has saved are kept up to the end of `spin_unlock`, where the program knows them no
more. -/
inductive LockPc (σ : Type) where
  | outside
  /-- `pushfq` and `pop` are done. -/
  | pushed (flags : Nat) (ops : List (σ → σ))
  /-- `cli` is done. -/
  | spinning (flags : Nat) (ops : List (σ → σ))
  /-- `lock btsl` has found the bit clear. -/
  | taken (flags : Nat) (ops : List (σ → σ))
  /-- The flags are in the lock. -/
  | inside (flags : Nat) (ops : List (σ → σ))
  /-- `lock btrl` is done. -/
  | released (flags : Nat)
  /-- `lock->rflags` is read. -/
  | reloaded (flags value : Nat)

/-- A `spinlock_t`, what it guards, and the actors. -/
structure LockState (ι σ : Type) where
  lock : Nat
  rflags : Nat
  data : σ
  flags : ι → Nat
  pc : ι → LockPc σ
  /-- Not in the source: the sections entered so far, the last one first. -/
  log : List (ι × List (σ → σ))

namespace LockState

def goto (s : LockState ι σ) (i : ι) (pc : LockPc σ) : LockState ι σ :=
  { s with pc := Function.update s.pc i pc }

def setFlags (s : LockState ι σ) (i : ι) (flags : Nat) : LockState ι σ :=
  { s with flags := Function.update s.flags i flags }

end LockState

/-- An instruction of actor `i`. `ok` says which sections it may enter with the data as it is. -/
inductive LockStep (ok : σ → ι → List (σ → σ) → Prop) (i : ι) :
    LockState ι σ → LockState ι σ → Prop where
  | push {s : LockState ι σ} {ops : List (σ → σ)} (h : s.pc i = .outside) :
      LockStep ok i s (s.goto i (.pushed (s.flags i) ops))
  | mask {s : LockState ι σ} {flags : Nat} {ops : List (σ → σ)} (h : s.pc i = .pushed flags ops) :
      LockStep ok i s ((s.goto i (.spinning flags ops)).setFlags i (cli (s.flags i)))
  | take {s : LockState ι σ} {flags : Nat} {ops : List (σ → σ)} (h : s.pc i = .spinning flags ops)
      (hclear : (btsl s.lock).1 = false) (hok : ok s.data i ops) :
      LockStep ok i s
        { s.goto i (.taken flags ops) with lock := (btsl s.lock).2, log := (i, ops) :: s.log }
  | retry {s : LockState ι σ} {flags : Nat} {ops : List (σ → σ)} (h : s.pc i = .spinning flags ops)
      (hset : (btsl s.lock).1 = true) : LockStep ok i s { s with lock := (btsl s.lock).2 }
  | save {s : LockState ι σ} {flags : Nat} {ops : List (σ → σ)} (h : s.pc i = .taken flags ops) :
      LockStep ok i s { s.goto i (.inside flags ops) with rflags := flags }
  | work {s : LockState ι σ} {flags : Nat} {op : σ → σ} {ops : List (σ → σ)}
      (h : s.pc i = .inside flags (op :: ops)) :
      LockStep ok i s { s.goto i (.inside flags ops) with data := op s.data }
  | release {s : LockState ι σ} {flags : Nat} (h : s.pc i = .inside flags []) :
      LockStep ok i s { s.goto i (.released flags) with lock := btrl s.lock }
  | reload {s : LockState ι σ} {flags : Nat} (h : s.pc i = .released flags) :
      LockStep ok i s (s.goto i (.reloaded flags s.rflags))
  | pop {s : LockState ι σ} {flags value : Nat} (h : s.pc i = .reloaded flags value) :
      LockStep ok i s ((s.goto i .outside).setFlags i value)
  /-- Other instructions change the flags, but `IF` only outside. -/
  | compute {s : LockState ι σ} (flags : Nat) (h : s.pc i = .outside ∨
      flags.testBit interruptFlag = (s.flags i).testBit interruptFlag) :
      LockStep ok i s (s.setFlags i flags)

/-- Any of the actors. -/
def AnyLockStep (ok : σ → ι → List (σ → σ) → Prop) (s s' : LockState ι σ) : Prop :=
  ∃ i, LockStep ok i s s'

/-- The lock is free and nobody is at it: `SPIN_INIT`, or a lock that has been used, with the flags
of its last holder. -/
def LockStart (x₀ : σ) (s : LockState ι σ) : Prop :=
  s.lock.testBit 0 = false ∧ s.data = x₀ ∧ (∀ i, s.pc i = .outside) ∧ s.log = []

/-! ## Where an actor is -/

namespace LockPc

/-- What is left of the section, between the two instructions on the bit. -/
def left : LockPc σ → Option (List (σ → σ))
  | taken _ ops => some ops
  | inside _ ops => some ops
  | _ => none

/-- The actor holds the lock. -/
def Holds (p : LockPc σ) : Prop := p.left ≠ none

/-- The actor has interrupts off, between `cli` and `popfq`. -/
def Masked : LockPc σ → Prop
  | outside => False
  | pushed _ _ => False
  | _ => True

end LockPc

variable {ok : σ → ι → List (σ → σ) → Prop} {x₀ : σ} {s t : LockState ι σ} {i j : ι}

theorem cli_masked (flags : Nat) : (cli flags).testBit interruptFlag = false := by
  have hbit : (notW 0x200).testBit interruptFlag = false := by decide
  rw [cli, Nat.testBit_and, hbit, Bool.and_false]

theorem btsl_set (word : Nat) : (btsl word).2.testBit 0 = true := by
  rw [btsl, Nat.testBit_or, show (1 : Nat).testBit 0 = true from rfl, Bool.or_true]

theorem btrl_clear (word : Nat) : (btrl word).testBit 0 = false := by
  have hbit : (notW 1).testBit 0 = false := by decide
  rw [btrl, Nat.testBit_and, hbit, Bool.and_false]

/-- **The invariant of the lock.** -/
structure LockInv (s : LockState ι σ) : Prop where
  one : ∀ i j, (s.pc i).Holds → (s.pc j).Holds → i = j
  bit : s.lock.testBit 0 = true ↔ ∃ i, (s.pc i).Holds
  masked : ∀ i, (s.pc i).Masked → (s.flags i).testBit interruptFlag = false
  saved : ∀ i flags ops, s.pc i = .inside flags ops → s.rflags = flags

/-! ## One instruction -/

@[simp] theorem goto_pc_self (s : LockState ι σ) (i : ι) (p : LockPc σ) : (s.goto i p).pc i = p :=
  Function.update_self _ _ _

theorem goto_pc_ne {p : LockPc σ} (h : j ≠ i) : (s.goto i p).pc j = s.pc j :=
  Function.update_of_ne h _ _

/-- An actor moves on and holds the lock afterwards if it did before. -/
theorem LockInv.goto (hs : LockInv s) {p : LockPc σ} (hholds : p.Holds ↔ (s.pc i).Holds)
    (hmasked : p.Masked → (s.flags i).testBit interruptFlag = false)
    (hsaved : ∀ flags ops, p = .inside flags ops → s.rflags = flags) : LockInv (s.goto i p) := by
  have hiff : ∀ j, ((s.goto i p).pc j).Holds ↔ (s.pc j).Holds := by
    intro j
    by_cases hj : j = i
    · subst hj
      rw [goto_pc_self]
      exact hholds
    · rw [goto_pc_ne hj]
  refine ⟨?_, ?_, ?_, ?_⟩
  · intro j k hj hk
    exact hs.one j k ((hiff j).mp hj) ((hiff k).mp hk)
  · exact hs.bit.trans (exists_congr fun j => (hiff j).symm)
  · intro j hj
    by_cases hji : j = i
    · subst hji
      rw [goto_pc_self] at hj
      exact hmasked hj
    · rw [goto_pc_ne hji] at hj
      exact hs.masked j hj
  · intro j flags ops hj
    by_cases hji : j = i
    · subst hji
      rw [goto_pc_self] at hj
      exact hsaved flags ops hj
    · rw [goto_pc_ne hji] at hj
      exact hs.saved j flags ops hj

theorem LockInv.setFlags (hs : LockInv s) {flags : Nat}
    (hmasked : (s.pc i).Masked → flags.testBit interruptFlag = false) :
    LockInv (s.setFlags i flags) := by
  refine ⟨hs.one, hs.bit, ?_, hs.saved⟩
  intro j hj
  change (Function.update s.flags i flags j).testBit interruptFlag = false
  by_cases hji : j = i
  · subst hji
    rw [Function.update_self]
    exact hmasked hj
  · rw [Function.update_of_ne hji]
    exact hs.masked j hj

omit [DecidableEq ι] in
/-- With the bit clear nobody holds the lock. -/
theorem LockInv.nobody (hs : LockInv s) (hclear : s.lock.testBit 0 = false) (j : ι) :
    ¬ (s.pc j).Holds := by
  intro hj
  rw [hs.bit.mpr ⟨j, hj⟩] at hclear
  exact nomatch hclear

theorem LockInv.take (hs : LockInv s) {flags : Nat} {ops : List (σ → σ)}
    {log : List (ι × List (σ → σ))} (h : s.pc i = .spinning flags ops)
    (hclear : (btsl s.lock).1 = false) :
    LockInv { s.goto i (.taken flags ops) with lock := (btsl s.lock).2, log := log } := by
  have hnobody := hs.nobody hclear
  have hself : ∀ j, ((s.goto i (.taken flags ops)).pc j).Holds → j = i := by
    intro j hj
    by_contra hji
    rw [goto_pc_ne hji] at hj
    exact hnobody j hj
  have hholds : ((s.goto i (.taken flags ops)).pc i).Holds := by
    rw [goto_pc_self]
    exact Option.some_ne_none ops
  refine ⟨?_, ?_, ?_, ?_⟩
  · intro j k hj hk
    rw [hself j hj, hself k hk]
  · exact iff_of_true (btsl_set _) ⟨i, hholds⟩
  · intro j hj
    by_cases hji : j = i
    · subst hji
      exact hs.masked j (by rw [h]; trivial)
    · refine hs.masked j ?_
      rw [← goto_pc_ne hji]
      exact hj
  · intro j f l hj
    have hheld : ((s.goto i (.taken flags ops)).pc j).Holds := by
      dsimp only at hj
      rw [hj]
      exact Option.some_ne_none l
    obtain rfl := hself j hheld
    dsimp only at hj
    rw [goto_pc_self] at hj
    exact nomatch hj

theorem LockInv.save (hs : LockInv s) {flags : Nat} {ops : List (σ → σ)}
    (h : s.pc i = .taken flags ops) :
    LockInv { s.goto i (.inside flags ops) with rflags := flags } := by
  have hholds : (s.pc i).Holds := by
    rw [h]
    exact Option.some_ne_none ops
  have hmasked : (s.flags i).testBit interruptFlag = false := hs.masked i (by rw [h]; trivial)
  -- nobody else is inside, so the flags of nobody else are overwritten
  have hs' : LockInv { s with rflags := flags } := by
    refine ⟨hs.one, hs.bit, hs.masked, ?_⟩
    intro j f l hj
    have hij : j = i :=
      hs.one j i (by dsimp only at hj; rw [hj]; exact Option.some_ne_none l) hholds
    rw [hij] at hj
    exact nomatch h.symm.trans hj
  refine hs'.goto (i := i) ?_ (fun _ => hmasked) ?_
  · exact iff_of_true (Option.some_ne_none ops) hholds
  · intro f l hp
    exact (LockPc.inside.inj hp).1

theorem LockInv.release (hs : LockInv s) {flags : Nat} (h : s.pc i = .inside flags []) :
    LockInv { s.goto i (.released flags) with lock := btrl s.lock } := by
  have hholds : (s.pc i).Holds := by
    rw [h]
    exact Option.some_ne_none []
  have hnobody : ∀ j, ¬ ((s.goto i (.released flags)).pc j).Holds := by
    intro j hj
    by_cases hji : j = i
    · subst hji
      rw [goto_pc_self] at hj
      exact hj rfl
    · rw [goto_pc_ne hji] at hj
      exact hji (hs.one j i hj hholds)
  refine ⟨?_, ?_, ?_, ?_⟩
  · intro j k hj
    exact absurd hj (hnobody j)
  · refine iff_of_false ?_ fun hex => ?_
    · dsimp only
      rw [btrl_clear]
      exact Bool.false_ne_true
    · obtain ⟨j, hj⟩ := hex
      exact hnobody j hj
  · intro j hj
    by_cases hji : j = i
    · subst hji
      exact hs.masked j (by rw [h]; trivial)
    · refine hs.masked j ?_
      rw [← goto_pc_ne hji]
      exact hj
  · intro j f l hj
    refine absurd ?_ (hnobody j)
    dsimp only at hj
    rw [hj]
    exact Option.some_ne_none l

/-- **Every instruction keeps the invariant.** -/
theorem lockInv_step (hs : LockInv s) (h : LockStep ok i s t) : LockInv t := by
  cases h with
  | push h =>
      refine hs.goto ?_ (fun hm => hm.elim) fun f l hp => nomatch hp
      rw [h]
      exact Iff.rfl
  | @mask flags ops h =>
      have hs' : LockInv (s.setFlags i (cli (s.flags i))) := hs.setFlags fun _ => cli_masked _
      refine hs'.goto (i := i) (p := .spinning flags ops) ?_ (fun _ => ?_) fun f l hp => nomatch hp
      · change _ ↔ (s.pc i).Holds
        rw [h]
        exact Iff.rfl
      · change (Function.update s.flags i (cli (s.flags i)) i).testBit interruptFlag = false
        rw [Function.update_self]
        exact cli_masked _
  | take h hclear hok => exact hs.take h hclear
  | retry h hset =>
      refine ⟨hs.one, ?_, hs.masked, hs.saved⟩
      exact (iff_of_true (btsl_set _) hset).trans hs.bit
  | save h => exact hs.save h
  | @work flags op ops h =>
      have hs' : LockInv (s.goto i (.inside flags ops)) := by
        refine hs.goto ?_ (fun _ => hs.masked i (by rw [h]; trivial)) ?_
        · rw [h]
          exact iff_of_true (Option.some_ne_none _) (Option.some_ne_none _)
        · intro f l hp
          rw [← (LockPc.inside.inj hp).1]
          exact hs.saved i flags _ h
      exact ⟨hs'.one, hs'.bit, hs'.masked, hs'.saved⟩
  | release h => exact hs.release h
  | reload h =>
      refine hs.goto ?_ (fun _ => hs.masked i (by rw [h]; trivial)) fun f l hp => nomatch hp
      rw [h]
      exact Iff.rfl
  | pop h =>
      have hs' : LockInv (s.goto i .outside) := by
        refine hs.goto ?_ (fun hm => hm.elim) fun f l hp => nomatch hp
        rw [h]
        exact Iff.rfl
      refine hs'.setFlags fun hm => ?_
      rw [goto_pc_self] at hm
      exact hm.elim
  | compute flags h =>
      refine hs.setFlags fun hm => ?_
      rcases h with hout | hsame
      · rw [hout] at hm
        exact hm.elim
      · rw [hsame]
        exact hs.masked i hm

omit [DecidableEq ι] in
theorem lockInv_start (h : LockStart x₀ s) : LockInv s := by
  obtain ⟨hlock, -, hout, -⟩ := h
  have hnobody : ∀ j, ¬ (s.pc j).Holds := by
    intro j hj
    rw [hout j] at hj
    exact hj rfl
  refine ⟨fun j k hj => absurd hj (hnobody j), ?_, ?_, ?_⟩
  · rw [hlock]
    exact iff_of_false Bool.false_ne_true fun ⟨j, hj⟩ => hnobody j hj
  · intro j hj
    rw [hout j] at hj
    exact hj.elim
  · intro j f l hj
    rw [hout j] at hj
    exact nomatch hj

theorem lockInv_reachable (h : Reachable (LockStart x₀) (AnyLockStep ok) s) : LockInv s :=
  h.invariant (fun _ hs => lockInv_start hs) fun _ _ hs ⟨_, hst⟩ => lockInv_step hs hst

/-! ## What the lock is for -/

/-- The lock, as it is meant: the data, the section under way, the sections so far. -/
structure Shields (s : LockState ι σ) (g : Guarded ι σ) : Prop where
  data : g.data = s.data
  log : g.log = s.log
  inside : ∀ i ops, g.inside = some (i, ops) ↔ (s.pc i).left = some ops

/-- Moving on without touching the data or what is left of the section. -/
theorem Shields.goto {g : Guarded ι σ} (hg : Shields s g) {p : LockPc σ}
    (hleft : p.left = (s.pc i).left) : Shields (s.goto i p) g := by
  refine ⟨hg.data, hg.log, ?_⟩
  intro j ops
  rw [hg.inside j ops]
  by_cases hj : j = i
  · subst hj
    rw [goto_pc_self, hleft]
  · rw [goto_pc_ne hj]

omit [DecidableEq ι] in
theorem LockPc.not_holds {p : LockPc σ} : ¬ p.Holds ↔ p.left = none := not_not

omit [DecidableEq ι] in
/-- Nobody else is in the section of the one inside. -/
theorem inside_iff {g : Guarded ι σ} {ops : List (σ → σ)} (hin : g.inside = some (i, ops))
    (hself : (s.pc i).left = some ops) (hothers : ∀ j, j ≠ i → (s.pc j).left = none) (j : ι)
    (l : List (σ → σ)) : g.inside = some (j, l) ↔ (s.pc j).left = some l := by
  rw [hin]
  by_cases hj : j = i
  · subst hj
    rw [hself]
    constructor
    · intro heq
      rw [(Prod.mk.inj (Option.some.inj heq)).2]
    · intro heq
      rw [Option.some.inj heq]
  · rw [hothers j hj]
    exact iff_of_false (fun heq => hj (Prod.mk.inj (Option.some.inj heq)).1.symm) fun heq =>
      nomatch heq

/-- Nobody but the holder has a part of a section left. -/
theorem LockInv.others (hs : LockInv s) (hi : (s.pc i).Holds) (p : LockPc σ) (hj : j ≠ i) :
    ((s.goto i p).pc j).left = none := by
  rw [goto_pc_ne hj]
  exact LockPc.not_holds.mp fun hholds => hj (hs.one j i hholds hi)

/-- **Each instruction is nothing to the data, or one step of the one inside.** -/
theorem shields_step {g : Guarded ι σ} (hs : LockInv s) (hg : Shields s g) (h : LockStep ok i s t) :
    Shields t g ∨ ∃ g', GuardedStep ok g g' ∧ Shields t g' := by
  cases h with
  | push h => exact .inl (hg.goto (by rw [h]; rfl))
  | @mask flags ops h =>
      have hg' := hg.goto (i := i) (p := .spinning flags ops) (by rw [h]; rfl)
      exact .inl ⟨hg'.data, hg'.log, hg'.inside⟩
  | @take flags ops h hclear hok =>
      have hnobody : ∀ j, (s.pc j).left = none := by
        intro j
        exact LockPc.not_holds.mp (hs.nobody hclear j)
      have hnone : g.inside = none := by
        rw [Option.eq_none_iff_forall_ne_some]
        intro ⟨j, l⟩ hin
        exact nomatch (hnobody j).symm.trans ((hg.inside j l).mp hin)
      refine .inr ⟨_, .enter hnone (by rw [hg.data]; exact hok), hg.data, ?_, ?_⟩
      · rw [← hg.log]
      · refine inside_iff rfl ?_ ?_
        · dsimp only
          rw [goto_pc_self]
          rfl
        · intro j hj
          dsimp only
          rw [goto_pc_ne hj]
          exact hnobody j
  | retry h hset => exact .inl ⟨hg.data, hg.log, hg.inside⟩
  | @save flags ops h =>
      have hg' := hg.goto (i := i) (p := .inside flags ops) (by rw [h]; rfl)
      exact .inl ⟨hg'.data, hg'.log, hg'.inside⟩
  | @work flags op ops h =>
      have hleft : (s.pc i).left = some (op :: ops) := by rw [h]; rfl
      have hholds : (s.pc i).Holds := by
        rw [LockPc.Holds, hleft]
        exact Option.some_ne_none _
      refine .inr ⟨_, .work ((hg.inside i _).mpr hleft), ?_, hg.log, ?_⟩
      · rw [← hg.data]
      · refine inside_iff rfl ?_ fun j hj => hs.others hholds _ hj
        dsimp only
        rw [goto_pc_self]
        rfl
  | @release flags h =>
      have hleft : (s.pc i).left = some [] := by rw [h]; rfl
      have hholds : (s.pc i).Holds := by
        rw [LockPc.Holds, hleft]
        exact Option.some_ne_none _
      refine .inr ⟨_, .leave ((hg.inside i _).mpr hleft), hg.data, hg.log, ?_⟩
      intro j l
      refine iff_of_false (fun hin => nomatch hin) fun hin => ?_
      by_cases hj : j = i
      · subst hj
        dsimp only at hin
        rw [goto_pc_self] at hin
        exact nomatch hin
      · exact nomatch (hs.others hholds (.released flags) hj).symm.trans hin
  | reload h => exact .inl (hg.goto (by rw [h]; rfl))
  | pop h =>
      have hg' := hg.goto (i := i) (p := .outside) (by rw [h]; rfl)
      exact .inl ⟨hg'.data, hg'.log, hg'.inside⟩
  | compute flags h => exact .inl ⟨hg.data, hg.log, hg.inside⟩

omit [DecidableEq ι] in
theorem shields_start (h : LockStart x₀ s) : Shields s ⟨x₀, none, []⟩ := by
  obtain ⟨-, hdata, hout, hlog⟩ := h
  refine ⟨hdata.symm, hlog.symm, ?_⟩
  intro i ops
  rw [hout i]
  exact iff_of_false (fun hin => nomatch hin) fun hin => nomatch hin

/-- **The spinlock refines the lock as it is meant.** -/
theorem lock_refines (h : Reachable (LockStart x₀) (AnyLockStep ok) s) :
    ∃ g, Reachable (GuardedStart x₀) (GuardedStep ok) g ∧ Shields s g := by
  refine h.simulates (fun s hs => ⟨_, rfl, shields_start hs⟩) ?_
  intro s t g hr hg hst
  obtain ⟨i, hst⟩ := hst
  exact shields_step (lockInv_reachable hr) hg hst

/-- **What a lock owes.** -/
structure LockOk (ok : σ → ι → List (σ → σ) → Prop) (x₀ : σ) (s : LockState ι σ) : Prop where
  /-- One actor at a time is between the two instructions on the bit. -/
  one : ∀ i j, (s.pc i).Holds → (s.pc j).Holds → i = j
  /-- The bit is set as long as one is there, and no longer. -/
  bit : s.lock.testBit 0 = true ↔ ∃ i, (s.pc i).Holds
  /-- There it cannot be interrupted. -/
  masked : ∀ i, (s.pc i).Holds → (s.flags i).testBit interruptFlag = false
  /-- While nobody is there, the data is what whole sections have made of it, one by one. -/
  free : (∀ i, ¬ (s.pc i).Holds) → Serial ok x₀ s.log s.data
  /-- While somebody is, what it has done of its section comes on top. -/
  busy : ∀ i rest, (s.pc i).left = some rest → ∃ done log x, s.log = (i, done ++ rest) :: log ∧
    Serial ok x₀ log x ∧ ok x i (done ++ rest) ∧ s.data = perform done x

omit [DecidableEq ι] in
theorem LockPc.Holds.masked {p : LockPc σ} (h : p.Holds) : p.Masked := by
  cases p with
  | outside => exact absurd rfl h
  | pushed flags ops => exact absurd rfl h
  | _ => trivial

/-- **A lock does what it owes in every state.** -/
theorem lockOk_reachable (h : Reachable (LockStart x₀) (AnyLockStep ok) s) : LockOk ok x₀ s := by
  have hs := lockInv_reachable h
  obtain ⟨g, hr, hg⟩ := lock_refines h
  have hser := serialized_reachable hr
  refine ⟨hs.one, hs.bit, fun i hi => hs.masked i hi.masked, ?_, ?_⟩
  · intro hfree
    have hnone : g.inside = none := by
      rw [Option.eq_none_iff_forall_ne_some]
      intro ⟨i, l⟩ hin
      refine hfree i ?_
      rw [LockPc.Holds, (hg.inside i l).mp hin]
      exact Option.some_ne_none l
    rw [← hg.log, ← hg.data]
    exact hser.free hnone
  · intro i rest hleft
    rw [← hg.log, ← hg.data]
    exact hser.busy i rest ((hg.inside i rest).mpr hleft)

/--
**Spinlocks lock.**

Whatever the actors are, however many there are, and in whatever order their
instructions come: no two hold the lock, its bit is set exactly while one does, that
one has interrupts off, and the data is as if sections were run one after another.
Inside, the flags in the lock are those of the one inside.
-/
theorem spinlock_locks (h : Reachable (LockStart x₀) (AnyLockStep ok) s) :
    LockOk ok x₀ s ∧ ∀ i flags ops, s.pc i = .inside flags ops → s.rflags = flags :=
  ⟨lockOk_reachable h, (lockInv_reachable h).saved⟩

/-! ## The flags -/

/-- An instruction that leaves the saved flags alone as long as somebody has still to read them. -/
def QuietStep (ok : σ → ι → List (σ → σ) → Prop) (s t : LockState ι σ) : Prop :=
  AnyLockStep ok s t ∧ ∀ j flags, s.pc j = .released flags → t.rflags = s.rflags

/-- The flags that `popfq` is about to load are those that `pushfq` has saved. -/
structure FlagsKept (s : LockState ι σ) : Prop where
  released : ∀ i flags, s.pc i = .released flags → s.rflags = flags
  reloaded : ∀ i flags value, s.pc i = .reloaded flags value → value = flags

/-- An instruction moves one actor. -/
theorem LockStep.pc_ne (h : LockStep ok i s t) (hj : j ≠ i) : t.pc j = s.pc j := by
  cases h with
  | retry h hset => rfl
  | compute v h => rfl
  | _ => exact goto_pc_ne hj

theorem LockStep.released {flags : Nat} (h : LockStep ok i s t) (hj : t.pc j = .released flags) :
    s.pc j = .released flags ∨ s.pc j = .inside flags [] ∧ t.rflags = s.rflags := by
  by_cases hji : j = i
  · subst hji
    cases h with
    | release h =>
        obtain rfl := LockPc.released.inj ((goto_pc_self s j _).symm.trans hj)
        exact .inr ⟨h, rfl⟩
    | retry h hset => exact .inl hj
    | compute v h => exact .inl hj
    | _ => exact nomatch (goto_pc_self s j _).symm.trans hj
  · rw [h.pc_ne hji] at hj
    exact .inl hj

theorem LockStep.reloaded {flags value : Nat} (h : LockStep ok i s t)
    (hj : t.pc j = .reloaded flags value) :
    s.pc j = .reloaded flags value ∨ s.pc j = .released flags ∧ value = s.rflags := by
  by_cases hji : j = i
  · subst hji
    cases h with
    | reload h =>
        obtain ⟨rfl, rfl⟩ := LockPc.reloaded.inj ((goto_pc_self s j _).symm.trans hj)
        exact .inr ⟨h, rfl⟩
    | retry h hset => exact .inl hj
    | compute v h => exact .inl hj
    | _ => exact nomatch (goto_pc_self s j _).symm.trans hj
  · rw [h.pc_ne hji] at hj
    exact .inl hj

theorem flagsKept_step (hs : LockInv s) (hk : FlagsKept s) (h : QuietStep ok s t) :
    FlagsKept t := by
  obtain ⟨⟨i, hst⟩, hquiet⟩ := h
  refine ⟨?_, ?_⟩
  · intro j flags hj
    rcases hst.released hj with hrel | ⟨hin, hsame⟩
    · rw [hquiet j flags hrel]
      exact hk.released j flags hrel
    · rw [hsame]
      exact hs.saved j flags [] hin
  · intro j flags value hj
    rcases hst.reloaded hj with hre | ⟨hrel, rfl⟩
    · exact hk.reloaded j flags value hre
    · exact hk.released j flags hrel

theorem flagsKept_reachable (h : Reachable (LockStart x₀) (QuietStep ok) s) : FlagsKept s := by
  refine h.invariant' ?_ ?_
  · intro s hs
    obtain ⟨-, -, hout, -⟩ := hs
    refine ⟨fun j flags hj => ?_, fun j flags value hj => ?_⟩
    · exact nomatch (hout j).symm.trans hj
    · exact nomatch (hout j).symm.trans hj
  · intro s t hr hk hst
    exact flagsKept_step (lockInv_reachable (hr.mono fun _ _ hq => hq.1)) hk hst

/-- An instruction of a call, or of the section it guards: the flags of an actor change only as it
moves on, which is by `cli` and by `popfq`. -/
def CallStep (ok : σ → ι → List (σ → σ) → Prop) (s t : LockState ι σ) : Prop :=
  AnyLockStep ok s t ∧ ∀ i, t.pc i = s.pc i → t.flags i = s.flags i

/-- The holder can go through the rest of its section by itself. -/
theorem finish_section {flags : Nat} {ops : List (σ → σ)} (hi : s.pc i = .inside flags ops) :
    ∃ t, Relation.ReflTransGen (CallStep ok) s t ∧ t.pc i = .inside flags [] ∧
      t.data = perform ops s.data ∧ ∀ j, j ≠ i → t.pc j = s.pc j := by
  induction ops generalizing s with
  | nil => exact ⟨s, .refl, hi, rfl, fun _ _ => rfl⟩
  | cons op ops ih =>
    have hwork : LockStep ok i s { s.goto i (.inside flags ops) with data := op s.data } := .work hi
    obtain ⟨t, ht, hpc, hdata, hother⟩ := ih
      (s := { s.goto i (.inside flags ops) with data := op s.data }) (goto_pc_self s i _)
    have hcall : CallStep ok s { s.goto i (.inside flags ops) with data := op s.data } :=
      ⟨⟨i, hwork⟩, fun _ _ => rfl⟩
    refine ⟨t, .head hcall ht, hpc, hdata, fun j hj => ?_⟩
    rw [hother j hj]
    exact goto_pc_ne hj

/-- A waiting actor that finds the bit clear goes in, and its flags are in the lock. -/
theorem acquire_free {flags : Nat} {ops : List (σ → σ)} (hj : s.pc j = .spinning flags ops)
    (hclear : (btsl s.lock).1 = false) (hok : ok s.data j ops) :
    ∃ t, Relation.ReflTransGen (CallStep ok) s t ∧ t.pc j = .inside flags ops ∧
      t.rflags = flags ∧ ∀ k, k ≠ j → t.pc k = s.pc k := by
  have htake : LockStep ok j s
      { s.goto j (.taken flags ops) with lock := (btsl s.lock).2, log := (j, ops) :: s.log } :=
    .take hj hclear hok
  have hsave : LockStep ok j { s.goto j (.taken flags ops) with
      lock := (btsl s.lock).2, log := (j, ops) :: s.log } _ := .save (goto_pc_self s j _)
  have hrun := Relation.ReflTransGen.single (r := CallStep ok) ⟨⟨j, htake⟩, fun _ _ => rfl⟩
  refine ⟨_, hrun.tail ⟨⟨j, hsave⟩, fun _ _ => rfl⟩, goto_pc_self _ j _, rfl, fun k hk => ?_⟩
  exact (goto_pc_ne hk).trans (goto_pc_ne hk)

/-- A call comes to its section while the lock is free. -/
theorem enter_free {ops : List (σ → σ)} (hj : s.pc j = .outside) (hclear : s.lock.testBit 0 = false)
    (hok : ok s.data j ops) :
    ∃ t, Relation.ReflTransGen (AnyLockStep ok) s t ∧ t.pc j = .inside (s.flags j) ops := by
  have hpush : LockStep ok j s (s.goto j (.pushed (s.flags j) ops)) := .push hj
  have hmask : LockStep ok j (s.goto j (.pushed (s.flags j) ops)) (((s.goto j
      (.pushed (s.flags j) ops)).goto j (.spinning (s.flags j) ops)).setFlags j
        (cli (s.flags j))) := .mask (goto_pc_self s j _)
  obtain ⟨t, ht, hin, -⟩ := acquire_free (s := ((s.goto j (.pushed (s.flags j) ops)).goto j
    (.spinning (s.flags j) ops)).setFlags j (cli (s.flags j))) (goto_pc_self _ j _) hclear hok
  have hrun := Relation.ReflTransGen.single (r := AnyLockStep ok) ⟨j, hpush⟩
  have hcall : Relation.ReflTransGen (AnyLockStep ok) _ t := ht.lift id fun _ _ hst => hst.1
  exact ⟨t, (hrun.tail ⟨j, hmask⟩).trans hcall, hin⟩

/-- An actor that has released the lock loads the flags that are in it now. -/
theorem load_flags {flags : Nat} (hi : s.pc i = .released flags) :
    ∃ t, Relation.ReflTransGen (CallStep ok) s t ∧ t.pc i = .outside ∧ t.flags i = s.rflags ∧
      ∀ k, k ≠ i → t.pc k = s.pc k := by
  have hreload : LockStep ok i s (s.goto i (.reloaded flags s.rflags)) := .reload hi
  have hre : (s.goto i (.reloaded flags s.rflags)).pc i = .reloaded flags s.rflags :=
    goto_pc_self s i _
  have hpop : LockStep ok i (s.goto i (.reloaded flags s.rflags))
      (((s.goto i (.reloaded flags s.rflags)).goto i .outside).setFlags i s.rflags) := .pop hre
  have hmoved : CallStep ok (s.goto i (.reloaded flags s.rflags))
      (((s.goto i (.reloaded flags s.rflags)).goto i .outside).setFlags i s.rflags) := by
    refine ⟨⟨i, hpop⟩, fun k hk => ?_⟩
    have hki : k ≠ i := by
      intro heq
      subst heq
      exact nomatch (goto_pc_self _ k _).symm.trans (hk.trans hre)
    exact Function.update_of_ne hki _ _
  have hrun := Relation.ReflTransGen.single (r := CallStep ok) ⟨⟨i, hreload⟩, fun _ _ => rfl⟩
  refine ⟨_, hrun.tail hmoved, goto_pc_self _ i _, Function.update_self _ _ _, fun k hk => ?_⟩
  exact (goto_pc_ne hk).trans (goto_pc_ne hk)

/-- **A waiting actor can leave its flags to the holder**: it takes the lock and saves its flags
right after `lock btrl`, and the other loads them. -/
theorem flags_stolen {flags flags' : Nat} {ops ops' : List (σ → σ)}
    (hi : s.pc i = .inside flags ops) (hj : s.pc j = .spinning flags' ops')
    (hok : ok (perform ops s.data) j ops') :
    ∃ t, Relation.ReflTransGen (CallStep ok) s t ∧ t.pc i = .outside ∧ t.flags i = flags' ∧
      t.pc j = .inside flags' ops' := by
  have hij : i ≠ j := by
    intro heq
    rw [heq, hj] at hi
    exact nomatch hi
  -- the holder finishes its section and clears the bit
  obtain ⟨t, ht, hti, hdata, hother⟩ : ∃ t, Relation.ReflTransGen (CallStep ok) s t ∧ _ :=
    finish_section hi
  have hrelease : LockStep ok i t { t.goto i (.released flags) with lock := btrl t.lock } :=
    .release hti
  have htj : (t.goto i (.released flags)).pc j = .spinning flags' ops' := by
    rw [goto_pc_ne hij.symm, hother j hij.symm]
    exact hj
  rw [← hdata] at hok
  -- the one that waits comes in before the flags are read, and saves its own
  obtain ⟨u, hu, huj, hflags, hsame⟩ := acquire_free
    (s := { t.goto i (.released flags) with lock := btrl t.lock }) htj (btrl_clear _) hok
  have hui : u.pc i = .released flags := by
    rw [hsame i hij]
    exact goto_pc_self t i _
  obtain ⟨v, hv, hvi, hloaded, hkept⟩ : ∃ v, Relation.ReflTransGen (CallStep ok) u v ∧ _ :=
    load_flags hui
  have hrun := ht.tail ⟨⟨i, hrelease⟩, fun _ _ => rfl⟩
  refine ⟨v, (hrun.trans hu).trans hv, hvi, hloaded.trans hflags, ?_⟩
  rw [hkept j hij.symm]
  exact huj

/--
**What `spin_unlock` restores.**

If nobody saves its flags in the lock between the release by another and the read
that follows, each actor gets back the flags it had. From every state in which one is
inside and another waits, calls alone can go on in such a way that the one inside comes
out with the flags of the one that waits: with these it goes on without interrupts, or
with them in a handler that had none.
-/
theorem unlock_flags :
    (∀ s, Reachable (LockStart x₀) (QuietStep ok) s →
      ∀ i flags value, s.pc i = .reloaded flags value → value = flags) ∧
    ∀ (s : LockState ι σ) i j flags flags' ops ops', s.pc i = .inside flags ops →
      s.pc j = .spinning flags' ops' → ok (perform ops s.data) j ops' →
        ∃ t, Relation.ReflTransGen (CallStep ok) s t ∧ t.pc i = .outside ∧
          t.flags i = flags' ∧ t.pc j = .inside flags' ops' := by
  refine ⟨?_, ?_⟩
  · intro s hr
    exact (flagsKept_reachable hr).reloaded
  · intro s i j flags flags' ops ops' hi hj hok
    exact flags_stolen hi hj hok

/-- Two actors, one with interrupts on and one with interrupts off. -/
def twoActors : LockState Bool Nat :=
  ⟨0, 0, 0, fun i => if i then 0x202 else 0x2, fun _ => .outside, []⟩

/-- Any section may be entered. -/
def anySection (_ : Nat) (_ : Bool) (_ : List (Nat → Nat)) : Prop := True

/-- The first is inside, and the second waits. -/
theorem contended : ∃ s : LockState Bool Nat, Reachable (LockStart 0) (AnyLockStep anySection) s ∧
    s.pc true = .inside 0x202 [] ∧ s.pc false = .spinning 0x2 [] := by
  have h0 : Reachable (LockStart 0) (AnyLockStep anySection) twoActors :=
    .init ⟨Nat.zero_testBit 0, rfl, fun _ => rfl, rfl⟩
  have h1 := h0.tail ⟨true, @LockStep.push _ _ _ _ _ _ [] rfl⟩
  have h2 := h1.tail ⟨true, .mask rfl⟩
  have h3 := h2.tail ⟨true, .take rfl (by decide) trivial⟩
  have h4 := h3.tail ⟨true, .save rfl⟩
  have h5 := h4.tail ⟨false, @LockStep.push _ _ _ _ _ _ [] rfl⟩
  have h6 := h5.tail ⟨false, .mask rfl⟩
  exact ⟨_, h6, rfl, rfl⟩

/-- The first alone holds the lock. -/
theorem spinlock_locks_contended : ∃ s : LockState Bool Nat, (s.pc true).Holds ∧
    ¬ (s.pc false).Holds ∧ LockOk anySection 0 s := by
  obtain ⟨s, hr, htrue, hfalse⟩ := contended
  refine ⟨s, ?_, ?_, (spinlock_locks hr).1⟩
  · rw [htrue]
    exact Option.some_ne_none []
  · rw [hfalse]
    exact fun h => h rfl

/-- The first had interrupts on, and comes out without. -/
theorem unlock_flags_contended : ∃ s t : LockState Bool Nat,
    s.pc true = .inside 0x202 [] ∧ Relation.ReflTransGen (CallStep anySection) s t ∧
      t.pc true = .outside ∧ (t.flags true).testBit interruptFlag = false := by
  obtain ⟨s, -, htrue, hfalse⟩ := contended
  obtain ⟨t, ht, hout, hflags, -⟩ := (@unlock_flags Bool Nat _ anySection 0).2 s true false
    0x202 0x2 [] [] htrue hfalse trivial
  refine ⟨s, t, htrue, ht, hout, ?_⟩
  rw [hflags]
  decide

end IonOS.Arch
