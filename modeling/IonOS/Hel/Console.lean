import IonOS.Arch.Spinlock
import IonOS.Hel.Debug

/-!
# Messages from several CPUs

`printk` formats a message into `debug::buf` and then sends it off byte by byte, all
of it inside `debug::lock`. Both the buffer and the serial line are shared by every
CPU, and each store and each byte is a step of its own here.
-/

namespace IonOS.Hel

open IonOS.Lib IonOS.Libs IonOS.Arch

/-- `debug::buf`, and what has gone out on the serial line. -/
structure Console where
  buf : Nat → UInt8
  serial : List UInt8

namespace Console

/-- A byte that `vsprintf` stores. -/
def store (i : Nat) (c : UInt8) (k : Console) : Console :=
  { k with buf := Function.update k.buf i c }

/-- `if (buf[i] == '\n') write('\r');` -/
def carriage (i : Nat) (k : Console) : Console :=
  if k.buf i = 10 then { k with serial := k.serial ++ [13] } else k

/-- `write(buf[i]);` -/
def put (i : Nat) (k : Console) : Console := { k with serial := k.serial ++ [k.buf i] }

end Console

/-- `vsprintf` into `buf`, from index `i` on. -/
def fillSteps : Nat → List UInt8 → List (Console → Console)
  | _, [] => []
  | i, c :: cs => Console.store i c :: fillSteps (i + 1) cs

/-- The loop of `printk`. -/
def writeSteps (len : Nat) : List (Console → Console) :=
  (List.range len).flatMap fun i => [Console.carriage i, Console.put i]

/-- What `printk` does between `spin_lock` and `spin_unlock`. -/
def printkSteps (l : Logged) : List (Console → Console) :=
  fillSteps 0 l.buf ++ writeSteps l.len.toNat

/-- A message whose text fits into `buf`. -/
def Message (l : Logged) : Prop :=
  (∃ r fmt args, printk r fmt args = some l) ∧ l.buf.length ≤ bufSize

variable {ι : Type} {l : Logged} {k x₀ : Console} {n : Nat}

/-- The section is `printk`, for some message. -/
def Prints (_ : Console) (_ : ι) (ops : List (Console → Console)) : Prop :=
  ∃ l, Message l ∧ ops = printkSteps l

/-! ## One message -/

theorem perform_fillSteps (cs : List UInt8) (i : Nat) (k : Console) :
    (perform (fillSteps i cs) k).serial = k.serial ∧
      ∀ j, (perform (fillSteps i cs) k).buf j =
        if i ≤ j then cs.getD (j - i) (k.buf j) else k.buf j := by
  induction cs generalizing i k with
  | nil =>
    refine ⟨rfl, fun j => ?_⟩
    rw [fillSteps, perform_nil, List.getD_nil, ite_self]
  | cons c cs ih =>
    obtain ⟨hserial, hbuf⟩ := ih (i + 1) (Console.store i c k)
    rw [fillSteps, perform_cons]
    refine ⟨hserial, fun j => ?_⟩
    rw [hbuf j]
    by_cases hij : i = j
    · subst hij
      rw [if_neg (by omega), if_pos (Nat.le_refl _), Nat.sub_self]
      exact Function.update_self _ _ _
    · have hsame : (Console.store i c k).buf j = k.buf j := Function.update_of_ne (Ne.symm hij) _ _
      rw [hsame]
      by_cases hlt : i + 1 ≤ j
      · obtain ⟨d, rfl⟩ := Nat.exists_eq_add_of_le hlt
        rw [if_pos hlt, if_pos (by omega), show i + 1 + d - i = d + 1 by omega,
          Nat.add_sub_cancel_left, List.getD_cons_succ]
      · rw [if_neg hlt, if_neg (by omega)]

theorem perform_write (i : Nat) (k : Console) :
    perform [Console.carriage i, Console.put i] k =
      { k with serial := k.serial ++ serialByte (k.buf i) } := by
  rw [perform_cons, perform_cons, perform_nil, Console.carriage, Console.put, serialByte]
  by_cases hnl : k.buf i = 10
  · rw [if_pos hnl, if_pos hnl, List.append_assoc]
    rfl
  · rw [if_neg hnl, if_neg hnl]

theorem perform_writeSteps (k : Console) (n : Nat) :
    perform (writeSteps n) k =
      { k with serial := k.serial ++ ((List.range n).map k.buf).flatMap serialByte } := by
  induction n with
  | zero =>
    rw [writeSteps, List.range_zero, List.flatMap_nil, perform_nil, List.map_nil, List.flatMap_nil,
      List.append_nil]
  | succ n ih =>
    rw [writeSteps, List.range_succ, List.flatMap_append, perform_append, ← writeSteps, ih,
      List.flatMap_singleton, perform_write, List.map_append, List.flatMap_append,
      List.map_singleton, List.flatMap_singleton, List.append_assoc]

/-- `printk` sends its message. -/
theorem perform_printkSteps (hl : Message l) (k : Console) :
    (perform (printkSteps l) k).serial = k.serial ++ l.serial := by
  obtain ⟨⟨r, fmt, args, hprint⟩, hfits⟩ := hl
  obtain ⟨p, -, rfl⟩ := Option.map_eq_some_iff.mp hprint
  dsimp only at hfits
  rw [List.length_append, List.length_singleton] at hfits
  have hlen : toInt (p.str.length : Int) = p.str.length := by
    unfold bufSize at hfits
    rw [toInt, Int.bmod_eq_of_le (by omega) (by omega)]
  obtain ⟨hserial, hbuf⟩ := perform_fillSteps (p.str ++ [0]) 0 k
  have htext :
      (List.range p.str.length).map (perform (fillSteps 0 (p.str ++ [0])) k).buf = p.str := by
    refine List.ext_getElem ?_ ?_
    · rw [List.length_map, List.length_range]
    · intro i h1 h2
      rw [List.getElem_map, List.getElem_range, hbuf i, if_pos (Nat.zero_le i), Nat.sub_zero,
        List.getD_eq_getElem _ _ (by rw [List.length_append]; omega), List.getElem_append_left h2]
  rw [printkSteps, perform_append, perform_writeSteps]
  dsimp only
  rw [hserial, hlen, Int.toNat_natCast, List.take_length, htext]

/-! ## What has gone out already -/

/-- Steps that only add to what has gone out. -/
def Adds (ops : List (Console → Console)) : Prop := ∀ op ∈ ops, ∀ k, k.serial <+: (op k).serial

theorem Adds.append {ops ops' : List (Console → Console)} (h : Adds ops) (h' : Adds ops') :
    Adds (ops ++ ops') := by
  intro op hop
  rcases List.mem_append.mp hop with hop | hop
  · exact h op hop
  · exact h' op hop

theorem adds_fillSteps (cs : List UInt8) (i : Nat) : Adds (fillSteps i cs) := by
  induction cs generalizing i with
  | nil =>
    intro op hop
    exact nomatch hop
  | cons c cs ih =>
    intro op hop k
    rcases List.mem_cons.mp hop with rfl | hop
    · exact List.prefix_rfl
    · exact ih (i + 1) op hop k

theorem adds_writeSteps (n : Nat) : Adds (writeSteps n) := by
  intro op hop k
  obtain ⟨i, -, hop⟩ := List.mem_flatMap.mp hop
  rcases List.mem_cons.mp hop with rfl | hop
  · unfold Console.carriage
    by_cases hnl : k.buf i = 10
    · rw [if_pos hnl]
      exact List.prefix_append _ _
    · rw [if_neg hnl]
  · rw [List.mem_singleton.mp hop]
    exact List.prefix_append _ _

theorem adds_printkSteps (l : Logged) : Adds (printkSteps l) :=
  (adds_fillSteps _ _).append (adds_writeSteps _)

theorem Adds.perform {ops : List (Console → Console)} (h : Adds ops) (k : Console) :
    k.serial <+: (perform ops k).serial := by
  induction ops generalizing k with
  | nil => exact List.prefix_rfl
  | cons op ops ih =>
    have hrest : Adds ops := fun f hf => h f (List.mem_cons_of_mem _ hf)
    exact (h op List.mem_cons_self k).trans (ih hrest (op k))

/-- In the middle of a message, a first part of it has gone out. -/
theorem serial_partial {done rest : List (Console → Console)} (hl : Message l)
    (hops : done ++ rest = printkSteps l) (k : Console) :
    ∃ p, p <+: l.serial ∧ (perform done k).serial = k.serial ++ p := by
  have hadds : Adds (done ++ rest) := by
    rw [hops]
    exact adds_printkSteps l
  have hdone : Adds done := fun op hop => hadds op (List.mem_append_left _ hop)
  have hrest : Adds rest := fun op hop => hadds op (List.mem_append_right _ hop)
  obtain ⟨p, hp⟩ := hdone.perform k
  refine ⟨p, ?_, hp.symm⟩
  have hwhole := hrest.perform (perform done k)
  rw [← perform_append, hops, perform_printkSteps hl, ← hp] at hwhole
  exact (List.prefix_append_right_inj k.serial).mp hwhole

/-! ## Any number of CPUs -/

/-- Sections that were entered are messages, in the same order. -/
def Entered (log : List (ι × List (Console → Console))) (msgs : List Logged) : Prop :=
  List.Forall₂ (fun e l => Message l ∧ e.2 = printkSteps l) log msgs

theorem serial_messages {log : List (ι × List (Console → Console))} {k : Console}
    (h : Serial Prints x₀ log k) :
    ∃ msgs, Entered log msgs ∧ k.serial = x₀.serial ++ msgs.reverse.flatMap Logged.serial := by
  induction h with
  | nil => exact ⟨[], .nil, by rw [List.reverse_nil, List.flatMap_nil, List.append_nil]⟩
  | cons hser hok ih =>
    obtain ⟨l, hl, rfl⟩ := hok
    obtain ⟨msgs, hent, hserial⟩ := ih
    refine ⟨l :: msgs, .cons ⟨hl, rfl⟩ hent, ?_⟩
    rw [perform_printkSteps hl, hserial, List.reverse_cons, List.flatMap_append,
      List.flatMap_singleton, List.append_assoc]

variable [DecidableEq ι] {s : LockState ι Console}

/--
**Messages come out whole.**

However many CPUs print, and in whatever order their instructions come: with nobody
printing, what has gone out is the messages, each from its first byte to its last, in
the order in which the lock was taken. While one is printing, a first part of its
message follows.
-/
theorem printk_whole (h : Reachable (LockStart x₀) (AnyLockStep Prints) s) :
    ((∀ i, ¬ (s.pc i).Holds) → ∃ msgs, Entered s.log msgs ∧
      s.data.serial = x₀.serial ++ msgs.reverse.flatMap Logged.serial) ∧
    ∀ i, (s.pc i).Holds → ∃ l msgs p, Entered s.log (l :: msgs) ∧ p <+: l.serial ∧
      s.data.serial = x₀.serial ++ msgs.reverse.flatMap Logged.serial ++ p := by
  have hs := lockOk_reachable h
  refine ⟨fun hfree => serial_messages (hs.free hfree), ?_⟩
  intro i hi
  obtain ⟨rest, hleft⟩ := Option.ne_none_iff_exists'.mp hi
  obtain ⟨done, log, x, hlog, hser, ⟨l, hl, hops⟩, hdata⟩ := hs.busy i rest hleft
  obtain ⟨msgs, hent, hserial⟩ := serial_messages hser
  obtain ⟨p, hp, hpart⟩ := serial_partial hl hops x
  refine ⟨l, msgs, p, ?_, hp, ?_⟩
  · rw [hlog]
    exact .cons ⟨hl, hops⟩ hent
  · rw [hdata, hpart, hserial]

/-- Two CPUs that have printed nothing. -/
def quietConsole : LockState Bool Console :=
  ⟨0, 0, ⟨fun _ => 0, []⟩, fun _ => 0x202, fun _ => .outside, []⟩

/-- The message `"A"`. -/
def shortMessage : Logged := ⟨[65, 0], [65], 1⟩

theorem message_short : Message shortMessage :=
  ⟨⟨fun _ => some 0, [65, 0], [], by decide⟩, by decide⟩

/-- A CPU that has just begun to print it. -/
theorem printk_whole_begun : ∃ s : LockState Bool Console, (s.pc true).Holds ∧
    ∃ l msgs p, Entered s.log (l :: msgs) ∧ p <+: l.serial ∧
      s.data.serial = msgs.reverse.flatMap Logged.serial ++ p := by
  have h0 : Reachable (LockStart ⟨fun _ => 0, []⟩) (AnyLockStep Prints) quietConsole :=
    .init ⟨Nat.zero_testBit 0, rfl, fun _ => rfl, rfl⟩
  have hprints : Prints quietConsole.data true (printkSteps shortMessage) := ⟨_, message_short, rfl⟩
  obtain ⟨s, hrun, hpc⟩ := enter_free (j := true) rfl (Nat.zero_testBit 0) hprints
  have hr := h0.follow (fun _ _ hst => hst) hrun
  have hholds : (s.pc true).Holds := by
    rw [hpc]
    exact Option.some_ne_none _
  exact ⟨s, hholds, (printk_whole hr).2 true hholds⟩

end IonOS.Hel
