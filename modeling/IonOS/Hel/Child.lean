import IonOS.Arch.Fork
import IonOS.Arch.Syscall
import IonOS.Hel.Dispatch
import IonOS.Proc.Lifetime
import IonOS.Proc.Stack

/-!
# Where a child starts

`k_clone_impl` copies its caller's frame to where the child's stack is thought to end, which is
the memory in front of it, in a frame that belongs to somebody else. The copy is good for what it
is for all the same: the stack starts at the lowest free frame, so whatever is allocated after it
lies above, and the frame in front of it is not the one in front of the caller's.
-/

namespace IonOS.Hel

open IonOS.Lib IonOS.Libs IonOS.Mm IonOS.Proc IonOS.Arch

variable {off stack flags newsp parentTid childTid tls cr3 regs entry tflags refs : Nat}
  {garbageFx : FxState} {garbage : FileInfo} {k k' : Kernel} {cur p : ThreadPtr}
  {t child : Thread} {m : Mem} {x : Nat} {b : Bitmap}

/-! ## Allocations go up -/

/-- **What is found is the lowest**, so nothing that is found later lies below it. Frame 0 also
stands for no frame. -/
theorem allocFrames_lowest (b : Bitmap) (count : Nat) (hsize : b.size ≤ 2 ^ 52) (hc : 1 ≤ count)
    (hcount : count < 2 ^ 52) :
    ∃ r, (allocFrames b count).1 = r * pageSize ∧ (allocFrames b count).2.size = b.size ∧
      (r ≠ 0 → r < b.size / 8 * 8 ∧ b.get r = true) ∧
      ∀ n < b.size / 8 * 8, (allocFrames b count).2.get n = true → r < n ∧ b.get n = true := by
  rcases allocFrames_cases hsize hc with ⟨r, hr, ⟨-, hfree, hbelow⟩, he⟩ | ⟨hnone, he⟩
  · rw [he]
    refine ⟨r, rfl, Bitmap.setRange_size _ _ _ _, fun _ => ⟨hr, hfree⟩, fun n hn hget => ?_⟩
    rw [Bitmap.get_setRange (by omega) (by omega), addW_of_lt (by omega)] at hget
    by_cases hin : r ≤ n ∧ n < r + count
    · rw [if_pos hin] at hget
      exact nomatch hget
    · rw [if_neg hin] at hget
      have hge : ¬ n < r := by
        intro hlt
        rw [hbelow n (Nat.zero_le n) hlt] at hget
        exact nomatch hget
      exact ⟨by omega, hget⟩
  · rw [he]
    refine ⟨0, rfl, rfl, fun h0 => absurd rfl h0, fun n hn hget => ?_⟩
    rw [hnone n hn] at hget
    exact nomatch hget

/-! ## What is written where -/

/-- `arch_context_init` writes in its frame. -/
theorem archContextInit_other (hlt : subW stack ptRegsSize + ptRegsSize < 2 ^ 64)
    (hx : x < subW stack ptRegsSize ∨ subW stack ptRegsSize + ptRegsSize ≤ x) :
    (archContextInit m garbageFx entry stack).2 x = m x := by
  unfold archContextInit
  dsimp only
  generalize subW stack ptRegsSize = a at *
  unfold ptRegsSize at hlt hx
  have hfield : ∀ (m : Mem) (n v : Nat), n + 8 ≤ 0xc0 → m.write64 (addW a n) v x = m x := by
    intro m n v hn
    rw [addW_of_lt (by omega)]
    exact Mem.write64_other (by omega)
  rw [hfield _ _ _ (by decide), hfield _ _ _ (by decide), hfield _ _ _ (by decide),
    hfield _ _ _ (by decide), hfield _ _ _ (by decide), hfield _ _ _ (by decide),
    hfield _ _ _ (by decide), memset_other (by omega)]

theorem create_mem (h : create off garbageFx k cr3 entry tflags = some (p, k')) :
    k'.machine.mem =
      (archContextInit k.machine.mem garbageFx entry (stackAddrs off k).1).2 := by
  unfold create at h
  cases hfree : getFreeThread k with
  | none =>
      rw [hfree] at h
      exact nomatch h
  | some x =>
      rw [hfree] at h
      obtain ⟨-, rfl⟩ := Prod.mk.inj (Option.some.inj h)
      rfl

theorem cloneMm_mem (off : Nat) (k : Kernel) (mm flags : Nat) :
    (cloneMm off k mm flags).2.machine.mem =
      (clonePageTable off k.machine (k.mms mm) flags).2.2.mem := by
  unfold cloneMm
  split <;> simp [*]

/-! ## Where the frames are -/

/-- What a clone relies on, where the caller's frame ends at `top`. -/
structure CloneMem (off : Nat) (b : Bitmap) (flags parentTid childTid top : Nat) : Prop where
  /-- The direct map is in the upper half, and shows all frames. -/
  upper : 2 ^ 63 ≤ off
  window : off + b.size * pageSize ≤ 2 ^ 64
  /-- The caller's stack is in use, and so is what is in front of it. -/
  caller : ∃ n, 1 < n ∧ n < b.size ∧ top = off + n * pageSize ∧ b.get n = false ∧
    b.get (n - 1) = false
  /-- The lowest free frame is not frame 1, or a frame that is not found would be the one in front
  of it. -/
  second : b.get 1 = false
  /-- The two pointers that the caller passes are into its own half. -/
  parent : flags &&& cloneParentSettid ≠ 0 → parentTid + 4 ≤ 2 ^ 47
  child : flags &&& cloneChildSettid ≠ 0 → childTid + 4 ≤ 2 ^ 47

/-- The pages at the ends of which are the caller's frame and the child's, and the page of the table
that is allocated last. -/
structure Placed (stack table top : Nat) : Prop where
  childLow : 2 ^ 63 ≤ stack
  childHigh : stack + pageSize ≤ 2 ^ 64
  callerLow : 2 ^ 63 + pageSize ≤ top
  callerHigh : top + pageSize ≤ 2 ^ 64
  tableLow : 2 ^ 63 ≤ table
  tableHigh : table + pageSize ≤ 2 ^ 64
  frames : stack + pageSize ≤ top ∨ top + pageSize ≤ stack
  childTable : stack ≤ table ∨ table + 2 * pageSize ≤ stack
  callerTable : top ≤ table ∨ table + 2 * pageSize ≤ top

theorem CloneMem.placed {top : Nat}
    (h : CloneMem off k.machine.frames flags parentTid childTid top)
    (hc : create off garbageFx k cr3 entry tflags = some (p, k')) :
    Placed (stackAddrs off k).1 (newTable off k'.machine) top := by
  obtain ⟨hupper, hwindow, ⟨n, hn, hlt, rfl, hused, hfront⟩, hsecond, -, -⟩ := h
  have hframes := create_frames hc
  have hsize : k.machine.frames.size ≤ 2 ^ 51 := by
    unfold pageSize at hwindow
    omega
  have hstack : (stackAddrs off k).1 = addW (allocFrames k.machine.frames 16).1 off := rfl
  have htable : newTable off k'.machine = addW (allocFrames (allocFrames (allocFrames
      k.machine.frames 16).2 16).2 1).1 off := by
    rw [newTable, hframes]
    rfl
  generalize k.machine.frames = b at *
  obtain ⟨r, hr, hsize₁, hfound, hnext⟩ := allocFrames_lowest b 16 (by omega)
    (by decide) (by decide)
  generalize allocFrames b 16 = a at *
  obtain ⟨_, -, hsize₂, -, hnext₂⟩ := allocFrames_lowest a.2 16 (by omega)
    (by decide) (by decide)
  generalize allocFrames a.2 16 = a₂ at *
  obtain ⟨r₃, hr₃, -, hfound₃, -⟩ := allocFrames_lowest a₂.2 1 (by omega)
    (by decide) (by decide)
  rw [hsize₁] at hsize₂ hnext₂
  rw [hsize₂] at hfound₃
  -- a frame that is found after the stack was free before, and lies above
  have hafter : r₃ ≠ 0 → r < r₃ ∧ r₃ < b.size ∧ b.get r₃ = true := by
    intro h0
    obtain ⟨hlt₃, hget⟩ := hfound₃ h0
    obtain ⟨hup, hfree⟩ := hnext r₃ hlt₃ (hnext₂ r₃ hlt₃ hget).2
    exact ⟨hup, by omega, hfree⟩
  have hbound : r₃ < b.size := by
    by_cases h0 : r₃ = 0
    · omega
    · exact (hafter h0).2.1
  have hbound' : r < b.size := by
    by_cases h0 : r = 0
    · omega
    · have := (hfound h0).1
      omega
  have hne : ∀ f, f ≠ 0 → b.get f = false → r ≠ f ∧ r₃ ≠ f := by
    intro f hf hnot
    refine ⟨?_, ?_⟩
    · rintro rfl
      rw [(hfound hf).2] at hnot
      exact Bool.noConfusion hnot
    · rintro rfl
      rw [(hafter hf).2.2] at hnot
      exact Bool.noConfusion hnot
  have hone := (hne 1 (by decide) hsecond).1
  have hcaller := (hne n (by omega) hused).1
  have hcaller₃ := (hne (n - 1) (by omega) hfront).2
  have habove : r₃ = 0 ∨ r < r₃ := by
    by_cases h0 : r₃ = 0
    · exact .inl h0
    · exact .inr (hafter h0).1
  clear hne hafter hnext hnext₂ hfound hfound₃
  rw [hr] at hstack
  rw [hr₃] at htable
  unfold pageSize at *
  rw [addW_of_lt (by omega)] at hstack htable
  rw [hstack, htable]
  refine ⟨?_, ?_, ?_, ?_, ?_, ?_, ?_, ?_, ?_⟩ <;> first | omega | (unfold pageSize; omega)

/-! ## The copy -/

/-- Storing an id, where the flag asks for it. -/
def setTid (m : Mem) (flags flag ptr id : Nat) : Mem :=
  if flags &&& flag ≠ 0 then m.writeLE ptr 4 id else m

theorem setTid_other {flag ptr id : Nat} (h : flags &&& flag ≠ 0 → ptr + 4 ≤ x) :
    setTid m flags flag ptr id x = m x := by
  unfold setTid
  split
  · exact Mem.writeLE_of_le (h ‹_›)
  · rfl

/-- **What `k_clone_impl` writes**: the new thread's frame, the caller's over it, a table, the stack
pointer and the ids. -/
theorem kCloneImpl_mem (hcur : k.threads cur = some t)
    (h : kCloneImpl off garbageFx garbage k cur cr3 regs flags newsp parentTid childTid tls =
      some (p, k')) (hchild : k'.threads p = some child) :
    ∃ kc s, create off garbageFx k cr3 0 t.tflags = some (p, kc) ∧
      child.archContext.context = subW (stackAddrs off k).1 ptRegsSize ∧
      s.frames = kc.machine.frames ∧
      s.mem = memcpy kc.machine.mem child.archContext.context regs ptRegsSize ∧
      ∃ m, m = (clonePageTable off s (kc.mms t.mm) flags).2.2.mem ∧
        k'.machine.mem = setTid (setTid
          (if newsp ≠ 0 then m.write64 (addW child.archContext.context 0xb0) newsp else m)
          flags cloneParentSettid parentTid t.id) flags cloneChildSettid childTid child.id := by
  unfold kCloneImpl at h
  rw [hcur] at h
  simp only [Option.bind_eq_bind, Option.bind_some] at h
  obtain ⟨⟨ptr, kc⟩, hcreate, h⟩ := Option.bind_eq_some_iff.mp h
  obtain ⟨-, hc⟩ := create_spec hcreate
  obtain ⟨new, hthreads, -⟩ := hc.threads
  have hnew : kc.threads ptr = some new := by rw [hthreads, Function.update_self]
  dsimp only at h
  rw [hnew] at h
  simp only [Option.bind_some, Option.pure_def, Option.some.injEq, Prod.mk.injEq] at h
  obtain ⟨rfl, rfl⟩ := h
  unfold Kernel.setThread at hchild
  dsimp only at hchild
  rw [Function.update_self] at hchild
  obtain rfl := Option.some.inj hchild
  let kr : Kernel :=
    { kc with machine :=
        { kc.machine with mem := memcpy kc.machine.mem new.archContext.context regs ptRegsSize } }
  have hmm := cloneMm_mem off kr t.mm flags
  exact ⟨kc, kr.machine, hcreate, (create_stacks hcreate hnew).1, rfl, rfl, _, hmm, rfl⟩

/-- Storing the stack pointer of a frame. -/
theorem ptRegs_write_rsp (m : Mem) (a : Nat) {v : Nat} (hv : v < 2 ^ 64) :
    ptRegs (m.write64 (a + 0xb0) v) a = { ptRegs m a with rsp := .ofNat 64 v } := by
  have hself : wordAt (m.write64 (a + 0xb0) v) (a + 0xb0) = .ofNat 64 v := by
    rw [wordAt, Mem.read64_write64_same _ _ hv]
  have hother : ∀ n, n + 8 ≤ 0xb0 ∨ n = 0xb8 →
      wordAt (m.write64 (a + 0xb0) v) (a + n) = wordAt m (a + n) := by
    intro n hn
    rw [wordAt, wordAt, Mem.read64_write64_disjoint _ _ (by omega)]
  unfold ptRegs
  rw [PtRegs.mk.injEq]
  refine ⟨?_, ?_, ?_, ?_, ?_, ?_, ?_, ?_, ?_, ?_, ?_, ?_, ?_, ?_, ?_, ?_, ?_, ?_, ?_, ?_, ?_, ?_,
    hself, ?_⟩ <;> exact hother _ (by decide)

/-- **Two frames**: the child's is the caller's, up to the stack pointer that the caller may ask
for, and the caller's stays. -/
theorem clone_frames (hcur : k.threads cur = some t)
    (h : kCloneImpl off garbageFx garbage k cur cr3 regs flags newsp parentTid childTid tls =
      some (p, k')) (hchild : k'.threads p = some child)
    (hm : CloneMem off k.machine.frames flags parentTid childTid (regs + ptRegsBytes))
    (hnewsp : newsp < 2 ^ 64) :
    child.archContext.context + ptRegsBytes < 2 ^ 64 ∧
      ptRegs k'.machine.mem child.archContext.context = { ptRegs k.machine.mem regs with
        rsp := if newsp = 0 then (ptRegs k.machine.mem regs).rsp else .ofNat 64 newsp } ∧
      ptRegs k'.machine.mem regs = ptRegs k.machine.mem regs := by
  obtain ⟨kc, s, hcreate, hctx, hframes, hcopy, m, htable, hfinal⟩ := kCloneImpl_mem hcur h hchild
  have hplaced := hm.placed hcreate
  have hnew : newTable off s = newTable off kc.machine := by rw [newTable, newTable, hframes]
  rw [← hnew] at hplaced
  obtain ⟨hlow, hhigh, hcallerLow, hcallerHigh, -, htableHigh, hapart, hout, hout'⟩ := hplaced
  have hbytes : ptRegsBytes = 0xc0 := rfl
  have hsize : ptRegsSize = 0xc0 := rfl
  have hpage : pageSize = 0x1000 := rfl
  rw [hbytes] at hcallerLow hcallerHigh hapart hout' ⊢
  rw [hpage] at hhigh hcallerLow hcallerHigh htableHigh hapart hout hout'
  have hend : child.archContext.context + 0xc0 = (stackAddrs off k).1 := by
    rw [hctx, hsize, subW_of_le (by omega) (by omega)]
    omega
  have hcreated : ∀ x, x < child.archContext.context ∨ child.archContext.context + 0xc0 ≤ x →
      kc.machine.mem x = k.machine.mem x := by
    intro x hx
    rw [create_mem hcreate]
    refine archContextInit_other ?_ ?_ <;>
      · rw [← hctx, hsize]
        omega
  have hcloned : ∀ x, 0x1000 ≤ x → x < newTable off s ∨ newTable off s + 0x1000 ≤ x →
      m x = s.mem x := by
    intro x hx hx'
    rw [htable]
    exact clonePageTable_other htableHigh (fun _ => hx) hx'
  -- the ids are stored in the lower half
  have hids : ∀ x, 2 ^ 47 ≤ x → k'.machine.mem x =
      (if newsp ≠ 0 then m.write64 (addW child.archContext.context 0xb0) newsp else m) x := by
    intro x hx
    rw [hfinal, setTid_other fun hf => le_trans (hm.child hf) hx,
      setTid_other fun hf => le_trans (hm.parent hf) hx]
  rw [addW_of_lt (by omega)] at hids
  rw [hsize] at hcopy
  generalize child.archContext.context = ctx at *
  have hin : ptRegs m ctx = ptRegs k.machine.mem regs := by
    refine ptRegs_copied fun i hi => ?_
    rw [hbytes] at hi
    rw [hcloned _ (by omega) (by omega), hcopy, memcpy_inside (by omega) hi,
      hcreated _ (by omega)]
  refine ⟨by omega, ?_, ?_⟩
  · have hout : ptRegs k'.machine.mem ctx = ptRegs
        (if newsp ≠ 0 then m.write64 (ctx + 0xb0) newsp else m) ctx :=
      ptRegs_copied fun i _ => hids (ctx + i) (by omega)
    rw [hout, ← hin]
    by_cases h0 : newsp = 0
    · rw [if_neg (not_not.mpr h0), if_pos h0]
    · rw [if_pos h0, if_neg h0, ptRegs_write_rsp m ctx hnewsp]
  · refine ptRegs_copied fun i hi => ?_
    rw [hbytes] at hi
    have hstays : (if newsp ≠ 0 then m.write64 (ctx + 0xb0) newsp else m) (regs + i) =
        m (regs + i) := by
      split
      · exact Mem.write64_other (by omega)
      · rfl
    rw [hids _ (by omega), hstays, hcloned _ (by omega) (by omega), hcopy, memcpy_other (by omega),
      hcreated _ (by omega)]

/-! ## The call -/

/-- The frame of a call in `d`, when `syscall_handler` gets to its `switch`. -/
def atSwitch (d : Core) : PtRegs :=
  syscallHandler (ptRegs d.mem (d.reg .rdi).toNat) (d.reg .rsi)
    (ptRegs d.mem (d.reg .rdi).toNat).rax

theorem dispatch_clone {r : PtRegs} (h : r.rax.toNat = kClone) :
    dispatch r = .clone r.rdi.toNat r.rsi.toNat r.rdx.toNat r.r10.toNat r.r8.toNat := by
  unfold dispatch
  rw [h]
  rfl

/-- What the child of a caller in `c` starts with. -/
structure Forked (c e : Core) : Prop where
  /-- Among them `rax`, which is still the number of the call. -/
  reg : ∀ r, r ≠ .rsp → r ≠ .rcx → r ≠ .r11 → e.reg r = c.reg r
  rsp : e.reg .rsp = if c.reg .rsi = 0 then c.reg .rsp else c.reg .rsi
  rcx : e.reg .rcx = c.rip
  r11 : e.reg .r11 = c.rflags
  rip : e.rip = c.rip
  rflags : e.rflags = c.rflags
  cs : e.seg .cs = 0x23
  ss : e.seg .ss = 0x1B
  ds : e.seg .ds = 0x1B
  es : e.seg .es = 0x1B

variable {c d e : Core} {f : SyscallCalls} {s : Symbols} {scratch fuel : Nat}
  {kernelTop lstar : Word} {answer : Core → Word} {st : CloneStatus}

/-- The registers at the `switch` are the caller's. -/
theorem atSwitch_eq (hd : Dispatched scratch kernelTop (c.syscall lstar) d) :
    ∃ old, atSwitch d = syscallHandler ((c.syscall lstar).userFrame old) (d.reg .rsi)
      (c.reg .rax) := by
  refine ⟨ptRegs (c.syscall lstar).mem (d.reg .rsi).toNat, ?_⟩
  unfold atSwitch
  rw [hd.frame]
  rfl

/-- `ret_from_exception`, with the child's frame at the stack pointer. -/
theorem forked (hd : Dispatched scratch kernelTop (c.syscall lstar) d) (hfuel : 2 ≤ fuel)
    (hhold : Holding e 24)
    (hframe : ptRegs e.mem (e.reg .rsp).toNat = { atSwitch d with
      rsp := if c.reg .rsi = 0 then (atSwitch d).rsp else c.reg .rsi }) :
    ∃ e', run s fuel .retFromException e = some e' ∧ e'.mem = e.mem ∧ Forked c e' := by
  obtain ⟨n, rfl⟩ := Nat.exists_eq_add_of_le' hfuel
  have hrun : run s (n + 2) .retFromException e = some (execAll e restoreAll).iretq := rfl
  rw [hrun, restoreAll_iretq hhold, hframe]
  refine ⟨_, rfl, rfl, ?_⟩
  obtain ⟨old, hold⟩ := atSwitch_eq hd
  have hsp : d.reg .rsi + 0xc0 = c.reg .rsp := by
    have hrsi := hd.rsi
    change (d.reg .rsi).toNat + 0xc0 = (c.reg .rsp).toNat at hrsi
    bv_omega
  rw [hold]
  refine ⟨fun r hrsp hrcx hr11 => ?_, ?_, rfl, rfl, rfl, rfl, rfl, rfl, rfl, rfl⟩
  · cases r with
    | rsp => exact absurd rfl hrsp
    | rcx => exact absurd rfl hrcx
    | r11 => exact absurd rfl hr11
    | _ => rfl
  · change (if c.reg .rsi = 0 then d.reg .rsi + 0xc0 else c.reg .rsi) = _
    rw [hsp]

/--
**A clone returns twice.**

Once to its caller, whose registers are what they were, with what `k_clone_impl` returns in `rax`,
and that is the child's id; with `CLONE_VFORK` the caller waits instead. And once, by
`thread_switch_to`, in the child, which goes on behind the same `syscall` with the same registers,
on the stack that it was given, if any. But the number of the call is in `rax` there, and no zero.
-/
theorem clone_returns_twice (hok : CallsOk f scratch kernelTop answer) (hscratch : 8 ≤ scratch)
    (huser : ptRegsBytes + 8 ≤ (c.reg .rsp).toNat) (hkernel : ptRegsBytes + 8 ≤ kernelTop.toNat)
    (hapart : (c.reg .rsp).toNat + ptRegsBytes + scratch ≤ kernelTop.toNat ∨
      kernelTop.toNat + ptRegsBytes ≤ (c.reg .rsp).toNat)
    (hd : syscallEntry f (c.syscall lstar) = d) (hcall : (c.reg .rax).toNat = kClone)
    (hregs : ptRegs k.machine.mem (d.reg .rdi).toNat = atSwitch d)
    (hm : CloneMem off k.machine.frames (c.reg .rdi).toNat (c.reg .rdx).toNat (c.reg .r10).toNat
      kernelTop.toNat)
    (hcur : k.threads cur = some t)
    (hclone : kCloneCall off garbageFx garbage k cur cr3 (d.reg .rdi).toNat (c.reg .rdi).toNat
      (c.reg .rsi).toNat (c.reg .rdx).toNat (c.reg .r10).toNat (c.reg .r8).toNat = some (st, p, k'))
    (hchild : k'.threads p = some child) (hanswer : ∀ v, st = .done v → answer d = .ofNat 64 v) :
    dispatch (atSwitch d) = .clone (c.reg .rdi).toNat (c.reg .rsi).toNat (c.reg .rdx).toNat
        (c.reg .r10).toNat (c.reg .r8).toNat ∧
      ptRegs k'.machine.mem (d.reg .rdi).toNat = atSwitch d ∧
      ((c.reg .rdi).toNat &&& cloneVfork = 0 → st = .done child.id ∧
        Answered scratch kernelTop f c d (.ofNat 64 child.id)
          (asmSyscallHandler f (c.syscall lstar))) ∧
      ((c.reg .rdi).toNat &&& cloneVfork ≠ 0 →
        st = .waiting ∧ cloneWait k' cur p = some (.waiting, k')) ∧
      ∀ s fuel e, 2 ≤ fuel → (e.reg .rsp).toNat = child.archContext.context →
        (∀ i < ptRegsBytes, e.mem (child.archContext.context + i) =
          k'.machine.mem (child.archContext.context + i)) →
        ∃ e', run s fuel .retFromException e = some e' ∧ e'.mem = e.mem ∧ Forked c e' := by
  have hdisp := syscallEntry_spec (c := c.syscall lstar) hok hscratch huser hkernel hapart
  rw [hd] at hdisp
  obtain ⟨old, hold⟩ := atSwitch_eq hdisp
  have hanswered := syscallExit_answered hok hscratch hkernel hapart hdisp
  have hexit : asmSyscallHandler f (c.syscall lstar) = syscallExit f (f.syscallHandler d) := by
    rw [← hd]
    rfl
  obtain ⟨himpl, hdone, hwaits⟩ := kCloneCall_spec hclone hchild
  rw [← hdisp.rdi] at hm
  obtain ⟨hhold, hframe, hcaller⟩ := clone_frames hcur himpl hchild hm (c.reg .rsi).isLt
  rw [hregs] at hframe hcaller
  refine ⟨?_, hcaller, ?_, hwaits, fun s fuel e hfuel hsp hmem => forked hdisp hfuel ?_ ?_⟩
  · rw [hold]
    exact dispatch_clone hcall
  · intro hvfork
    refine ⟨hdone hvfork, ?_⟩
    rw [hexit, ← hanswer child.id (hdone hvfork)]
    exact hanswered
  · unfold Holding
    rw [hsp]
    exact hhold
  · rw [hsp, ptRegs_copied hmem, hframe]
    -- without a stack of its own the child is on its parent's
    by_cases h0 : c.reg .rsi = 0
    · rw [h0]
      rfl
    · have hne : (c.reg .rsi).toNat ≠ 0 := fun h => h0 (BitVec.eq_of_toNat_eq h)
      rw [if_neg h0, if_neg hne, BitVec.ofNat_toNat, BitVec.setWidth_eq]

/-! ### A clone -/

/-- Functions that do what they must, with a handler that answers `v`. -/
def answering (kernelTop v : Word) : SyscallCalls :=
  { plainCalls kernelTop with
    syscallHandler := fun c => { c.returned v with
      mem := c.mem.storeWords (c.reg .rdi).toNat
        ((syscallHandler (ptRegs c.mem (c.reg .rdi).toNat) (c.reg .rsi) v).words.map
          BitVec.toNat) } }

theorem answering_ok (kernelTop v : Word) : CallsOk (answering kernelTop v) 8 kernelTop fun _ => v :=
  ⟨(plainCalls_ok kernelTop).switch, (plainCalls_ok kernelTop).memcpy,
    fun c _ => ⟨returned_returns c v _, ptRegs_storeWords _ _ _⟩⟩

/-- A core in user mode that is about to clone. -/
def cloningCore : Core :=
  { userCore with reg := Function.update userCore.reg .rax (.ofNat 64 kClone) }

def cloningTop : Word := 0xffff800000003000

/-- Where the handler of its call is called. -/
def clonedCore : Core := syscallEntry (plainCalls cloningTop) (cloningCore.syscall 0x1000)

/-- The kernel then, with the first eight frames in use, and only the idle thread. -/
def cloningKernel : Kernel :=
  { bootKernel with
    machine :=
      ⟨clonedCore.mem.storeWords (clonedCore.reg .rdi).toNat
        ((atSwitch clonedCore).words.map BitVec.toNat),
        ⟨fun i => if i = 0 then 0 else 255, 128⟩⟩
    threads := fun p =>
      if p = .idle ⟨0, by decide⟩ then
        some ⟨0, false, 0, 0, ⟨0, emptyFx, 0x10, 0x10, 0, 0⟩, 0xffff800000003000, 0, 1, 0, 0, false,
          false, .kRunActive⟩
      else none }

theorem clone_returns_twice_first : ∃ k' child,
    kCloneCall 0xffff800000000000 emptyFx ⟨0, 0, 0⟩ cloningKernel (.idle ⟨0, by decide⟩) 0x1000
        (clonedCore.reg .rdi).toNat 0x9000 0x9000 0x9000 0x9000 0x9000 =
      some (.done child.id, .slot ⟨1, by decide⟩, k') ∧
    k'.threads (.slot ⟨1, by decide⟩) = some child ∧
    dispatch (atSwitch clonedCore) = .clone 0x9000 0x9000 0x9000 0x9000 0x9000 ∧
      ptRegs k'.machine.mem (clonedCore.reg .rdi).toNat = atSwitch clonedCore ∧
      Answered 8 cloningTop (answering cloningTop (.ofNat 64 child.id)) cloningCore clonedCore
          (.ofNat 64 child.id)
          (asmSyscallHandler (answering cloningTop (.ofNat 64 child.id))
            (cloningCore.syscall 0x1000)) ∧
      ∀ s fuel e, 2 ≤ fuel → (e.reg .rsp).toNat = child.archContext.context →
        (∀ i < ptRegsBytes, e.mem (child.archContext.context + i) =
          k'.machine.mem (child.archContext.context + i)) →
        ∃ e', run s fuel .retFromException e = some e' ∧ e'.mem = e.mem ∧ Forked cloningCore e' := by
  have hcur : (cloningKernel.threads (.idle ⟨0, by decide⟩)).isSome := rfl
  obtain ⟨t, hcur⟩ := Option.isSome_iff_exists.mp hcur
  have hfree : getFreeThread cloningKernel = some (.slot ⟨1, by decide⟩, 1) := by
    refine getFreeThread_slot (fun c hlt => ?_) (Nat.le_refl 1) rfl fun j h1 h2 => ?_
    · have hzero : c = ⟨0, by decide⟩ := Fin.ext (Nat.lt_one_iff.mp hlt)
      rw [hzero, hcur]
      rfl
    · exact absurd h2 (Nat.not_lt.mpr h1)
  obtain ⟨st, k', child, hclone, hchild⟩ := kCloneCall_total 0xffff800000000000 0x1000
    (clonedCore.reg .rdi).toNat 0x9000 0x9000 0x9000 0x9000 0x9000 emptyFx ⟨0, 0, 0⟩ hcur hfree
  have hvfork : 0x9000 &&& cloneVfork = 0 := by decide
  have hst : st = .done child.id := (kCloneCall_spec hclone hchild).2.1 hvfork
  have hmem : CloneMem 0xffff800000000000 cloningKernel.machine.frames 0x9000 0x9000 0x9000
      cloningTop.toNat :=
    ⟨by decide, by decide, ⟨3, by decide, by decide, by decide, by decide, by decide⟩, by decide,
      by decide, by decide⟩
  have hanswer : ∀ v, st = .done v → (BitVec.ofNat 64 child.id : Word) = .ofNat 64 v := by
    intro v hv
    rw [CloneStatus.done.inj (hst.symm.trans hv)]
  obtain ⟨hdispatch, hframe, hanswered, -, hforked⟩ :=
    clone_returns_twice (answering_ok cloningTop (.ofNat 64 child.id)) (by decide) (by decide)
      (by decide) (by decide) rfl (by decide) (ptRegs_storeWords _ _ _) hmem hcur hclone hchild
      hanswer
  rw [hst] at hclone
  exact ⟨k', child, hclone, hchild, hdispatch, hframe, (hanswered hvfork).2, hforked⟩

end IonOS.Hel
