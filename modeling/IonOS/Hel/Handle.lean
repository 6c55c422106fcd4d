import IonOS.Hel.Calls

/-!
# The check of a handle

Six calls take an index into the table of open files from the program. They test
that the entry is not null, and not that there is an entry. A send or a receive goes
through the handle's table of functions before it looks for a pair, and a handle
has a table once it is connected.
-/

namespace IonOS.Hel

open IonOS.Lib IonOS.Libs IonOS.Proc

/-! ## What is owed -/

/-- A handle that is valid, on a socket without a pair. -/
structure Unpaired (h : HelState) (t : Thread) (handleId : Nat) (hd : DsocketHandle) : Prop where
  inTable : InTable h t handleId
  entry : ∃ fd, tableEntry h t handleId = some fd ∧ h.handles (h.kernel.fdInfos fd) = some hd
  socket : ∃ s, h.sockets hd.socket = some s ∧ s.pair = none

/-- The calls that move bytes. -/
def HandleCall.moves : HandleCall → Bool
  | send .. | recv .. => true
  | _ => false

/-- A bad handle is refused and a handle that is not connected is told so. -/
structure HandleOk (fuel : Nat) (new : Malloc) (h : HelState) (cur : ThreadPtr) (t : Thread)
    (handleId : Nat) (call : HandleCall) : Prop where
  bad : ¬ (InTable h t handleId ∧ (tableEntry h t handleId).isSome) →
    call.start fuel new h cur handleId = .ok (.done HelError.badHandler.code, h)
  notConnected : ∀ hd, call.moves → Unpaired h t handleId hd →
    call.start fuel new h cur handleId = .ok (.done HelError.notConnected.code, h)

/-! ## The check -/

variable {handleId : Nat} {h : HelState} {cur : ThreadPtr} {t : Thread} {hd : DsocketHandle}

/-- A send or a receive on a socket without a pair goes wherever `op` leads. -/
theorem start_unpaired {call : HandleCall} (fuel : Nat) (new : Malloc)
    (hcur : h.kernel.threads cur = some t) (hu : Unpaired h t handleId hd) (hmoves : call.moves) :
    call.start fuel new h cur handleId =
      if hd.op = .garbage then .error .wild else .ok (.done HelError.notConnected.code, h) := by
  obtain ⟨fd, hentry, hhandle⟩ := hu.entry
  obtain ⟨s, hs, hx⟩ := hu.socket
  cases call with
  | send inp limit =>
      rw [HandleCall.start, kDriverSendImpl, withHandle_some hcur hu.inTable hentry hhandle]
      by_cases hop : hd.op = .garbage
      · rw [if_pos hop, hop]
        rfl
      · rw [if_neg hop, Op.send_unpaired hop inp limit hs hx]
        rfl
  | recv out limit =>
      rw [HandleCall.start, kDriverRecvImpl, withHandle_some hcur hu.inTable hentry hhandle]
      by_cases hop : hd.op = .garbage
      · rw [if_pos hop, hop]
        rfl
      · rw [if_neg hop, Op.recv_unpaired hop out limit hs hx]
        rfl
  | bind | connect | accept | listen => exact absurd hmoves Bool.false_ne_true

/--
**A handle is checked exactly when it is an index into the table and can be called.**

For every thread and table, every call and every handle: the call does what is owed if
and only if the handle is below `max_fd_count` and, for a send or a receive on a socket
without a pair, the table of functions has been set.
-/
theorem handleOk_iff (fuel : Nat) (new : Malloc) (handleId : Nat) (call : HandleCall)
    (hcur : h.kernel.threads cur = some t) :
    HandleOk fuel new h cur t handleId call ↔
      InTable h t handleId ∧
        ∀ hd, call.moves → Unpaired h t handleId hd → hd.op ≠ .garbage := by
  obtain ⟨body, hstart⟩ := start_eq fuel new h cur handleId call
  constructor
  · intro hok
    have hid : InTable h t handleId := by
      by_contra hid
      have hbad := hok.bad fun hv => hid hv.1
      rw [hstart, withHandle_outside hcur hid] at hbad
      exact nomatch hbad
    refine ⟨hid, fun hd hmoves hu hop => ?_⟩
    have hnot := hok.notConnected hd hmoves hu
    rw [start_unpaired fuel new hcur hu hmoves, if_pos hop] at hnot
    exact nomatch hnot
  · rintro ⟨hid, hops⟩
    refine ⟨fun hbad => ?_, fun hd hmoves hu => ?_⟩
    · have hnull : tableEntry h t handleId = none := by
        rw [← Option.not_isSome_iff_eq_none]
        exact fun hsome => hbad ⟨hid, hsome⟩
      rw [hstart, withHandle_null hcur hid hnull]
    · rw [start_unpaired fuel new hcur hu hmoves, if_neg (hops hd hmoves hu)]

/-! ## A thread with an empty table -/

/-- A thread whose table has 32 entries. -/
def oneThreadOf : Thread :=
  { id := 1, callInSignal := false, cpuId := 0, jiffies := 0
    archContext := ⟨0, emptyFx, 0x10, 0x10, 0, 0⟩, syscallStack := 0, mm := 1, fileInfo := 1
    tflags := 0, status := 0, childVforkDone := false, isVfork := false, state := .kRunNone }

/-- That thread, and the head of the list of sockets. -/
def oneThreadHel : HelState :=
  { kernel := { bootKernel with
      threads := fun p => if p = .slot ⟨1, by decide⟩ then some oneThreadOf else none
      files := fun _ => ⟨1, defaultFdNum, 1⟩
      next := 2 }
    user := fun _ => 0
    sockets := fun x =>
      if x = driverSockets then some ⟨none, 0, 0, .disconnected, 0, 0, fun _ => none, none⟩ else none
    pairs := fun _ => none
    handles := fun _ => none }

/-- What `malloc` returns, for a start. -/
def clearMalloc : Malloc :=
  ⟨⟨none, 0, 0, .disconnected, 0, 0, fun _ => none, none⟩, .garbage, fun _ => none, 0x1000, 0x2000,
    0x3000, 0x4000⟩

/-- The last entry of the table. -/
theorem handleOk_inTable :
    HandleOk 1 clearMalloc oneThreadHel (.slot ⟨1, by decide⟩) oneThreadOf 31 (.send 0 16) := by
  have hcur : oneThreadHel.kernel.threads (.slot ⟨1, by decide⟩) = some oneThreadOf := rfl
  refine (handleOk_iff 1 clearMalloc 31 (.send 0 16) hcur).mpr ⟨?_, fun hd _ hu => ?_⟩
  · show (31 : Int) < 32
    decide
  · obtain ⟨fd, hentry, -⟩ := hu.entry
    exact nomatch hentry

/-- **The index behind the table is not refused.** -/
theorem handle_unchecked : ¬ ∀ call : HandleCall,
    HandleOk 1 clearMalloc oneThreadHel (.slot ⟨1, by decide⟩) oneThreadOf 32 call := by
  intro hok
  have hbad := (hok .listen).bad fun hv => absurd hv.1 (by show ¬ (32 : Int) < 32; decide)
  have houtside : kDriverListenImpl clearMalloc oneThreadHel (.slot ⟨1, by decide⟩) 32 =
      .error .outside := withHandle_outside (t := oneThreadOf) rfl (by show ¬ (32 : Int) < 32; decide)
  exact nomatch hbad.symm.trans houtside

end IonOS.Hel
