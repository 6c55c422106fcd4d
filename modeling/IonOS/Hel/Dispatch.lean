import IonOS.Arch.Syscall
import IonOS.Hel.Lookup
import IonOS.Hel.Registry

/-!
# Sockets from the outside

What programs can do with sockets goes through the switch of `syscall_handler`, which has no case
for `k_driver_bind`. A client looks for its server from `driver_sockets` on, which nobody binds
either, so its `bind_addr` is null: the search for an address that is not empty ends there, with a
page fault, and the search for the empty one finds nothing. And where nobody connects nobody is
accepted.
-/

namespace IonOS.Hel

open IonOS.Lib IonOS.Libs IonOS.Proc IonOS.Arch

/-! ## The switch -/

/-- `k_hel_syscall_index`. -/
def kHelBase : Nat := 0x80000000
def kDebug : Nat := kHelBase + 1
def kPhysmap : Nat := kHelBase + 2
def kPhysunmap : Nat := kHelBase + 3
def kDriverCskt : Nat := kHelBase + 10
def kDriverBind : Nat := kHelBase + 11
def kDriverConnect : Nat := kHelBase + 12
def kDriverAccept : Nat := kHelBase + 13
def kDriverListen : Nat := kHelBase + 14
def kDriverSend : Nat := kHelBase + 15
def kDriverRecv : Nat := kHelBase + 16
def kDriverDskt : Nat := kHelBase + 17
def kGetpid : Nat := kHelBase + 20
def kClone : Nat := kHelBase + 21
def kExit : Nat := kHelBase + 22

/-- The calls on sockets. -/
inductive SocketCall where
  | cskt (flags : Nat)
  | handle (handleId : Nat) (call : HandleCall)

/-- What a case of the switch calls, with the arguments that the function uses. -/
inductive Service where
  | debug (kind : Int) (strPtr : Nat)
  | physmap (physaddr size : Nat)
  | physunmap (virtaddr size : Nat)
  | socket (c : SocketCall)
  | getpid
  | clone (flags newsp parentTid childTid tls : Nat)
  | exit (exitCode : Nat)
  | notImplemented

/-- `switch (regs->rax)`. -/
def dispatch (regs : PtRegs) : Service :=
  let rax := regs.rax.toNat
  let rdi := regs.rdi.toNat
  let rsi := regs.rsi.toNat
  let rdx := regs.rdx.toNat
  if rax = kDebug then .debug (int32 rdi) rsi
  else if rax = kPhysmap then .physmap rdi rsi
  else if rax = kPhysunmap then .physunmap rdi rsi
  else if rax = kDriverCskt then .socket (.cskt rdi)
  else if rax = kDriverConnect then .socket (.handle rdi (.connect rsi))
  else if rax = kDriverListen then .socket (.handle rdi .listen)
  else if rax = kDriverAccept then .socket (.handle rdi (.accept regs.r10.toNat))
  else if rax = kDriverSend then .socket (.handle rdi (.send rsi rdx))
  else if rax = kDriverRecv then .socket (.handle rdi (.recv rsi rdx))
  else if rax = kGetpid then .getpid
  else if rax = kClone then .clone rdi rsi rdx regs.r10.toNat regs.r8.toNat
  else if rax = kExit then .exit rdi
  else .notImplemented

def SocketCall.run (fuel : Nat) (new : Malloc) (h : HelState) (cur : ThreadPtr) :
    SocketCall → Except Fault (Status × HelState)
  | cskt flags => kDriverCsktImpl fuel new h cur flags
  | handle handleId call => call.start fuel new h cur handleId

/-- **There is no way to bind**: two of the numbers have no case. -/
theorem dispatch_never_binds (regs : PtRegs) (handleId addr : Nat) :
    dispatch regs ≠ .socket (.handle handleId (.bind addr)) := by
  -- each case names another function or another call than `bind`
  unfold dispatch
  repeat
    refine iteInduction (motive := (· ≠ Service.socket (.handle handleId (.bind addr))))
      (fun _ h => nomatch h) fun _ => ?_
  exact fun h => nomatch h

/-! ## Runs -/

/-- System calls on sockets by any threads, calls that wait going on, and whatever else the kernel
and the programs do. -/
inductive SocketStep : RegistryState → RegistryState → Prop where
  | syscall {s : RegistryState} {fuel : Nat} {new : Malloc} {cur : ThreadPtr} {regs : PtRegs}
      {c : SocketCall} {st : Status} {h' : HelState} (hc : dispatch regs = .socket c)
      (h : c.run fuel new s.hel cur = .ok (st, h')) :
      SocketStep s ⟨h', st.pending ++ s.waiting⟩
  | resume {s : RegistryState} {fuel : Nat} {new : Malloc} {st st' : Status} {h' : HelState}
      (hwait : st ∈ s.waiting) (h : st.resume fuel new s.hel = .ok (st', h')) :
      SocketStep s ⟨h', st'.pending ++ s.waiting.erase st⟩
  | rest {s : RegistryState} (k : Kernel) (u : Mem) (hnext : s.hel.kernel.next ≤ k.next) :
      SocketStep s { s with hel := { s.hel with kernel := k, user := u } }

/-- No socket but `driver_sockets`, which is all zeros. -/
structure SocketStart (s : RegistryState) : Prop where
  head : ∃ d, s.hel.sockets driverSockets = some d ∧ d.bindAddr = 0 ∧ d.state = .disconnected ∧
    d.pair = none
  sockets : ∀ x, x ≠ driverSockets → s.hel.sockets x = none
  handles : ∀ x, s.hel.handles x = none
  pairs : ∀ x, s.hel.pairs x = none
  next : 0 < s.hel.kernel.next
  waiting : s.waiting = []

/-- What a call comes back with where there is no connection. -/
def HandleCall.Refused (call : HandleCall) (st : Status) : Prop :=
  st = .done HelError.badHandler.code ∨
    match call with
    | .bind _ => False
    | .connect _ => st = .done HelError.notFound.code
    | .accept _ => ∃ cur dsock flags, st = .accepting cur dsock flags
    | .listen => st = .done 0
    | .send _ _ => st = .done HelError.notConnected.code
    | .recv _ _ => st = .done HelError.notConnected.code

/-- The handle is valid, and leads to `hd` and to the socket `s`. -/
def Opened (h : HelState) (cur : ThreadPtr) (handleId : Nat) (hd : DsocketHandle) (s : Dsocket) :
    Prop :=
  ∃ t fd, h.kernel.threads cur = some t ∧ InTable h t handleId ∧ tableEntry h t handleId = some fd ∧
    h.handles (h.kernel.fdInfos fd) = some hd ∧ h.sockets hd.socket = some s

/-- What a call on a valid handle does where there is no connection. What `malloc` had in the memory
for the handle and the socket is not cleared: through an `op` from there a send or a receive goes
anywhere, and with a `conn_curr` from there an accept takes a pair that does not exist. -/
def HandleCall.Does (call : HandleCall) (h : HelState) (cur : ThreadPtr) (hd : DsocketHandle)
    (s : Dsocket) (r : Except Fault (Status × HelState)) : Prop :=
  match call with
  | .bind _ => False
  | .connect addr => addrLen h.user addr ≠ 0 → r = .error .wild
  | .accept flags => r = if s.connCurr = 0 then .ok (.accepting cur hd.socket flags, h)
      else .error .wild
  | .listen => ∃ s', s'.state = .listening ∧ r = .ok (.done 0, h.setSocket hd.socket s')
  | .send _ _ => r = if hd.op = .garbage then .error .wild
      else .ok (.done HelError.notConnected.code, h)
  | .recv _ _ => r = if hd.op = .garbage then .error .wild
      else .ok (.done HelError.notConnected.code, h)

/-- **The invariant.** -/
structure Unconnected (h : HelState) : Prop where
  head : ∃ d, h.sockets driverSockets = some d ∧ d.bindAddr = 0 ∧ d.state ≠ .listening
  handles : ∀ x hd, h.handles x = some hd → hd.socket ≠ driverSockets
  pairs : ∀ x, h.pairs x = none
  sockets : ∀ x s, h.sockets x = some s → s.pair = none
  next : 0 < h.kernel.next

variable {fuel handleId addr x : Nat} {new : Malloc} {h h' : HelState} {cur : ThreadPtr}
  {st : Status} {s : Dsocket} {c : SocketCall} {call : HandleCall} {r r' : RegistryState}

/-! ## One call -/

/-- Every socket stores an empty address. -/
theorem findSocket_empty {path : Nat} {p r : Option Nat}
    (hok : findSocket h path 0 fuel p = .ok r) : r = none := by
  induction fuel generalizing p with
  | zero => exact nomatch hok
  | succ fuel ih =>
    cases p with
    | none => exact (Except.ok.inj hok).symm
    | some d =>
        obtain ⟨s, -, hok⟩ := bind_ok hok
        obtain ⟨c, hc, hok⟩ := bind_ok hok
        rw [compareAddr, if_neg (by simp)] at hc
        obtain rfl := Except.ok.inj hc
        exact ih hok

/-- **The search does not get past the head.** -/
theorem Unconnected.findSocket_wild (hi : Unconnected h) (hlen : addrLen h.user addr ≠ 0) :
    findSocket h (dPath addr) (addrLen h.user addr) (fuel + 1) (some driverSockets) =
      .error .wild := by
  obtain ⟨d, hd, hbind, -⟩ := hi.head
  have hc : compareAddr h d (dPath addr) (addrLen h.user addr) = .error .wild :=
    if_pos ⟨hbind, hlen⟩
  simp only [findSocket, deref_some hd, bind, Except.bind, hc]

theorem Unconnected.findSocket (hi : Unconnected h) {r : Option Nat}
    (hok : findSocket h (dPath addr) (addrLen h.user addr) fuel (some driverSockets) = .ok r) :
    r = none := by
  by_cases hempty : addrLen h.user addr = 0
  · rw [hempty] at hok
    exact findSocket_empty hok
  · cases fuel with
    | zero => exact nomatch hok
    | succ fuel => exact nomatch (hi.findSocket_wild hempty).symm.trans hok

theorem Unconnected.connect (hi : Unconnected h)
    (hok : kDriverConnectImpl fuel h cur handleId addr = .ok (st, h')) :
    h' = h ∧ (HandleCall.connect addr).Refused st := by
  obtain ⟨t, -, -, ⟨rfl, rfl, -⟩ | ⟨fd, hd, -, -, hok⟩⟩ := withHandle_ok hok
  · exact ⟨rfl, .inl rfl⟩
  obtain ⟨dsock, hdsock, hok⟩ := bind_ok hok
  rw [hi.sockets _ _ (deref_ok hdsock), if_neg (by simp)] at hok
  obtain ⟨r, hr, hok⟩ := bind_ok hok
  obtain rfl := hi.findSocket hr
  obtain ⟨rfl, rfl⟩ := Prod.mk.inj (Except.ok.inj hok)
  exact ⟨rfl, .inr rfl⟩

/-- **An accept waits**: a pair to take would have been brought by a client. -/
theorem Unconnected.accept (hi : Unconnected h) {dsock flags : Nat}
    (hok : resumeAccept fuel new h cur dsock flags = .ok (st, h')) :
    h' = h ∧ st = .accepting cur dsock flags := by
  obtain ⟨s, -, ⟨-, rfl, rfl⟩ | ⟨-, t, x, p, s', -, -, hp, -⟩⟩ := resumeAccept_ok hok
  · exact ⟨rfl, rfl⟩
  · rw [hi.pairs] at hp
    exact nomatch hp

/-- Nothing is sent or received. -/
theorem Unconnected.moves (hi : Unconnected h) {op : Op} {dsock a limit ret : Nat}
    (hok : op.send h dsock a limit = .ok (ret, h') ∨ op.recv h dsock a limit = .ok (ret, h')) :
    h' = h ∧ ret = HelError.notConnected.code := by
  have hgarbage : op ≠ .garbage := by
    rintro rfl
    rcases hok with hok | hok <;> exact nomatch hok
  obtain ⟨s, hs⟩ : ∃ s, h.sockets dsock = some s := by
    cases op with
    | garbage => exact absurd rfl hgarbage
    | normalOps | acceptOps =>
        rcases hok with hok | hok <;>
          · obtain ⟨s, hs, -⟩ := bind_ok hok
            exact ⟨s, deref_ok hs⟩
  rcases hok with hok | hok
  · rw [Op.send_unpaired hgarbage a limit hs (hi.sockets _ _ hs)] at hok
    obtain ⟨rfl, rfl⟩ := Prod.mk.inj (Except.ok.inj hok)
    exact ⟨rfl, rfl⟩
  · rw [Op.recv_unpaired hgarbage a limit hs (hi.sockets _ _ hs)] at hok
    obtain ⟨rfl, rfl⟩ := Prod.mk.inj (Except.ok.inj hok)
    exact ⟨rfl, rfl⟩

/-! ## What changes nothing of this -/

theorem Unconnected.setSocket (hi : Unconnected h) (hpair : s.pair = none)
    (hhead : x = driverSockets → s.bindAddr = 0 ∧ s.state ≠ .listening) :
    Unconnected (h.setSocket x s) := by
  refine ⟨?_, hi.handles, hi.pairs, fun y s' hs => ?_, hi.next⟩
  · by_cases hx : driverSockets = x
    · obtain ⟨hbind, hstate⟩ := hhead hx.symm
      refine ⟨s, ?_, hbind, hstate⟩
      rw [hx]
      exact Function.update_self _ _ _
    · obtain ⟨d, hd, hrest⟩ := hi.head
      exact ⟨d, (Function.update_of_ne hx _ _).trans hd, hrest⟩
  · change Function.update h.sockets x (some s) y = some s' at hs
    by_cases hy : y = x
    · rw [hy, Function.update_self] at hs
      exact Option.some.inj hs ▸ hpair
    · rw [Function.update_of_ne hy] at hs
      exact hi.sockets y s' hs

theorem Unconnected.setHandle (hi : Unconnected h) {hd : DsocketHandle}
    (hsock : hd.socket ≠ driverSockets) : Unconnected (h.setHandle x hd) := by
  refine ⟨hi.head, fun y hd' hh => ?_, hi.pairs, hi.sockets, hi.next⟩
  change Function.update h.handles x (some hd) y = some hd' at hh
  by_cases hy : y = x
  · rw [hy, Function.update_self] at hh
    exact Option.some.inj hh ▸ hsock
  · rw [Function.update_of_ne hy] at hh
    exact hi.handles y hd' hh

theorem Unconnected.rest (hi : Unconnected h) {k : Kernel} (u : Mem)
    (hnext : h.kernel.next ≤ k.next) : Unconnected { h with kernel := k, user := u } :=
  ⟨hi.head, hi.handles, hi.pairs, hi.sockets, Nat.lt_of_lt_of_le hi.next hnext⟩

/-- The link to a new socket is written into the last one. -/
theorem Unconnected.cskt (hi : Unconnected h) {flags : Nat}
    (hok : kDriverCsktImpl fuel new h cur flags = .ok (st, h')) : Unconnected h' := by
  obtain ⟨t, -, hadd⟩ := bind_ok hok
  have hadded := addSocket_spec hadd
  obtain ⟨last, v, -, hv, -, rfl⟩ := addSocket_ok hadd
  have hfresh : h.kernel.next + 2 ≠ driverSockets := by
    unfold driverSockets
    omega
  generalize hnew : ({ new.socket with
    flags := flags, bindAddr := new.bindAddr, pair := none, state := .disconnected } : Dsocket) = s
    at hv hadded ⊢
  have hpair : s.pair = none := by rw [← hnew]
  have hwith : Unconnected (withSocket h new.op s) :=
    ((hi.rest h.user (Nat.le_add_right h.kernel.next 3)).setSocket hpair
      fun he => absurd he hfresh).setHandle hfresh
  have hlink := hwith.setSocket (x := last) (s := { v with next := some (h.kernel.next + 2) })
    (hwith.sockets last v hv) fun he => by
      obtain ⟨d, hd, hrest⟩ := hwith.head
      obtain rfl := Option.some.inj (hd.symm.trans (he ▸ hv))
      exact hrest
  refine hlink.rest h.user ?_
  have := hadded.next
  dsimp only at this
  rw [this]
  exact Nat.le_refl _

/-- **Every call is refused, or waits, or prepares for what does not come.** -/
theorem Unconnected.start (hi : Unconnected h) (hbind : ∀ addr, call ≠ .bind addr)
    (hok : call.start fuel new h cur handleId = .ok (st, h')) :
    Unconnected h' ∧ call.Refused st ∧ (call ≠ .listen → h' = h) := by
  cases call with
  | bind addr => exact absurd rfl (hbind addr)
  | connect addr =>
      obtain ⟨rfl, hrefused⟩ := hi.connect hok
      exact ⟨hi, hrefused, fun _ => rfl⟩
  | accept flags =>
      obtain ⟨t, -, -, ⟨rfl, rfl, -⟩ | ⟨fd, hd, -, -, hok⟩⟩ := withHandle_ok hok
      · exact ⟨hi, .inl rfl, fun _ => rfl⟩
      · obtain ⟨rfl, rfl⟩ := hi.accept hok
        exact ⟨hi, .inr ⟨_, _, _, rfl⟩, fun _ => rfl⟩
  | listen =>
      obtain ⟨t, -, -, ⟨rfl, rfl, -⟩ | ⟨fd, hd, -, hhd, hok⟩⟩ := withHandle_ok hok
      · exact ⟨hi, .inl rfl, fun _ => rfl⟩
      · obtain ⟨s, hs, hok⟩ := bind_ok hok
        obtain ⟨rfl, rfl⟩ := Prod.mk.inj (Except.ok.inj hok)
        have hpair : s.pair = none := hi.sockets _ _ (deref_ok hs)
        -- the handle's socket is not the head of the list, whose state must stay
        refine ⟨hi.setSocket hpair fun he => ?_, .inr rfl, fun hne => absurd rfl hne⟩
        exact absurd he (hi.handles _ _ hhd)
  | send inp limit =>
      obtain ⟨t, -, -, ⟨rfl, rfl, -⟩ | ⟨fd, hd, -, -, hok⟩⟩ := withHandle_ok hok
      · exact ⟨hi, .inl rfl, fun _ => rfl⟩
      · obtain ⟨⟨ret, h₁⟩, hmove, hok⟩ := bind_ok hok
        obtain ⟨rfl, rfl⟩ := hi.moves (.inl hmove)
        obtain ⟨rfl, rfl⟩ := Prod.mk.inj (Except.ok.inj hok)
        exact ⟨hi, .inr rfl, fun _ => rfl⟩
  | recv out limit =>
      obtain ⟨t, -, -, ⟨rfl, rfl, -⟩ | ⟨fd, hd, -, -, hok⟩⟩ := withHandle_ok hok
      · exact ⟨hi, .inl rfl, fun _ => rfl⟩
      · obtain ⟨⟨ret, h₁⟩, hmove, hok⟩ := bind_ok hok
        obtain ⟨rfl, rfl⟩ := hi.moves (.inr hmove)
        obtain ⟨rfl, rfl⟩ := Prod.mk.inj (Except.ok.inj hok)
        exact ⟨hi, .inr rfl, fun _ => rfl⟩

/-- **What each call on a valid handle does.** -/
theorem Unconnected.does (hi : Unconnected h) (hbind : ∀ addr, call ≠ .bind addr)
    {hd : DsocketHandle} (hopened : Opened h cur handleId hd s) :
    call.Does h cur hd s (call.start (fuel + 1) new h cur handleId) := by
  obtain ⟨t, fd, hcur, hin, hentry, hhandle, hs⟩ := hopened
  have hpair := hi.sockets _ _ hs
  have hunpaired : Unpaired h t handleId hd := ⟨hin, ⟨fd, hentry, hhandle⟩, s, hs, hpair⟩
  cases call with
  | bind addr => exact absurd rfl (hbind addr)
  | connect addr =>
      intro hlen
      exact connect_wild hcur ⟨hin, fd, hd, s, hentry, hhandle, hs, hpair⟩
        (hi.findSocket_wild hlen)
  | accept flags =>
      have hbody : (HandleCall.accept flags).start (fuel + 1) new h cur handleId =
          resumeAccept (fuel + 1) new h cur hd.socket flags :=
        withHandle_some hcur hin hentry hhandle
      unfold HandleCall.Does
      dsimp only
      rw [hbody, resumeAccept, deref_some hs]
      simp only [bind, Except.bind]
      split
      · rfl
      · -- whatever slot 0 holds is no pair
        rw [deref_some hcur]
        unfold deref
        cases s.backlog 0 with
        | none => rfl
        | some x =>
            dsimp only
            rw [hi.pairs]
  | listen =>
      have hbody : HandleCall.listen.start (fuel + 1) new h cur handleId = .ok (.done 0,
          h.setSocket hd.socket { s with
            state := .listening, connCurr := 0, connMax := dsocketConnMax
            backlog := new.backlog }) := by
        rw [HandleCall.start, kDriverListenImpl, withHandle_some hcur hin hentry hhandle,
          deref_some hs]
        rfl
      exact ⟨_, rfl, hbody⟩
  | send inp limit => exact start_unpaired (fuel + 1) new hcur hunpaired rfl
  | recv out limit => exact start_unpaired (fuel + 1) new hcur hunpaired rfl

/-! ## Every run -/

/-- Those who wait, wait to accept. -/
def Accepting (st : Status) : Prop := ∃ cur dsock flags, st = .accepting cur dsock flags

theorem HandleCall.Refused.pending (hr : call.Refused st) : ∀ w ∈ st.pending, Accepting w := by
  have hdone : ∀ v, st = .done v → ∀ w ∈ st.pending, Accepting w := by
    rintro v rfl w hw
    exact nomatch hw
  rcases hr with hbad | hr
  · exact hdone _ hbad
  · cases call with
    | bind addr => exact hr.elim
    | accept flags =>
        obtain ⟨cur, dsock, flags, rfl⟩ := hr
        intro w hw
        obtain rfl := List.mem_singleton.mp hw
        exact ⟨cur, dsock, flags, rfl⟩
    | connect | listen | send | recv => exact hdone _ hr

theorem unconnected_step (hi : Unconnected r.hel ∧ ∀ st ∈ r.waiting, Accepting st)
    (hs : SocketStep r r') : Unconnected r'.hel ∧ ∀ st ∈ r'.waiting, Accepting st := by
  obtain ⟨hun, hwaiting⟩ := hi
  cases hs with
  | @syscall fuel new cur regs c st h' hc hok =>
      cases c with
      | cskt flags =>
          refine ⟨hun.cskt hok, ?_⟩
          obtain ⟨t, -, hadd⟩ := bind_ok hok
          obtain ⟨-, -, -, -, rfl, -⟩ := addSocket_ok hadd
          exact hwaiting
      | handle handleId call =>
          have hbind : ∀ addr, call ≠ .bind addr := by
            rintro addr rfl
            exact dispatch_never_binds regs handleId addr hc
          obtain ⟨hun', hrefused, -⟩ := hun.start hbind hok
          refine ⟨hun', fun w hw => ?_⟩
          rcases List.mem_append.mp hw with hw | hw
          · exact hrefused.pending w hw
          · exact hwaiting w hw
  | @resume fuel new st st' h' hwait hok =>
      obtain ⟨cur, dsock, flags, rfl⟩ := hwaiting st hwait
      obtain ⟨rfl, rfl⟩ := hun.accept hok
      refine ⟨hun, fun w hw => ?_⟩
      rcases List.mem_cons.mp hw with rfl | hw
      · exact ⟨cur, dsock, flags, rfl⟩
      · exact hwaiting w (List.mem_of_mem_erase hw)
  | rest k u hnext => exact ⟨hun.rest u hnext, hwaiting⟩

theorem unconnected_reachable (h : Reachable SocketStart SocketStep r) :
    Unconnected r.hel ∧ ∀ st ∈ r.waiting, Accepting st := by
  induction h with
  | @init r hs =>
      obtain ⟨d, hd, hbind, hstate, hpair⟩ := hs.head
      refine ⟨⟨⟨d, hd, hbind, by rw [hstate]; decide⟩, ?_, hs.pairs, ?_, hs.next⟩, ?_⟩
      · intro x hd hx
        rw [hs.handles] at hx
        exact nomatch hx
      · intro x s hx
        by_cases hne : x = driverSockets
        · obtain rfl := Option.some.inj (hd.symm.trans (hne ▸ hx))
          exact hpair
        · rw [hs.sockets x hne] at hx
          exact nomatch hx
      · rw [hs.waiting]
        exact fun st hst => nomatch hst
  | tail _ hst ih => exact unconnected_step ih hst

/--
**No connection is ever made.**

Over every run of system calls on sockets with whatever in the registers, by any threads in any
order, and of whatever else the kernel and the programs do: there is no pair, and who waits, waits
to accept. The next call on a handle, if it comes back, is refused, waits to accept too, or marks a
socket as listening, and only the last changes anything. On a valid handle a connect with an address
that is not empty ends in a page fault, and the other calls do what they do without a connection.
-/
theorem sockets_never_connect (h : Reachable SocketStart SocketStep r) :
    (∀ x, r.hel.pairs x = none) ∧ (∀ st ∈ r.waiting, Accepting st) ∧
      ∀ regs handleId call, dispatch regs = .socket (.handle handleId call) → ∀ fuel new cur,
        (∀ st h', call.start fuel new r.hel cur handleId = .ok (st, h') →
          call.Refused st ∧ (call ≠ .listen → h' = r.hel)) ∧
        ∀ hd s, Opened r.hel cur handleId hd s →
          call.Does r.hel cur hd s (call.start (fuel + 1) new r.hel cur handleId) := by
  obtain ⟨hun, hwaiting⟩ := unconnected_reachable h
  refine ⟨hun.pairs, hwaiting, ?_⟩
  intro regs handleId call hc fuel new cur
  have hbind : ∀ addr, call ≠ .bind addr := by
    rintro addr rfl
    exact dispatch_never_binds regs handleId addr hc
  refine ⟨fun st h' hok => ?_, fun hd s hopened => hun.does hbind hopened⟩
  obtain ⟨-, hrefused, hsame⟩ := hun.start hbind hok
  exact ⟨hrefused, hsame⟩

/-- The registers of a call. -/
def callRegs (rax rdi rsi : Word) : PtRegs :=
  ⟨0, 0, 0, 0, 0, 0, 0, 0, 0, 0, 0, rsi, rdi, 0, 0, 0, rax, 0, 0, 0, 0, 0, 0, 0⟩

/-- A program makes a socket, listens and accepts on it, and puts the address `a` at 0x1000. -/
theorem waitingServer : ∃ r, Reachable SocketStart SocketStep r ∧
    r.waiting = [.accepting (.slot ⟨1, by decide⟩) 4 0] ∧ addrLen r.hel.user 0x1000 ≠ 0 ∧
    ∃ hd s, Opened r.hel (.slot ⟨1, by decide⟩) 0 hd s := by
  have h0 : Reachable SocketStart SocketStep ⟨oneThreadHel, []⟩ :=
    .init ⟨⟨_, rfl, rfl, rfl, rfl⟩, fun _ hx => if_neg hx, fun _ => rfl, fun _ => rfl,
      show 0 < 2 by decide, rfl⟩
  have h1 := h0.tail (@SocketStep.syscall _ 1 clearMalloc (.slot ⟨1, by decide⟩)
    (callRegs 0x8000000a 0 0) (.cskt 0) _ _ rfl rfl)
  have h2 := h1.tail (@SocketStep.syscall _ 1 clearMalloc (.slot ⟨1, by decide⟩)
    (callRegs 0x8000000e 0 0) (.handle 0 .listen) _ _ rfl rfl)
  have h3 := h2.tail (@SocketStep.syscall _ 1 clearMalloc (.slot ⟨1, by decide⟩)
    (callRegs 0x8000000d 0 0) (.handle 0 (.accept 0)) _ _ rfl rfl)
  have h4 := h3.tail (SocketStep.rest _ (fun y => if y = 0x1001 then 97 else 0) (Nat.le_refl _))
  exact ⟨_, h4, rfl, by decide, _, _, oneThreadOf, _, rfl, (by decide : (0 : Int) < 32), rfl, rfl,
    rfl⟩

/-- A connect on its handle ends in a page fault. -/
theorem sockets_never_connect_server : ∃ r, Reachable SocketStart SocketStep r ∧
    (∀ st ∈ r.waiting, Accepting st) ∧ r.waiting ≠ [] ∧
    kDriverConnectImpl 1 r.hel (.slot ⟨1, by decide⟩) 0 0x1000 = .error .wild := by
  obtain ⟨r, hr, hwaiting, hlen, hd, s, hopened⟩ := waitingServer
  obtain ⟨-, haccepting, hnext⟩ := sockets_never_connect hr
  refine ⟨r, hr, haccepting, ?_, ?_⟩
  · rw [hwaiting]
    exact List.cons_ne_nil _ _
  · have hcall := hnext (callRegs 0x8000000c 0 0x1000) 0 (.connect 0x1000) rfl 0 clearMalloc
    exact (hcall _).2 hd s hopened hlen

end IonOS.Hel
