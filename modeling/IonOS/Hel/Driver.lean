import IonOS.Hel.Dsocket

/-!
# Calls on sockets

The `k_driver_*_impl` of `syscall.cpp`. `k_driver_connect_impl` and
`k_driver_accept_impl` wait, so a call is started, and as long as it waits it is
resumed. The tests for a null `file_info` and for a null `fds` are left out, since
`create` sets both, and so is the test of `kind`, which has one value.
-/

namespace IonOS.Hel

open IonOS.Lib IonOS.Libs IonOS.Proc

/-- Where a call is when it returns or gives up the CPU. -/
inductive Status where
  | done (value : Nat)
  /-- In the loop of `k_driver_connect_impl`, with its local variables. -/
  | connecting (handle dsock d pair : Nat)
  /-- In the loop of `k_driver_accept_impl`. -/
  | accepting (cur : ThreadPtr) (dsock flags : Nat)
deriving DecidableEq

/-- What `malloc` returns: what is in the memory, and where it is. -/
structure Malloc where
  socket : Dsocket
  op : Op
  backlog : Nat → Option Nat
  bindAddr : Nat
  path : Nat
  clientBuffer : Nat
  serverBuffer : Nat

/-! ## Handles -/

/-- The test of `fds[handle_id]`: the handle there, if there is one. -/
def fdsHandle (h : HelState) (t : Thread) (handleId : Nat) : Except Fault (Option Nat) :=
  let info := h.kernel.files t.fileInfo
  if (handleId : Int) < info.maxFdCount then
    .ok ((h.kernel.fds info.fds handleId).map h.kernel.fdInfos)
  else .error .outside

/-- How the calls on a handle begin. -/
def withHandle (h : HelState) (cur : ThreadPtr) (handleId : Nat)
    (call : Nat → DsocketHandle → Except Fault (Status × HelState)) :
    Except Fault (Status × HelState) := do
  let t ← deref h.kernel.threads cur
  match ← fdsHandle h t handleId with
  | none => pure (.done HelError.badHandler.code, h)
  | some handle => do call handle (← deref h.handles handle)

/-! ## The list of sockets -/

/-- `while (d->next) d = d->next`. -/
def lastSocket (h : HelState) : Nat → Nat → Except Fault Nat
  | 0, _ => throw .hang
  | fuel + 1, d => do
      let s ← deref h.sockets d
      match s.next with
      | some d' => lastSocket h fuel d'
      | none => pure d

/-- A socket with a handle and a file of its own goes to the end of the list, and the file into the
table. -/
def addSocket (fuel : Nat) (h : HelState) (t : Thread) (op : Op) (s : Dsocket) :
    Except Fault (Status × HelState) := do
  let fileInfo := h.kernel.next
  let handle := h.kernel.next + 1
  let socket := h.kernel.next + 2
  let k := { h.kernel with
    fdInfos := Function.update h.kernel.fdInfos fileInfo handle
    next := h.kernel.next + 3 }
  let h := ({ h with kernel := k }.setSocket socket s).setHandle handle ⟨op, socket⟩
  let d ← lastSocket h fuel driverSockets
  let last ← deref h.sockets d
  let h := h.setSocket d { last with next := some socket }
  let (ret, k) := addFdInfo h.kernel t fileInfo
  pure (.done ret, { h with kernel := k })

def kDriverCsktImpl (fuel : Nat) (new : Malloc) (h : HelState) (cur : ThreadPtr) (flags : Nat) :
    Except Fault (Status × HelState) := do
  let t ← deref h.kernel.threads cur
  addSocket fuel h t new.op
    { new.socket with
      flags := flags, bindAddr := new.bindAddr, pair := none, state := .disconnected }

/-! ## Addresses -/

/-- `logical_address` is the first byte of a `d_socket_addr_t`, `d_path` begins at the second. -/
def dPath (addr : Nat) : Nat := addr + 1

def addrLen (u : Mem) (addr : Nat) : Nat :=
  if u addr ≠ 0 then strlen u (dPath addr + 1) + 1 else strlen u (dPath addr)

def kDriverBindImpl (h : HelState) (cur : ThreadPtr) (handleId addr : Nat) :
    Except Fault (Status × HelState) :=
  withHandle h cur handleId fun _ hd => do
    let dsock ← deref h.sockets hd.socket
    pure (.done 0,
      h.setMem (memcpyFrom h.mem dsock.bindAddr h.user (dPath addr) (addrLen h.user addr)))

/-! ## Connections -/

/-- `memcmp(d->bind_addr, addr->d_path, len)`; nothing is mapped at address 0, and of no bytes none
are read. -/
def compareAddr (h : HelState) (s : Dsocket) (path len : Nat) : Except Fault Int :=
  if s.bindAddr = 0 ∧ len ≠ 0 then .error .wild
  else .ok (memcmp h.mem s.bindAddr h.user path len)

/-- `while (d && !memcmp(d->bind_addr, addr->d_path, len)) d = d->next`. -/
def findSocket (h : HelState) (path len : Nat) : Nat → Option Nat → Except Fault (Option Nat)
  | 0, _ => throw .hang
  | _ + 1, none => pure none
  | fuel + 1, some d => do
      let s ← deref h.sockets d
      if (← compareAddr h s path len) = 0 then findSocket h path len fuel s.next
      else pure (some d)

/-- `d->backlog[d->conn_curr++] = pair`. -/
def enqueue (s : Dsocket) (pair : Nat) : Except Fault Dsocket :=
  if 0 ≤ s.connCurr ∧ s.connCurr < dsocketConnMax then
    .ok { s with
      backlog := Function.update s.backlog s.connCurr.toNat (some pair)
      connCurr := s.connCurr + 1 }
  else .error .overrun

/-- The pair that a client brings along. -/
def newPair : DsocketPair := ⟨false, 0, 0, 0, 0, 1, 0, 0, 0⟩

def kDriverConnectImpl (fuel : Nat) (h : HelState) (cur : ThreadPtr) (handleId addr : Nat) :
    Except Fault (Status × HelState) :=
  withHandle h cur handleId fun handle hd => do
    let dsock ← deref h.sockets hd.socket
    if dsock.pair.isSome then pure (.done HelError.alreadyConnected.code, h)
    else
      match ← findSocket h (dPath addr) (addrLen h.user addr) fuel (some driverSockets) with
      | none => pure (.done HelError.notFound.code, h)
      | some d => do
          let s ← deref h.sockets d
          if s.state ≠ .listening then pure (.done HelError.notFound.code, h)
          else do
            let pair := h.kernel.next
            let s ← enqueue s pair
            let h := { h with kernel := { h.kernel with next := pair + 1 } }
            let h := (h.setPair pair newPair).setSocket d s
            let dsock ← deref h.sockets hd.socket
            let h := h.setSocket hd.socket { dsock with pair := some pair }
            pure (.connecting handle hd.socket d pair, h)

/-- The rest of `k_driver_connect_impl`, from its loop. -/
def resumeConnect (h : HelState) (handle dsock d pair : Nat) : Except Fault (Status × HelState) := do
  let p ← deref h.pairs pair
  if p.connected then
    let s ← deref h.sockets dsock
    let hd ← deref h.handles handle
    pure (.done 0,
      (h.setSocket dsock { s with state := .connected }).setHandle handle { hd with op := .normalOps })
  else pure (.connecting handle dsock d pair, h)

/-- The first slot is taken, and the others move up. `memmove` is for `conn_max - 1` slots. -/
def dequeue (s : Dsocket) : Except Fault Dsocket :=
  if 1 ≤ s.connMax ∧ s.connMax ≤ dsocketConnMax then
    let backlog := Function.update s.backlog 0 none
    .ok { s with
      backlog := fun i => if i < (s.connMax - 1).toNat then backlog (i + 1) else backlog i
      connMax := s.connMax - 1
      state := .disconnected }
  else .error .overrun

/-- The rest of `k_driver_accept_impl`, from its loop. -/
def resumeAccept (fuel : Nat) (new : Malloc) (h : HelState) (cur : ThreadPtr) (dsock flags : Nat) :
    Except Fault (Status × HelState) := do
  let s ← deref h.sockets dsock
  if s.connCurr = 0 then pure (.accepting cur dsock flags, h)
  else do
    let t ← deref h.kernel.threads cur
    let x ← deref s.backlog 0
    let p ← deref h.pairs x
    let h := h.setPair x { p with
      serverFds := p.serverFds + 1, path := new.path
      serverBuffer := new.serverBuffer, serverBufferPos := 0
      clientBuffer := new.clientBuffer, clientBufferPos := 0
      connected := true }
    let s ← dequeue s
    let h := h.setSocket dsock s
    addSocket fuel h t .acceptOps
      { new.socket with
        flags := flags, bindAddr := new.bindAddr, pair := some x, state := .connected }

def kDriverAcceptImpl (fuel : Nat) (new : Malloc) (h : HelState) (cur : ThreadPtr)
    (handleId flags : Nat) : Except Fault (Status × HelState) :=
  withHandle h cur handleId fun _ hd => resumeAccept fuel new h cur hd.socket flags

def kDriverListenImpl (new : Malloc) (h : HelState) (cur : ThreadPtr) (handleId : Nat) :
    Except Fault (Status × HelState) :=
  withHandle h cur handleId fun _ hd => do
    let dsock ← deref h.sockets hd.socket
    pure (.done 0, h.setSocket hd.socket
      { dsock with
        state := .listening, connCurr := 0, connMax := dsocketConnMax, backlog := new.backlog })

/-! ## Data -/

def kDriverSendImpl (h : HelState) (cur : ThreadPtr) (handleId inp limit : Nat) :
    Except Fault (Status × HelState) :=
  withHandle h cur handleId fun _ hd => do
    let (ret, h) ← hd.op.send h hd.socket inp limit
    pure (.done ret, h)

def kDriverRecvImpl (h : HelState) (cur : ThreadPtr) (handleId out limit : Nat) :
    Except Fault (Status × HelState) :=
  withHandle h cur handleId fun _ hd => do
    let (ret, h) ← hd.op.recv h hd.socket out limit
    pure (.done ret, h)

/-! ## Every call -/

/-- The calls on a handle. -/
inductive HandleCall where
  | bind (addr : Nat)
  | connect (addr : Nat)
  | accept (flags : Nat)
  | listen
  | send (inp limit : Nat)
  | recv (out limit : Nat)

def HandleCall.start (fuel : Nat) (new : Malloc) (h : HelState) (cur : ThreadPtr) (handleId : Nat) :
    HandleCall → Except Fault (Status × HelState)
  | bind addr => kDriverBindImpl h cur handleId addr
  | connect addr => kDriverConnectImpl fuel h cur handleId addr
  | accept flags => kDriverAcceptImpl fuel new h cur handleId flags
  | listen => kDriverListenImpl new h cur handleId
  | send inp limit => kDriverSendImpl h cur handleId inp limit
  | recv out limit => kDriverRecvImpl h cur handleId out limit

/-- A call that waits looks again. -/
def Status.resume (fuel : Nat) (new : Malloc) (h : HelState) :
    Status → Except Fault (Status × HelState)
  | done value => .ok (.done value, h)
  | connecting handle dsock d pair => resumeConnect h handle dsock d pair
  | accepting cur dsock flags => resumeAccept fuel new h cur dsock flags

end IonOS.Hel
