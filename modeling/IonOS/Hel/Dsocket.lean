import IonOS.Proc.Thread

/-!
# Sockets

`dsocket.hpp` and `dsocket.cpp`. Sockets, pairs and handles are heap objects and
are named by numbers, as in the model of threads; buffers and addresses are bytes
in memory. `user` is the memory of the program that makes a call. A call that
follows a pointer to nothing, leaves an array or never comes back is a fault.
-/

namespace IonOS.Hel

open IonOS.Lib IonOS.Libs IonOS.Proc

/-! ## Data -/

def dsockAddrMax : Nat := 109
def dsockBuffSize : Nat := 4096
def dsocketConnMax : Nat := 8

/-- `k_hel_errors`. -/
inductive HelError where
  | none | invalidArgument | notImplemented | badHandler | notFound | alreadyConnected
  | notConnected
deriving DecidableEq, Repr

/-- `(std::size_t)-e`. -/
def HelError.code (e : HelError) : Nat := subW 0 e.ctorIdx

/-- `dsocket_pair_t`. -/
structure DsocketPair where
  connected : Bool
  path : Nat
  clientBuffer : Nat
  clientBufferPos : Int
  clientBufferSize : Int
  clientFds : Int
  serverBuffer : Nat
  serverBufferPos : Int
  serverFds : Int

/-- `dsocket_state_t`. -/
inductive DsocketState where
  | disconnected | listening | connected
deriving DecidableEq, Repr

/-- `dsocket_t`; `backlog` is the array that it points to, null where a slot is `none`. -/
structure Dsocket where
  next : Option Nat
  flags : Nat
  bindAddr : Nat
  state : DsocketState
  connMax : Int
  connCurr : Int
  backlog : Nat → Option Nat
  pair : Option Nat

/-- What a `dsocket_op_t *` can be: one of the two tables, or whatever was in the memory. -/
inductive Op where
  | normalOps | acceptOps | garbage
deriving DecidableEq, Repr

/-- `dsocket_handle_t`. -/
structure DsocketHandle where
  op : Op
  socket : Nat

/-- `driver_sockets`, the head of the list of sockets. -/
def driverSockets : Nat := 0

inductive Fault where
  /-- A pointer to nothing is followed, or called. -/
  | wild
  /-- A table is read outside of its bounds. -/
  | outside
  /-- A backlog is written outside of its slots. -/
  | overrun
  /-- A loop does not end. -/
  | hang
deriving DecidableEq, Repr

/-- The kernel and its sockets. -/
structure HelState where
  kernel : Kernel
  user : Mem
  sockets : Nat → Option Dsocket
  pairs : Nat → Option DsocketPair
  handles : Nat → Option DsocketHandle

/-- Following a pointer. -/
def deref {κ α : Type} (heap : κ → Option α) (x : κ) : Except Fault α :=
  match heap x with
  | some a => .ok a
  | none => .error .wild

namespace HelState

def mem (h : HelState) : Mem := h.kernel.machine.mem

def setMem (h : HelState) (m : Mem) : HelState :=
  { h with kernel := { h.kernel with machine := { h.kernel.machine with mem := m } } }

def setSocket (h : HelState) (x : Nat) (s : Dsocket) : HelState :=
  { h with sockets := Function.update h.sockets x (some s) }

def setPair (h : HelState) (x : Nat) (p : DsocketPair) : HelState :=
  { h with pairs := Function.update h.pairs x (some p) }

def setHandle (h : HelState) (x : Nat) (hd : DsocketHandle) : HelState :=
  { h with handles := Function.update h.handles x (some hd) }

end HelState

/-! ## The two directions of a pair -/

/-- The end whose buffer it is. -/
inductive Direction where
  | toClient | toServer
deriving DecidableEq, Repr

namespace DsocketPair

def buffer (p : DsocketPair) : Direction → Nat
  | .toClient => p.clientBuffer
  | .toServer => p.serverBuffer

def pos (p : DsocketPair) : Direction → Int
  | .toClient => p.clientBufferPos
  | .toServer => p.serverBufferPos

def setPos (p : DsocketPair) (i : Int) : Direction → DsocketPair
  | .toClient => { p with clientBufferPos := i }
  | .toServer => { p with serverBufferPos := i }

end DsocketPair

/-- `&buffer[i]`. -/
def index (buffer : Nat) (i : Int) : Nat := addW buffer (sizeT i)

/-- Bytes are appended to the buffer of a direction. -/
def sendTo (d : Direction) (h : HelState) (dsock inp limit : Nat) : Except Fault (Nat × HelState) := do
  let s ← deref h.sockets dsock
  match s.pair with
  | none => pure (HelError.notConnected.code, h)
  | some x => do
      let p ← deref h.pairs x
      let m := memcpyFrom h.mem (index (p.buffer d) (p.pos d)) h.user inp limit
      let p := p.setPos (int32 (addW (sizeT (p.pos d)) limit)) d
      pure (limit, (h.setMem m).setPair x p)

/-- Bytes are taken from the front of it, and the rest moves up. -/
def recvFrom (d : Direction) (h : HelState) (dsock out limit : Nat) : Except Fault (Nat × HelState) := do
  let s ← deref h.sockets dsock
  match s.pair with
  | none => pure (HelError.notConnected.code, h)
  | some x => do
      let p ← deref h.pairs x
      let toCopy := min limit (sizeT (p.pos d))
      let rest := subW (sizeT (p.pos d)) toCopy
      let u := memcpyFrom h.user out h.mem (p.buffer d) toCopy
      let m := memmove h.mem (p.buffer d) (index (p.buffer d) toCopy) rest
      let p := p.setPos (int32 rest) d
      pure (limit, ({ h with user := u }.setMem m).setPair x p)

def dsocketSend : HelState → Nat → Nat → Nat → Except Fault (Nat × HelState) := sendTo .toServer
def dsocketAcceptSend : HelState → Nat → Nat → Nat → Except Fault (Nat × HelState) := sendTo .toClient
def dsocketRecv : HelState → Nat → Nat → Nat → Except Fault (Nat × HelState) := recvFrom .toClient
def dsocketAcceptRecv : HelState → Nat → Nat → Nat → Except Fault (Nat × HelState) := recvFrom .toServer

/-- `op->send`. -/
def Op.send : Op → HelState → Nat → Nat → Nat → Except Fault (Nat × HelState)
  | normalOps => dsocketSend
  | acceptOps => dsocketAcceptSend
  | garbage => fun _ _ _ _ => .error .wild

/-- `op->recv`. -/
def Op.recv : Op → HelState → Nat → Nat → Nat → Except Fault (Nat × HelState)
  | normalOps => dsocketRecv
  | acceptOps => dsocketAcceptRecv
  | garbage => fun _ _ _ _ => .error .wild

/-! ## What sending and receiving do -/

variable {h h' : HelState} {d d' : Direction} {x dsock inp out limit v : Nat} {s : Dsocket}
  {p : DsocketPair}

@[simp] theorem deref_some {κ α : Type} {heap : κ → Option α} {x : κ} {a : α} (hx : heap x = some a) :
    deref heap x = .ok a := by
  rw [deref, hx]

/-- The two parts of a computation that goes through. -/
theorem bind_ok {α β : Type} {a : Except Fault α} {f : α → Except Fault β} {b : β}
    (h : a >>= f = .ok b) : ∃ x, a = .ok x ∧ f x = .ok b := by
  cases a with
  | error e => exact nomatch h
  | ok x => exact ⟨x, rfl, h⟩

theorem deref_ok {κ α : Type} {heap : κ → Option α} {x : κ} {a : α} (hx : deref heap x = .ok a) :
    heap x = some a := by
  unfold deref at hx
  split at hx
  · rw [← Except.ok.inj hx]
    assumption
  · exact nomatch hx

@[simp] theorem pos_setPos (p : DsocketPair) (i : Int) (d d' : Direction) :
    (p.setPos i d).pos d' = if d' = d then i else p.pos d' := by
  cases d <;> cases d' <;> rfl

@[simp] theorem buffer_setPos (p : DsocketPair) (i : Int) (d d' : Direction) :
    (p.setPos i d).buffer d' = p.buffer d' := by
  cases d <;> cases d' <;> rfl

theorem sendTo_paired (d : Direction) (inp limit : Nat) (hs : h.sockets dsock = some s)
    (hx : s.pair = some x) (hp : h.pairs x = some p) :
    sendTo d h dsock inp limit = .ok (limit,
      (h.setMem (memcpyFrom h.mem (index (p.buffer d) (p.pos d)) h.user inp limit)).setPair x
        (p.setPos (int32 (addW (sizeT (p.pos d)) limit)) d)) := by
  unfold sendTo
  rw [deref_some hs]
  simp only [bind, Except.bind, hx, deref_some hp]
  rfl

theorem recvFrom_paired (d : Direction) (out limit : Nat) (hs : h.sockets dsock = some s)
    (hx : s.pair = some x) (hp : h.pairs x = some p) :
    recvFrom d h dsock out limit = .ok (limit,
      ({ h with user := memcpyFrom h.user out h.mem (p.buffer d) (min limit (sizeT (p.pos d))) }.setMem
          (memmove h.mem (p.buffer d) (index (p.buffer d) (min limit (sizeT (p.pos d)) : Nat))
            (subW (sizeT (p.pos d)) (min limit (sizeT (p.pos d)))))).setPair x
        (p.setPos (int32 (subW (sizeT (p.pos d)) (min limit (sizeT (p.pos d))))) d)) := by
  unfold recvFrom
  rw [deref_some hs]
  simp only [bind, Except.bind, hx, deref_some hp]
  rfl

/-- Without a pair nothing is sent. -/
theorem sendTo_unpaired (d : Direction) (inp limit : Nat) (hs : h.sockets dsock = some s)
    (hx : s.pair = none) : sendTo d h dsock inp limit = .ok (HelError.notConnected.code, h) := by
  unfold sendTo
  rw [deref_some hs]
  simp only [bind, Except.bind, hx]
  rfl

theorem recvFrom_unpaired (d : Direction) (out limit : Nat) (hs : h.sockets dsock = some s)
    (hx : s.pair = none) : recvFrom d h dsock out limit = .ok (HelError.notConnected.code, h) := by
  unfold recvFrom
  rw [deref_some hs]
  simp only [bind, Except.bind, hx]
  rfl

theorem Op.send_unpaired {op : Op} (hop : op ≠ .garbage) (inp limit : Nat)
    (hs : h.sockets dsock = some s) (hx : s.pair = none) :
    op.send h dsock inp limit = .ok (HelError.notConnected.code, h) := by
  cases op with
  | normalOps => exact sendTo_unpaired .toServer inp limit hs hx
  | acceptOps => exact sendTo_unpaired .toClient inp limit hs hx
  | garbage => exact absurd rfl hop

theorem Op.recv_unpaired {op : Op} (hop : op ≠ .garbage) (out limit : Nat)
    (hs : h.sockets dsock = some s) (hx : s.pair = none) :
    op.recv h dsock out limit = .ok (HelError.notConnected.code, h) := by
  cases op with
  | normalOps => exact recvFrom_unpaired .toClient out limit hs hx
  | acceptOps => exact recvFrom_unpaired .toServer out limit hs hx
  | garbage => exact absurd rfl hop

end IonOS.Hel
