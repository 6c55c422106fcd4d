import IonOS.Hel.Driver
import IonOS.Lib.Chain

/-!
# What calls do

Each call on a handle begins with the same check, and goes on with the handle that
it finds. Most calls leave the list of sockets and the tables of open files alone.
-/

namespace IonOS.Hel

open IonOS.Lib IonOS.Libs IonOS.Proc

/-! ## The check of a handle -/

/-- `handleId` is an index into the table of `t`. -/
def InTable (h : HelState) (t : Thread) (handleId : Nat) : Prop :=
  (handleId : Int) < (h.kernel.files t.fileInfo).maxFdCount

/-- The entry of the table. -/
def tableEntry (h : HelState) (t : Thread) (handleId : Nat) : Option Nat :=
  h.kernel.fds (h.kernel.files t.fileInfo).fds handleId

/-- A free entry in the table of `t`. -/
def HasFree (h : HelState) (t : Thread) : Prop :=
  ∃ i, InTable h t i ∧ tableEntry h t i = none

variable {fuel handleId fd x : Nat} {new : Malloc} {h h' h'' : HelState} {cur : ThreadPtr}
  {t : Thread} {hd : DsocketHandle} {op : Op} {s : Dsocket} {st : Status}
  {body : Nat → DsocketHandle → Except Fault (Status × HelState)}

theorem fdsHandle_inTable (hid : InTable h t handleId) :
    fdsHandle h t handleId = .ok ((tableEntry h t handleId).map h.kernel.fdInfos) := if_pos hid

theorem withHandle_outside (hcur : h.kernel.threads cur = some t) (hid : ¬ InTable h t handleId) :
    withHandle h cur handleId body = .error .outside := by
  have hfds : fdsHandle h t handleId = .error .outside := if_neg hid
  simp only [withHandle, deref_some hcur, bind, Except.bind, hfds]

theorem withHandle_null (hcur : h.kernel.threads cur = some t) (hid : InTable h t handleId)
    (hentry : tableEntry h t handleId = none) :
    withHandle h cur handleId body = .ok (.done HelError.badHandler.code, h) := by
  have hfds := fdsHandle_inTable hid
  rw [hentry, Option.map_none] at hfds
  simp only [withHandle, deref_some hcur, bind, Except.bind, hfds]
  rfl

theorem withHandle_some (hcur : h.kernel.threads cur = some t) (hid : InTable h t handleId)
    (hentry : tableEntry h t handleId = some fd)
    (hhandle : h.handles (h.kernel.fdInfos fd) = some hd) :
    withHandle h cur handleId body = body (h.kernel.fdInfos fd) hd := by
  have hfds := fdsHandle_inTable hid
  rw [hentry, Option.map_some] at hfds
  simp only [withHandle, deref_some hcur, bind, Except.bind, hfds, deref_some hhandle]

/-- All calls begin with the check. -/
theorem start_eq (fuel : Nat) (new : Malloc) (h : HelState) (cur : ThreadPtr) (handleId : Nat)
    (call : HandleCall) :
    ∃ body, call.start fuel new h cur handleId = withHandle h cur handleId body := by
  cases call <;> exact ⟨_, rfl⟩

/-- A call on a handle either refuses it or goes on with it. -/
theorem withHandle_ok (hok : withHandle h cur handleId body = .ok (st, h')) :
    ∃ t, h.kernel.threads cur = some t ∧ InTable h t handleId ∧
      ((st = .done HelError.badHandler.code ∧ h' = h ∧ tableEntry h t handleId = none) ∨
        ∃ fd hd, tableEntry h t handleId = some fd ∧ h.handles (h.kernel.fdInfos fd) = some hd ∧
          body (h.kernel.fdInfos fd) hd = .ok (st, h')) := by
  obtain ⟨t, hcur, hok⟩ := bind_ok hok
  obtain ⟨r, hfds, hok⟩ := bind_ok hok
  have hid : InTable h t handleId := by
    by_contra hid
    rw [show fdsHandle h t handleId = .error .outside from if_neg hid] at hfds
    exact nomatch hfds
  refine ⟨t, deref_ok hcur, hid, ?_⟩
  rw [fdsHandle_inTable hid] at hfds
  cases hentry : tableEntry h t handleId with
  | none =>
      rw [hentry] at hfds
      obtain rfl := Except.ok.inj hfds
      obtain ⟨rfl, rfl⟩ := Prod.mk.inj (Except.ok.inj hok)
      exact .inl ⟨rfl, rfl, rfl⟩
  | some fd =>
      rw [hentry] at hfds
      obtain rfl := Except.ok.inj hfds
      obtain ⟨hd, hhd, hok⟩ := bind_ok hok
      exact .inr ⟨fd, hd, rfl, deref_ok hhd, hok⟩

/-! ## Calls that do not touch the list -/

/-- Nothing that the list and the tables are made of changes. -/
structure Kept (h h' : HelState) : Prop where
  next : ∀ x, (h'.sockets x).map (·.next) = (h.sockets x).map (·.next)
  handles : ∀ x, (h'.handles x).map (·.socket) = (h.handles x).map (·.socket)
  threads : h'.kernel.threads = h.kernel.threads
  files : h'.kernel.files = h.kernel.files
  fds : h'.kernel.fds = h.kernel.fds
  fdInfos : h'.kernel.fdInfos = h.kernel.fdInfos
  fresh : h.kernel.next ≤ h'.kernel.next

theorem Kept.refl (h : HelState) : Kept h h :=
  ⟨fun _ => rfl, fun _ => rfl, rfl, rfl, rfl, rfl, Nat.le_refl _⟩

theorem Kept.trans (h₁ : Kept h h') (h₂ : Kept h' h'') : Kept h h'' :=
  ⟨fun x => (h₂.next x).trans (h₁.next x), fun x => (h₂.handles x).trans (h₁.handles x),
    h₂.threads.trans h₁.threads, h₂.files.trans h₁.files, h₂.fds.trans h₁.fds,
    h₂.fdInfos.trans h₁.fdInfos, h₁.fresh.trans h₂.fresh⟩

theorem Kept.isSome (hk : Kept h h') (x : Nat) : (h'.sockets x).isSome = (h.sockets x).isSome := by
  have := congrArg Option.isSome (hk.next x)
  simpa only [Option.isSome_map] using this

theorem Kept.inTable (hk : Kept h h') (t : Thread) (i : Nat) : InTable h' t i ↔ InTable h t i := by
  unfold InTable
  rw [hk.files]

theorem Kept.tableEntry (hk : Kept h h') (t : Thread) (i : Nat) :
    tableEntry h' t i = IonOS.Hel.tableEntry h t i := by
  unfold IonOS.Hel.tableEntry
  rw [hk.files, hk.fds]

theorem Kept.hasFree (hk : Kept h h') (t : Thread) : HasFree h' t ↔ HasFree h t := by
  unfold HasFree
  simp only [hk.inTable, hk.tableEntry]

theorem kept_setSocket (hx : h.sockets x = some s) {s' : Dsocket} (hn : s'.next = s.next) :
    Kept h (h.setSocket x s') := by
  refine ⟨fun y => ?_, fun _ => rfl, rfl, rfl, rfl, rfl, Nat.le_refl _⟩
  by_cases hy : y = x
  · rw [hy, hx]
    show Option.map _ (Function.update h.sockets x (some s') x) = _
    rw [Function.update_self, Option.map_some, Option.map_some, hn]
  · show Option.map _ (Function.update h.sockets x (some s') y) = _
    rw [Function.update_of_ne hy]

theorem kept_setHandle {hd hd' : DsocketHandle} (hx : h.handles x = some hd)
    (hs : hd'.socket = hd.socket) : Kept h (h.setHandle x hd') := by
  refine ⟨fun _ => rfl, fun y => ?_, rfl, rfl, rfl, rfl, Nat.le_refl _⟩
  by_cases hy : y = x
  · rw [hy, hx]
    show Option.map _ (Function.update h.handles x (some hd') x) = _
    rw [Function.update_self, Option.map_some, Option.map_some, hs]
  · show Option.map _ (Function.update h.handles x (some hd') y) = _
    rw [Function.update_of_ne hy]

/-- A state that differs in memory, pairs and numbers given out. -/
theorem kept_of_eq (hs : h'.sockets = h.sockets) (hh : h'.handles = h.handles)
    (ht : h'.kernel.threads = h.kernel.threads) (hf : h'.kernel.files = h.kernel.files)
    (hd : h'.kernel.fds = h.kernel.fds) (hi : h'.kernel.fdInfos = h.kernel.fdInfos)
    (hn : h.kernel.next ≤ h'.kernel.next) : Kept h h' :=
  ⟨fun _ => by rw [hs], fun _ => by rw [hh], ht, hf, hd, hi, hn⟩

theorem kept_sendTo {d : Direction} {dsock inp limit ret : Nat}
    (hs : sendTo d h dsock inp limit = .ok (ret, h')) : Kept h h' := by
  unfold sendTo at hs
  obtain ⟨s, -, hs⟩ := bind_ok hs
  cases hx : s.pair with
  | none =>
      rw [hx] at hs
      obtain ⟨-, rfl⟩ := Prod.mk.inj (Except.ok.inj hs)
      exact .refl h
  | some x =>
      rw [hx] at hs
      obtain ⟨p, -, hs⟩ := bind_ok hs
      obtain ⟨-, rfl⟩ := Prod.mk.inj (Except.ok.inj hs)
      exact kept_of_eq rfl rfl rfl rfl rfl rfl (Nat.le_refl _)

theorem kept_recvFrom {d : Direction} {dsock out limit ret : Nat}
    (hs : recvFrom d h dsock out limit = .ok (ret, h')) : Kept h h' := by
  unfold recvFrom at hs
  obtain ⟨s, -, hs⟩ := bind_ok hs
  cases hx : s.pair with
  | none =>
      rw [hx] at hs
      obtain ⟨-, rfl⟩ := Prod.mk.inj (Except.ok.inj hs)
      exact .refl h
  | some x =>
      rw [hx] at hs
      obtain ⟨p, -, hs⟩ := bind_ok hs
      obtain ⟨-, rfl⟩ := Prod.mk.inj (Except.ok.inj hs)
      exact kept_of_eq rfl rfl rfl rfl rfl rfl (Nat.le_refl _)

theorem kept_send {inp limit : Nat} (hop : op.send h x inp limit = .ok (fuel, h')) : Kept h h' := by
  cases op with
  | normalOps | acceptOps => exact kept_sendTo hop
  | garbage => exact nomatch hop

theorem kept_recv {out limit : Nat} (hop : op.recv h x out limit = .ok (fuel, h')) : Kept h h' := by
  cases op with
  | normalOps | acceptOps => exact kept_recvFrom hop
  | garbage => exact nomatch hop

/-- **A connect that goes through** puts a new pair into the backlog of a listening socket. -/
structure Enqueued (h : HelState) (dsock d pair : Nat) (h' : HelState) : Prop where
  fresh : pair = h.kernel.next
  spec : ∃ c s s' c', h.sockets dsock = some c ∧ c.pair = none ∧ h.sockets d = some s ∧
    s.state = .listening ∧ enqueue s pair = .ok s' ∧
    Function.update h.sockets d (some s') dsock = some c' ∧
    h' = ((({ h with kernel := { h.kernel with next := pair + 1 } }).setPair pair newPair).setSocket d
      s').setSocket dsock { c' with pair := some pair }

theorem connect_ok {addr : Nat} (hok : kDriverConnectImpl fuel h cur handleId addr = .ok (st, h')) :
    (∃ v, st = .done v ∧ h' = h) ∨
      ∃ handle dsock d pair, st = .connecting handle dsock d pair ∧ Enqueued h dsock d pair h' := by
  obtain ⟨t, hcur, hid, ⟨rfl, rfl, -⟩ | ⟨fd, hd, -, -, hok⟩⟩ := withHandle_ok hok
  · exact .inl ⟨_, rfl, rfl⟩
  obtain ⟨c, hc, hok⟩ := bind_ok hok
  by_cases hpair : c.pair.isSome
  · rw [if_pos hpair] at hok
    obtain ⟨rfl, rfl⟩ := Prod.mk.inj (Except.ok.inj hok)
    exact .inl ⟨_, rfl, rfl⟩
  rw [if_neg hpair] at hok
  obtain ⟨r, -, hok⟩ := bind_ok hok
  cases r with
  | none =>
      obtain ⟨rfl, rfl⟩ := Prod.mk.inj (Except.ok.inj hok)
      exact .inl ⟨_, rfl, rfl⟩
  | some d =>
      obtain ⟨s, hs, hok⟩ := bind_ok hok
      by_cases hstate : s.state = .listening
      · rw [if_neg (not_not.mpr hstate)] at hok
        obtain ⟨s', hs', hok⟩ := bind_ok hok
        obtain ⟨c', hc', hok⟩ := bind_ok hok
        obtain ⟨rfl, rfl⟩ := Prod.mk.inj (Except.ok.inj hok)
        exact .inr ⟨_, _, _, _, rfl, rfl, c, s, s', c', deref_ok hc, by simpa using hpair,
          deref_ok hs, hstate, hs', deref_ok hc', rfl⟩
      · rw [if_pos hstate] at hok
        obtain ⟨rfl, rfl⟩ := Prod.mk.inj (Except.ok.inj hok)
        exact .inl ⟨_, rfl, rfl⟩

theorem enqueue_ok {s' : Dsocket} {pair : Nat} (hok : enqueue s pair = .ok s') :
    0 ≤ s.connCurr ∧ s.connCurr < dsocketConnMax ∧
      s' = { s with
        backlog := Function.update s.backlog s.connCurr.toNat (some pair)
        connCurr := s.connCurr + 1 } := by
  unfold enqueue at hok
  by_cases hroom : 0 ≤ s.connCurr ∧ s.connCurr < dsocketConnMax
  · rw [if_pos hroom] at hok
    exact ⟨hroom.1, hroom.2, (Except.ok.inj hok).symm⟩
  · rw [if_neg hroom] at hok
    exact nomatch hok

theorem Enqueued.kept {dsock d pair : Nat} (he : Enqueued h dsock d pair h') : Kept h h' := by
  obtain ⟨rfl, c, s, s', c', hc, -, hs, -, henq, hc', rfl⟩ := he
  obtain ⟨-, -, hs'⟩ := enqueue_ok henq
  let h₁ := ({ h with kernel := { h.kernel with next := h.kernel.next + 1 } }).setPair h.kernel.next
    newPair
  have hk₁ : Kept h h₁ := kept_of_eq rfl rfl rfl rfl rfl rfl (Nat.le_succ _)
  have hd : h₁.sockets d = some s := hs
  have hk₂ : Kept h₁ (h₁.setSocket d s') := kept_setSocket hd (by rw [hs'])
  have hdsock : (h₁.setSocket d s').sockets dsock = some c' := hc'
  exact (hk₁.trans hk₂).trans (kept_setSocket hdsock rfl)

theorem resumeConnect_ok {handle dsock d pair : Nat}
    (hok : resumeConnect h handle dsock d pair = .ok (st, h')) :
    ∃ p, h.pairs pair = some p ∧
      ((p.connected = false ∧ st = .connecting handle dsock d pair ∧ h' = h) ∨
        (p.connected = true ∧ st = .done 0 ∧ ∃ s hd, h.sockets dsock = some s ∧
          h.handles handle = some hd ∧
          h' = (h.setSocket dsock { s with state := .connected }).setHandle handle
            { hd with op := .normalOps })) := by
  obtain ⟨p, hp, hok⟩ := bind_ok hok
  refine ⟨p, deref_ok hp, ?_⟩
  cases hconn : p.connected with
  | false =>
      rw [hconn, if_neg Bool.false_ne_true] at hok
      obtain ⟨rfl, rfl⟩ := Prod.mk.inj (Except.ok.inj hok)
      exact .inl ⟨rfl, rfl, rfl⟩
  | true =>
      rw [hconn, if_pos rfl] at hok
      obtain ⟨s, hs, hok⟩ := bind_ok hok
      obtain ⟨hd, hhd, hok⟩ := bind_ok hok
      obtain ⟨rfl, rfl⟩ := Prod.mk.inj (Except.ok.inj hok)
      exact .inr ⟨rfl, rfl, s, hd, deref_ok hs, deref_ok hhd, rfl⟩

/-- The other calls that do not accept. -/
theorem kept_start (call : HandleCall) (hcall : ∀ flags, call ≠ .accept flags)
    (hok : call.start fuel new h cur handleId = .ok (st, h')) : Kept h h' := by
  cases call with
  | accept flags => exact absurd rfl (hcall flags)
  | connect addr =>
      rcases connect_ok hok with ⟨v, -, rfl⟩ | ⟨_, _, _, _, -, he⟩
      · exact .refl _
      · exact he.kept
  | bind addr =>
      obtain ⟨-, -, -, ⟨-, rfl, -⟩ | ⟨fd, hd, -, -, hok⟩⟩ := withHandle_ok hok
      · exact .refl _
      · obtain ⟨s, -, hok⟩ := bind_ok hok
        obtain ⟨-, rfl⟩ := Prod.mk.inj (Except.ok.inj hok)
        exact kept_of_eq rfl rfl rfl rfl rfl rfl (Nat.le_refl _)
  | listen =>
      obtain ⟨-, -, -, ⟨-, rfl, -⟩ | ⟨fd, hd, -, -, hok⟩⟩ := withHandle_ok hok
      · exact .refl _
      · obtain ⟨s, hs, hok⟩ := bind_ok hok
        obtain ⟨-, rfl⟩ := Prod.mk.inj (Except.ok.inj hok)
        exact kept_setSocket (deref_ok hs) rfl
  | send inp limit =>
      obtain ⟨-, -, -, ⟨-, rfl, -⟩ | ⟨fd, hd, -, -, hok⟩⟩ := withHandle_ok hok
      · exact .refl _
      · obtain ⟨⟨ret, h₁⟩, hop, hok⟩ := bind_ok hok
        obtain ⟨-, rfl⟩ := Prod.mk.inj (Except.ok.inj hok)
        exact kept_send hop
  | recv out limit =>
      obtain ⟨-, -, -, ⟨-, rfl, -⟩ | ⟨fd, hd, -, -, hok⟩⟩ := withHandle_ok hok
      · exact .refl _
      · obtain ⟨⟨ret, h₁⟩, hop, hok⟩ := bind_ok hok
        obtain ⟨-, rfl⟩ := Prod.mk.inj (Except.ok.inj hok)
        exact kept_recv hop

theorem kept_resumeConnect {handle dsock d pair : Nat}
    (hok : resumeConnect h handle dsock d pair = .ok (st, h')) : Kept h h' := by
  obtain ⟨p, -, ⟨-, -, rfl⟩ | ⟨-, -, s, hd, hs, hhd, rfl⟩⟩ := resumeConnect_ok hok
  · exact .refl _
  · refine (kept_setSocket hs ?_).trans (kept_setHandle hhd ?_)
    · rfl
    · rfl

/-! ## Calls that add a socket -/

/-- The state before the walk to the end of the list. -/
def withSocket (h : HelState) (op : Op) (s : Dsocket) : HelState :=
  ({ h with kernel := { h.kernel with
      fdInfos := Function.update h.kernel.fdInfos h.kernel.next (h.kernel.next + 1)
      next := h.kernel.next + 3 } }.setSocket (h.kernel.next + 2) s).setHandle (h.kernel.next + 1)
    ⟨op, h.kernel.next + 2⟩

theorem addSocket_ok (hok : addSocket fuel h t op s = .ok (st, h')) :
    ∃ last v, lastSocket (withSocket h op s) fuel driverSockets = .ok last ∧
      (withSocket h op s).sockets last = some v ∧
      st = .done (addFdInfo (withSocket h op s).kernel t h.kernel.next).1 ∧
      h' = { (withSocket h op s).setSocket last { v with next := some (h.kernel.next + 2) } with
        kernel := (addFdInfo (withSocket h op s).kernel t h.kernel.next).2 } := by
  obtain ⟨last, hlast, hok⟩ := bind_ok hok
  obtain ⟨v, hv, hok⟩ := bind_ok hok
  obtain ⟨rfl, rfl⟩ := Prod.mk.inj (Except.ok.inj hok)
  exact ⟨last, v, hlast, deref_ok hv, rfl, rfl⟩

/-- **The walk ends at the last node.** -/
theorem lastSocket_ok {d last : Nat} {l : List Nat} (hl : Chain h.sockets (·.next) (some d) l)
    (hok : lastSocket h fuel d = .ok last) : ∃ l', l = l' ++ [last] := by
  induction fuel generalizing d l with
  | zero => exact nomatch hok
  | succ fuel ih =>
    cases hl with
    | @cons _ v l hd hl =>
        rw [lastSocket, deref_some hd] at hok
        simp only [bind, Except.bind] at hok
        cases hn : v.next with
        | none =>
            rw [hn] at hok hl
            obtain rfl := Except.ok.inj hok
            cases hl
            exact ⟨[], rfl⟩
        | some d' =>
            rw [hn] at hok hl
            obtain ⟨l', rfl⟩ := ih hl hok
            exact ⟨d :: l', rfl⟩

/-- The pair of an accepted connection. -/
def acceptedPair (new : Malloc) (p : DsocketPair) : DsocketPair :=
  { p with
    serverFds := p.serverFds + 1, path := new.path
    serverBuffer := new.serverBuffer, serverBufferPos := 0
    clientBuffer := new.clientBuffer, clientBufferPos := 0
    connected := true }

/-- **An accept** waits, or takes what is in the first slot and adds a socket for it. -/
theorem resumeAccept_ok {dsock flags : Nat}
    (hok : resumeAccept fuel new h cur dsock flags = .ok (st, h')) :
    ∃ s, h.sockets dsock = some s ∧
      ((s.connCurr = 0 ∧ st = .accepting cur dsock flags ∧ h' = h) ∨
        (s.connCurr ≠ 0 ∧ ∃ t x p s', h.kernel.threads cur = some t ∧ s.backlog 0 = some x ∧
          h.pairs x = some p ∧ dequeue s = .ok s' ∧
          addSocket fuel ((h.setPair x (acceptedPair new p)).setSocket dsock s') t .acceptOps
            { new.socket with
              flags := flags, bindAddr := new.bindAddr, pair := some x, state := .connected } =
              .ok (st, h'))) := by
  obtain ⟨s, hs, hok⟩ := bind_ok hok
  refine ⟨s, deref_ok hs, ?_⟩
  by_cases hzero : s.connCurr = 0
  · rw [if_pos hzero] at hok
    obtain ⟨rfl, rfl⟩ := Prod.mk.inj (Except.ok.inj hok)
    exact .inl ⟨hzero, rfl, rfl⟩
  · rw [if_neg hzero] at hok
    refine .inr ⟨hzero, ?_⟩
    obtain ⟨t, ht, hok⟩ := bind_ok hok
    obtain ⟨x, hx, hok⟩ := bind_ok hok
    obtain ⟨p, hp, hok⟩ := bind_ok hok
    obtain ⟨s', hs', hok⟩ := bind_ok hok
    exact ⟨t, x, p, s', deref_ok ht, deref_ok hx, deref_ok hp, hs', hok⟩

theorem dequeue_ok {s' : Dsocket} (hok : dequeue s = .ok s') : s'.next = s.next := by
  unfold dequeue at hok
  split at hok
  · rw [← Except.ok.inj hok]
  · exact nomatch hok

end IonOS.Hel
