import IonOS.Hel.Lookup
import IonOS.Hel.Registry

/-!
# The backlog of a listening socket

A client puts a pair into the backlog of a listening socket and waits until the pair
is connected. An accept takes the pair in the first slot and moves the others up. It
then counts down `conn_max`, and not `conn_curr`, and the socket no longer listens.
So a backlog is a queue until something is taken from it.
-/

namespace IonOS.Hel

open IonOS.Lib IonOS.Libs IonOS.Proc

/-! ## Runs -/

/-- The sockets, and a record of one backlog. -/
structure BacklogState where
  hel : HelState
  waiting : List Status
  /-- The pairs put into the backlog. -/
  arrived : List Nat
  /-- The pairs accepted from it. -/
  taken : List Nat
  /-- Something was put behind its end. -/
  overrun : Bool

namespace BacklogState

/-- The pairs that have not been accepted. -/
def pending (s : BacklogState) : List Nat := s.arrived.drop s.taken.length

end BacklogState

/-- The pair that a call has put into the backlog of `l`. -/
def Status.enqueued (l : Nat) : Status → List Nat
  | .connecting _ _ d pair => if d = l then [pair] else []
  | _ => []

/-- What an accept takes. -/
def takenFrom (h : HelState) (l : Nat) : List Nat :=
  match h.sockets l with
  | some d => if d.connCurr = 0 then [] else (d.backlog 0).toList
  | none => []

/-- The call is on a handle of the socket `l`. -/
def Refers (h : HelState) (cur : ThreadPtr) (handleId l : Nat) : Prop :=
  ∃ t fd hd, h.kernel.threads cur = some t ∧ tableEntry h t handleId = some fd ∧
    h.handles (h.kernel.fdInfos fd) = some hd ∧ hd.socket = l

/-- The call comes to the search, and the search ends at `l`. -/
def Enters (h : HelState) (cur : ThreadPtr) (handleId addr fuel l : Nat) : Prop :=
  (∃ t, h.kernel.threads cur = some t ∧ Searches h t handleId) ∧
    findSocket h (dPath addr) (addrLen h.user addr) fuel (some driverSockets) = .ok (some l)

/-- What happens to a socket that listens. -/
inductive BacklogEvent where
  | connect (cur : ThreadPtr) (handleId addr fuel : Nat)
  | finish (dsock pair : Nat)
  | accept
  | user

/-- Clients connect and their calls are resumed, and the socket `l` is accepted on, in any order. -/
inductive BacklogStep (l : Nat) : BacklogEvent → BacklogState → BacklogState → Prop where
  | connect {s : BacklogState} {cur : ThreadPtr} {handleId addr fuel : Nat} {st : Status}
      {h' : HelState} (h : kDriverConnectImpl fuel s.hel cur handleId addr = .ok (st, h')) :
      BacklogStep l (.connect cur handleId addr fuel) s
        { s with
          hel := h', waiting := st.pending ++ s.waiting, arrived := s.arrived ++ st.enqueued l }
  | overrun {s : BacklogState} {cur : ThreadPtr} {handleId addr fuel : Nat}
      (henters : Enters s.hel cur handleId addr fuel l)
      (h : kDriverConnectImpl fuel s.hel cur handleId addr = .error .overrun) :
      BacklogStep l (.connect cur handleId addr fuel) s { s with overrun := true }
  | finish {s : BacklogState} {handle dsock d pair : Nat} {st : Status} {h' : HelState}
      (hwait : .connecting handle dsock d pair ∈ s.waiting)
      (h : resumeConnect s.hel handle dsock d pair = .ok (st, h')) :
      BacklogStep l (.finish dsock pair) s
        { s with
          hel := h'
          waiting := st.pending ++ s.waiting.erase (.connecting handle dsock d pair) }
  | accept {s : BacklogState} {fuel handleId flags : Nat} {new : Malloc} {cur : ThreadPtr}
      {st : Status} {h' : HelState} (hrefers : Refers s.hel cur handleId l)
      (h : kDriverAcceptImpl fuel new s.hel cur handleId flags = .ok (st, h')) :
      BacklogStep l .accept s
        { s with
          hel := h', waiting := st.pending ++ s.waiting, taken := s.taken ++ takenFrom s.hel l }
  | resume {s : BacklogState} {fuel flags : Nat} {new : Malloc} {cur : ThreadPtr} {st : Status}
      {h' : HelState} (hwait : .accepting cur l flags ∈ s.waiting)
      (h : resumeAccept fuel new s.hel cur l flags = .ok (st, h')) :
      BacklogStep l .accept s
        { s with
          hel := h', waiting := st.pending ++ s.waiting.erase (.accepting cur l flags)
          taken := s.taken ++ takenFrom s.hel l }
  | user {s : BacklogState} (u : Mem) :
      BacklogStep l .user s { s with hel := { s.hel with user := u } }

/-- What `k_driver_listen_impl` leaves. -/
structure Listens (h : HelState) (l : Nat) : Prop where
  socket : ∃ d, h.sockets l = some d ∧ d.state = .listening ∧ d.connCurr = 0 ∧
    d.connMax = dsocketConnMax

/-- The socket `l` has just begun to listen. -/
structure BacklogStart (l : Nat) (s : BacklogState) : Prop where
  listens : Listens s.hel l
  below : l < s.hel.kernel.next
  pairs : ∀ x, (s.hel.pairs x).isSome → x < s.hel.kernel.next
  arrived : s.arrived = []
  taken : s.taken = []
  overrun : s.overrun = false

/-- A listening socket whose first slots are `xs`. -/
structure Queue (d : Dsocket) (xs : List Nat) : Prop where
  listening : d.state = .listening
  curr : d.connCurr = xs.length
  curr_le : d.connCurr ≤ d.connMax
  max_le : d.connMax ≤ dsocketConnMax
  slots : ∀ i, i < xs.length → d.backlog i = xs[i]?

/-- The backlog is a queue. -/
structure BacklogOk (l : Nat) (s : BacklogState) : Prop where
  /-- What is pending is in the first slots, in the order of arrival. -/
  socket : ∃ d, s.hel.sockets l = some d ∧ Queue d s.pending
  /-- What was accepted came first, -/
  fifo : s.taken <+: s.arrived
  /-- and nothing comes twice. -/
  nodup : s.arrived.Nodup
  /-- A pair is connected once it is accepted. -/
  connected : ∀ x ∈ s.arrived, ∃ p, s.hel.pairs x = some p ∧ (p.connected = true ↔ x ∈ s.taken)
  inside : s.overrun = false

/-- Nothing is accepted while something is pending, no ninth client comes while eight are pending,
and no connection through the socket itself is completed. -/
def Undisturbed (l : Nat) (s : BacklogState) : BacklogEvent → Prop
  | .connect cur handleId addr fuel =>
      Enters s.hel cur handleId addr fuel l → s.pending.length < dsocketConnMax
  | .finish dsock pair => dsock = l → ∀ p, s.hel.pairs pair = some p → p.connected = false
  | .accept => s.pending = []
  | .user => True

/-- Any step, and a step that does not disturb. -/
def AnyStep (l : Nat) (s s' : BacklogState) : Prop := ∃ ev, BacklogStep l ev s s'

def UndisturbedStep (l : Nat) (s s' : BacklogState) : Prop :=
  ∃ ev, BacklogStep l ev s s' ∧ Undisturbed l s ev

/-! ## One call -/

variable {l x y dsock d pair fuel flags handleId addr : Nat} {h h' : HelState} {cur : ThreadPtr}
  {new : Malloc} {st : Status} {e e' : Dsocket} {xs : List Nat} {s s' : BacklogState}
  {ev : BacklogEvent}

/-- The fields that a queue is made of. -/
def Dsocket.queue (e : Dsocket) : DsocketState × Int × Int × (Nat → Option Nat) :=
  (e.state, e.connMax, e.connCurr, e.backlog)

theorem Queue.congr (hq : Queue e xs) (he : e'.queue = e.queue) : Queue e' xs := by
  obtain ⟨hstate, hrest⟩ := Prod.mk.inj he
  obtain ⟨hmax, hrest⟩ := Prod.mk.inj hrest
  obtain ⟨hcurr, hslots⟩ := Prod.mk.inj hrest
  refine ⟨hstate.trans hq.listening, hcurr.trans hq.curr, ?_, hmax.trans_le hq.max_le, fun i hi => ?_⟩
  · rw [hcurr, hmax]
    exact hq.curr_le
  · rw [hslots]
    exact hq.slots i hi

/-- One more at the end. -/
theorem Queue.push (hq : Queue e xs) (hmax : e.connMax = dsocketConnMax)
    (hroom : e.connCurr < dsocketConnMax) : Queue { e with
      backlog := Function.update e.backlog e.connCurr.toNat (some x)
      connCurr := e.connCurr + 1 } (xs ++ [x]) := by
  have hcurr := hq.curr
  refine ⟨hq.listening, ?_, ?_, hq.max_le, fun i hi => ?_⟩
  · show e.connCurr + 1 = _
    rw [List.length_append, List.length_singleton, hcurr]
    omega
  · show e.connCurr + 1 ≤ e.connMax
    omega
  · show Function.update e.backlog e.connCurr.toNat (some x) i = _
    rw [List.length_append, List.length_singleton] at hi
    rw [hcurr, Int.toNat_natCast]
    by_cases hlast : i = xs.length
    · rw [hlast, Function.update_self, List.getElem?_concat_length]
    · rw [Function.update_of_ne hlast, hq.slots i (by omega), List.getElem?_append_left (by omega)]

/-- Putting a pair into one backlog leaves the others alone. -/
theorem Enqueued.other (he : Enqueued h dsock d pair h') (hy : y ≠ d) (hs : h.sockets y = some e) :
    ∃ e', h'.sockets y = some e' ∧ e'.queue = e.queue := by
  obtain ⟨-, c, s, s', c', -, -, -, -, -, hc', rfl⟩ := he
  by_cases hyd : y = dsock
  · subst hyd
    rw [Function.update_of_ne hy, hs] at hc'
    obtain rfl := Option.some.inj hc'
    exact ⟨_, Function.update_self .., rfl⟩
  · refine ⟨e, ?_, rfl⟩
    show Function.update (Function.update h.sockets d (some s')) dsock _ y = _
    rw [Function.update_of_ne hyd, Function.update_of_ne hy, hs]

/-- The backlog itself. -/
theorem Enqueued.self (he : Enqueued h dsock d pair h') : ∃ e e', h.sockets d = some e ∧
    e.state = .listening ∧ 0 ≤ e.connCurr ∧ e.connCurr < dsocketConnMax ∧ h'.sockets d = some e' ∧
    e'.queue = Dsocket.queue { e with
      backlog := Function.update e.backlog e.connCurr.toNat (some pair)
      connCurr := e.connCurr + 1 } := by
  obtain ⟨-, c, s, s', c', -, -, hs, hstate, henq, hc', rfl⟩ := he
  obtain ⟨h0, hlt, rfl⟩ := enqueue_ok henq
  by_cases hdd : d = dsock
  · subst hdd
    rw [Function.update_self] at hc'
    obtain rfl := Option.some.inj hc'
    exact ⟨s, _, hs, hstate, h0, hlt, Function.update_self .., rfl⟩
  · refine ⟨s, _, hs, hstate, h0, hlt, ?_, rfl⟩
    show Function.update (Function.update h.sockets d _) dsock _ d = _
    rw [Function.update_of_ne hdd, Function.update_self]

theorem Enqueued.pairs (he : Enqueued h dsock d pair h') :
    h'.pairs = Function.update h.pairs h.kernel.next (some newPair) ∧
      h'.kernel.next = h.kernel.next + 1 := by
  obtain ⟨rfl, c, s, s', c', -, -, -, -, -, -, rfl⟩ := he
  exact ⟨rfl, rfl⟩

/-- **An accept that takes something** leaves a socket that does not listen. -/
theorem accept_stops (hl : l < h.kernel.next) (hs : h.sockets l = some e) (hne : e.connCurr ≠ 0)
    (hok : resumeAccept fuel new h cur l flags = .ok (st, h')) :
    ∃ e', h'.sockets l = some e' ∧ e'.state = .disconnected := by
  obtain ⟨s, hs', ⟨hzero, -⟩ | ⟨-, t, x, p, s', -, -, -, hdeq, hadd⟩⟩ := resumeAccept_ok hok
  · obtain rfl := Option.some.inj (hs.symm.trans hs')
    exact absurd hzero hne
  have hstate : s'.state = .disconnected := by
    unfold dequeue at hdeq
    split at hdeq
    · rw [← Except.ok.inj hdeq]
    · exact nomatch hdeq
  let h₁ := (h.setPair x (acceptedPair new p)).setSocket l s'
  have hl₁ : h₁.sockets l = some s' := Function.update_self ..
  have hl : l < h₁.kernel.next := hl
  obtain ⟨last, v, -, hv, hsockets⟩ := (addSocket_spec (h := h₁) hadd).sockets
  by_cases hlast : l = last
  · subst hlast
    have hv : Function.update h₁.sockets (h₁.kernel.next + 2) _ l = some v := hv
    rw [Function.update_of_ne (by omega), hl₁] at hv
    obtain rfl := Option.some.inj hv
    refine ⟨{ s' with next := some (h₁.kernel.next + 2) }, ?_, hstate⟩
    rw [hsockets, Function.update_self]
  · refine ⟨s', ?_, hstate⟩
    rw [hsockets, Function.update_of_ne hlast, Function.update_of_ne (by omega), hl₁]

/-- A call on a handle of `l` goes on with `l`. -/
theorem Refers.withHandle (hrefers : Refers h cur handleId l)
    {body : Nat → DsocketHandle → Except Fault (Status × HelState)}
    (hok : withHandle h cur handleId body = .ok (st, h')) :
    ∃ handle hd, hd.socket = l ∧ body handle hd = .ok (st, h') := by
  obtain ⟨t, fd, hd, ht, hentry, hhd, hl⟩ := hrefers
  obtain ⟨t', ht', -, ⟨-, -, hnone⟩ | ⟨fd', hd', hentry', hhd', hok⟩⟩ := withHandle_ok hok
  · obtain rfl := Option.some.inj (ht.symm.trans ht')
    exact nomatch hentry.symm.trans hnone
  · obtain rfl := Option.some.inj (ht.symm.trans ht')
    obtain rfl := Option.some.inj (hentry.symm.trans hentry')
    obtain rfl := Option.some.inj (hhd.symm.trans hhd')
    exact ⟨_, hd, hl, hok⟩

/-- A call to accept on a handle of `l` looks at `l`. -/
theorem accept_refers (hrefers : Refers h cur handleId l)
    (hok : kDriverAcceptImpl fuel new h cur handleId flags = .ok (st, h')) :
    resumeAccept fuel new h cur l flags = .ok (st, h') := by
  obtain ⟨-, hd, rfl, hok⟩ := hrefers.withHandle hok
  exact hok

/-- **A call to listen** on a handle of `l` leaves `l` listening, with nothing in its backlog. -/
theorem listen_listens (hrefers : Refers h cur handleId l)
    (hok : kDriverListenImpl new h cur handleId = .ok (st, h')) : Listens h' l := by
  obtain ⟨-, hd, rfl, hok⟩ := hrefers.withHandle hok
  obtain ⟨s, -, hok⟩ := bind_ok hok
  obtain ⟨-, rfl⟩ := Prod.mk.inj (Except.ok.inj hok)
  exact ⟨_, Function.update_self _ _ _, rfl, rfl, rfl⟩

/-- A client that gets to a listening socket with room is let in. -/
theorem enters_room (henters : Enters h cur handleId addr fuel l) (hs : h.sockets l = some e)
    (hstate : e.state = .listening) (h0 : 0 ≤ e.connCurr) (hroom : e.connCurr < dsocketConnMax) :
    kDriverConnectImpl fuel h cur handleId addr ≠ .error .overrun := by
  obtain ⟨⟨t, hcur, hsearch⟩, hfind⟩ := henters
  obtain ⟨fd, hd, c, hentry, hhd, hc, hpair⟩ := hsearch.socket
  have henq : ∃ s', enqueue e h.kernel.next = .ok s' := ⟨_, if_pos ⟨h0, hroom⟩⟩
  obtain ⟨s', hs'⟩ := henq
  have hdsock : ∃ c', Function.update h.sockets l (some s') hd.socket = some c' := by
    by_cases hl : hd.socket = l
    · exact ⟨s', by rw [hl, Function.update_self]⟩
    · exact ⟨c, by rw [Function.update_of_ne hl, hc]⟩
  obtain ⟨c', hc'⟩ := hdsock
  let h₁ : HelState := { h with kernel := { h.kernel with next := h.kernel.next + 1 } }
  have hlast : deref ((h₁.setPair h.kernel.next newPair).setSocket l s').sockets hd.socket = .ok c' :=
    deref_some hc'
  rw [kDriverConnectImpl, withHandle_some hcur hsearch.inTable hentry hhd]
  simp only [bind, Except.bind, deref_some hc, hpair, Option.isSome_none, Bool.false_eq_true,
    if_false, hfind, deref_some hs, hstate, ne_eq, not_true_eq_false, hs']
  rw [hlast]
  intro he
  cases he

/-- A client that is let in, was let in where the search ended. -/
theorem enters_ok (henters : Enters h cur handleId addr fuel l) (hs : h.sockets l = some e)
    (hstate : e.state = .listening)
    (hok : kDriverConnectImpl fuel h cur handleId addr = .ok (st, h')) :
    e.connCurr < dsocketConnMax := by
  obtain ⟨⟨t, hcur, hsearch⟩, hfind⟩ := henters
  obtain ⟨_, _, _, he⟩ := connect_stops hcur hsearch hfind hs hstate hok
  rcases connect_ok hok with ⟨v, hv, -⟩ | ⟨handle, dsock, d, pair, hd, henq⟩
  · exact nomatch he.symm.trans hv
  · obtain ⟨-, -, rfl, -⟩ := Status.connecting.inj (he.symm.trans hd)
    obtain ⟨e₁, _, hs₁, -, -, hlt, -⟩ := henq.self
    obtain rfl := Option.some.inj (hs.symm.trans hs₁)
    exact hlt

/-! ## Runs without a disturbance -/

/-- What holds in them: nothing has been accepted. -/
structure BacklogInv (l : Nat) (s : BacklogState) : Prop where
  ok : BacklogOk l s
  none : s.taken = []
  below : l < s.hel.kernel.next
  pairs : ∀ x, (s.hel.pairs x).isSome → x < s.hel.kernel.next
  max : ∀ e, s.hel.sockets l = some e → e.connMax = dsocketConnMax

theorem BacklogInv.pending (hi : BacklogInv l s) : s.pending = s.arrived := by
  rw [BacklogState.pending, hi.none]
  rfl

theorem backlogInv_start (h : BacklogStart l s) : BacklogInv l s := by
  obtain ⟨e, he, hstate, hcurr, hmax⟩ := h.listens.socket
  have hpending : s.pending = [] := by
    rw [BacklogState.pending, h.arrived, h.taken]
    rfl
  refine ⟨⟨⟨e, he, hstate, ?_, ?_, hmax.le, ?_⟩, ?_, ?_, ?_, h.overrun⟩, h.taken, h.below, h.pairs, ?_⟩
  · rw [hpending, hcurr]
    rfl
  · rw [hcurr, hmax]
    decide
  · rw [hpending]
    exact fun i hi => absurd hi (Nat.not_lt_zero i)
  · rw [h.taken]
    exact List.nil_prefix
  · rw [h.arrived]
    exact List.nodup_nil
  · rw [h.arrived]
    exact fun x hx => absurd hx List.not_mem_nil
  · intro e' he'
    rw [← Option.some.inj (he.symm.trans he'), hmax]

/-- Steps that leave the backlog and the pairs in it alone. -/
theorem BacklogInv.keep (hi : BacklogInv l s)
    (hq : ∀ e, s.hel.sockets l = some e → ∃ e', s'.hel.sockets l = some e' ∧ e'.queue = e.queue)
    (hp : ∀ x, x < s.hel.kernel.next → s'.hel.pairs x = s.hel.pairs x)
    (hpairs : ∀ x, (s'.hel.pairs x).isSome → x < s'.hel.kernel.next)
    (hn : s.hel.kernel.next ≤ s'.hel.kernel.next) (harrived : s'.arrived = s.arrived)
    (htaken : s'.taken = s.taken) (hoverrun : s'.overrun = s.overrun) : BacklogInv l s' := by
  obtain ⟨e, he, hqueue⟩ := hi.ok.socket
  obtain ⟨e', he', hsame⟩ := hq e he
  have hpending : s'.pending = s.pending := by
    rw [BacklogState.pending, harrived, htaken]
    rfl
  refine ⟨⟨⟨e', he', ?_⟩, ?_, ?_, fun x hx => ?_, ?_⟩, ?_, ?_, hpairs, fun e₁ he₁ => ?_⟩
  · rw [hpending]
    exact hqueue.congr hsame
  · rw [harrived, htaken]
    exact hi.ok.fifo
  · rw [harrived]
    exact hi.ok.nodup
  · rw [harrived] at hx
    obtain ⟨p, hpx, hconn⟩ := hi.ok.connected x hx
    rw [hp x (hi.pairs x (by rw [hpx]; rfl)), htaken]
    exact ⟨p, hpx, hconn⟩
  · rw [hoverrun]
    exact hi.ok.inside
  · rw [htaken]
    exact hi.none
  · exact Nat.lt_of_lt_of_le hi.below hn
  · obtain rfl := Option.some.inj (he'.symm.trans he₁)
    exact (Prod.mk.inj (Prod.mk.inj hsame).2).1.trans (hi.max e he)

/-- A client is let in. -/
theorem backlogInv_enqueued (hi : BacklogInv l s) (he : Enqueued s.hel dsock l pair h')
    {w : List Status} :
    BacklogInv l { s with hel := h', waiting := w, arrived := s.arrived ++ [pair] } := by
  obtain ⟨e, e', hs, -, -, hroom, hs', hqueue'⟩ := he.self
  obtain ⟨e₀, hs₀, hqueue⟩ := hi.ok.socket
  obtain rfl := Option.some.inj (hs.symm.trans hs₀)
  obtain ⟨hpairs, hnext⟩ := he.pairs
  have hfresh : ∀ x ∈ s.arrived, x < s.hel.kernel.next := by
    intro x hx
    obtain ⟨p, hp, -⟩ := hi.ok.connected x hx
    exact hi.pairs x (by rw [hp]; rfl)
  rw [hi.pending] at hqueue
  have hpush := (hqueue.push (x := pair) (hi.max e hs) hroom).congr hqueue'
  refine ⟨⟨⟨e', hs', ?_⟩, ?_, ?_, fun x hx => ?_, hi.ok.inside⟩, hi.none, ?_, fun x hx => ?_, ?_⟩
  · rw [BacklogState.pending]
    dsimp only
    rw [hi.none]
    exact hpush
  · show s.taken <+: _
    rw [hi.none]
    exact List.nil_prefix
  · refine List.nodup_append.mpr ⟨hi.ok.nodup, List.nodup_singleton _, fun x hx y hy => ?_⟩
    rw [List.mem_singleton.mp hy, he.fresh]
    exact Nat.ne_of_lt (hfresh x hx)
  · dsimp only at hx ⊢
    rw [hpairs, hi.none]
    rcases List.mem_append.mp hx with hx | hx
    · rw [Function.update_of_ne (Nat.ne_of_lt (hfresh x hx)), ← hi.none]
      exact hi.ok.connected x hx
    · rw [List.mem_singleton.mp hx, he.fresh, Function.update_self]
      exact ⟨newPair, rfl, by simp [newPair]⟩
  · exact Nat.lt_of_lt_of_le hi.below (by rw [hnext]; exact Nat.le_succ _)
  · dsimp only at hx ⊢
    rw [hpairs] at hx
    rw [hnext]
    by_cases hxn : x = s.hel.kernel.next
    · omega
    · rw [Function.update_of_ne hxn] at hx
      have := hi.pairs x hx
      omega
  · intro e₁ he₁
    obtain rfl := Option.some.inj (hs'.symm.trans he₁)
    exact (Prod.mk.inj (Prod.mk.inj hqueue').2).1.trans (hi.max e hs)

/-- **An accept waits while nothing is pending**, and takes the first that is. -/
theorem accept_takes (hi : BacklogInv l s) : takenFrom s.hel l = s.pending.take 1 ∧
    (s.pending = [] → ∀ fuel new cur flags st h',
      resumeAccept fuel new s.hel cur l flags = .ok (st, h') →
        st = .accepting cur l flags ∧ h' = s.hel) ∧
    (s.pending ≠ [] → ∀ fuel new cur flags st h',
      resumeAccept fuel new s.hel cur l flags = .ok (st, h') →
        ∃ e', h'.sockets l = some e' ∧ e'.state = .disconnected) := by
  obtain ⟨e, he, hqueue⟩ := hi.ok.socket
  have hcurr := hqueue.curr
  cases hp : s.pending with
  | nil =>
      rw [hp, List.length_nil] at hcurr
      refine ⟨?_, fun _ fuel new cur flags st h' hok => ?_, fun hne => absurd rfl hne⟩
      · rw [takenFrom, he]
        exact if_pos hcurr
      · obtain ⟨e₁, he₁, ⟨-, hst, hh⟩ | ⟨hne, -⟩⟩ := resumeAccept_ok hok
        · exact ⟨hst, hh⟩
        · obtain rfl := Option.some.inj (he.symm.trans he₁)
          exact absurd hcurr hne
  | cons x r =>
      rw [hp, List.length_cons] at hcurr
      have hslot := hqueue.slots 0 (by rw [hp]; exact Nat.succ_pos _)
      rw [hp, List.getElem?_cons_zero] at hslot
      refine ⟨?_, fun hnil => absurd hnil (List.cons_ne_nil x r), fun _ fuel new cur flags st h' hok => ?_⟩
      · rw [takenFrom, he]
        dsimp only
        rw [if_neg (by omega), hslot]
        rfl
      · exact accept_stops hi.below he (by omega) hok

theorem BacklogOk.not_stopped (hok : BacklogOk l s) (he : s.hel.sockets l = some e)
    (hstate : e.state ≠ .listening) : False := by
  obtain ⟨e', he', hqueue⟩ := hok.socket
  obtain rfl := Option.some.inj (he.symm.trans he')
  exact hstate hqueue.listening

/-- Accepting keeps the queue only by waiting. -/
theorem backlogStep_accept (hi : BacklogInv l s)
    (hok : resumeAccept fuel new s.hel cur l flags = .ok (st, h')) {w : List Status}
    (hs' : s' = { s with hel := h', waiting := w, taken := s.taken ++ takenFrom s.hel l }) :
    (s.pending = [] → BacklogInv l s') ∧ (BacklogOk l s' → s.pending = []) := by
  obtain ⟨htakes, hwaits, hstops⟩ := accept_takes hi
  refine ⟨fun hnil => ?_, fun hokay => ?_⟩
  · obtain ⟨-, rfl⟩ := hwaits hnil _ _ _ _ _ _ hok
    rw [htakes, hnil, List.take_nil, List.append_nil] at hs'
    subst hs'
    exact hi.keep (fun e he => ⟨e, he, rfl⟩) (fun _ _ => rfl) hi.pairs (Nat.le_refl _) rfl rfl rfl
  · by_contra hne
    obtain ⟨e', he', hstate⟩ := hstops hne _ _ _ _ _ _ hok
    subst hs'
    exact hokay.not_stopped he' (by rw [hstate]; decide)

/-- **One step.** -/
theorem backlogStep_iff (hi : BacklogInv l s) (hs : BacklogStep l ev s s') :
    (Undisturbed l s ev → BacklogInv l s') ∧ (BacklogOk l s' → Undisturbed l s ev) := by
  obtain ⟨e, he, hqueue⟩ := hi.ok.socket
  have hcurr := hqueue.curr
  cases hs with
  | connect h =>
      refine ⟨fun _ => ?_, fun _ henters => ?_⟩
      · rcases connect_ok h with ⟨v, rfl, rfl⟩ | ⟨handle, dsock, d, pair, rfl, henq⟩
        · exact hi.keep (fun e he => ⟨e, he, rfl⟩) (fun _ _ => rfl) hi.pairs (Nat.le_refl _)
            (List.append_nil _) rfl rfl
        · by_cases hd : d = l
          · subst hd
            rw [Status.enqueued, if_pos rfl]
            exact backlogInv_enqueued hi henq
          · obtain ⟨hpairs, hnext⟩ := henq.pairs
            rw [Status.enqueued, if_neg hd, List.append_nil]
            refine hi.keep (fun e he => henq.other (Ne.symm hd) he) (fun x hx => ?_) (fun x hx => ?_)
              (by dsimp only; omega) rfl rfl rfl
            · dsimp only
              rw [hpairs, Function.update_of_ne (Nat.ne_of_lt hx)]
            · dsimp only at hx ⊢
              rw [hpairs] at hx
              by_cases hxn : x = s.hel.kernel.next
              · omega
              · rw [Function.update_of_ne hxn] at hx
                have := hi.pairs x hx
                omega
      · have := enters_ok henters he hqueue.listening h
        omega
  | overrun henters h =>
      refine ⟨fun hroom => ?_, fun hokay => nomatch hokay.inside⟩
      have hlen := hroom henters
      exact absurd h (enters_room henters he hqueue.listening (by omega) (by omega))
  | @finish _ handle dsock d pair st h' hwait h =>
      obtain ⟨p, hp, ⟨hconn, -, rfl⟩ | ⟨hconn, -, c, hd, hc, hhd, rfl⟩⟩ := resumeConnect_ok h
      · refine ⟨fun _ => ?_, fun _ _ p' hp' => ?_⟩
        · exact hi.keep (fun e he => ⟨e, he, rfl⟩) (fun _ _ => rfl) hi.pairs (Nat.le_refl _) rfl rfl rfl
        · rw [← Option.some.inj (hp.symm.trans hp'), hconn]
      · refine ⟨fun hund => ?_, fun hokay hl => ?_⟩
        · have hne : l ≠ dsock := fun hl => by
            have := hund hl.symm p hp
            rw [hconn] at this
            exact nomatch this
          refine hi.keep (fun e he => ⟨e, ?_, rfl⟩) (fun _ _ => rfl) hi.pairs (Nat.le_refl _) rfl rfl rfl
          exact (Function.update_of_ne hne ..).trans he
        · subst hl
          exact absurd (hokay.not_stopped (Function.update_self ..) (by simp)) id
  | accept hrefers h => exact backlogStep_accept hi (accept_refers hrefers h) rfl
  | resume _ h => exact backlogStep_accept hi h rfl
  | user u =>
      refine ⟨fun _ => ?_, fun _ => trivial⟩
      exact hi.keep (fun e he => ⟨e, he, rfl⟩) (fun _ _ => rfl) hi.pairs (Nat.le_refl _) rfl rfl rfl

theorem backlogInv_reachable (h : Reachable (BacklogStart l) (UndisturbedStep l) s) :
    BacklogInv l s := by
  induction h with
  | init h => exact backlogInv_start h
  | tail _ h ih =>
      obtain ⟨ev, hs, hund⟩ := h
      exact (backlogStep_iff ih hs).1 hund

/--
**A backlog is a queue exactly until something is accepted from it.**

In every run in which an accept comes only while nothing is pending, no ninth client
comes while eight are pending and no connection through the listening socket itself is
completed, the backlog is a queue in every state, an accept waits while nothing is
pending, and takes the oldest otherwise. After the next step the backlog is still a
queue if and only if the same goes for that step.
-/
theorem backlog_iff (h : Reachable (BacklogStart l) (UndisturbedStep l) s) :
    BacklogOk l s ∧ takenFrom s.hel l = s.pending.take 1 ∧
      (s.pending = [] → ∀ fuel new cur flags st h',
        resumeAccept fuel new s.hel cur l flags = .ok (st, h') →
          st = .accepting cur l flags ∧ h' = s.hel) ∧
      ∀ ev s', BacklogStep l ev s s' → (BacklogOk l s' ↔ Undisturbed l s ev) := by
  have hi := backlogInv_reachable h
  obtain ⟨htakes, hwaits, -⟩ := accept_takes hi
  refine ⟨hi.ok, htakes, hwaits, fun ev s' hs => ?_⟩
  obtain ⟨hund, hokay⟩ := backlogStep_iff hi hs
  exact ⟨hokay, fun h => (hund h).ok⟩

/-! ## One client -/

/-- Sockets 5 and 12, of which the second asks for `a`, which is also what the `bind_addr` of
`driver_sockets` points to. -/
def quietHel : HelState :=
  { kernel := { oneThreadHel.kernel with
      machine := ⟨fun y => if y = 0x300 then 97 else 0, bootKernel.machine.frames⟩
      threads := fun p =>
        if p = .slot ⟨1, one_lt_kMaxThreadCount⟩ ∨ p = .slot ⟨2, two_lt_kMaxThreadCount⟩ then
          some oneThreadOf
        else none
      fds := fun _ i => if i = 0 then some 10 else if i = 1 then some 8 else none
      fdInfos := fun x => if x = 10 then 11 else 9
      next := 13 }
    user := fun y => if y = 0x1001 then 97 else 0
    sockets := fun x =>
      if x = 0 then some ⟨some 5, 0, 0x300, .disconnected, 0, 0, fun _ => none, none⟩
      else if x = 5 then some ⟨some 12, 0, 0x100, .disconnected, 0, 0, fun _ => none, none⟩
      else if x = 12 then some ⟨none, 0, 0x200, .disconnected, 0, 0, fun _ => none, none⟩
      else none
    pairs := fun _ => none
    handles := fun x =>
      if x = 11 then some ⟨.garbage, 12⟩ else if x = 9 then some ⟨.garbage, 5⟩ else none }

/-- Socket 5 listens. -/
def listenHel : HelState :=
  quietHel.setSocket 5 ⟨some 12, 0, 0x100, .listening, 8, 0, fun _ => none, none⟩

theorem quietHel_listen : kDriverListenImpl clearMalloc quietHel (.slot ⟨2, by decide⟩) 1 =
    .ok (.done 0, listenHel) := rfl

theorem backlogStart_listenHel : BacklogStart 5 ⟨listenHel, [], [], [], false⟩ :=
  ⟨listen_listens ⟨oneThreadOf, 8, ⟨.garbage, 5⟩, rfl, rfl, rfl, rfl⟩ quietHel_listen,
    show 5 < 13 by decide, fun _ hx => absurd hx Bool.false_ne_true, rfl, rfl, rfl⟩

/-- The client is let in. -/
theorem listenHel_connect : ∃ h', kDriverConnectImpl 3 listenHel (.slot ⟨1, by decide⟩) 0 0x1000 =
    .ok (.connecting 11 12 5 13, h') ∧ ∃ h'' v, kDriverAcceptImpl 4 clearMalloc h'
      (.slot ⟨2, by decide⟩) 1 0 = .ok (.done v, h'') ∧ Refers h' (.slot ⟨2, by decide⟩) 1 5 ∧
        ∃ e, h''.sockets 5 = some e ∧ e.state = .disconnected :=
  ⟨_, rfl, _, _, rfl, ⟨oneThreadOf, 8, ⟨.garbage, 5⟩, rfl, rfl, rfl, rfl⟩, _, rfl, rfl⟩

/-- With one client waiting, the backlog is a queue. -/
theorem backlog_one : ∃ s, s.arrived = [13] ∧ BacklogOk 5 s := by
  obtain ⟨h', hconnect, -⟩ := listenHel_connect
  have hstep := BacklogStep.connect (l := 5) (s := ⟨listenHel, [], [], [], false⟩) hconnect
  have hr : Reachable (BacklogStart 5) (UndisturbedStep 5) _ :=
    .tail (.init backlogStart_listenHel) ⟨_, hstep, fun _ => by decide⟩
  exact ⟨_, rfl, (backlog_iff hr).1⟩

/-- **The first accept ends it**: the socket no longer listens. -/
theorem backlog_ends : ∃ s, Reachable (BacklogStart 5) (AnyStep 5) s ∧ ¬ BacklogOk 5 s := by
  obtain ⟨h', hconnect, h'', v, haccept, hrefers, e, he, hstate⟩ := listenHel_connect
  have hstep := BacklogStep.connect (l := 5) (s := ⟨listenHel, [], [], [], false⟩) hconnect
  have hstep' := BacklogStep.accept (l := 5)
    (s := ⟨h', [.connecting 11 12 5 13], [13], [], false⟩) hrefers haccept
  have hr : Reachable (BacklogStart 5) (AnyStep 5) _ :=
    .tail (.tail (.init backlogStart_listenHel) ⟨_, hstep⟩) ⟨_, hstep'⟩
  exact ⟨_, hr, fun hok => hok.not_stopped he (by rw [hstate]; decide)⟩

end IonOS.Hel
