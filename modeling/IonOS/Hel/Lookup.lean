import IonOS.Hel.Handle
import IonOS.Lib.Chain

/-!
# The search for a server

`k_driver_connect_impl` goes through the list of sockets from `driver_sockets` on,
as long as the bytes stored for a socket are the ones that are asked for, and takes
the socket that it stops at. So it stops at the first that differs. The length of an
address is not stored, and what a socket that was never bound stores is whatever was
in memory. Where `bind_addr` is null, as that of `driver_sockets` is, the comparison
of even one byte is a page fault.
-/

namespace IonOS.Hel

open IonOS.Lib IonOS.Libs IonOS.Proc

/-! ## What is owed -/

/-- The address that the program passes. -/
def requested (h : HelState) (addr : Nat) : List UInt8 :=
  bytes h.user (dPath addr) (addrLen h.user addr)

/-- What is stored for a socket begins with the address that it is bound to. -/
def StoresBound (h : HelState) (bound : Nat → Option (List UInt8)) : Prop :=
  ∀ x s a, h.sockets x = some s → bound x = some a → bytes h.mem s.bindAddr a.length = a

/-- A server for the address. -/
def Serves (h : HelState) (bound : Nat → Option (List UInt8)) (addr x : Nat) : Prop :=
  bound x = some (requested h addr) ∧ ∃ s, h.sockets x = some s ∧ s.state = .listening

/-- A client gets to a server for the address if there is one in the list, and is told so if not. -/
structure ConnectOk (fuel : Nat) (h : HelState) (cur : ThreadPtr) (handleId addr : Nat)
    (l : List Nat) (bound : Nat → Option (List UInt8)) : Prop where
  found : (∃ x ∈ l, Serves h bound addr x) → ∃ handle dsock d pair h',
    kDriverConnectImpl fuel h cur handleId addr = .ok (.connecting handle dsock d pair, h') ∧
      Serves h bound addr d
  notFound : (¬ ∃ x ∈ l, Serves h bound addr x) →
    kDriverConnectImpl fuel h cur handleId addr = .ok (.done HelError.notFound.code, h)

/-! ## What the search does -/

variable {fuel handleId handle fd addr x : Nat} {h : HelState} {cur : ThreadPtr} {t : Thread}
  {hd : DsocketHandle} {s dsock : Dsocket} {l : List Nat} {p : Option Nat}
  {bound : Nat → Option (List UInt8)}

/-- The loop does not get past the socket: there is nothing stored for it to compare with, or other
bytes than the ones that are asked for. -/
def Stops (h : HelState) (addr x : Nat) : Prop :=
  ∃ s, h.sockets x = some s ∧ (s.bindAddr = 0 ∧ addrLen h.user addr ≠ 0 ∨
    bytes h.mem s.bindAddr (addrLen h.user addr) ≠ requested h addr)

/-- `x` is the first socket in the list that the loop does not get past. -/
def FirstStop (h : HelState) (addr : Nat) (l : List Nat) (x : Nat) : Prop :=
  ∃ before after, l = before ++ x :: after ∧ (∀ y ∈ before, ¬ Stops h addr y) ∧ Stops h addr x

theorem FirstStop.cons {y : Nat} (hy : ¬ Stops h addr y) (hx : FirstStop h addr l x) :
    FirstStop h addr (y :: l) x := by
  obtain ⟨before, after, rfl, hbefore, hstop⟩ := hx
  refine ⟨y :: before, after, rfl, fun z hz => ?_, hstop⟩
  rcases List.mem_cons.mp hz with rfl | hz
  · exact hy
  · exact hbefore z hz

theorem FirstStop.unique {y : Nat} (hx : FirstStop h addr l x) (hy : FirstStop h addr l y) :
    x = y := by
  obtain ⟨b, a, rfl, hb, hdx⟩ := hx
  obtain ⟨b', a', he, hb', hdy⟩ := hy
  rcases List.append_eq_append_iff.mp he with ⟨r, rfl, hr⟩ | ⟨r, rfl, hr⟩
  · cases r with
    | nil => exact (List.cons.inj hr).1
    | cons z r =>
        obtain ⟨rfl, -⟩ := List.cons.inj hr
        exact absurd hdx (hb' x (by simp))
  · cases r with
    | nil => exact (List.cons.inj hr).1.symm
    | cons z r =>
        obtain ⟨rfl, -⟩ := List.cons.inj hr
        exact absurd hdy (hb y (by simp))

/-- The comparison, where the loop goes on. -/
theorem compareAddr_same (hs : h.sockets x = some s) (hnot : ¬ Stops h addr x) :
    compareAddr h s (dPath addr) (addrLen h.user addr) = .ok 0 := by
  have hread : ¬ (s.bindAddr = 0 ∧ addrLen h.user addr ≠ 0) := fun he => hnot ⟨s, hs, .inl he⟩
  have hsame : memcmp h.mem s.bindAddr h.user (dPath addr) (addrLen h.user addr) = 0 := by
    refine memcmp_eq_zero.mpr ?_
    by_contra hne
    exact hnot ⟨s, hs, .inr hne⟩
  rw [compareAddr, if_neg hread, hsame]

/-- The comparison, where it ends. -/
theorem compareAddr_stops (hs : h.sockets x = some s) (hstop : Stops h addr x) :
    (s.bindAddr = 0 ∧ compareAddr h s (dPath addr) (addrLen h.user addr) = .error .wild) ∨
      s.bindAddr ≠ 0 ∧
        ∃ c, c ≠ 0 ∧ compareAddr h s (dPath addr) (addrLen h.user addr) = .ok c := by
  obtain ⟨s', hs', hstop⟩ := hstop
  obtain rfl := Option.some.inj (hs.symm.trans hs')
  by_cases hzero : s.bindAddr = 0
  · refine .inl ⟨hzero, if_pos ⟨hzero, fun hlen => ?_⟩⟩
    -- no bytes are the same as no bytes
    rcases hstop with ⟨-, hne⟩ | hne
    · exact hne hlen
    · rw [requested, hlen] at hne
      exact hne rfl
  · refine .inr ⟨hzero, _, ?_, if_neg fun he => hzero he.1⟩
    rcases hstop with ⟨he, -⟩ | hne
    · exact absurd he hzero
    · exact fun he => hne (memcmp_eq_zero.mp he)

/-- **The loop ends at the first socket that it does not get past**, with a fault if `bind_addr` is
null there. -/
theorem findSocket_spec (addr : Nat) (hl : Chain h.sockets (·.next) p l) (hfuel : l.length < fuel) :
    (findSocket h (dPath addr) (addrLen h.user addr) fuel p = .ok none ∧
        ∀ x ∈ l, ¬ Stops h addr x) ∨
      ∃ x s, FirstStop h addr l x ∧ h.sockets x = some s ∧
        findSocket h (dPath addr) (addrLen h.user addr) fuel p =
          if s.bindAddr = 0 then .error .wild else .ok (some x) := by
  induction hl generalizing fuel with
  | nil =>
      cases fuel with
      | zero => exact absurd hfuel (Nat.not_lt_zero _)
      | succ fuel => exact .inl ⟨rfl, by simp⟩
  | @cons y v r hy _ ih =>
      cases fuel with
      | zero => exact absurd hfuel (Nat.not_lt_zero _)
      | succ fuel =>
          by_cases hstop : Stops h addr y
          · refine .inr ⟨y, v, ⟨[], r, rfl, by simp, hstop⟩, hy, ?_⟩
            rw [findSocket, deref_some hy]
            rcases compareAddr_stops hy hstop with ⟨hzero, hc⟩ | ⟨hzero, c, hne, hc⟩
            · simp only [bind, Except.bind, hc, if_pos hzero]
            · simp only [bind, Except.bind, hc, if_neg hzero, if_neg hne]
              rfl
          · have hstep : findSocket h (dPath addr) (addrLen h.user addr) (fuel + 1) (some y) =
                findSocket h (dPath addr) (addrLen h.user addr) fuel v.next := by
              rw [findSocket, deref_some hy]
              simp only [bind, Except.bind, compareAddr_same hy hstop, if_true]
            rw [hstep]
            rcases ih (Nat.lt_of_succ_lt_succ hfuel) with ⟨hnone, hall⟩ | ⟨x, s, hfirst, hs, hr⟩
            · refine .inl ⟨hnone, fun z hz => ?_⟩
              rcases List.mem_cons.mp hz with rfl | hz
              · exact hstop
              · exact hall z hz
            · exact .inr ⟨x, s, hfirst.cons hstop, hs, hr⟩

/-- What is stored for a server is the address that is asked for. -/
theorem Serves.bytes (hb : StoresBound h bound) (hx : Serves h bound addr x)
    (hs : h.sockets x = some s) :
    bytes h.mem s.bindAddr (addrLen h.user addr) = requested h addr := by
  have hstored := hb x s _ hs hx.1
  rw [requested, length_bytes] at hstored
  exact hstored

/-- A call that comes to the search: the handle is valid and its socket has no pair. -/
structure Searches (h : HelState) (t : Thread) (handleId : Nat) : Prop where
  inTable : InTable h t handleId
  socket : ∃ fd hd dsock, tableEntry h t handleId = some fd ∧
    h.handles (h.kernel.fdInfos fd) = some hd ∧ h.sockets hd.socket = some dsock ∧ dsock.pair = none

/-- What the call makes of the result of the search. -/
theorem connect_eq (hcur : h.kernel.threads cur = some t) (hs : Searches h t handleId)
    {r : Option Nat}
    (hr : findSocket h (dPath addr) (addrLen h.user addr) fuel (some driverSockets) = .ok r)
    (hnot : ∀ x s, r = some x → h.sockets x = some s → s.state ≠ .listening)
    (hsome : ∀ x, r = some x → ∃ s, h.sockets x = some s) :
    kDriverConnectImpl fuel h cur handleId addr = .ok (.done HelError.notFound.code, h) := by
  obtain ⟨fd, hd, dsock, hentry, hhandle, hsock, hpair⟩ := hs.socket
  rw [kDriverConnectImpl, withHandle_some hcur hs.inTable hentry hhandle]
  simp only [bind, Except.bind, deref_some hsock, hpair, Option.isSome_none, Bool.false_eq_true,
    if_false, hr]
  cases r with
  | none => rfl
  | some x =>
      obtain ⟨s, hx⟩ := hsome x rfl
      simp only [deref_some hx, if_pos (hnot x s rfl hx)]
      rfl

/-- A listening socket that the search stops at is the one. -/
theorem connect_stops (hcur : h.kernel.threads cur = some t) (hs : Searches h t handleId)
    (hr : findSocket h (dPath addr) (addrLen h.user addr) fuel (some driverSockets) = .ok (some x))
    (hx : h.sockets x = some s) (hlisten : s.state = .listening) {st : Status} {h' : HelState}
    (hok : kDriverConnectImpl fuel h cur handleId addr = .ok (st, h')) :
    ∃ handle dsock pair, st = .connecting handle dsock x pair := by
  obtain ⟨fd, hd, dsock, hentry, hhandle, hsock, hpair⟩ := hs.socket
  rw [kDriverConnectImpl, withHandle_some hcur hs.inTable hentry hhandle] at hok
  simp only [bind, Except.bind, deref_some hsock, hpair, Option.isSome_none, Bool.false_eq_true,
    if_false, hr, deref_some hx, hlisten, ne_eq, not_true_eq_false] at hok
  obtain ⟨s', -, hok⟩ := bind_ok hok
  obtain ⟨d', -, hok⟩ := bind_ok hok
  obtain ⟨rfl, -⟩ := Prod.mk.inj (Except.ok.inj hok)
  exact ⟨_, _, _, rfl⟩

/-- When the search stops at a socket that can be read and does not listen, or nowhere, the client
is told that there is no server. -/
theorem connect_notFound (hcur : h.kernel.threads cur = some t) (hs : Searches h t handleId)
    (hl : Chain h.sockets (·.next) (some driverSockets) l) (hfuel : l.length < fuel)
    (hfirst : ∀ x s, FirstStop h addr l x → h.sockets x = some s →
      s.bindAddr ≠ 0 ∧ s.state ≠ .listening) :
    kDriverConnectImpl fuel h cur handleId addr = .ok (.done HelError.notFound.code, h) := by
  rcases findSocket_spec addr hl hfuel with ⟨hr, -⟩ | ⟨y, v, hy, hv, hr⟩
  · exact connect_eq hcur hs hr (fun _ _ he => nomatch he) fun _ he => nomatch he
  · rw [if_neg (hfirst y v hy hv).1] at hr
    refine connect_eq hcur hs hr (fun z s he hz => ?_) fun z he => ?_
    · obtain rfl := Option.some.inj he
      exact (hfirst _ s hy hz).2
    · obtain rfl := Option.some.inj he
      exact ⟨v, hv⟩

/-- When it stops at one that cannot be read, there is a page fault. -/
theorem connect_wild (hcur : h.kernel.threads cur = some t) (hs : Searches h t handleId)
    (hr : findSocket h (dPath addr) (addrLen h.user addr) fuel (some driverSockets) =
      .error .wild) : kDriverConnectImpl fuel h cur handleId addr = .error .wild := by
  obtain ⟨fd, hd, dsock, hentry, hhandle, hsock, hpair⟩ := hs.socket
  rw [kDriverConnectImpl, withHandle_some hcur hs.inTable hentry hhandle]
  simp only [bind, Except.bind, deref_some hsock, hpair, Option.isSome_none, Bool.false_eq_true,
    if_false, hr]

/-- What is owed is not done with a fault. -/
theorem ConnectOk.not_wild (hok : ConnectOk fuel h cur handleId addr l bound) :
    kDriverConnectImpl fuel h cur handleId addr ≠ .error .wild := by
  intro hwild
  by_cases hex : ∃ x ∈ l, Serves h bound addr x
  · obtain ⟨handle, dsock, d, pair, h', hconnect, -⟩ := hok.found hex
    exact nomatch hwild.symm.trans hconnect
  · exact nomatch hwild.symm.trans (hok.notFound hex)

/--
**The right server is reached exactly when no server is there and none is taken for one.**

For every list of sockets and every address, whatever is bound and whatever else is in
memory: a call that comes to the search does what is owed if and only if no socket in
the list serves the address and the first one that the loop does not get past, if there
is one, has a `bind_addr` and is not listening.
-/
theorem connectOk_iff (hcur : h.kernel.threads cur = some t) (hs : Searches h t handleId)
    (hl : Chain h.sockets (·.next) (some driverSockets) l) (hfuel : l.length < fuel)
    (hb : StoresBound h bound) :
    ConnectOk fuel h cur handleId addr l bound ↔
      (∀ x ∈ l, ¬ Serves h bound addr x) ∧
        ∀ x s, FirstStop h addr l x → h.sockets x = some s →
          s.bindAddr ≠ 0 ∧ s.state ≠ .listening := by
  constructor
  · intro hok
    -- what the search stops at is no server, so it must not be taken for one
    have hsecond : ∀ x s, FirstStop h addr l x → h.sockets x = some s →
        s.bindAddr ≠ 0 ∧ s.state ≠ .listening := by
      intro x s hfirst hx
      rcases findSocket_spec addr hl hfuel with ⟨-, hall⟩ | ⟨y, v, hy, hv, hr⟩
      · obtain ⟨b, a, rfl, -, hstop⟩ := hfirst
        exact absurd hstop (hall x (by simp))
      obtain rfl := hy.unique hfirst
      obtain rfl := Option.some.inj (hv.symm.trans hx)
      by_cases hzero : v.bindAddr = 0
      · rw [if_pos hzero] at hr
        exact absurd (connect_wild hcur hs hr) hok.not_wild
      rw [if_neg hzero] at hr
      refine ⟨hzero, fun hlisten => ?_⟩
      by_cases hex : ∃ x ∈ l, Serves h bound addr x
      · obtain ⟨handle, dsock, d, pair, h', hconnect, hserves⟩ := hok.found hex
        obtain ⟨_, _, _, he⟩ := connect_stops hcur hs hr hx hlisten hconnect
        obtain ⟨-, -, rfl, -⟩ := Status.connecting.inj he
        obtain ⟨_, _, _, _, v', hv', hstop⟩ := hfirst
        obtain rfl := Option.some.inj (hv.symm.trans hv')
        rcases hstop with ⟨hnull, -⟩ | hne
        · exact hzero hnull
        · exact hne (hserves.bytes hb hv)
      · obtain ⟨_, _, _, he⟩ := connect_stops hcur hs hr hx hlisten (hok.notFound hex)
        exact nomatch he
    refine ⟨fun x hx hserves => ?_, hsecond⟩
    obtain ⟨handle, dsock, d, pair, h', hconnect, -⟩ := hok.found ⟨x, hx, hserves⟩
    rw [connect_notFound hcur hs hl hfuel hsecond] at hconnect
    exact nomatch hconnect
  · rintro ⟨hnone, hfirst⟩
    refine ⟨fun ⟨x, hx, hserves⟩ => absurd hserves (hnone x hx), fun _ => ?_⟩
    exact connect_notFound hcur hs hl hfuel hfirst

/-! ## A client and a server -/

/-- A client, socket 12, and a socket 5 whose address is `a`. The client asks for `name`,
which is at 0x1001. -/
def serverHel (state : DsocketState) (name : UInt8) : HelState :=
  { kernel := { oneThreadHel.kernel with
      machine := ⟨fun y => if y = 0x100 then 97 else 0, bootKernel.machine.frames⟩
      fds := fun _ i => if i = 0 then some 10 else none
      fdInfos := fun _ => 11
      next := 13 }
    user := fun y => if y = 0x1001 then name else 0
    sockets := fun x =>
      if x = 0 then some ⟨some 12, 0, 0, .disconnected, 0, 0, fun _ => none, none⟩
      else if x = 12 then some ⟨some 5, 0, 0x200, .disconnected, 0, 0, fun _ => none, none⟩
      else if x = 5 then some ⟨none, 0, 0x100, state, 8, 0, fun _ => none, none⟩
      else none
    pairs := fun _ => none
    handles := fun x => if x = 11 then some ⟨.garbage, 12⟩ else none }

variable {state : DsocketState} {name : UInt8}

theorem serverHel_chain : Chain (serverHel state name).sockets (·.next) (some driverSockets)
    [0, 12, 5] := .cons rfl (.cons rfl (.cons rfl .nil))

theorem serverHel_searches : Searches (serverHel state name) oneThreadOf 0 :=
  ⟨show (0 : Int) < 32 by decide, 10, ⟨.garbage, 12⟩, _, rfl, rfl, rfl, rfl⟩

theorem serverHel_bound : StoresBound (serverHel state name) fun x =>
    if x = 5 then some [97] else none := by
  intro x s a hx ha
  dsimp only at ha
  split at ha
  · rename_i hx5
    subst hx5
    rw [← Option.some.inj ha, ← Option.some.inj hx]
    rfl
  · exact nomatch ha

/-- The empty address, with a server for another. -/
theorem connectOk_empty :
    ConnectOk 4 (serverHel .listening 0) (.slot ⟨1, by decide⟩) 0 0x1000 [0, 12, 5]
      fun x => if x = 5 then some [97] else none := by
  have hcur : (serverHel .listening 0).kernel.threads (.slot ⟨1, by decide⟩) =
      some oneThreadOf := rfl
  have hlen : addrLen (serverHel .listening 0).user 0x1000 = 0 := by decide
  have hreq : requested (serverHel .listening 0) 0x1000 = [] := by
    rw [requested, hlen]
    rfl
  refine (connectOk_iff hcur serverHel_searches serverHel_chain (by decide)
    serverHel_bound).mpr ⟨?_, ?_⟩
  · intro x _ hserves
    have hbound := hserves.1
    rw [hreq] at hbound
    dsimp only at hbound
    split at hbound
    · exact absurd (Option.some.inj hbound) (List.cons_ne_nil 97 [])
    · exact nomatch hbound
  · intro x s hfirst _
    -- without bytes to compare the loop gets past every socket
    obtain ⟨_, _, -, -, s', -, ⟨-, hne⟩ | hne⟩ := hfirst
    · exact absurd hlen hne
    · rw [hreq, hlen] at hne
      exact absurd rfl hne

/-- **The server is there, and is not found**: the search reads through the `bind_addr` of
`driver_sockets`, which is null. -/
theorem server_missed :
    StoresBound (serverHel .listening 97) (fun x => if x = 5 then some [97] else none) ∧
    kDriverConnectImpl 4 (serverHel .listening 97) (.slot ⟨1, by decide⟩) 0 0x1000 = .error .wild ∧
    ¬ ConnectOk 4 (serverHel .listening 97) (.slot ⟨1, by decide⟩) 0 0x1000 [0, 12, 5]
      fun x => if x = 5 then some [97] else none := by
  have hwild : kDriverConnectImpl 4 (serverHel .listening 97) (.slot ⟨1, by decide⟩) 0 0x1000 =
      .error .wild := rfl
  exact ⟨serverHel_bound, hwild, fun hok => hok.not_wild hwild⟩

end IonOS.Hel
