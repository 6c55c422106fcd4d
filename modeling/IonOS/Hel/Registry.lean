import IonOS.Hel.Handle
import IonOS.Lib.Runs

/-!
# The list of all sockets

`driver_sockets` is the head of a list that every new socket is put at the end of.
The end is found by following `next`, and the new socket's own `next` is not set.
The socket is in the list before its file goes into the table of the caller, and it
stays there when the table is full.
-/

namespace IonOS.Hel

open IonOS.Lib IonOS.Libs IonOS.Proc

/-! ## The registry -/

/-- Some thread has the socket `x` in its table. -/
def InSomeTable (h : HelState) (x : Nat) : Prop :=
  ∃ p t i fd hd, h.kernel.threads p = some t ∧ InTable h t i ∧ tableEntry h t i = some fd ∧
    h.handles (h.kernel.fdInfos fd) = some hd ∧ hd.socket = x

/-- The list is what it is for. Numbers of heap objects go up, so the order of creation is theirs. -/
structure RegistryOk (h : HelState) : Prop where
  /-- Following `next` visits every socket once, in the order of creation, and ends. -/
  list : ∃ l, Chain h.sockets (·.next) (some driverSockets) l ∧ l.Pairwise (· < ·) ∧
    ∀ x, (h.sockets x).isSome → x ∈ l
  /-- Every socket is in a table. -/
  reached : ∀ x, (h.sockets x).isSome → x ≠ driverSockets → InSomeTable h x

/-- Objects have been allocated before they are used. -/
structure Allocated (h : HelState) : Prop where
  sockets : ∀ x, (h.sockets x).isSome → x < h.kernel.next
  handles : ∀ x hd, h.handles x = some hd → hd.socket < h.kernel.next
  files : ∀ arr i fd, h.kernel.fds arr i = some fd →
    fd < h.kernel.next ∧ h.kernel.fdInfos fd < h.kernel.next


variable {fuel handleId x : Nat} {new : Malloc} {h h' : HelState} {cur : ThreadPtr} {t : Thread}
  {op : Op} {s : Dsocket} {st : Status}

theorem InSomeTable.kept (hk : Kept h h') (hx : InSomeTable h x) : InSomeTable h' x := by
  obtain ⟨p, t, i, fd, hd, hp, hi, he, hh, hsock⟩ := hx
  have hmap := hk.handles (h.kernel.fdInfos fd)
  rw [hh, Option.map_some] at hmap
  obtain ⟨hd', hhd', he'⟩ := Option.map_eq_some_iff.mp hmap
  refine ⟨p, t, i, fd, hd', ?_, (hk.inTable t i).mpr hi, ?_, ?_, he'.trans hsock⟩
  · rw [hk.threads, hp]
  · rw [hk.tableEntry, he]
  · rw [hk.fdInfos, hhd']

theorem RegistryOk.kept (hi : RegistryOk h) (hk : Kept h h') : RegistryOk h' := by
  obtain ⟨l, hl, hsorted, hall⟩ := hi.list
  refine ⟨⟨l, hl.congr fun x _ => hk.next x, hsorted, fun x hx => ?_⟩, fun x hx hne => ?_⟩
  · rw [hk.isSome] at hx
    exact hall x hx
  · rw [hk.isSome] at hx
    exact (hi.reached x hx hne).kept hk

theorem Allocated.kept (ha : Allocated h) (hk : Kept h h') : Allocated h' := by
  have hfresh := hk.fresh
  refine ⟨fun x hx => ?_, fun x hd hx => ?_, fun arr i fd he => ?_⟩
  · rw [hk.isSome] at hx
    exact Nat.lt_of_lt_of_le (ha.sockets x hx) hfresh
  · have hmap := hk.handles x
    rw [hx, Option.map_some] at hmap
    obtain ⟨hd', hhd', he'⟩ := Option.map_eq_some_iff.mp hmap.symm
    rw [← he']
    exact Nat.lt_of_lt_of_le (ha.handles x hd' hhd') hfresh
  · rw [hk.fds] at he
    rw [hk.fdInfos]
    have := ha.files arr i fd he
    omega

/-! ## A call that adds a socket -/

/-- The state after a socket has been added, on the way to the end of the list. -/
structure Added (fuel : Nat) (h : HelState) (t : Thread) (op : Op) (s : Dsocket) (h' : HelState) : Prop where
  sockets : ∃ last v, lastSocket (withSocket h op s) fuel driverSockets = .ok last ∧
    (withSocket h op s).sockets last = some v ∧
    h'.sockets = Function.update (Function.update h.sockets (h.kernel.next + 2) (some s)) last
      (some { v with next := some (h.kernel.next + 2) })
  handles : h'.handles = Function.update h.handles (h.kernel.next + 1) (some ⟨op, h.kernel.next + 2⟩)
  threads : h'.kernel.threads = h.kernel.threads
  files : h'.kernel.files = h.kernel.files
  fdInfos : h'.kernel.fdInfos = Function.update h.kernel.fdInfos h.kernel.next (h.kernel.next + 1)
  next : h'.kernel.next = h.kernel.next + 3
  /-- The file goes into a free entry, -/
  free : HasFree h t → ∃ i, InTable h t i ∧ tableEntry h t i = none ∧
    h'.kernel.fds = Function.update h.kernel.fds (h.kernel.files t.fileInfo).fds
      (Function.update (h.kernel.fds (h.kernel.files t.fileInfo).fds) i (some h.kernel.next))
  /-- if there is one. -/
  full : ¬ HasFree h t → h'.kernel.fds = h.kernel.fds

theorem addSocket_spec (hok : addSocket fuel h t op s = .ok (st, h')) : Added fuel h t op s h' := by
  obtain ⟨last, v, hlast, hv, -, rfl⟩ := addSocket_ok hok
  rcases addFdInfo_cases (withSocket h op s).kernel t h.kernel.next with
    ⟨i, hlt, hnone, he⟩ | ⟨hfull, he⟩
  · have hin : InTable h t i := by
      have hlt : i < (h.kernel.files t.fileInfo).maxFdCount.toNat := hlt
      unfold InTable
      omega
    rw [he]
    refine ⟨⟨last, v, hlast, hv, rfl⟩, rfl, rfl, rfl, rfl, rfl, fun _ => ⟨i, hin, hnone, rfl⟩, ?_⟩
    exact fun hfull => absurd ⟨i, hin, hnone⟩ hfull
  · rw [he]
    refine ⟨⟨last, v, hlast, hv, rfl⟩, rfl, rfl, rfl, rfl, rfl, ?_, fun _ => rfl⟩
    intro ⟨i, hin, hnone⟩
    have hlt : i < (h.kernel.files t.fileInfo).maxFdCount.toNat := by
      unfold InTable at hin
      omega
    exact absurd hnone (hfull i hlt)

theorem Added.allocated (hd : Added fuel h t op s h') (ha : Allocated h) : Allocated h' := by
  obtain ⟨last, v, -, hv, hsockets⟩ := hd.sockets
  have hlast : last < h.kernel.next + 3 := by
    have hv : Function.update h.sockets (h.kernel.next + 2) (some s) last = some v := hv
    by_cases hx : last = h.kernel.next + 2
    · omega
    · rw [Function.update_of_ne hx] at hv
      have := ha.sockets last (by rw [hv]; rfl)
      omega
  refine ⟨fun x hx => ?_, fun x hdl hx => ?_, fun arr i fd he => ?_⟩
  · rw [hd.next]
    rw [hsockets] at hx
    by_cases hxl : x = last
    · omega
    · rw [Function.update_of_ne hxl] at hx
      by_cases hxn : x = h.kernel.next + 2
      · omega
      · rw [Function.update_of_ne hxn] at hx
        have := ha.sockets x hx
        omega
  · rw [hd.next]
    rw [hd.handles] at hx
    by_cases hxn : x = h.kernel.next + 1
    · rw [hxn, Function.update_self] at hx
      rw [← Option.some.inj hx]
      dsimp only
      omega
    · rw [Function.update_of_ne hxn] at hx
      have := ha.handles x hdl hx
      omega
  · have hold : h.kernel.fds arr i = some fd ∨ fd = h.kernel.next := by
      by_cases hfree : HasFree h t
      · obtain ⟨j, -, -, hfds⟩ := hd.free hfree
        rw [hfds] at he
        by_cases harr : arr = (h.kernel.files t.fileInfo).fds
        · rw [harr, Function.update_self] at he
          by_cases hij : i = j
          · rw [hij, Function.update_self] at he
            exact .inr (Option.some.inj he).symm
          · rw [Function.update_of_ne hij] at he
            exact .inl (harr ▸ he)
        · rw [Function.update_of_ne harr] at he
          exact .inl he
      · rw [hd.full hfree] at he
        exact .inl he
    rw [hd.next, hd.fdInfos]
    rcases hold with hold | rfl
    · have := ha.files arr i fd hold
      rw [Function.update_of_ne (by omega)]
      omega
    · rw [Function.update_self]
      omega

/-- What a thread had in its table it still has. -/
theorem Added.keeps (hd : Added fuel h t op s h') (ha : Allocated h) (hx : InSomeTable h x) :
    InSomeTable h' x := by
  obtain ⟨p, u, i, fd, hdl, hp, hi, he, hh, hsock⟩ := hx
  obtain ⟨hfd, hinfo⟩ := ha.files _ i fd he
  refine ⟨p, u, i, fd, hdl, ?_, ?_, ?_, ?_, hsock⟩
  · rw [hd.threads, hp]
  · unfold InTable
    rw [hd.files]
    exact hi
  · unfold tableEntry
    rw [hd.files]
    by_cases hfree : HasFree h t
    · obtain ⟨j, -, hnone, hfds⟩ := hd.free hfree
      rw [hfds]
      by_cases harr : (h.kernel.files u.fileInfo).fds = (h.kernel.files t.fileInfo).fds
      · -- the entry that is filled was empty
        have hij : i ≠ j := by
          rintro rfl
          rw [tableEntry, harr] at he
          exact nomatch he.symm.trans hnone
        rw [harr, Function.update_self, Function.update_of_ne hij, ← harr]
        exact he
      · rw [Function.update_of_ne harr]
        exact he
    · rw [hd.full hfree]
      exact he
  · have hsame : h'.kernel.fdInfos fd = h.kernel.fdInfos fd := by
      rw [hd.fdInfos, Function.update_of_ne (by omega)]
    rw [hsame, hd.handles, Function.update_of_ne (by omega)]
    exact hh

/-- The list goes on with the new socket, if that is where it ends. -/
theorem Added.list (hd : Added fuel h t op s h') (ha : Allocated h) (hi : RegistryOk h)
    (hnext : s.next = none) : ∃ l, Chain h'.sockets (·.next) (some driverSockets) l ∧
      l.Pairwise (· < ·) ∧ ∀ x, (h'.sockets x).isSome → x ∈ l := by
  obtain ⟨l, hl, hsorted, hall⟩ := hi.list
  obtain ⟨last, v, hwalk, hv, hsockets⟩ := hd.sockets
  have hbelow : ∀ z ∈ l, z < h.kernel.next := by
    intro z hz
    obtain ⟨w, hw⟩ := hl.mem hz
    exact ha.sockets z (by rw [hw]; rfl)
  have hnew : ∀ z ∈ l, (withSocket h op s).sockets z = h.sockets z := by
    intro z hz
    have := hbelow z hz
    exact Function.update_of_ne (by omega) ..
  obtain ⟨l', rfl⟩ := lastSocket_ok (hl.congr fun z hz => by rw [hnew z hz]) hwalk
  have hlast : last < h.kernel.next := hbelow last (by simp)
  have hvlast : h'.sockets last = some { v with next := some (h.kernel.next + 2) } := by
    rw [hsockets, Function.update_self]
  have hx : h'.sockets (h.kernel.next + 2) = some s := by
    rw [hsockets, Function.update_of_ne (by omega), Function.update_self]
  refine ⟨l' ++ last :: [h.kernel.next + 2], hl.append (fun z hz => ?_) hvlast ?_, ?_, fun z hz => ?_⟩
  · have hne : z ≠ last := by
      rintro rfl
      exact List.disjoint_of_nodup_append hl.nodup hz (by simp)
    have := hbelow z (by simp [hz])
    rw [hsockets, Function.update_of_ne hne, Function.update_of_ne (by omega)]
  · refine .cons hx ?_
    rw [hnext]
    exact .nil
  · rw [show l' ++ last :: [h.kernel.next + 2] = (l' ++ [last]) ++ [h.kernel.next + 2] by simp,
      List.pairwise_append]
    refine ⟨hsorted, List.pairwise_singleton _ _, fun y hy z hz => ?_⟩
    obtain rfl := List.mem_singleton.mp hz
    have := hbelow y hy
    omega
  · rw [hsockets] at hz
    by_cases hzl : z = last
    · simp [hzl]
    · rw [Function.update_of_ne hzl] at hz
      by_cases hzn : z = h.kernel.next + 2
      · simp [hzn]
      · rw [Function.update_of_ne hzn] at hz
        have := hall z hz
        simp only [List.mem_append, List.mem_singleton] at this
        rcases this with h | h
        · simp [h]
        · exact absurd h hzl

/-- **Adding a socket** keeps the registry if and only if the memory for it ends the list and its file
finds a place. -/
theorem registryOk_added (hi : RegistryOk h) (ha : Allocated h) (hcur : h.kernel.threads cur = some t)
    (hd : Added fuel h t op s h') : RegistryOk h' ↔ s.next = none ∧ HasFree h t := by
  obtain ⟨last, v, hwalk, hv, hsockets⟩ := hd.sockets
  have ha' := hd.allocated ha
  constructor
  · intro hok
    obtain ⟨l, hl, hsorted, hall⟩ := hok.list
    -- the walk cannot have come to the new socket, which would then follow itself
    have hlast : last ≠ h.kernel.next + 2 := by
      rintro rfl
      have hx : h'.sockets (h.kernel.next + 2) = some { v with next := some (h.kernel.next + 2) } := by
        rw [hsockets, Function.update_self]
      obtain ⟨a, b, rfl⟩ := List.append_of_mem (hall _ (by rw [hx]; rfl))
      cases hl.drop with
      | cons hx' hb =>
          obtain rfl := Option.some.inj (hx.symm.trans hx')
          obtain ⟨r, rfl⟩ := hb.head
          have := (List.pairwise_cons.mp (List.pairwise_append.mp hsorted).2.1).1 _ List.mem_cons_self
          exact absurd this (Nat.lt_irrefl _)
    have hx : h'.sockets (h.kernel.next + 2) = some s := by
      rw [hsockets, Function.update_of_ne hlast.symm, Function.update_self]
    refine ⟨?_, ?_⟩
    · obtain ⟨a, b, rfl⟩ := List.append_of_mem (hall _ (by rw [hx]; rfl))
      have hdrop := hl.drop
      cases hdrop with
      | cons hx' hb =>
          obtain rfl := Option.some.inj (hx.symm.trans hx')
          cases hn : s.next with
          | none => rfl
          | some y =>
              -- it would be followed by a socket that was created later
              rw [hn] at hb
              obtain ⟨r, rfl⟩ := hb.head
              have hlt := (List.pairwise_cons.mp (List.pairwise_append.mp hsorted).2.1).1 y
                List.mem_cons_self
              obtain ⟨w, hw⟩ := hb.mem List.mem_cons_self
              have := ha'.sockets y (by rw [hw]; rfl)
              rw [hd.next] at this
              omega
    · by_contra hfull
      obtain ⟨p, u, i, fd, hdl, -, -, he, hh, hsock⟩ := hok.reached _ (by rw [hx]; rfl)
        (by unfold driverSockets; omega)
      unfold tableEntry at he
      rw [hd.full hfull] at he
      obtain ⟨hfd, hinfo⟩ := ha.files _ _ _ he
      rw [hd.fdInfos, Function.update_of_ne (by omega), hd.handles, Function.update_of_ne (by omega)]
        at hh
      have := ha.handles _ _ hh
      omega
  · rintro ⟨hnext, hfree⟩
    refine ⟨hd.list ha hi hnext, fun x hx hne => ?_⟩
    by_cases hxn : x = h.kernel.next + 2
    · obtain ⟨i, hin, -, hfds⟩ := hd.free hfree
      refine ⟨cur, t, i, h.kernel.next, ⟨op, h.kernel.next + 2⟩, ?_, ?_, ?_, ?_, hxn.symm⟩
      · rw [hd.threads, hcur]
      · unfold InTable
        rw [hd.files]
        exact hin
      · unfold tableEntry
        rw [hd.files, hfds, Function.update_self, Function.update_self]
      · rw [hd.fdInfos, Function.update_self, hd.handles, Function.update_self]
    · refine hd.keeps ha (hi.reached x ?_ hne)
      rw [hsockets] at hx
      by_cases hxl : x = last
      · rw [hxl]
        have hv : Function.update h.sockets (h.kernel.next + 2) (some s) last = some v := hv
        rw [Function.update_of_ne (hxl ▸ hxn)] at hv
        rw [hv]
        rfl
      · rwa [Function.update_of_ne hxl, Function.update_of_ne hxn] at hx

/-! ## Runs -/

/-- The calls that may add a socket; an accept that waited is resumed. -/
inductive AddCall where
  | cskt (cur : ThreadPtr) (flags : Nat)
  | accept (cur : ThreadPtr) (handleId flags : Nat)
  | resume (cur : ThreadPtr) (dsock flags : Nat)

namespace AddCall

def run (fuel : Nat) (new : Malloc) (h : HelState) : AddCall → Except Fault (Status × HelState)
  | cskt cur flags => kDriverCsktImpl fuel new h cur flags
  | accept cur handleId flags => kDriverAcceptImpl fuel new h cur handleId flags
  | resume cur dsock flags => resumeAccept fuel new h cur dsock flags

def caller : AddCall → ThreadPtr
  | cskt cur _ => cur
  | accept cur _ _ => cur
  | resume cur _ _ => cur

/-- What has been waiting. -/
def waited : AddCall → List Status
  | resume cur dsock flags => [.accepting cur dsock flags]
  | _ => []

/-- The call adds a socket: an accept does if it does not have to wait. -/
def Adds (h : HelState) : AddCall → Prop
  | cskt _ _ => True
  | accept cur handleId _ => ∃ t fd hd s, h.kernel.threads cur = some t ∧
      tableEntry h t handleId = some fd ∧ h.handles (h.kernel.fdInfos fd) = some hd ∧
      h.sockets hd.socket = some s ∧ s.connCurr ≠ 0
  | resume _ dsock _ => ∃ s, h.sockets dsock = some s ∧ s.connCurr ≠ 0

/-- The memory for a socket that is added ends the list, and the caller has a free entry for it. -/
def Safe (h : HelState) (new : Malloc) (c : AddCall) : Prop :=
  c.Adds h → new.socket.next = none ∧ ∃ t, h.kernel.threads c.caller = some t ∧ HasFree h t

end AddCall

/-- The call leaves the registry as it should be, and with a full table it does nothing. -/
structure AddOk (h : HelState) (c : AddCall) (h' : HelState) : Prop where
  registry : RegistryOk h'
  full : (∀ t, h.kernel.threads c.caller = some t → ¬ HasFree h t) →
    h'.sockets = h.sockets ∧ h'.pairs = h.pairs

/-- The sockets, and the calls that wait. -/
structure RegistryState where
  hel : HelState
  waiting : List Status

/-- What there is to resume after a call. -/
def Status.pending : Status → List Status
  | .done _ => []
  | st => [st]

/-- Calls by any threads in any order; those that may add a socket as far as `ok` lets them. -/
inductive RegistryStep (ok : HelState → Malloc → AddCall → Prop) :
    RegistryState → RegistryState → Prop where
  | add {s : RegistryState} {fuel : Nat} {new : Malloc} {c : AddCall} {st : Status} {h' : HelState}
      (hok : ok s.hel new c) (hwait : c.waited ⊆ s.waiting) (h : c.run fuel new s.hel = .ok (st, h')) :
      RegistryStep ok s ⟨h', st.pending ++ s.waiting.diff c.waited⟩
  | call {s : RegistryState} {fuel handleId : Nat} {new : Malloc} {cur : ThreadPtr}
      {call : HandleCall} {st : Status} {h' : HelState} (hcall : ∀ flags, call ≠ .accept flags)
      (h : call.start fuel new s.hel cur handleId = .ok (st, h')) :
      RegistryStep ok s ⟨h', st.pending ++ s.waiting⟩
  | connect {s : RegistryState} {handle dsock d pair : Nat} {st : Status} {h' : HelState}
      (hwait : .connecting handle dsock d pair ∈ s.waiting)
      (h : resumeConnect s.hel handle dsock d pair = .ok (st, h')) :
      RegistryStep ok s ⟨h', st.pending ++ s.waiting.erase (.connecting handle dsock d pair)⟩
  | user {s : RegistryState} (u : Mem) :
      RegistryStep ok s { s with hel := { s.hel with user := u } }

/-- No socket yet, but the head of the list. -/
structure RegistryStart (s : RegistryState) : Prop where
  head : ∃ d, s.hel.sockets driverSockets = some d ∧ d.next = none
  sockets : ∀ x, x ≠ driverSockets → s.hel.sockets x = none
  handles : ∀ x, s.hel.handles x = none
  fds : ∀ arr i, s.hel.kernel.fds arr i = none
  next : 0 < s.hel.kernel.next
  waiting : s.waiting = []

variable {c : AddCall} {r r' : RegistryState}

/-- A call that may add a socket does nothing, or adds one. -/
theorem AddCall.run_ok (hok : c.run fuel new h = .ok (st, h')) :
    (¬ c.Adds h ∧ h' = h) ∨ (c.Adds h ∧ ∃ h₁ t op s, Kept h h₁ ∧
      h₁.kernel.threads c.caller = some t ∧ Added fuel h₁ t op s h' ∧
      s.next = new.socket.next) := by
  have hresume : ∀ cur dsock flags, resumeAccept fuel new h cur dsock flags = .ok (st, h') →
      ∃ s, h.sockets dsock = some s ∧ ((s.connCurr = 0 ∧ h' = h) ∨
        (s.connCurr ≠ 0 ∧ ∃ h₁ t op s, Kept h h₁ ∧ h₁.kernel.threads cur = some t ∧
          Added fuel h₁ t op s h' ∧ s.next = new.socket.next)) := by
    intro cur dsock flags hok
    obtain ⟨s, hs, ⟨hzero, -, rfl⟩ | ⟨hne, t, x, p, s', ht, -, -, hdeq, hadd⟩⟩ := resumeAccept_ok hok
    · exact ⟨s, hs, .inl ⟨hzero, rfl⟩⟩
    · let h₁ := (h.setPair x (acceptedPair new p)).setSocket dsock s'
      refine ⟨s, hs, .inr ⟨hne, h₁, t, _, _, ?_, ht, addSocket_spec hadd, rfl⟩⟩
      have hpair : Kept h (h.setPair x (acceptedPair new p)) :=
        kept_of_eq rfl rfl rfl rfl rfl rfl (Nat.le_refl _)
      have hs₁ : (h.setPair x (acceptedPair new p)).sockets dsock = some s := hs
      exact hpair.trans (kept_setSocket hs₁ (dequeue_ok hdeq))
  cases c with
  | cskt cur flags =>
      obtain ⟨t, ht, hadd⟩ := bind_ok hok
      exact .inr ⟨trivial, h, t, _, _, .refl h, deref_ok ht, addSocket_spec hadd, rfl⟩
  | resume cur dsock flags =>
      obtain ⟨s, hs, ⟨hzero, rfl⟩ | ⟨hne, h₁, t, op, s', hadd⟩⟩ := hresume cur dsock flags hok
      · refine .inl ⟨fun ⟨s', hs', hne⟩ => hne ?_, rfl⟩
        rw [Option.some.inj (hs'.symm.trans hs), hzero]
      · exact .inr ⟨⟨s, hs, hne⟩, h₁, t, op, s', hadd⟩
  | accept cur handleId flags =>
      obtain ⟨t, ht, -, ⟨-, rfl, hnone⟩ | ⟨fd, hd, hentry, hhd, hok⟩⟩ := withHandle_ok hok
      · refine .inl ⟨fun ⟨t', fd, _, _, ht', he, _⟩ => ?_, rfl⟩
        obtain rfl := Option.some.inj (ht.symm.trans ht')
        exact nomatch hnone.symm.trans he
      · obtain ⟨s, hs, ⟨hzero, rfl⟩ | ⟨hne, h₁, t', op, s', hadd⟩⟩ := hresume cur hd.socket flags hok
        · refine .inl ⟨fun ⟨t', fd', hd', s', ht', he, hh, hs', hne⟩ => hne ?_, rfl⟩
          obtain rfl := Option.some.inj (ht.symm.trans ht')
          obtain rfl := Option.some.inj (hentry.symm.trans he)
          obtain rfl := Option.some.inj (hhd.symm.trans hh)
          rw [Option.some.inj (hs'.symm.trans hs), hzero]
        · exact .inr ⟨⟨t, fd, hd, s, ht, hentry, hhd, hs, hne⟩, h₁, t', op, s', hadd⟩

/-- **One call.** -/
theorem addOk_iff (hi : RegistryOk h) (ha : Allocated h) (hok : c.run fuel new h = .ok (st, h')) :
    Allocated h' ∧ (AddOk h c h' ↔ c.Safe h new) := by
  rcases AddCall.run_ok hok with ⟨hnot, rfl⟩ | ⟨hadds, h₁, t, op, s, hk, ht, hd, hnext⟩
  · exact ⟨ha, iff_of_true ⟨hi, fun _ => ⟨rfl, rfl⟩⟩ fun hadds => absurd hadds hnot⟩
  · refine ⟨hd.allocated (ha.kept hk), ?_⟩
    have hiff := registryOk_added (hi.kept hk) (ha.kept hk) ht hd
    have ht₀ : h.kernel.threads c.caller = some t := by rw [← hk.threads, ht]
    rw [hnext, hk.hasFree] at hiff
    constructor
    · intro hadd _
      obtain ⟨h1, h2⟩ := hiff.mp hadd.registry
      exact ⟨h1, t, ht₀, h2⟩
    · intro hsafe
      obtain ⟨h1, t', ht', h2⟩ := hsafe hadds
      obtain rfl := Option.some.inj (ht₀.symm.trans ht')
      exact ⟨hiff.mpr ⟨h1, h2⟩, fun hfull => absurd h2 (hfull t ht₀)⟩

theorem registry_start (hr : RegistryStart r) : RegistryOk r.hel ∧ Allocated r.hel := by
  obtain ⟨d, hd, hnext⟩ := hr.head
  have honly : ∀ x, (r.hel.sockets x).isSome → x = driverSockets := by
    intro x hx
    by_contra hne
    rw [hr.sockets x hne] at hx
    exact nomatch hx
  refine ⟨⟨⟨[driverSockets], .cons hd ?_, List.pairwise_singleton _ _, fun x hx => ?_⟩, ?_⟩, ?_⟩
  · rw [hnext]
    exact .nil
  · rw [honly x hx]
    exact List.mem_cons_self
  · exact fun x hx hne => absurd (honly x hx) hne
  · refine ⟨fun x hx => ?_, fun x hd hx => ?_, fun arr i fd he => ?_⟩
    · rw [honly x hx]
      exact hr.next
    · rw [hr.handles] at hx
      exact nomatch hx
    · rw [hr.fds] at he
      exact nomatch he

theorem registry_step (hi : RegistryOk r.hel ∧ Allocated r.hel)
    (hs : RegistryStep (fun h new c => c.Safe h new) r r') : RegistryOk r'.hel ∧ Allocated r'.hel := by
  cases hs with
  | add hok _ h =>
      obtain ⟨ha, hiff⟩ := addOk_iff hi.1 hi.2 h
      exact ⟨(hiff.mpr hok).registry, ha⟩
  | call hcall h =>
      have hk := kept_start _ hcall h
      exact ⟨hi.1.kept hk, hi.2.kept hk⟩
  | connect _ h =>
      have hk := kept_resumeConnect h
      exact ⟨hi.1.kept hk, hi.2.kept hk⟩
  | user u =>
      have hk : Kept r.hel { r.hel with user := u } :=
        kept_of_eq rfl rfl rfl rfl rfl rfl (Nat.le_refl _)
      exact ⟨hi.1.kept hk, hi.2.kept hk⟩

theorem registry_reachable
    (h : Reachable RegistryStart (RegistryStep fun h new c => c.Safe h new) r) :
    RegistryOk r.hel ∧ Allocated r.hel := by
  induction h with
  | init h => exact registry_start h
  | tail _ h ih => exact registry_step ih h

/--
**The registry stands exactly as long as memory is clear and tables have room.**

In every run in which the memory for each new socket begins with a null pointer and its
file finds a free entry, the list is right in every state, and the next call that may
add a socket leaves it right, and with a full table does nothing, if and only if the
same goes for that call.
-/
theorem registry_iff (h : Reachable RegistryStart (RegistryStep fun h new c => c.Safe h new) r) :
    RegistryOk r.hel ∧ ∀ fuel new c st h', AddCall.run fuel new r.hel c = .ok (st, h') →
      (AddOk r.hel c h' ↔ c.Safe r.hel new) := by
  obtain ⟨hi, ha⟩ := registry_reachable h
  exact ⟨hi, fun _ _ _ _ _ hok => (addOk_iff hi ha hok).2⟩

theorem registryStart_oneThread : RegistryStart ⟨oneThreadHel, []⟩ :=
  ⟨⟨_, rfl, rfl⟩, fun _ hx => if_neg hx, fun _ => rfl, fun _ _ => rfl, show 0 < 2 by decide, rfl⟩

/-- A socket is made, and then another. -/
theorem registry_twoSockets : ∃ h' h'',
    kDriverCsktImpl 1 clearMalloc oneThreadHel (.slot ⟨1, by decide⟩) 0 = .ok (.done 0, h') ∧
    kDriverCsktImpl 2 clearMalloc h' (.slot ⟨1, by decide⟩) 0 = .ok (.done 1, h'') ∧
    RegistryOk h' ∧ AddOk h' (.cskt (.slot ⟨1, by decide⟩) 0) h'' := by
  let c : AddCall := .cskt (.slot ⟨1, by decide⟩) 0
  obtain ⟨h', h'', hfirst, hsecond, hfree⟩ : ∃ h' h'',
      c.run 1 clearMalloc oneThreadHel = .ok (.done 0, h') ∧
      c.run 2 clearMalloc h' = .ok (.done 1, h'') ∧ c.Safe h' clearMalloc :=
    ⟨_, _, rfl, rfl, fun _ => ⟨rfl, oneThreadOf, rfl, 1, (by decide : (1 : Int) < 32), rfl⟩⟩
  have hsafe : c.Safe oneThreadHel clearMalloc :=
    fun _ => ⟨rfl, oneThreadOf, rfl, 0, (by decide : (0 : Int) < 32), rfl⟩
  have hr : Reachable RegistryStart (RegistryStep fun h new c => c.Safe h new) _ :=
    .tail (.init registryStart_oneThread) (.add hsafe (List.nil_subset _) hfirst)
  obtain ⟨hok, hnext⟩ := registry_iff hr
  exact ⟨h', h'', hfirst, hsecond, hok, (hnext 2 clearMalloc c _ _ hsecond).mpr hfree⟩

/-- **Memory that was in use**: the new socket leads back to the head, and the list has no end. -/
theorem registry_cycle : ∃ h', kDriverCsktImpl 1
      { clearMalloc with socket := { clearMalloc.socket with next := some driverSockets } } oneThreadHel
      (.slot ⟨1, by decide⟩) 0 = .ok (.done 0, h') ∧ ¬ RegistryOk h' := by
  refine ⟨_, rfl, fun hok => ?_⟩
  obtain ⟨l, hl, -⟩ := hok.list
  have hnodup := hl.nodup
  obtain ⟨r, rfl⟩ := hl.head
  cases hl with
  | cons h0 hl =>
      rw [← Option.some.inj h0] at hl
      obtain ⟨r', rfl⟩ := hl.head
      cases hl with
      | cons h4 hl' =>
          rw [← Option.some.inj h4] at hl'
          obtain ⟨r'', rfl⟩ := hl'.head
          simp [driverSockets] at hnodup

end IonOS.Hel
