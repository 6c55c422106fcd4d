import IonOS.Hel.Stream

/-!
# What a receive reports

`dsocket_recv` and `dsocket_accept_recv` copy as many bytes as there are, up to the
limit, and return the limit. A program that goes by the return value takes for data
what was in its own memory before, whenever fewer bytes were there than it asked for.
-/

namespace IonOS.Hel

open IonOS.Lib IonOS.Libs IonOS.Proc

/-! ## Runs of programs that go by the return value -/

/-- The number of bytes in the buffer of a direction, as the source casts it. -/
def buffered (p : DsocketPair) (d : Direction) : Nat := sizeT (p.pos d)

/-- A call in direction `d`, as far as `ok` lets a send and `enough` a receive. The receiver
appends as many bytes of its buffer as the call returned. -/
inductive ReportOp (c a x : Nat) (ok enough : DsocketPair → Direction → Nat → Prop)
    (d : Direction) : StreamState → StreamState → Prop where
  | send {s : StreamState} {p : DsocketPair} {inp limit ret : Nat} {h' : HelState}
      (hp : s.hel.pairs x = some p) (hok : ok p d limit)
      (h : sendBy c a s.hel inp limit d = .ok (ret, h')) :
      ReportOp c a x ok enough d s
        { s with
          hel := h'
          sent := Function.update s.sent d (s.sent d ++ bytes s.hel.user inp limit) }
  | recv {s : StreamState} {p : DsocketPair} {out limit ret : Nat} {h' : HelState}
      (hp : s.hel.pairs x = some p) (hok : enough p d limit)
      (h : recvBy c a s.hel out limit d = .ok (ret, h')) :
      ReportOp c a x ok enough d s
        { s with
          hel := h'
          received := Function.update s.received d (s.received d ++ bytes h'.user out ret) }

/-- Calls by both ends in any order. In between the programs write their own memory. -/
inductive ReportStep (c a x : Nat) (ok enough : DsocketPair → Direction → Nat → Prop) :
    StreamState → StreamState → Prop where
  | op {s s' : StreamState} (d : Direction) (h : ReportOp c a x ok enough d s s') :
      ReportStep c a x ok enough s s'
  | user {s : StreamState} (u : Mem) :
      ReportStep c a x ok enough s { s with hel := { s.hel with user := u } }

/-- No more is asked for than is there. -/
def Enough (p : DsocketPair) (d : Direction) (limit : Nat) : Prop := limit ≤ buffered p d

variable {c a x out limit ret : Nat} {h h' : HelState} {d : Direction} {p : DsocketPair}
  {s s' : StreamState}

/-! ## One call -/

/-- **A receive stores what is there, and returns the limit.** -/
theorem recvBy_returns (hc : Connected h c a x) (hp : h.pairs x = some p)
    (hr : recvBy c a h out limit d = .ok (ret, h')) :
    ret = limit ∧
      h'.user = memcpyFrom h.user out h.mem (p.buffer d) (min limit (buffered p d)) := by
  rw [recvBy_eq hc hp] at hr
  obtain ⟨rfl, rfl⟩ := Prod.mk.inj (Except.ok.inj hr)
  exact ⟨rfl, rfl⟩

theorem recvBy_reports_iff (hc : Connected h c a x) (hp : h.pairs x = some p)
    (hr : recvBy c a h out limit d = .ok (ret, h')) :
    ret = min limit (buffered p d) ↔ Enough p d limit := by
  obtain ⟨rfl, -⟩ := recvBy_returns hc hp hr
  unfold Enough
  omega

/-! ## Runs -/

/-- With enough there, going by the return value is going by what was stored. -/
theorem streamOp_of_report (hi : StreamInv c a x s p) (hs : ReportOp c a x Fits Enough d s s') :
    StreamOp c a x Fits d s s' := by
  cases hs with
  | send hp hok h => exact .send hp hok h
  | recv hp hok h =>
      obtain rfl := Option.some.inj (hi.pair.symm.trans hp)
      have hret := (recvBy_reports_iff hi.connected hi.pair h).mpr hok
      obtain ⟨n, hn, hsmall⟩ := hi.pos d
      have hpos : buffered p d = (p.pos d).toNat := by
        unfold buffered
        rw [hn, sizeT_natCast (by unfold dsockBuffSize at hsmall; omega), Int.toNat_natCast]
      rw [hpos] at hret
      have hstep : StreamOp c a x Fits d s _ := .recv hi.pair h
      rwa [← hret] at hstep

/-- **Every run that asks for enough is a run of streams.** -/
theorem stream_of_report
    (h : Reachable (StreamStart c a x) (ReportStep c a x Fits Enough) s) :
    Reachable (StreamStart c a x) (StreamStep c a x Fits) s := by
  induction h with
  | init h => exact .init h
  | tail _ h ih =>
    cases h with
    | op d h =>
        obtain ⟨p, hi⟩ := streamInv_reachable ih
        exact ih.tail (.op d (streamOp_of_report hi h))
    | user u => exact ih.tail (.user u)

/-- What was appended so far is a prefix of what was sent, and after one more receive it is so
again if that asked for what is there. -/
theorem prefix_iff (hi : StreamInv c a x s p)
    (hr : recvBy c a s.hel out limit d = .ok (ret, h')) :
    s.received d ++ bytes h'.user out ret <+: s.sent d ↔ Enough p d limit := by
  obtain ⟨n, hn, hsmall⟩ := hi.pos d
  have hstream := hi.stream d
  rw [hn, Int.toNat_natCast] at hstream
  have hbuf : buffered p d = n := by
    unfold buffered
    rw [hn, sizeT_natCast (by unfold dsockBuffSize at hsmall; omega)]
  have hret := (recvBy_returns hi.connected hi.pair hr).1
  constructor
  · -- beyond what is there the program would have more than was sent
    intro hpre
    have hlen := hpre.length_le
    rw [← hstream, List.length_append, List.length_append, length_bytes, length_bytes] at hlen
    unfold Enough
    omega
  · intro henough
    obtain ⟨-, hbytes⟩ := recvBy_spec hi.connected hi.pair hi.buffers hn hsmall hr
    have hmin : min limit n = ret := by
      unfold Enough at henough
      omega
    rw [hmin] at hbytes
    exact ⟨_, by rw [List.append_assoc, hbytes, hstream]⟩

/--
**A receive reports what it delivered exactly when it asked for no more than was there.**

Of any connected pair with any content: the return value is the number of bytes
stored if and only if the limit is at most what is buffered. In every run in which
each send fits and each receive asks for what is there, what the receiver appended is
a prefix of what its peer sent, and stays one if and only if the next receive asks for
what is there.
-/
theorem recv_reports_iff (c a x : Nat) :
    (∀ {h : HelState} {p : DsocketPair}, Connected h c a x → h.pairs x = some p →
      ∀ d out limit ret h', recvBy c a h out limit d = .ok (ret, h') →
        h'.user = memcpyFrom h.user out h.mem (p.buffer d) (min limit (buffered p d)) ∧
        (ret = min limit (buffered p d) ↔ Enough p d limit)) ∧
    ∀ {s : StreamState},
      Reachable (StreamStart c a x) (ReportStep c a x Fits Enough) s →
        (∀ d, s.received d <+: s.sent d) ∧
        ∃ p, s.hel.pairs x = some p ∧ ∀ d out limit ret h',
          recvBy c a s.hel out limit d = .ok (ret, h') →
            (s.received d ++ bytes h'.user out ret <+: s.sent d ↔ Enough p d limit) := by
  constructor
  · intro h p hc hp d out limit ret h' hr
    exact ⟨(recvBy_returns hc hp hr).2, recvBy_reports_iff hc hp hr⟩
  · intro s hreach
    obtain ⟨p, hi⟩ := streamInv_reachable (stream_of_report hreach)
    exact ⟨fun d => ⟨_, hi.stream d⟩, p, hi.pair, fun d out limit ret h' hr => prefix_iff hi hr⟩

/-- Of two bytes that were sent one is received. Then another one may be asked for, and no more. -/
theorem recv_reports_part : ∃ s, Reachable (StreamStart 1 2 3) (ReportStep 1 2 3 Fits Enough) s ∧
    s.sent .toServer = [1, 1] ∧ s.received .toServer = [1] ∧
    (∃ h', recvBy 1 2 s.hel 0 1 .toServer = .ok (1, h') ∧
      s.received .toServer ++ bytes h'.user 0 1 <+: s.sent .toServer) ∧
    ∃ h', recvBy 1 2 s.hel 0 2 .toServer = .ok (2, h') ∧
      ¬ s.received .toServer ++ bytes h'.user 0 2 <+: s.sent .toServer := by
  have hpair : freshPair.pairs 3 = some ⟨true, 0, 0x10000, 0, 0, 1, 0x20000, 0, 1⟩ := rfl
  have hsend := sendBy_eq streamStart_freshPair.connected hpair 0 2 .toServer
  have hsent : ReportOp 1 2 3 Fits Enough .toServer ⟨freshPair, fun _ => [], fun _ => []⟩ _ :=
    .send hpair (show (0 : Int) + 2 ≤ 4096 by decide) hsend
  have hr1 := (Reachable.init streamStart_freshPair).tail (ReportStep.op .toServer hsent)
  obtain ⟨p, hi⟩ := streamInv_reachable (stream_of_report hr1)
  obtain rfl := Option.some.inj hi.pair
  have hrecv := recvBy_eq hi.connected hi.pair 0 1 .toServer
  have hgot : ReportOp 1 2 3 Fits Enough .toServer _ _ :=
    .recv hi.pair (show Enough _ .toServer 1 from (by decide : 1 ≤ 2)) hrecv
  have hr2 := hr1.tail (ReportStep.op .toServer hgot)
  obtain ⟨q, hq⟩ := streamInv_reachable (stream_of_report hr2)
  have hleft : buffered q .toServer = 1 := by
    obtain rfl := Option.some.inj hq.pair
    rfl
  obtain ⟨-, p, hp, hiff⟩ := (recv_reports_iff 1 2 3).2 hr2
  obtain rfl := Option.some.inj (hp.symm.trans hq.pair)
  have hone := recvBy_eq hq.connected hq.pair 0 1 .toServer
  have htwo := recvBy_eq hq.connected hq.pair 0 2 .toServer
  refine ⟨_, hr2, rfl, rfl, ⟨_, hone, ?_⟩, _, htwo, fun hpre => ?_⟩
  · exact (hiff _ _ _ _ _ hone).mpr (Nat.le_of_eq hleft.symm)
  · have henough : 2 ≤ buffered p .toServer := (hiff _ _ _ _ _ htwo).mp hpre
    omega

/-- **Bytes nobody sent**: from an empty buffer, one byte is asked for and reported. -/
theorem recv_overreports :
    ∃ s, Reachable (StreamStart 1 2 3) (ReportStep 1 2 3 Fits fun _ _ _ => True) s ∧
      (∃ h', recvBy 1 2 freshPair 0 1 .toServer = .ok (1, h')) ∧
      s.sent .toServer = [] ∧ s.received .toServer = [1] ∧
      ¬ s.received .toServer <+: s.sent .toServer := by
  have hpair : freshPair.pairs 3 = some ⟨true, 0, 0x10000, 0, 0, 1, 0x20000, 0, 1⟩ := rfl
  have hr := recvBy_eq streamStart_freshPair.connected hpair 0 1 .toServer
  have hop : ReportOp 1 2 3 Fits (fun _ _ _ => True) .toServer
      ⟨freshPair, fun _ => [], fun _ => []⟩ _ := .recv hpair trivial hr
  refine ⟨_, (Reachable.init streamStart_freshPair).tail (.op .toServer hop), ⟨_, hr⟩, rfl, rfl, ?_⟩
  intro hpre
  exact absurd hpre.length_le (by decide)

end IonOS.Hel
