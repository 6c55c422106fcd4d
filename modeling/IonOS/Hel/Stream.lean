import IonOS.Hel.Dsocket
import IonOS.Lib.Runs

/-!
# The two streams of a pair

A pair has two buffers of 4096 bytes. Each end appends to the one and takes from
the front of the other. As long as what is sent fits, each direction is a stream:
what was taken and what is still there is what was sent. Nothing in the source
checks that it fits.
-/

namespace IonOS.Hel

open IonOS.Lib IonOS.Libs IonOS.Proc

/-! ## Runs -/

/-- Memory for the buffers, as `malloc` gives it. -/
structure Buffers (p : DsocketPair) : Prop where
  below : ∀ d, p.buffer d + dsockBuffSize < 2 ^ 64
  disjoint : ∀ d d', d ≠ d' →
    p.buffer d + dsockBuffSize ≤ p.buffer d' ∨ p.buffer d' + dsockBuffSize ≤ p.buffer d

/-- The sockets `c` of the client and `a` that was accepted share the pair `x`. -/
structure Connected (h : HelState) (c a x : Nat) : Prop where
  client : ∃ s, h.sockets c = some s ∧ s.pair = some x
  accepted : ∃ s, h.sockets a = some s ∧ s.pair = some x

/-- A send by the end that sends in direction `d`. -/
def sendBy (c a : Nat) (h : HelState) (inp limit : Nat) : Direction → Except Fault (Nat × HelState)
  | .toServer => dsocketSend h c inp limit
  | .toClient => dsocketAcceptSend h a inp limit

/-- A receive by the other end. -/
def recvBy (c a : Nat) (h : HelState) (out limit : Nat) : Direction → Except Fault (Nat × HelState)
  | .toClient => dsocketRecv h c out limit
  | .toServer => dsocketAcceptRecv h a out limit

/-- The sockets, and all bytes that went in and out. -/
structure StreamState where
  hel : HelState
  sent : Direction → List UInt8
  received : Direction → List UInt8

/-- A call in direction `d`, as far as `ok` lets a send. -/
inductive StreamOp (c a x : Nat) (ok : DsocketPair → Direction → Nat → Prop) (d : Direction) :
    StreamState → StreamState → Prop where
  | send {s : StreamState} {p : DsocketPair} {inp limit ret : Nat} {h' : HelState}
      (hp : s.hel.pairs x = some p) (hok : ok p d limit)
      (h : sendBy c a s.hel inp limit d = .ok (ret, h')) :
      StreamOp c a x ok d s
        { s with
          hel := h'
          sent := Function.update s.sent d (s.sent d ++ bytes s.hel.user inp limit) }
  | recv {s : StreamState} {p : DsocketPair} {out limit ret : Nat} {h' : HelState}
      (hp : s.hel.pairs x = some p) (h : recvBy c a s.hel out limit d = .ok (ret, h')) :
      StreamOp c a x ok d s
        { s with
          hel := h'
          received := Function.update s.received d
            (s.received d ++ bytes h'.user out (min limit (p.pos d).toNat)) }

/-- Calls by both ends in any order. In between the programs write their own memory. -/
inductive StreamStep (c a x : Nat) (ok : DsocketPair → Direction → Nat → Prop) :
    StreamState → StreamState → Prop where
  | op {s s' : StreamState} (d : Direction) (h : StreamOp c a x ok d s s') :
      StreamStep c a x ok s s'
  | user {s : StreamState} (u : Mem) :
      StreamStep c a x ok s { s with hel := { s.hel with user := u } }

/-- The pair after `k_driver_accept_impl`. -/
structure StreamStart (c a x : Nat) (s : StreamState) : Prop where
  connected : Connected s.hel c a x
  pair : ∃ p, s.hel.pairs x = some p ∧ Buffers p ∧ ∀ d, p.pos d = 0
  sent : ∀ d, s.sent d = []
  received : ∀ d, s.received d = []

/-- What is sent fits into the rest of the buffer. -/
def Fits (p : DsocketPair) (d : Direction) (limit : Nat) : Prop :=
  p.pos d + limit ≤ dsockBuffSize

/-! ## One call -/

variable {c a x inp out limit ret n : Nat} {h h' : HelState} {d d' : Direction} {p p' : DsocketPair}
  {s s' : StreamState}

theorem Buffers.setPos (hb : Buffers p) (i : Int) (d : Direction) : Buffers (p.setPos i d) := by
  refine ⟨fun e => ?_, fun e e' => ?_⟩
  · rw [buffer_setPos]
    exact hb.below e
  · rw [buffer_setPos, buffer_setPos]
    exact hb.disjoint e e'

theorem index_eq (hb : Buffers p) (hn : n ≤ dsockBuffSize) : index (p.buffer d) n = p.buffer d + n := by
  have := hb.below d
  unfold index
  rw [sizeT_natCast (by unfold dsockBuffSize at *; omega), addW_of_lt (by omega)]

/-- The sockets of a pair keep it. -/
theorem Connected.congr (hc : Connected h c a x) (hs : h'.sockets = h.sockets) :
    Connected h' c a x := by
  refine ⟨?_, ?_⟩
  · rw [hs]
    exact hc.client
  · rw [hs]
    exact hc.accepted

theorem sendBy_eq (hc : Connected h c a x) (hp : h.pairs x = some p) (inp limit : Nat)
    (d : Direction) : sendBy c a h inp limit d = .ok (limit,
      (h.setMem (memcpyFrom h.mem (index (p.buffer d) (p.pos d)) h.user inp limit)).setPair x
        (p.setPos (int32 (addW (sizeT (p.pos d)) limit)) d)) := by
  cases d with
  | toServer =>
      obtain ⟨s, hs, hx⟩ := hc.client
      exact sendTo_paired .toServer inp limit hs hx hp
  | toClient =>
      obtain ⟨s, hs, hx⟩ := hc.accepted
      exact sendTo_paired .toClient inp limit hs hx hp

theorem recvBy_eq (hc : Connected h c a x) (hp : h.pairs x = some p) (out limit : Nat)
    (d : Direction) : recvBy c a h out limit d = .ok (limit,
      ({ h with user := memcpyFrom h.user out h.mem (p.buffer d) (min limit (sizeT (p.pos d))) }.setMem
          (memmove h.mem (p.buffer d) (index (p.buffer d) (min limit (sizeT (p.pos d)) : Nat))
            (subW (sizeT (p.pos d)) (min limit (sizeT (p.pos d)))))).setPair x
        (p.setPos (int32 (subW (sizeT (p.pos d)) (min limit (sizeT (p.pos d))))) d)) := by
  cases d with
  | toServer =>
      obtain ⟨s, hs, hx⟩ := hc.accepted
      exact recvFrom_paired .toServer out limit hs hx hp
  | toClient =>
      obtain ⟨s, hs, hx⟩ := hc.client
      exact recvFrom_paired .toClient out limit hs hx hp

/-- **What a call in direction `d` does to the pair**, besides moving bytes: the position of that
direction becomes `n`, and memory changes in that buffer only. -/
structure Moved (h : HelState) (x : Nat) (p : DsocketPair) (d : Direction) (n : Nat) (h' : HelState) :
    Prop where
  sockets : h'.sockets = h.sockets
  pair : h'.pairs x = some (p.setPos n d)
  small : n ≤ dsockBuffSize
  mem : ∀ y, y < p.buffer d ∨ p.buffer d + dsockBuffSize ≤ y → h'.mem y = h.mem y

theorem sendBy_spec (hc : Connected h c a x) (hp : h.pairs x = some p) (hb : Buffers p)
    (hn : p.pos d = n) (hfit : n + limit ≤ dsockBuffSize)
    (hs : sendBy c a h inp limit d = .ok (ret, h')) :
    Moved h x p d (n + limit) h' ∧
      bytes h'.mem (p.buffer d) (n + limit) = bytes h.mem (p.buffer d) n ++ bytes h.user inp limit := by
  have hlt : n + limit < 2 ^ 31 := by unfold dsockBuffSize at hfit; omega
  rw [sendBy_eq hc hp, hn, sizeT_natCast (by omega), addW_of_lt (by omega), int32_of_lt hlt,
    index_eq hb (by omega)] at hs
  obtain ⟨-, rfl⟩ := Prod.mk.inj (Except.ok.inj hs)
  refine ⟨⟨rfl, Function.update_self .., hfit, fun y hy => memcpyFrom_other (by omega)⟩, ?_⟩
  rw [bytes_append]
  congr 1
  · exact bytes_congr fun i hi => memcpyFrom_other (by omega)
  · exact bytes_congr fun i hi => memcpyFrom_inside hi

theorem recvBy_spec (hc : Connected h c a x) (hp : h.pairs x = some p) (hb : Buffers p)
    (hn : p.pos d = n) (hsmall : n ≤ dsockBuffSize)
    (hr : recvBy c a h out limit d = .ok (ret, h')) :
    Moved h x p d (n - min limit n) h' ∧
      bytes h'.user out (min limit n) ++ bytes h'.mem (p.buffer d) (n - min limit n) =
        bytes h.mem (p.buffer d) n := by
  have hlt : n < 2 ^ 31 := by unfold dsockBuffSize at hsmall; omega
  have hmin : min limit n ≤ n := Nat.min_le_right _ _
  rw [recvBy_eq hc hp, hn, sizeT_natCast (by omega), subW_of_le hmin (by omega),
    int32_of_lt (by omega), index_eq hb (by omega)] at hr
  obtain ⟨-, rfl⟩ := Prod.mk.inj (Except.ok.inj hr)
  refine ⟨⟨rfl, Function.update_self .., by omega, fun y hy => ?_⟩, ?_⟩
  · exact memmove_other (by omega)
  · -- the bytes that go out, and the rest, which moves to the front
    have hout : bytes (memcpyFrom h.user out h.mem (p.buffer d) (min limit n)) out (min limit n) =
        bytes h.mem (p.buffer d) (min limit n) :=
      bytes_congr fun i hi => memcpyFrom_inside hi
    have hrest : bytes (memmove h.mem (p.buffer d) (p.buffer d + min limit n) (n - min limit n))
        (p.buffer d) (n - min limit n) =
          bytes h.mem (p.buffer d + min limit n) (n - min limit n) :=
      bytes_congr fun i hi => memmove_inside hi
    have hsplit := bytes_append h.mem (p.buffer d) (min limit n) (n - min limit n)
    rw [Nat.add_sub_cancel' hmin] at hsplit
    rw [hsplit, ← hout, ← hrest]
    rfl

/-- The buffer of the other direction is not touched. -/
theorem Moved.other (hm : Moved h x p d n h') (hb : Buffers p) (hd : d' ≠ d) {k : Nat}
    (hk : k ≤ dsockBuffSize) : bytes h'.mem (p.buffer d') k = bytes h.mem (p.buffer d') k :=
  bytes_congr fun i hi => hm.mem _ (by have := hb.disjoint d' d hd; omega)

/-! ## Integrity -/

/-- What holds in every run in which what is sent fits. -/
structure StreamInv (c a x : Nat) (s : StreamState) (p : DsocketPair) : Prop where
  connected : Connected s.hel c a x
  pair : s.hel.pairs x = some p
  buffers : Buffers p
  /-- Positions are within the buffers. -/
  pos : ∀ d, ∃ n : Nat, p.pos d = n ∧ n ≤ dsockBuffSize
  /-- Nothing is lost, doubled or out of order. -/
  stream : ∀ d, s.received d ++ bytes s.hel.mem (p.buffer d) (p.pos d).toNat = s.sent d

theorem streamInv_start (h : StreamStart c a x s) : ∃ p, StreamInv c a x s p := by
  obtain ⟨p, hp, hb, hpos⟩ := h.pair
  refine ⟨p, h.connected, hp, hb, fun d => ⟨0, hpos d, Nat.zero_le _⟩, fun d => ?_⟩
  rw [h.sent, h.received, hpos]
  rfl

/-- A call that moves bytes of one direction as it should keeps the invariant. -/
theorem streamInv_moved (hi : StreamInv c a x s p) (hm : Moved s.hel x p d n s'.hel)
    (hsent : ∀ d' ≠ d, s'.sent d' = s.sent d')
    (hreceived : ∀ d' ≠ d, s'.received d' = s.received d')
    (hstream : s'.received d ++ bytes s'.hel.mem (p.buffer d) n = s'.sent d) :
    StreamInv c a x s' (p.setPos n d) := by
  refine ⟨hi.connected.congr hm.sockets, hm.pair, hi.buffers.setPos n d, fun d' => ?_, fun d' => ?_⟩
  · rw [pos_setPos]
    split
    · exact ⟨n, rfl, hm.small⟩
    · exact hi.pos d'
  · rw [pos_setPos, buffer_setPos]
    by_cases hd : d' = d
    · rw [if_pos hd, hd]
      exact hstream
    · obtain ⟨k, hk, hsmall⟩ := hi.pos d'
      rw [if_neg hd, hsent d' hd, hreceived d' hd, hm.other hi.buffers hd (by omega)]
      exact hi.stream d'

theorem streamOp_spec (hi : StreamInv c a x s p) (hs : StreamOp c a x Fits d s s') :
    ∃ n, Moved s.hel x p d n s'.hel ∧ StreamInv c a x s' (p.setPos n d) := by
  obtain ⟨n, hn, hsmall⟩ := hi.pos d
  have hstream := hi.stream d
  rw [hn, Int.toNat_natCast] at hstream
  cases hs with
  | send hp hok h =>
      obtain rfl := Option.some.inj (hi.pair.symm.trans hp)
      rw [Fits, hn] at hok
      obtain ⟨hm, hbytes⟩ := sendBy_spec hi.connected hi.pair hi.buffers hn (by omega) h
      refine ⟨_, hm, streamInv_moved hi hm ?_ (fun _ _ => rfl) ?_⟩
      · intro d' hd
        exact Function.update_of_ne hd ..
      · dsimp only
        rw [Function.update_self, hbytes, ← hstream, List.append_assoc]
  | recv hp h =>
      obtain rfl := Option.some.inj (hi.pair.symm.trans hp)
      obtain ⟨hm, hbytes⟩ := recvBy_spec hi.connected hi.pair hi.buffers hn hsmall h
      refine ⟨_, hm, streamInv_moved hi hm (fun _ _ => rfl) ?_ ?_⟩
      · intro d' hd
        exact Function.update_of_ne hd ..
      · dsimp only
        rw [Function.update_self, hn, Int.toNat_natCast, List.append_assoc, hbytes]
        exact hstream

theorem streamInv_step (hi : ∃ p, StreamInv c a x s p) (hs : StreamStep c a x Fits s s') :
    ∃ p, StreamInv c a x s' p := by
  obtain ⟨p, hi⟩ := hi
  cases hs with
  | op d h =>
      obtain ⟨n, -, hi'⟩ := streamOp_spec hi h
      exact ⟨_, hi'⟩
  | user u =>
      exact ⟨p, ⟨hi.connected.client, hi.connected.accepted⟩, hi.pair, hi.buffers, hi.pos, hi.stream⟩

theorem streamInv_reachable (h : Reachable (StreamStart c a x) (StreamStep c a x Fits) s) :
    ∃ p, StreamInv c a x s p := by
  -- every step keeps it, for a pair that may have moved on
  induction h with
  | init h => exact streamInv_start h
  | tail _ h ih => exact streamInv_step ih h

/--
**Each direction of a pair is a stream.**

In every state of every run in which each send fits, what was received in a
direction and what is still in its buffer is what was sent. A call in one direction
does not change the buffer or the position of the other.
-/
theorem stream_integrity (h : Reachable (StreamStart c a x) (StreamStep c a x Fits) s) :
    ∃ p, s.hel.pairs x = some p ∧
      (∀ d, s.received d ++ bytes s.hel.mem (p.buffer d) (p.pos d).toNat = s.sent d) ∧
      ∀ d s', StreamOp c a x Fits d s s' → ∃ p', s'.hel.pairs x = some p' ∧
        ∀ d', d' ≠ d → p'.buffer d' = p.buffer d' ∧ p'.pos d' = p.pos d' ∧
          bytes s'.hel.mem (p.buffer d') dsockBuffSize =
            bytes s.hel.mem (p.buffer d') dsockBuffSize := by
  obtain ⟨p, hi⟩ := streamInv_reachable h
  refine ⟨p, hi.pair, hi.stream, fun d s' hs => ?_⟩
  obtain ⟨n, hm, hi'⟩ := streamOp_spec hi hs
  refine ⟨_, hi'.pair, fun d' hd => ⟨buffer_setPos .., ?_, ?_⟩⟩
  · rw [pos_setPos, if_neg hd]
  · exact hm.other hi.buffers hd (Nat.le_refl _)

/-- A pair on which nothing has been sent, in clear memory. -/
def freshPair : HelState :=
  { kernel := bootKernel, user := fun _ => 1
    sockets := fun y =>
      if y = 1 ∨ y = 2 then some ⟨none, 0, 0, .connected, 0, 0, fun _ => none, some 3⟩ else none
    pairs := fun y => if y = 3 then some ⟨true, 0, 0x10000, 0, 0, 1, 0x20000, 0, 1⟩ else none
    handles := fun _ => none }

theorem streamStart_freshPair : StreamStart 1 2 3 ⟨freshPair, fun _ => [], fun _ => []⟩ := by
  refine ⟨⟨⟨_, rfl, rfl⟩, ⟨_, rfl, rfl⟩⟩, ⟨_, rfl, ⟨?_, ?_⟩, ?_⟩, fun _ => rfl, fun _ => rfl⟩
  · intro d
    cases d <;> decide
  · intro d d' hd
    cases d <;> cases d' <;> first | exact absurd rfl hd | decide
  · intro d
    cases d <;> rfl

/-- Two bytes from the client. -/
theorem stream_integrity_two : ∃ s, Reachable (StreamStart 1 2 3) (StreamStep 1 2 3 Fits) s ∧
    s.sent .toServer = [1, 1] ∧ ∃ p, s.hel.pairs 3 = some p ∧
      ∀ d, s.received d ++ bytes s.hel.mem (p.buffer d) (p.pos d).toNat = s.sent d := by
  have hstart := streamStart_freshPair
  have hpair : freshPair.pairs 3 = some ⟨true, 0, 0x10000, 0, 0, 1, 0x20000, 0, 1⟩ := rfl
  have hsend := sendBy_eq hstart.connected hpair 0 2 .toServer
  have hop : StreamOp 1 2 3 Fits .toServer ⟨freshPair, fun _ => [], fun _ => []⟩ _ :=
    .send hpair (show (0 : Int) + 2 ≤ 4096 by decide) hsend
  have hr := (Reachable.init hstart).tail (StreamStep.op .toServer hop)
  obtain ⟨p, hp, hstream, -⟩ := stream_integrity hr
  exact ⟨_, hr, rfl, p, hp, hstream⟩

/-! ## Bounds -/

/-- Positions are within the buffers. -/
def InBounds (h : HelState) (x : Nat) : Prop :=
  ∃ p, h.pairs x = some p ∧ ∀ d, 0 ≤ p.pos d ∧ p.pos d ≤ dsockBuffSize

/-- A send of `limit` bytes stays within its buffer, whatever is in memory and whatever is sent, and
leaves the positions within the buffers. -/
def SendSafe (h : HelState) (c a x limit : Nat) (d : Direction) : Prop :=
  ∀ p, h.pairs x = some p → ∀ m u inp ret h',
    sendBy c a ({ h with user := u }.setMem m) inp limit d = .ok (ret, h') →
      InBounds h' x ∧ ∀ y, y < p.buffer d ∨ p.buffer d + dsockBuffSize ≤ y → h'.mem y = m y

theorem StreamInv.inBounds (hi : StreamInv c a x s p) : InBounds s.hel x := by
  refine ⟨p, hi.pair, fun d => ?_⟩
  obtain ⟨n, hn, hsmall⟩ := hi.pos d
  omega

theorem sendSafe_iff (hi : StreamInv c a x s p) (limit : Nat) (d : Direction) :
    SendSafe s.hel c a x limit d ↔ Fits p d limit := by
  obtain ⟨n, hn, hsmall⟩ := hi.pos d
  constructor
  · intro hsafe
    by_contra hfit
    rw [Fits, hn] at hfit
    -- ones are sent into clear memory, and one lands right behind the buffer
    have hc : Connected ({ s.hel with user := fun _ => 1 }.setMem fun _ => 0) c a x :=
      hi.connected.congr rfl
    obtain ⟨-, hout⟩ := hsafe p hi.pair (fun _ => 0) (fun _ => 1) 0 _ _
      (sendBy_eq hc hi.pair 0 limit d)
    have hclear := hout (p.buffer d + dsockBuffSize) (.inr (Nat.le_refl _))
    rw [hn, index_eq hi.buffers hsmall] at hclear
    have hone : memcpyFrom (fun _ => 0) (p.buffer d + n) (fun _ => 1) 0 limit
        (p.buffer d + n + (dsockBuffSize - n)) = 1 := memcpyFrom_inside (by omega)
    rw [show p.buffer d + n + (dsockBuffSize - n) = p.buffer d + dsockBuffSize by omega] at hone
    have : (1 : UInt8) = 0 := hone.symm.trans hclear
    exact absurd this (by decide)
  · intro hfit q hq m u inp ret h' hs
    obtain rfl := Option.some.inj (hi.pair.symm.trans hq)
    rw [Fits, hn] at hfit
    have hc : Connected ({ s.hel with user := u }.setMem m) c a x := hi.connected.congr rfl
    obtain ⟨hm, -⟩ := sendBy_spec hc hi.pair hi.buffers hn (by omega) hs
    refine ⟨⟨_, hm.pair, fun d' => ?_⟩, hm.mem⟩
    rw [pos_setPos]
    split
    · have := hm.small
      omega
    · obtain ⟨k, hk, hk'⟩ := hi.pos d'
      omega

/--
**A send stays within its buffer exactly when it fits.**

In every run in which each send fits, with any receives in between, the positions are
within the buffers in every state, and the next send leaves them there and writes
nothing else if and only if it fits as well.
-/
theorem bounds_iff (h : Reachable (StreamStart c a x) (StreamStep c a x Fits) s) :
    InBounds s.hel x ∧ ∃ p, s.hel.pairs x = some p ∧
      ∀ limit d, SendSafe s.hel c a x limit d ↔ Fits p d limit := by
  obtain ⟨p, hi⟩ := streamInv_reachable h
  exact ⟨hi.inBounds, p, hi.pair, sendSafe_iff hi⟩

/-- Both ends of a fresh pair. -/
theorem bounds_freshPair : InBounds freshPair 3 ∧
    ∀ limit d, SendSafe freshPair 1 2 3 limit d ↔ limit ≤ 4096 := by
  obtain ⟨hin, p, hp, hiff⟩ := bounds_iff (Reachable.init streamStart_freshPair)
  obtain rfl := Option.some.inj hp
  refine ⟨hin, fun limit d => (hiff limit d).trans ?_⟩
  cases d
  · show (0 : Int) + limit ≤ 4096 ↔ _
    omega
  · show (0 : Int) + limit ≤ 4096 ↔ _
    omega

/-- **One byte too many** lands behind the buffer, and the position leaves it. -/
theorem send_overruns : ∃ h', sendBy 1 2 freshPair 0 4097 .toServer = .ok (4097, h') ∧
    ¬ InBounds h' 3 ∧ h'.mem (0x20000 + 4096) = 1 ∧ freshPair.mem (0x20000 + 4096) = 0 := by
  have hsend := sendBy_eq streamStart_freshPair.connected rfl 0 4097 .toServer
  refine ⟨_, hsend, ?_, ?_, rfl⟩
  · rintro ⟨p, hp, hpos⟩
    obtain rfl := Option.some.inj hp
    have := (hpos .toServer).2
    exact absurd this (by decide)
  · exact memcpyFrom_inside (i := 4096) (by decide)

end IonOS.Hel
