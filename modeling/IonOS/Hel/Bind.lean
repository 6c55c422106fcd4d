import IonOS.Hel.Lookup

/-!
# How far a bind reaches

`k_driver_bind_impl` takes the length of an address from `strlen`, which looks at a
page. The address has 109 bytes, in the program's structure and in the socket's
buffer, and need not have a zero among them. Then the scan goes on into whatever
follows the structure, and the copy behind the buffer.
-/

namespace IonOS.Hel

open IonOS.Lib IonOS.Libs IonOS.Proc

/-! ## What is read -/

/-- The bytes that `strnlen` looks at: those it counts, and the one it stops at. -/
def strnlenReads (m : Mem) (s : Nat) : Nat → List Nat
  | 0 => [s]
  | n + 1 => s :: if m s ≠ 0 then strnlenReads m (s + 1) n else []

/-- The bytes of the program that a bind looks at: `logical_address`, those of the scan, and those
it copies. -/
def bindReads (u : Mem) (addr : Nat) : List Nat :=
  addr :: (if u addr ≠ 0 then strnlenReads u (dPath addr + 1) 4096
    else strnlenReads u (dPath addr) 4096) ++
    (List.range (addrLen u addr)).map (dPath addr + ·)

variable {m u : Mem} {a n k handleId addr : Nat} {h h' : HelState} {cur : ThreadPtr} {s : Dsocket}

theorem mem_strnlenReads {b : Nat} : b ∈ strnlenReads m a n ↔ a ≤ b ∧ b ≤ a + strnlen m a n := by
  induction n generalizing a with
  | zero =>
    rw [strnlenReads, strnlen, List.mem_singleton]
    omega
  | succ n ih =>
    rw [strnlenReads, strnlen, List.mem_cons]
    by_cases h0 : m a ≠ 0
    · rw [if_pos h0, if_pos h0, ih]
      omega
    · rw [if_neg h0, if_neg h0]
      simp
      omega

/-- **The scan looks one byte further than the copy.** -/
theorem mem_bindReads :
    a ∈ bindReads u addr ↔ a = addr ∨ dPath addr ≤ a ∧ a ≤ dPath addr + addrLen u addr := by
  have hcopy : a ∈ (List.range (addrLen u addr)).map (dPath addr + ·) ↔
      dPath addr ≤ a ∧ a < dPath addr + addrLen u addr := by
    rw [List.mem_map]
    constructor
    · rintro ⟨i, hi, rfl⟩
      have := List.mem_range.mp hi
      omega
    · rintro ⟨h1, h2⟩
      exact ⟨a - dPath addr, List.mem_range.mpr (by omega), by omega⟩
  unfold bindReads
  rw [List.mem_append, List.mem_cons, hcopy]
  unfold addrLen strlen
  by_cases hl : u addr ≠ 0
  · rw [if_pos hl, if_pos hl, mem_strnlenReads]
    omega
  · rw [if_neg hl, if_neg hl, mem_strnlenReads]
    omega

theorem strnlen_congr {m' : Mem} (hm : ∀ b ∈ strnlenReads m a n, m' b = m b) :
    strnlen m' a n = strnlen m a n := by
  induction n generalizing a with
  | zero => rfl
  | succ n ih =>
    rw [strnlenReads] at hm
    rw [strnlen, strnlen, hm a List.mem_cons_self]
    by_cases h0 : m a ≠ 0
    · rw [if_pos h0] at hm
      rw [if_pos h0, if_pos h0, ih fun b hb => hm b (List.mem_cons_of_mem _ hb)]
    · rw [if_neg h0, if_neg h0]

theorem memcpyFrom_congr {dest src : Nat} {m' : Mem} (hu : ∀ i < n, m' (src + i) = u (src + i)) :
    memcpyFrom m dest m' src n = memcpyFrom m dest u src n := by
  induction n with
  | zero => rfl
  | succ n ih =>
    rw [memcpyFrom, memcpyFrom, ih fun i hi => hu i (by omega), hu n (Nat.lt_succ_self n)]

/-- **A bind depends on the bytes it reads, and on no others.** -/
theorem bind_congr {u : Mem} (hu : ∀ b ∈ bindReads h.user addr, u b = h.user b) :
    addrLen u addr = addrLen h.user addr ∧
      memcpyFrom h.mem s.bindAddr u (dPath addr) (addrLen u addr) =
        memcpyFrom h.mem s.bindAddr h.user (dPath addr) (addrLen h.user addr) := by
  have hlen : addrLen u addr = addrLen h.user addr := by
    have hfirst : u addr = h.user addr := hu addr (mem_bindReads.mpr (.inl rfl))
    unfold addrLen strlen
    rw [hfirst]
    unfold bindReads at hu
    by_cases hl : h.user addr ≠ 0
    · rw [if_pos hl] at hu
      rw [if_pos hl, if_pos hl, strnlen_congr fun b hb => hu b (by simp [hb])]
    · rw [if_neg hl] at hu
      rw [if_neg hl, if_neg hl, strnlen_congr fun b hb => hu b (by simp [hb])]
  refine ⟨hlen, ?_⟩
  rw [hlen]
  refine memcpyFrom_congr fun i hi => hu _ (mem_bindReads.mpr (.inr ?_))
  omega

/-! ## The call -/

/-- The handle is that of socket `s`. -/
structure HandleOf (h : HelState) (cur : ThreadPtr) (handleId : Nat) (s : Dsocket) : Prop where
  entry : ∃ t fd hd, h.kernel.threads cur = some t ∧ InTable h t handleId ∧
    tableEntry h t handleId = some fd ∧ h.handles (h.kernel.fdInfos fd) = some hd ∧
      h.sockets hd.socket = some s

/-- What a bind may read and write, and what it leaves for `k_driver_connect_impl` to compare. -/
structure BindBounded (h : HelState) (s : Dsocket) (addr : Nat) (h' : HelState) : Prop where
  /-- Of the program's memory it reads the structure. -/
  reads : ∀ a ∈ bindReads h.user addr,
    a = addr ∨ dPath addr ≤ a ∧ a < dPath addr + dsockAddrMax
  length : addrLen h.user addr ≤ dsockAddrMax
  writes : ∀ y, y < s.bindAddr ∨ s.bindAddr + dsockAddrMax ≤ y → h'.mem y = h.mem y
  stored : memcmp h'.mem s.bindAddr h'.user (dPath addr) (addrLen h'.user addr) = 0

/-- The address ends inside the structure: among its bytes, for a logical address behind the first,
there is a zero. -/
def Terminated (u : Mem) (addr : Nat) : Prop :=
  ∃ i < dsockAddrMax, (u addr ≠ 0 → i ≠ 0) ∧ u (dPath addr + i) = 0

theorem terminated_iff : Terminated u addr ↔ addrLen u addr < dsockAddrMax := by
  unfold Terminated addrLen strlen
  by_cases hl : u addr ≠ 0
  · rw [if_pos hl, show dsockAddrMax = 108 + 1 from rfl, Nat.add_lt_add_iff_right,
      strnlen_lt_iff (by decide)]
    constructor
    · rintro ⟨i, hi, hne, hz⟩
      have := hne hl
      exact ⟨i - 1, by omega, by rwa [show dPath addr + 1 + (i - 1) = dPath addr + i by omega]⟩
    · rintro ⟨i, hi, hz⟩
      exact ⟨i + 1, by omega, fun _ => by omega,
        by rwa [show dPath addr + (i + 1) = dPath addr + 1 + i by omega]⟩
  · rw [if_neg hl, strnlen_lt_iff (by decide)]
    simp [hl]

theorem mem_setMem (h : HelState) (m : Mem) : (h.setMem m).mem = m := rfl

/-- What the call does. -/
theorem bind_eq (hs : HandleOf h cur handleId s) :
    kDriverBindImpl h cur handleId addr = .ok (.done 0,
      h.setMem (memcpyFrom h.mem s.bindAddr h.user (dPath addr) (addrLen h.user addr))) := by
  obtain ⟨t, fd, hd, hcur, hid, hentry, hhandle, hsocket⟩ := hs.entry
  rw [kDriverBindImpl, withHandle_some hcur hid hentry hhandle]
  simp only [bind, Except.bind, deref_some hsocket]
  rfl

/--
**A bind is bounded exactly when the address ends inside the structure.**

For every address a program passes, with any bytes in it and behind it: the call on a
socket's handle succeeds, reads the structure only, writes into the socket's buffer
only and stores what `connect` will find equal, if and only if there is a zero where
the scan looks for one before it leaves the structure.
-/
theorem bind_bounded_iff (hs : HandleOf h cur handleId s) (addr : Nat) :
    ∃ h', kDriverBindImpl h cur handleId addr = .ok (.done 0, h') ∧
      (BindBounded h s addr h' ↔ Terminated h.user addr) := by
  refine ⟨_, bind_eq hs, ?_⟩
  rw [terminated_iff]
  constructor
  · intro hb
    -- the byte that ends the scan is read
    have hread : dPath addr + addrLen h.user addr ∈ bindReads h.user addr :=
      mem_bindReads.mpr (.inr ⟨Nat.le_add_right _ _, Nat.le_refl _⟩)
    have := hb.reads _ hread
    unfold dPath at this
    omega
  · intro hlt
    refine ⟨fun a ha => ?_, Nat.le_of_lt hlt, fun y hy => ?_, ?_⟩
    · rcases mem_bindReads.mp ha with h0 | ⟨h1, h2⟩
      · exact .inl h0
      · exact .inr ⟨h1, by omega⟩
    · exact memcpyFrom_other (by omega)
    · exact memcmp_eq_zero.mpr (bytes_congr fun i hi => memcpyFrom_inside hi)

theorem serverHel_handle (state : DsocketState) (name : UInt8) (u : Mem) :
    HandleOf { serverHel state name with user := u } (.slot ⟨1, by decide⟩) 0
      ⟨some 5, 0, 0x200, .disconnected, 0, 0, fun _ => none, none⟩ :=
  ⟨oneThreadOf, 10, ⟨.garbage, 12⟩, rfl, show (0 : Int) < 32 by decide, rfl, rfl, rfl⟩

/-- An address of one byte and a zero. -/
theorem bind_bounded_short :
    ∃ h', kDriverBindImpl (serverHel .listening 97) (.slot ⟨1, by decide⟩) 0 0x1000 =
      .ok (.done 0, h') ∧
    BindBounded (serverHel .listening 97)
      ⟨some 5, 0, 0x200, .disconnected, 0, 0, fun _ => none, none⟩ 0x1000 h' := by
  obtain ⟨h', hok, hiff⟩ :=
    bind_bounded_iff (serverHel_handle .listening 97 (serverHel .listening 97).user) 0x1000
  exact ⟨h', hok, hiff.mpr ⟨1, by decide, fun hl => absurd rfl hl, rfl⟩⟩

/-- A program whose memory has no zeros, and a socket bound at 0x200. -/
def unendingHel : HelState := { serverHel .listening 97 with user := fun _ => 1 }

def unendingSocket : Dsocket := ⟨some 5, 0, 0x200, .disconnected, 0, 0, fun _ => none, none⟩

theorem unendingHel_long : dsockAddrMax < addrLen unendingHel.user 0x1000 := by
  have hscan : ¬ strnlen unendingHel.user (dPath 0x1000 + 1) 4096 < 4096 := by
    rw [strnlen_lt_iff (Nat.le_refl _)]
    rintro ⟨i, -, h0⟩
    exact absurd (show (1 : UInt8) = 0 from h0) (by decide)
  have hlogical : addrLen unendingHel.user 0x1000 =
      strnlen unendingHel.user (dPath 0x1000 + 1) 4096 + 1 := if_pos (by decide)
  unfold dsockAddrMax
  omega

/-- **An address without a zero**: the byte behind the structure is read, and the one behind the
buffer written. -/
theorem bind_overruns :
    ∃ h', kDriverBindImpl unendingHel (.slot ⟨1, by decide⟩) 0 0x1000 = .ok (.done 0, h') ∧
      dPath 0x1000 + dsockAddrMax ∈ bindReads unendingHel.user 0x1000 ∧
      unendingHel.mem (unendingSocket.bindAddr + dsockAddrMax) = 0 ∧
      h'.mem (unendingSocket.bindAddr + dsockAddrMax) = 1 ∧
      ¬ BindBounded unendingHel unendingSocket 0x1000 h' := by
  have hs : HandleOf unendingHel (.slot ⟨1, by decide⟩) 0 unendingSocket :=
    serverHel_handle .listening 97 fun _ => 1
  have hlong := unendingHel_long
  refine ⟨_, bind_eq hs, ?_, by decide, ?_, fun hb => ?_⟩
  · exact mem_bindReads.mpr (.inr ⟨Nat.le_add_right _ _, by omega⟩)
  · rw [mem_setMem, memcpyFrom_inside hlong]
    rfl
  · have := hb.length
    omega

end IonOS.Hel
