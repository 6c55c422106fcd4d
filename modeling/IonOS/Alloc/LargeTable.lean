import IonOS.Alloc.LargeBlk
import IonOS.Alloc.Teardown
import IonOS.Lib.Runs

/-!
# Large blocks over whole runs

`large_blk_alloc` and `large_blk_free` in any order, with any answers of the
callback that are not outstanding. The table is complete as long as no block is
put on a list that has one already, and not after that: the older block is not
found any more, and `mman_free` takes it for an ordinary one.
-/

namespace IonOS.Alloc

open IonOS.Lib

variable {libc : Libc} {Own : Mem → Set Nat → Prop} {h : Heap Mman} {m : Mem}
  {L : Nat → List Nat} {out : List (Nat × Nat)} {p n : Nat}

/-! ## The calls as steps -/

/-- A manager and the large blocks its user holds, by address and padded size. -/
structure LargeState where
  heap : Heap Mman
  out : List (Nat × Nat)

/-- The two calls, the answer of the callback among what they are given. -/
inductive LargeOp where
  | alloc (size : Nat) (reqmem : Nat → Nat)
  | free (ptr : Nat)

inductive LargeStep (libc : Libc) : LargeState → LargeOp → LargeState → Prop where
  | alloc {s : LargeState} {size p : Nat} {reqmem : Nat → Nat} {h : Heap Mman}
      (hr : largeBlkAlloc libc reqmem s.heap size = some (p, h)) :
      LargeStep libc s (.alloc size reqmem)
        ⟨h, if p = 0 then s.out else (p, padding4k size) :: s.out⟩
  | free {s : LargeState} {p : Nat} {ok : Bool} {h : Heap Mman}
      (hr : largeBlkFree libc s.heap p = some (ok, h)) :
      LargeStep libc s (.free p) ⟨h, without s.out p⟩

/-- The callback does not give away what is outstanding. -/
def LargeOp.Conforms (s : LargeState) : LargeOp → Prop
  | .alloc size reqmem => reqmem (padding4k size) < 2 ^ 64 ∧
      ∀ e ∈ s.out, e.1 ≠ reqmem (padding4k size)
  | .free _ => True

/-- **The list is empty** when a block is put on it. -/
def LargeOp.Alone (libc : Libc) (s : LargeState) : LargeOp → Prop
  | .alloc size reqmem => reqmem (padding4k size) ≠ 0 →
      (libc.malloc s.heap.mem sizeofLargeBlk).1 ≠ 0 →
        s.heap.pool.large (largeBlkBlokp (reqmem (padding4k size))) = 0
  | .free _ => True

/-- **What the table is for.** -/
structure TableOk (libc : Libc) (s : LargeState) : Prop where
  found : ∀ p n, (p, n) ∈ s.out → ∃ blk, largeBlkFind s.heap p = some blk ∧ blk ≠ 0 ∧
    entryOf s.heap.mem blk = (p, n)
  freed : ∀ p n, (p, n) ∈ s.out → ∃ h', largeBlkFree libc s.heap p = some (true, h') ∧
    h'.delmem = s.heap.delmem ++ [(p, n)]
  other : ∀ p, (∀ n, (p, n) ∉ s.out) → largeBlkFree libc s.heap p = some (false, s.heap)

/-- Nothing is outstanding yet. -/
structure LargeStart (Own : Mem → Set Nat → Prop) (s : LargeState) : Prop where
  own : Own s.heap.mem ∅
  large : s.heap.pool.large = fun _ => 0
  cbReqmem : s.heap.pool.cbReqmem = true
  cbDelmem : s.heap.pool.cbDelmem = true
  out : s.out = []

/-- A step that puts blocks on empty lists only. -/
def AloneStep (libc : Libc) (s t : LargeState) : Prop :=
  ∃ op : LargeOp, op.Conforms s ∧ op.Alone libc s ∧ LargeStep libc s op t

theorem Tabled.free_none (ht : Tabled Own h out L) (hno : ∀ n, (p, n) ∉ out) :
    largeBlkFree libc h p = some (false, h) := by
  unfold largeBlkFree
  simp [ht.find_none hno]

/-- A complete table does what it is for. -/
theorem Tabled.ok {s : LargeState} (hs : MallocSpec libc Own) (ht : Tabled Own s.heap s.out L) :
    TableOk libc s := by
  refine ⟨fun p n he => ?_, fun p n he => ?_, fun p hno => ht.free_none hno⟩
  · obtain ⟨x, hx, hxe, hf⟩ := ht.find he
    exact ⟨x, hf, ht.free.node_ne hx, hxe⟩
  · obtain ⟨x, hx, hxe, hf⟩ := ht.find he
    exact ⟨_, ht.free_eq hs hx hxe hf, rfl⟩

theorem tabled_start {s : LargeState} (hs : LargeStart Own s) :
    Tabled Own s.heap s.out fun _ => [] := by
  have hset : {x : Nat | ∃ i : Nat, x ∈ (fun _ => [] : Nat → List Nat) i} = ∅ := by
    ext x
    simp
  refine ⟨⟨fun i => ?_, ?_, ?_, fun i => ?_⟩, ?_, ?_, ?_, ?_, hs.cbReqmem, hs.cbDelmem⟩
  · rw [hs.large]
    exact Links.isList_nil _ _
  · simp
  · simp
  · rw [hs.large]
    exact Nat.two_pow_pos 64
  · rw [hset]
    exact hs.own
  · simp
  · simp
  · simp [hs.out]

theorem padding4k_lt (size : Nat) : padding4k size < 2 ^ 64 := by
  have hle : padding4k size ≤ subW (addW size size4k) 1 := Nat.and_le_left
  have hlt := subW_lt (addW size size4k) 1
  omega

/-- **Releases keep the table complete.** -/
theorem tabled_free {s : LargeState} {ok : Bool} (hs : MallocSpec libc Own)
    (ht : Tabled Own s.heap s.out L) (hr : largeBlkFree libc s.heap p = some (ok, h)) :
    ∃ L', Tabled Own h (without s.out p) L' := by
  by_cases hout : ∃ n, (p, n) ∈ s.out
  · obtain ⟨n, he⟩ := hout
    obtain ⟨x, hx, hxe, hf⟩ := ht.find he
    have heq := ht.free_eq hs hx hxe hf
    obtain ⟨-, rfl⟩ := Prod.mk.inj (Option.some.inj (heq.symm.trans hr))
    exact ⟨_, ht.takenOut hs hx hxe⟩
  · have hno : ∀ n, (p, n) ∉ s.out := fun n he => hout ⟨n, he⟩
    obtain ⟨-, rfl⟩ := Prod.mk.inj (Option.some.inj ((ht.free_none hno).symm.trans hr))
    have hsame : without s.out p = s.out := by
      refine List.filter_eq_self.mpr fun e he => ?_
      simpa using fun hp : e.1 = p => hno e.2 (by rw [← hp]; exact he)
    rw [hsame]
    exact ⟨L, ht⟩

/-- The three ways of `large_blk_alloc`. -/
theorem largeBlkAlloc_cases {size : Nat} {reqmem : Nat → Nat} {r : Nat × Heap Mman}
    (ht : Tabled Own h out L) (hr : largeBlkAlloc libc reqmem h size = some r) :
    (reqmem (padding4k size) = 0 ∧ r = (0, h)) ∨
    (reqmem (padding4k size) ≠ 0 ∧ (libc.malloc h.mem sizeofLargeBlk).1 = 0 ∧ r.1 = 0 ∧
      r.2.mem = (libc.malloc h.mem sizeofLargeBlk).2 ∧ r.2.pool.large = h.pool.large ∧
      r.2.pool.cbReqmem = h.pool.cbReqmem ∧ r.2.pool.cbDelmem = h.pool.cbDelmem) ∨
    ∃ x m, libc.malloc h.mem sizeofLargeBlk = (x, m) ∧ x ≠ 0 ∧ reqmem (padding4k size) ≠ 0 ∧
      r = (reqmem (padding4k size), putIn h m (reqmem (padding4k size)) (padding4k size) x) := by
  by_cases hp : reqmem (padding4k size) = 0
  · refine .inl ?_
    unfold largeBlkAlloc at hr
    simp only [ht.cbReqmem, Bool.not_true, Bool.false_eq_true, if_false, callReqmem, hp,
      if_true] at hr
    exact ⟨hp, (Option.some.inj hr).symm⟩
  · obtain ⟨⟨x, m⟩, hm⟩ : ∃ q, libc.malloc h.mem sizeofLargeBlk = q := ⟨_, rfl⟩
    by_cases hx : x = 0
    · refine .inr (.inl ⟨hp, by rw [hm, hx], ?_⟩)
      unfold largeBlkAlloc at hr
      simp only [ht.cbReqmem, Bool.not_true, Bool.false_eq_true, if_false, callReqmem, hp,
        largeBlkPut, hm, hx, if_true, ht.cbDelmem] at hr
      rw [← Option.some.inj hr, hm]
      exact ⟨rfl, rfl, rfl, ht.cbReqmem.symm, ht.cbDelmem.symm⟩
    · refine .inr (.inr ⟨x, m, hm, hx, hp, ?_⟩)
      exact (Option.some.inj ((largeBlkAlloc_put ht.cbReqmem hp hm hx).symm.trans hr)).symm

/-- A `malloc` in vain does nothing to the table. -/
theorem Tabled.null {h' : Heap Mman} (hs : MallocSpec libc Own) (ht : Tabled Own h out L)
    (hm : libc.malloc h.mem sizeofLargeBlk = (0, m)) (hmem : h'.mem = m)
    (hlarge : h'.pool.large = h.pool.large) (hreq : h'.pool.cbReqmem = h.pool.cbReqmem)
    (hdel : h'.pool.cbDelmem = h.pool.cbDelmem) : Tabled Own h' out L := by
  have hkept : ∀ j, ∀ y ∈ L j, ∀ w, y ≤ w → w < y + 32 → m w = h.mem w := by
    intro j y hy w h1 h2
    have := hs.malloc_kept ht.own y ⟨j, hy⟩ w h1 h2
    rwa [hm] at this
  have hentry : ∀ j, ∀ y ∈ L j, entryOf m y = entryOf h.mem y := by
    intro j y hy
    refine Prod.ext ?_ ?_
    · exact Mem.read64_congr fun w h1 h2 => hkept j y hy w (by omega) (by omega)
    · exact Mem.read64_congr fun w h1 h2 => hkept j y hy w (by omega) (by omega)
  subst hmem
  refine ⟨?_, hs.null ht.own hm, fun j y hy => ?_, fun j y hy k z hz hyz => ?_, fun e he => ?_,
    hreq.trans ht.cbReqmem, hdel.trans ht.cbDelmem⟩
  · rw [hlarge]
    exact ht.free.congr fun j y hy w h1 h2 => hkept j y hy w h1 (by omega)
  · rw [hentry j y hy]
    exact ht.entry j y hy
  · rw [hentry j y hy, hentry k z hz] at hyz
    exact ht.inj j y hy k z hz hyz
  · obtain ⟨j, y, hy, hye⟩ := ht.complete e he
    exact ⟨j, y, hy, (hentry j y hy).trans hye⟩

/-- **So do allocations**, as long as lists are empty. -/
theorem tabled_alloc {s : LargeState} {size : Nat} {reqmem : Nat → Nat}
    (hs : MallocSpec libc Own) (ht : Tabled Own s.heap s.out L)
    (hc : (LargeOp.alloc size reqmem).Conforms s) (ha : (LargeOp.alloc size reqmem).Alone libc s)
    (hr : largeBlkAlloc libc reqmem s.heap size = some (p, h)) :
    ∃ L', Tabled Own h (if p = 0 then s.out else (p, padding4k size) :: s.out) L' := by
  rcases largeBlkAlloc_cases ht hr with ⟨-, heq⟩ | ⟨-, hm, h0, hmem, hlarge, hreq, hdel⟩ |
    ⟨x, m, hm, hx, hp, heq⟩
  · obtain ⟨rfl, rfl⟩ := Prod.mk.inj heq
    exact ⟨L, ht⟩
  · dsimp only at h0 hmem hlarge hreq hdel
    rw [if_pos h0]
    exact ⟨L, ht.null hs (Prod.ext hm rfl) hmem hlarge hreq hdel⟩
  · obtain ⟨rfl, rfl⟩ := Prod.mk.inj heq
    rw [if_neg hp]
    obtain ⟨hlt, hnew⟩ := hc
    refine ⟨_, ht.putIn hs hm hx hlt (padding4k_lt size) (fun k hk => hnew _ hk rfl) ?_⟩
    exact ha hp (by rw [hm]; exact hx)

theorem tabled_step {s t : LargeState} (hs : MallocSpec libc Own)
    (ht : Tabled Own s.heap s.out L) (hst : AloneStep libc s t) :
    ∃ L', Tabled Own t.heap t.out L' := by
  obtain ⟨op, hc, ha, hst⟩ := hst
  cases hst with
  | alloc hr => exact tabled_alloc hs ht hc ha hr
  | free hr => exact tabled_free hs ht hr

/-- **One more block on a list** with a node on it, and the table is not complete any more. -/
theorem table_lost {s : LargeState} {size : Nat} {reqmem : Nat → Nat}
    (ht : Tabled Own s.heap s.out L) (hc : (LargeOp.alloc size reqmem).Conforms s)
    (ha : ¬ (LargeOp.alloc size reqmem).Alone libc s)
    (hr : largeBlkAlloc libc reqmem s.heap size = some (p, h)) :
    ¬ TableOk libc ⟨h, if p = 0 then s.out else (p, padding4k size) :: s.out⟩ := by
  unfold LargeOp.Alone at ha
  push Not at ha
  obtain ⟨hp, hmal, hne⟩ := ha
  obtain ⟨hlt, hnew⟩ := hc
  rcases largeBlkAlloc_cases ht hr with ⟨h0, -⟩ | ⟨-, hm, -⟩ | ⟨x, m, hm, hx, -, heq⟩
  · exact absurd h0 hp
  · exact absurd hm hmal
  · obtain ⟨rfl, rfl⟩ := Prod.mk.inj heq
    rw [if_neg hp]
    -- the list has a node, and that is for some block
    have hhead := (ht.free.lists (largeBlkBlokp (reqmem (padding4k size)))).head
    cases hL : L (largeBlkBlokp (reqmem (padding4k size))) with
    | nil =>
        rw [hL] at hhead
        exact absurd hhead hne
    | cons y l =>
        obtain ⟨hout, hi⟩ := ht.entry _ y (by rw [hL]; exact List.mem_cons_self)
        intro hok
        obtain ⟨blk, hfind, hblk, -⟩ := hok.found (entryOf s.heap.mem y).1 (entryOf s.heap.mem y).2
          (List.mem_cons_of_mem _ hout)
        have hlost := putIn_lost (h := s.heap) (m := m) hx hlt (padding4k_lt size)
          (hnew _ hout) hi
        exact hblk (Option.some.inj (hfind.symm.trans hlost))

/--
**The table of large blocks** is complete in every run that puts blocks on empty
lists only, and after one more call it is so just if that call does the same.
-/
theorem large_table_iff {s : LargeState} (hs : MallocSpec libc Own)
    (hrun : Reachable (LargeStart Own) (AloneStep libc) s) :
    TableOk libc s ∧ ∀ op t, LargeOp.Conforms s op → LargeStep libc s op t →
      (TableOk libc t ↔ op.Alone libc s) := by
  have hstart : ∀ s, LargeStart Own s → ∃ L, Tabled Own s.heap s.out L :=
    fun s hst => ⟨_, tabled_start hst⟩
  have hstep : ∀ s t, (∃ L, Tabled Own s.heap s.out L) → AloneStep libc s t →
      ∃ L, Tabled Own t.heap t.out L := by
    intro s t hi hst
    obtain ⟨L, ht⟩ := hi
    exact tabled_step hs ht hst
  obtain ⟨L, ht⟩ := hrun.invariant hstart hstep
  refine ⟨ht.ok hs, fun op t hc hst => ⟨fun hok => ?_, fun ha => ?_⟩⟩
  · by_contra ha
    cases hst with
    | alloc hr => exact table_lost ht hc ha hr hok
    | free hr => exact ha trivial
  · obtain ⟨L', ht'⟩ := tabled_step hs ht ⟨op, hc, ha, hst⟩
    exact ht'.ok hs

/-- An allocator that hands out one node after the other, as long as there is room. The address of
the next one is in memory at 4096. -/
def bumpLibc : Libc :=
  { malloc := fun m _ =>
      if m.read64 4096 + 32 ≤ 65536 then
        (m.read64 4096, m.write64 4096 (m.read64 4096 + 32))
      else (0, m)
    free := fun m _ => m }

/-- The nodes lie below the next one. -/
def Bumped (m : Mem) (N : Set Nat) : Prop :=
  8192 ≤ m.read64 4096 ∧ m.read64 4096 % 32 = 0 ∧
    ∀ x ∈ N, x % 32 = 0 ∧ 8192 ≤ x ∧ x + 32 ≤ m.read64 4096

theorem bumpLibc_spec : MallocSpec bumpLibc Bumped := by
  have hmal : ∀ m : Mem, (m.read64 4096 + 32 ≤ 65536 ∧ bumpLibc.malloc m sizeofLargeBlk =
      (m.read64 4096, m.write64 4096 (m.read64 4096 + 32))) ∨
      bumpLibc.malloc m sizeofLargeBlk = (0, m) := by
    intro m
    by_cases hroom : m.read64 4096 + 32 ≤ 65536
    · exact .inl ⟨hroom, if_pos hroom⟩
    · exact .inr (if_neg hroom)
  have hkept : ∀ (m : Mem) w, 8192 ≤ w → (bumpLibc.malloc m sizeofLargeBlk).2 w = m w := by
    intro m w hw
    rcases hmal m with ⟨-, hm⟩ | hm
    · rw [hm]
      exact Mem.write64_other (by omega)
    · rw [hm]
  refine ⟨fun {m N} ho x hx => ?_, fun {m N} ho x hx y hy => ?_, fun {m N m'} ho hr => ?_,
    fun {m N x m'} ho hr hx => ?_, fun {m N x} ho _ => ⟨ho.1, ho.2.1, fun y hy => ho.2.2 y hy.1⟩,
    fun {m N} ho y hy w h1 h2 => hkept m w ?_, fun _ _ _ _ _ _ _ _ => rfl,
    fun {m N m'} ho hm => ?_⟩
  · have := ho.2.2 x hx
    have := Mem.read64_lt m 4096
    omega
  · have := ho.2.2 x hx
    have := ho.2.2 y hy
    omega
  · rcases hmal m with ⟨-, hm⟩ | hm
    · have h0 : m.read64 4096 = 0 := congrArg Prod.fst (hm.symm.trans hr)
      have := ho.1
      omega
    · obtain rfl : m = m' := congrArg Prod.snd (hm.symm.trans hr)
      exact ho
  · rcases hmal m with ⟨hroom, hm⟩ | hm
    · obtain ⟨rfl, rfl⟩ := Prod.mk.inj (hm.symm.trans hr)
      obtain ⟨hlow, hal, hnodes⟩ := ho
      refine ⟨fun hmem => ?_, ?_⟩
      · have := hnodes _ hmem
        omega
      · unfold Bumped
        rw [Mem.read64_write64_same _ _ (by omega)]
        refine ⟨by omega, by omega, fun y hy => ?_⟩
        rcases Set.mem_insert_iff.mp hy with rfl | hy
        · omega
        · have := hnodes y hy
          omega
    · exact absurd (congrArg Prod.fst (hr.symm.trans hm)) hx
  · have := ho.2.2 y hy
    omega
  · have hsame : m'.read64 4096 = m.read64 4096 := Mem.read64_congr fun w h1 h2 =>
      hm w fun x hx => by
        have := ho.2.2 x hx
        omega
    unfold Bumped
    rw [hsame]
    exact ho

/-- Nothing is outstanding and the first node is at 8192. -/
def largeStart : LargeState := ⟨{ freshMman with mem := Mem.write64 (fun _ => 0) 4096 8192 }, []⟩

theorem largeStart_ok : LargeStart Bumped largeStart := by
  have hword : largeStart.heap.mem.read64 4096 = 8192 := Mem.read64_write64_same _ _ (by decide)
  refine ⟨?_, rfl, rfl, rfl, rfl⟩
  unfold Bumped
  rw [hword]
  exact ⟨by decide, by decide, fun x hx => absurd hx (Set.notMem_empty x)⟩

/-- The state after `large_blk_alloc` gave `p`. -/
theorem large_alloc {s : LargeState} {size p : Nat} (hp : p ≠ 0)
    (hr : (largeBlkAlloc bumpLibc (fun _ => p) s.heap size).map Prod.fst = some p) :
    ∃ h, largeBlkAlloc bumpLibc (fun _ => p) s.heap size = some (p, h) ∧
      LargeStep bumpLibc s (.alloc size fun _ => p) ⟨h, (p, padding4k size) :: s.out⟩ := by
  obtain ⟨⟨q, h⟩, hr, rfl⟩ := Option.map_eq_some_iff.mp hr
  have hstep := LargeStep.alloc hr
  rw [if_neg hp] at hstep
  exact ⟨h, hr, hstep⟩

/-- The manager once a block at 69632 is outstanding. -/
def largeOne : LargeState :=
  ⟨((largeBlkAlloc bumpLibc (fun _ => 69632) largeStart.heap 16384).map Prod.snd).getD
    largeStart.heap, [(69632, 16384)]⟩

theorem largeOne_step : LargeStep bumpLibc largeStart (.alloc 16384 fun _ => 69632) largeOne := by
  have hr : (largeBlkAlloc bumpLibc (fun _ => 69632) largeStart.heap 16384).map Prod.fst =
      some 69632 := by decide +kernel
  obtain ⟨h, hrun, hstep⟩ := large_alloc (by decide) hr
  rw [largeOne, hrun]
  exact hstep

/-- Two blocks whose addresses have different hashes; then the first one is given back. -/
theorem large_table_two : ∃ s t : LargeState, s.out = [(86016, 16384), (69632, 16384)] ∧
    TableOk bumpLibc s ∧ LargeStep bumpLibc s (.free 69632) t ∧ t.out = [(86016, 16384)] ∧
      TableOk bumpLibc t := by
  have hr : (largeBlkAlloc bumpLibc (fun _ => 86016) largeOne.heap 16384).map Prod.fst =
      some 86016 := by decide +kernel
  obtain ⟨h, -, hstep⟩ := large_alloc (by decide) hr
  have hone : (LargeOp.alloc 16384 fun _ => 69632).Conforms largeStart :=
    ⟨by decide, fun e he => absurd he List.not_mem_nil⟩
  have htwo : (LargeOp.alloc 16384 fun _ => 86016).Conforms largeOne := by
    refine ⟨by decide, fun e he => ?_⟩
    rw [List.mem_singleton.mp he]
    decide
  have hempty : largeOne.heap.pool.large (largeBlkBlokp 86016) = 0 := by decide +kernel
  have hfirst : AloneStep bumpLibc largeStart largeOne := ⟨_, hone, fun _ _ => rfl, largeOne_step⟩
  have hsecond : AloneStep bumpLibc largeOne _ := ⟨_, htwo, fun _ _ => hempty, hstep⟩
  have hrun2 := ((Reachable.init largeStart_ok).tail hfirst).tail hsecond
  obtain ⟨hok, hnext⟩ := large_table_iff bumpLibc_spec hrun2
  obtain ⟨h', hfree, -⟩ := hok.freed 69632 16384 (List.mem_cons_of_mem _ List.mem_cons_self)
  have hout : without [(86016, 16384), (69632, 16384)] 69632 = [(86016, 16384)] := by decide
  have hafter := (hnext (.free 69632) _ trivial (.free hfree)).mpr trivial
  exact ⟨_, _, rfl, hok, .free hfree, hout, hafter⟩

/-- And once another one at 135168 is, whose address has the same hash. -/
def largeTwo : LargeState :=
  ⟨((largeBlkAlloc bumpLibc (fun _ => 135168) largeOne.heap 16384).map Prod.snd).getD
    largeOne.heap, [(135168, 16384), (69632, 16384)]⟩

/-- **The first block is lost.** -/
theorem large_table_loses :
    LargeStart Bumped largeStart ∧
      LargeStep bumpLibc largeStart (.alloc 16384 fun _ => 69632) largeOne ∧
      (LargeOp.alloc 16384 fun _ => 135168).Conforms largeOne ∧
      LargeStep bumpLibc largeOne (.alloc 16384 fun _ => 135168) largeTwo ∧
      (69632, 16384) ∈ largeTwo.out ∧ largeBlkFind largeTwo.heap 69632 = some 0 ∧
      ¬ TableOk bumpLibc largeTwo := by
  have hr2 : (largeBlkAlloc bumpLibc (fun _ => 135168) largeOne.heap 16384).map Prod.fst =
      some 135168 := by decide +kernel
  have hfind : largeBlkFind largeTwo.heap 69632 = some 0 := by decide +kernel
  obtain ⟨h2, hrun2, hstep2⟩ := large_alloc (by decide) hr2
  have htwo : largeTwo = ⟨h2, [(135168, 16384), (69632, 16384)]⟩ := by
    rw [largeTwo, hrun2]
    rfl
  have hc : (LargeOp.alloc 16384 fun _ => 135168).Conforms largeOne := by
    refine ⟨by decide, fun e he => ?_⟩
    obtain rfl : e = (69632, 16384) := List.mem_singleton.mp he
    decide
  refine ⟨largeStart_ok, largeOne_step, hc, ?_, by rw [htwo]; simp, hfind, fun hok => ?_⟩
  · rw [htwo]
    exact hstep2
  · obtain ⟨blk, hblk, hne, -⟩ := hok.found 69632 16384 (by rw [htwo]; simp)
    rw [hfind] at hblk
    exact hne (Option.some.inj hblk).symm

end IonOS.Alloc
