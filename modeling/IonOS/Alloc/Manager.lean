import IonOS.Alloc.Balance

/-!
# A manager over whole runs

The user may allocate, release and reallocate what is small enough for an area,
and may store into its payloads. `cb_reqmem` answers with null or with an area
that overlaps nothing the manager has.

`Orderly` is what allocations, releases and stores keep: the state is charted, the
books are right, and no secondary area is idle.
-/

namespace IonOS.Alloc

open IonOS.Lib IonOS.Libs

variable {libc : Libc} {h h' : Heap Mman} {m : Mem} {P P' : Pic} {reqmem : Nat → Nat}
  {man a size c d k n p q r : Nat} {bs : List Block} {b : Block}

/-! ## Steps -/

/-- What can happen to a manager, the answers of `cb_reqmem` included. -/
inductive MmanOp where
  | alloc (n : Nat) (reqmem : Nat → Nat)
  | free (p : Nat)
  | realloc (p n : Nat) (reqmem : Nat → Nat)
  | store (m : Mem)

/-- A step is a call that returns, or stores. -/
inductive MmanStep (libc : Libc) : MmanState → MmanOp → MmanState → Prop where
  | alloc {s : MmanState} {n p : Nat} {reqmem : Nat → Nat} {h : Heap Mman}
      (hr : mmanAlloc libc reqmem s.heap n = some (p, h)) :
      MmanStep libc s (.alloc n reqmem) ⟨h, if p = 0 then s.live else p :: s.live⟩
  | free {s : MmanState} {p : Nat} {h : Heap Mman} (hr : mmanFree libc s.heap p = some h) :
      MmanStep libc s (.free p) ⟨h, s.live.erase p⟩
  | realloc {s : MmanState} {p n q : Nat} {reqmem : Nat → Nat} {h : Heap Mman}
      (hr : mmanRealloc libc reqmem s.heap p n = some (q, h)) :
      MmanStep libc s (.realloc p n reqmem) ⟨h, q :: s.live.erase p⟩
  | store {s : MmanState} {m : Mem} :
      MmanStep libc s (.store m) ⟨{ s.heap with mem := m }, s.live⟩

/-- What the user and the callbacks promise. -/
def MmanOp.Legal (a size : Nat) (s : MmanState) : MmanOp → Prop
  | .alloc n reqmem =>
      n < 2 ^ 64 ∧ requestSize n < allocLargeBlkSize ∧ Answers a size s.heap reqmem
  | .free p => p ∈ s.live
  | .realloc p n reqmem => p ∈ s.live ∧ n < 2 ^ 64 ∧ requestSize n < allocLargeBlkSize ∧
      Answers a size s.heap reqmem
  | .store m => ∀ w, Reserved a size s w → m w = s.heap.mem w

/-- The size asked for does not wrap when it is rounded up. -/
def MmanOp.Whole : MmanOp → Prop
  | .alloc n _ => n ≤ 2 ^ 64 - 16
  | .realloc _ n _ => n ≤ 2 ^ 64 - 16
  | _ => True

/-- A manager just set up, with both callbacks and nothing in the logs. -/
def MmanStart (man a size : Nat) (s : MmanState) : Prop :=
  ∃ h0 h, h0.delmem = [] ∧ mmanInit h0 man a size = (true, h) ∧
    s = ⟨mmanSetcb h true true, []⟩

/-! ## The invariant -/

/-- A charted state whose books are right, with both callbacks and no large blocks. -/
structure Recorded (man a size : Nat) (s : MmanState) (P : Pic) : Prop
    extends Charted man a size s P where
  balanced : Balanced s.heap P
  fixed : s.heap.pool.fixed = (man, true, true, fun _ => 0)
  main_kept : ∀ e ∈ s.heap.pool.reqmem, e.1 ≠ a

/-- And something is live in every secondary area. -/
structure Orderly (man a size : Nat) (s : MmanState) (P : Pic) : Prop
    extends Recorded man a size s P where
  busy : ∀ c ∈ P.secs, liveSize (P.blocks c) ≠ 0

/-! ## Allocation -/

namespace Recorded

variable {s : MmanState}

theorem cbDelmem (ho : Recorded man a size s P) : s.heap.pool.cbDelmem = true :=
  congrArg (fun r => r.2.2.1) ho.fixed

/-- **A block taken.** -/
theorem supplied (ho : Recorded man a size s P) (hs : Supplied r s.heap P p k c h' P') :
    Recorded man a size ⟨h', p :: s.live⟩ P' := by
  obtain ⟨hfix, hreq⟩ := Mman.fixed_of_rest (v := s.heap.pool.size) hs.tallied.rest
  refine ⟨ho.toCharted.supplied hs, ho.balanced.supplied ho.managed.pooled.nodup hs,
    hfix.trans ho.fixed, ?_⟩
  show ∀ e ∈ h'.pool.reqmem, _
  rw [hreq]
  exact ho.main_kept

/-- **An area more.** -/
theorem stocked {g : Heap Mman} {Q : Pic} (ho : Recorded man a size s P)
    (hs : Stocked s.heap P c g Q) : Recorded man a size ⟨g, s.live⟩ Q := by
  have hcharted := ho.toCharted.stocked hs
  cases hs with
  | same => exact ho
  | grown n g hf he =>
      have hl := ho.managed.spans
      have hb := ho.balanced
      obtain ⟨hfix, hreq⟩ := Mman.fixed_of_rest (q := (logged s.heap c n).pool)
        (w := s.heap.pool.allocedSize) he.rest
      refine ⟨hcharted, Balanced.entered (h := logged s.heap c n) ⟨hb.counts, hb.alloced, hb.size,
        hb.coalesced⟩ hl ho.managed.pooled hf he, hfix.trans ho.fixed, ?_⟩
      show ∀ e ∈ g.pool.reqmem, _
      rw [hreq]
      intro e he'
      rcases List.mem_append.mp he' with he' | he'
      · exact ho.main_kept e he'
      · rw [List.mem_singleton.mp he']
        exact (hf.ne ho.tracked.main_mem hl).symm

end Recorded

/-- Nothing is idle after an allocation but what was idle before, if it was not the area of the
new block. -/
theorem Supplied.busy (hs : Supplied r h P p k c h' P') (hk : k ≠ 0)
    (hbusy : ∀ d ∈ P.secs, d ≠ c → liveSize (P.blocks d) ≠ 0) :
    ∀ d ∈ P'.secs, liveSize (P'.blocks d) ≠ 0 := by
  obtain ⟨bs, L, rfl, htake⟩ := hs.edit
  intro d hd
  by_cases hdc : d = c
  · subst hdc
    rw [Pic.edit_blocks, htake.liveSize_eq]
    omega
  · rw [Pic.edit_blocks_ne hdc]
    exact hbusy d hd hdc

/-- **`mman_alloc`** keeps everything in order. -/
theorem orderly_alloc {s : MmanState} (ho : Orderly man a size s P) (hn : n ≤ 2 ^ 64 - 16)
    (hlt : requestSize n < allocLargeBlkSize) (hans : Answers a size s.heap reqmem)
    (hr : mmanAlloc libc reqmem s.heap n = some (p, h)) :
    (p = 0 ∧ h = s.heap) ∨ (p ≠ 0 ∧ p ∉ s.live ∧ requestSize n ≤ mmanMsize h p ∧
      h.delmem = s.heap.delmem ∧ ∃ P', Orderly man a size ⟨h, p :: s.live⟩ P') := by
  have hm := ho.managed
  obtain ⟨-, hmin, -, -⟩ := requestSize_spec hn
  rcases mmanAlloc_spec hm.spans hm.pooled (ho.tracked.conforming hans) hlt hmin hr with
    hnull | ⟨hp, g, Q, k, c, P', hst, hs⟩
  · exact .inl hnull
  · have hQ := ho.toRecorded.stocked hst
    have hP' := hQ.supplied hs
    have hnew := hQ.not_held hs
    have hlog : h.delmem = s.heap.delmem := by
      rw [hs.tallied.delmem]
      cases hst with
      | same => rfl
      | grown m g hf he => exact he.delmem
    have hbusy : ∀ d ∈ Q.secs, d ≠ c → liveSize (Q.blocks d) ≠ 0 := by
      intro d hd hdc
      cases hst with
      | same => exact ho.busy d hd
      | grown m g hf he =>
          have hd' : d ∈ P.secs := (List.mem_cons.mp hd).resolve_left hdc
          rw [Pic.entered_blocks_ne hdc]
          exact ho.busy d hd'
    obtain ⟨bs, L, hedit, htake⟩ := hs.edit
    have hk := htake.le_size
    have hblock : (⟨p, k, .live⟩ : Block) ∈ P'.blocks c := by
      rw [hedit, Pic.edit_blocks]
      exact htake.mem
    have hbase : c ∈ P'.bases := by
      rw [hedit]
      exact hs.base
    have hsize := hP'.msize_eq hbase hblock
    refine .inr ⟨hp, hnew, ?_, hlog, P', hP', hs.busy (by omega) hbusy⟩
    dsimp only at hsize
    omega

/-! ## Release -/

theorem mmanFree_ordinary (hlarge : h.pool.large = fun _ => 0) (hp : p ≠ 0) :
    mmanFree libc h p = mmanRelease h p := by
  have hfind : largeBlkFind h p = some 0 := by
    unfold largeBlkFind
    rw [hlarge]
    exact (Links.isList_nil _ _).find_eq _ (by unfold walkFuel; decide)
  unfold mmanFree largeBlkFree
  simp [hp, hfind]

/-- **`mman_free`** keeps everything in order. The area goes back just if it is a secondary one
and the block was all that was live in it. -/
theorem orderly_free {s : MmanState} (ho : Orderly man a size s P) (hp : p ∈ s.live)
    (hr : mmanFree libc s.heap p = some h) :
    ∃ c P', c ∈ P.bases ∧ LiveAt (P.blocks c) p ∧
      Leaves s.heap P c p (mmanMsize s.heap p) h P' ∧
      Orderly man a size ⟨h, s.live.erase p⟩ P' := by
  obtain ⟨c, hc, pre, k, post, hbs⟩ := ho.block hp
  have hm := ho.managed
  have hmem : (⟨p, k, .live⟩ : Block) ∈ P.blocks c := by rw [hbs]; simp
  have hsize : mmanMsize s.heap p = k := ho.msize_eq hc hmem
  have hlow := (hm.spans.fitsOf hc hmem).low
  dsimp only at hlow
  have hlarge : s.heap.pool.large = fun _ => 0 := congrArg (fun r => r.2.2.2) ho.fixed
  rw [mmanFree_ordinary hlarge (by omega)] at hr
  obtain ⟨h', P', hr', hset, hcharted, hb', hfix, hreq⟩ :=
    ho.toCharted.released ho.balanced hc hbs
  obtain rfl := Option.some.inj (hr'.symm.trans hr)
  have hsecs := (List.nodup_cons.mp hm.pooled.nodup)
  rw [hsize]
  refine ⟨c, P', hc, ⟨_, hmem, rfl, rfl⟩, hset, ⟨⟨hcharted, hb', hfix.trans ho.fixed, ?_⟩, ?_⟩⟩
  · show ∀ e ∈ h'.pool.reqmem, _
    rw [hreq]
    exact ho.main_kept
  · intro d hd
    cases hset with
    | listed bs L h' hstay hrel hlog =>
        by_cases hdc : d = c
        · subst hdc
          have hne : liveSize (P.blocks d) ≠ k := by
            refine (hstay.resolve_left fun he => hsecs.1 (he ▸ hd)).resolve_right ?_
            rw [ho.cbDelmem]
            simp
          have hsum := hrel.liveSize_eq
          rw [Pic.edit_blocks]
          omega
        · rw [Pic.edit_blocks_ne hdc]
          exact ho.busy d hd
    | given y L h' hsec hlast hcb hlog =>
        obtain ⟨hdc, hd⟩ := (List.Nodup.mem_erase_iff hsecs.2).mp hd
        show liveSize ((P.edit c [y] L).blocks d) ≠ 0
        rw [Pic.edit_blocks_ne hdc]
        exact ho.busy d hd

/-! ## Stores -/

/-- What the user and the callbacks' owner store keeps everything in order. -/
theorem orderly_store {s : MmanState} (ho : Orderly man a size s P)
    (hm : ∀ w, Reserved a size s w → m w = s.heap.mem w) :
    Orderly man a size ⟨{ s.heap with mem := m }, s.live⟩ P := by
  have hint : ∀ w, Internal P w → m w = s.heap.mem w := fun w hw => hm w (ho.reserved hw)
  have hman : ∀ w, man ≤ w → w < man + sizeofMman → m w = s.heap.mem w := fun w hlo hhi =>
    hm w (ho.reserved_own hlo hhi)
  have hcharted := ho.userStore hint hman
  rw [← ho.self] at hman
  have hcount := (ho.managed.pooled.userStore ho.managed.spans hint hman).2
  have hb := ho.balanced
  exact ⟨⟨hcharted, ⟨fun c hc => (hcount c hc).trans (hb.counts c hc), hb.alloced, hb.size,
    hb.coalesced⟩, ho.fixed, ho.main_kept⟩, ho.busy⟩

end IonOS.Alloc
