import IonOS.Alloc.Manager

/-!
# When an area goes back

What a manager looks like in every state of every run of allocations and
releases, in terms of the source's own macros: that is `MmanSafe`. And what a step
of such a run gives back: the release of the last live block of a secondary area
gives that area back, and nothing else gives back anything.

The block of a secondary area's pool is one of its blocks here, one that is in use
and that nobody holds.
-/

namespace IonOS.Alloc

open IonOS.Lib IonOS.Libs

variable {libc : Libc} {h : Heap Mman} {P : Pic} {s t : MmanState} {op : MmanOp}
  {man a size c n p x : Nat} {b : Block}

/-! ## What is said -/

/-- The pool of the area at `c`. -/
def poolAt (man a c : Nat) : Nat := if c = a then man else c + 16

/-- What is held in an area, in bytes. -/
def heldIn (s : MmanState) (e : Nat × Nat) : Nat :=
  ((s.live.filter fun p => e.1 ≤ p ∧ p < e.1 + e.2).map (mmanMsize s.heap)).sum

/--
**The areas of a manager are in order.** `areas` has the start and the size of each, `ps` the
blocks of the one that starts there, and `L i` is what the `i`th list holds.
-/
structure MmanSafe (man a size : Nat) (s : MmanState) (areas : List (Nat × Nat))
    (ps L : Nat → List Nat) : Prop where
  areas_iff : ∀ c n, (c, n) ∈ areas ↔ Holds a size s.heap c n
  areas_nodup : areas.Nodup
  areas_apart : ∀ e ∈ areas, ∀ f ∈ areas, e = f ∨ e.1 + e.2 ≤ f.1 ∨ f.1 + f.2 ≤ e.1
  /-- The blocks given by the head words tile each area exactly. -/
  tiling : ∀ e ∈ areas,
    Tiling id (fun p => blkSize s.heap.mem p + 16) (e.1 + 16) (ps e.1) (e.1 + e.2)
  /-- Head and tail word agree on size and free flag. -/
  tags : ∀ e ∈ areas, ∀ p ∈ ps e.1,
    blkTail s.heap.mem p (blkSize s.heap.mem p) &&& notW flagBits = blkSize s.heap.mem p ∧
      blkTail s.heap.mem p (blkSize s.heap.mem p) &&& freeFlag = blkHead s.heap.mem p &&& freeFlag
  sizes : ∀ e ∈ areas, ∀ p ∈ ps e.1,
    p % 16 = 0 ∧ blkSize s.heap.mem p % 16 = 0 ∧ 16 ≤ blkSize s.heap.mem p
  lists : ∀ i, (linksOf s.heap.mem).IsList 0 (s.heap.pool.heads i) (L i)
  /-- A free block is once on exactly one list, any other one on none. -/
  listed : ∀ e ∈ areas, ∀ p ∈ ps e.1, if blkFreed s.heap.mem p
    then ∃ i, ∀ j, (L j).count p = if j = i then 1 else 0 else ∀ j, p ∉ L j
  /-- Nothing on a list is outside the areas. -/
  nodes : ∀ i, ∀ p ∈ L i, ∃ e ∈ areas, p ∈ ps e.1
  live_iff : ∀ p, p ∈ s.live ↔
    ∃ e ∈ areas, p ∈ ps e.1 ∧ blkFreed s.heap.mem p = false ∧ p ≠ poolAt man a e.1
  live_nodup : s.live.Nodup
  poolptr : ∀ e ∈ areas, ∀ p ∈ ps e.1, blkPoolptr s.heap.mem p = poolAt man a e.1 ∧
    poolPtr s.heap.mem (poolAt man a e.1) = e.1 ∧ e.1 ≤ p ∧ p < e.1 + e.2
  counts : ∀ e ∈ areas, poolAllocedSize s.heap.mem (poolAt man a e.1) = heldIn s e
  alloced : s.heap.pool.allocedSize =
    (areas.map fun e => poolAllocedSize s.heap.mem (poolAt man a e.1)).sum
  size : s.heap.pool.size = (areas.map Prod.snd).sum
  /-- What has been handed out has been given back as often, or once less. -/
  once : ∀ e, s.heap.delmem.count e ≤ s.heap.pool.reqmem.count e ∧
    s.heap.pool.reqmem.count e ≤ s.heap.delmem.count e + 1
  main_kept : ∀ e ∈ s.heap.delmem, e.1 ≠ a

/-- **A manager in order.** -/
def MmanOk (man a size : Nat) (s : MmanState) : Prop := ∃ areas ps L, MmanSafe man a size s areas ps L

/-- The block is on a list. -/
def OnList (h : Heap Mman) (x : Nat) : Prop :=
  ∃ L : Nat → List Nat, (∀ i, (linksOf h.mem).IsList 0 (h.pool.heads i) (L i)) ∧ ∃ i, x ∈ L i

/-- `p` is the one live pointer into the secondary area `e`. -/
def LastIn (s : MmanState) (p : Nat) (e : Nat × Nat) : Prop :=
  Outstanding s.heap e ∧ p ∈ s.live ∧ ∀ q ∈ s.live, (e.1 ≤ q ∧ q < e.1 + e.2) ↔ q = p

/-- Nothing live and nothing on a list is left in the area. -/
def Vacated (s : MmanState) (e : Nat × Nat) : Prop :=
  (∀ q ∈ s.live, q < e.1 ∨ e.1 + e.2 ≤ q) ∧ ∀ x, OnList s.heap x → x < e.1 ∨ e.1 + e.2 ≤ x

/-- **What a step gives back**: an area just if its last live block is released. -/
structure GivesBack (s : MmanState) (op : MmanOp) (t : MmanState) : Prop where
  last : ∀ p e, op = .free p → LastIn s p e →
    t.heap.delmem = s.heap.delmem ++ [e] ∧ Vacated t e
  same : (∀ p e, op = .free p → ¬ LastIn s p e) → t.heap.delmem = s.heap.delmem

/-- Everything but `mman_realloc`. -/
def MmanOp.NoResize : MmanOp → Prop
  | .realloc .. => False
  | _ => True

/-- And nothing asked for wraps. -/
def MmanOp.Plain (op : MmanOp) : Prop := op.NoResize ∧ op.Whole

/-- The steps of a user who keeps to what he promised, and to `Q`. -/
def UserStep (libc : Libc) (a size : Nat) (Q : MmanState → MmanOp → Prop) (s t : MmanState) :
    Prop :=
  ∃ op : MmanOp, op.Legal a size s ∧ Q s op ∧ MmanStep libc s op t

/-! ## A manager in order -/

namespace Charted

/-- Nothing is in hand. -/
theorem whole (ho : Charted man a size s P) (hc : c ∈ P.bases) (hb : b ∈ P.whole c) :
    Fits b.ptr b.size ∧ Tagged s.heap.mem b ∧
      Flagged s.heap.mem b.ptr b.size (P.size c = size2M) ∧ b.st ≠ .hand ∧ 16 ≤ b.size ∧
      c + 16 ≤ b.ptr ∧ b.ptr + b.size + 16 ≤ P.stop c := by
  obtain ⟨hf, htag, hflag, hin⟩ := ho.managed.spans.whole ho.own hc hb
  have hst : b.st ≠ .hand := by
    rcases Pic.mem_whole.mp hb with hb | ⟨-, rfl⟩
    · exact ho.managed.settled c hc b hb
    · simp
  exact ⟨hf, htag, hflag hst, hst, hin⟩

theorem tiling_whole (ho : Charted man a size s P) (hc : c ∈ P.bases) :
    Tiling Block.ptr Block.len (c + 16) (P.whole c) (P.stop c) :=
  ho.managed.spans.tiling_whole hc

theorem blkSize_whole (ho : Charted man a size s P) (hc : c ∈ P.bases) (hb : b ∈ P.whole c) :
    blkSize s.heap.mem b.ptr = b.size :=
  ho.managed.spans.blkSize_whole ho.own hc hb

theorem blkFreed_whole (ho : Charted man a size s P) (hc : c ∈ P.bases) (hb : b ∈ P.whole c) :
    blkFreed s.heap.mem b.ptr = decide (b.st = .free) := by
  obtain ⟨hf, htag, -, hst, -⟩ := ho.whole hc hb
  have hlow := hf.low
  have hhigh := hf.high
  exact htag.blkFreed (by omega) (by omega) hst

theorem poolOf_eq (ho : Charted man a size s P) (c : Nat) :
    P.poolOf s.heap.pool.self c = poolAt man a c := by
  rw [Pic.poolOf, poolAt, ho.self, ho.tracked.main]

/-- Whatever is at an address is said once. -/
theorem eq_of_ptr (ho : Charted man a size s P) {d : Nat} {y : Block} (hc : c ∈ P.bases)
    (hb : b ∈ P.whole c) (hd : d ∈ P.bases) (hy : y ∈ P.whole d) (he : b.ptr = y.ptr) :
    c = d ∧ b = y := by
  obtain ⟨-, -, -, -, hb16, hblo, hbhi⟩ := ho.whole hc hb
  obtain ⟨-, -, -, -, hy16, hylo, hyhi⟩ := ho.whole hd hy
  have hcd : c = d := by
    rcases ho.managed.spans.areas_apart c hc d hd with hcd | hcd | hcd
    · exact hcd
    · omega
    · omega
  subst hcd
  refine ⟨rfl, ?_⟩
  have hlen : ∀ z : Block, z.len = z.size + 16 := fun _ => rfl
  have h1 := hlen b
  have h2 := hlen y
  rcases (ho.tiling_whole hc).apart hb hy with hby | hby | hby
  · exact hby
  · omega
  · omega

/-- What is held in an area is what is live in it. -/
theorem heldIn_eq (ho : Charted man a size s P) (hc : c ∈ P.bases) :
    heldIn s (c, P.size c) = liveSize (P.blocks c) := by
  have hl := ho.managed.spans
  refine live_sum (ho.nodup.filter _) (tiling_nodup (hl.tiling c hc)) (fun p => ?_) fun b hb _ =>
    ho.msize_eq hc hb
  rw [List.mem_filter, ho.live_iff p, decide_eq_true_iff]
  have hstop : ∀ d, P.stop d = d + P.size d := fun _ => rfl
  have hsc := hstop c
  constructor
  · rintro ⟨⟨d, hd, b, hb, rfl, hst⟩, hlo, hhi⟩
    have hbd := hl.bounds hd hb
    have hfirst := P.first_le d
    have hsd := hstop d
    dsimp only at hlo hhi
    rcases hl.areas_apart c hc d hd with rfl | he | he
    · exact ⟨b, hb, rfl, hst⟩
    · omega
    · omega
  · rintro ⟨b, hb, rfl, hst⟩
    have hbd := hl.bounds hc hb
    have hfirst := P.first_le c
    exact ⟨⟨c, hc, b, hb, rfl, hst⟩, by dsimp only; omega, by dsimp only; omega⟩

/-- Which lists a block is on. -/
theorem on_lists (ho : Charted man a size s P) (hc : c ∈ P.bases) (hb : b ∈ P.whole c) :
    if blkFreed s.heap.mem b.ptr
      then ∃ i, ∀ j, (P.lists j).count b.ptr = if j = i then 1 else 0
      else ∀ j, b.ptr ∉ P.lists j := by
  have hl := ho.managed.spans
  rw [ho.blkFreed_whole hc hb]
  by_cases hst : b.st = .free
  · rw [if_pos (decide_eq_true hst)]
    have hbb : b ∈ P.blocks c := (Pic.mem_whole.mp hb).resolve_right fun h => by
      rw [h.2] at hst
      exact absurd hst (by simp)
    have hmem : ∃ i, b.ptr ∈ P.lists i := by
      rcases hl.listed c hc b hbb hst with h | ⟨-, h⟩
      · exact ⟨_, h⟩
      · exact ⟨_, h⟩
    obtain ⟨i, hi⟩ := hmem
    refine ⟨i, fun j => ?_⟩
    by_cases hij : j = i
    · rw [if_pos hij, hij]
      exact List.count_eq_one_of_mem (hl.free.lists i).nodup hi
    · rw [if_neg hij]
      exact List.count_eq_zero.mpr fun hj => hij (hl.free.sole j i _ hj hi)
  · rw [if_neg (by simpa using hst)]
    intro j hj
    obtain ⟨d, hd, y, hy, hyb, hyf⟩ := hl.nodes j _ hj
    obtain ⟨-, rfl⟩ := ho.eq_of_ptr hd (Pic.mem_whole.mpr (.inl hy)) hc hb hyb
    exact hst hyf

end Charted

/-- **A recorded state is in order.** -/
theorem Recorded.safe (ho : Recorded man a size s P) :
    MmanSafe man a size s (P.bases.map fun c => (c, P.size c))
      (fun c => (P.whole c).map Block.ptr) P.lists := by
  have hl := ho.managed.spans
  have hp := ho.managed.pooled
  have harea : ∀ {Q : Nat × Nat → Prop}, (∀ c ∈ P.bases, Q (c, P.size c)) →
      ∀ e ∈ P.bases.map fun c => (c, P.size c), Q e := by
    intro Q h e he
    obtain ⟨c, hc, rfl⟩ := List.mem_map.mp he
    exact h c hc
  have hall : ∀ {Q : Nat → Nat × Nat → Prop},
      (∀ c ∈ P.bases, ∀ b ∈ P.whole c, Q b.ptr (c, P.size c)) →
      ∀ e ∈ P.bases.map fun c => (c, P.size c), ∀ p ∈ (P.whole e.1).map Block.ptr, Q p e := by
    intro Q h
    refine harea fun c hc p hp => ?_
    obtain ⟨b, hb, rfl⟩ := List.mem_map.mp hp
    exact h c hc b hb
  refine ⟨fun c n => ?_, ?_, ?_, harea fun c hc => ?_, hall fun c hc b hb => ?_,
    hall fun c hc b hb => ?_, hl.free.lists, hall fun c hc b hb => ho.on_lists hc hb,
    fun i p hp => ?_, fun p => ?_, ho.nodup, hall fun c hc b hb => ?_, harea fun c hc => ?_, ?_, ?_,
    ho.tracked.count_le, fun e he => ?_⟩
  · rw [ho.tracked.holds_iff, List.mem_map]
    constructor
    · rintro ⟨d, hd, he⟩
      obtain ⟨rfl, rfl⟩ := Prod.mk.inj he
      exact ⟨hd, rfl⟩
    · rintro ⟨hc, rfl⟩
      exact ⟨c, hc, rfl⟩
  · exact hp.nodup.map fun x y he => congrArg Prod.fst he
  · refine harea fun c hc => harea fun d hd => ?_
    refine (hl.areas_apart c hc d hd).imp (fun he => by rw [he]) id
  · exact (ho.tiling_whole hc).map (fun _ _ => rfl) fun b hb => by
      rw [ho.blkSize_whole hc hb]
      rfl
  · obtain ⟨hf, htag, -, hst, -⟩ := ho.whole hc hb
    have hlow := hf.low
    have hhigh := hf.high
    rw [ho.blkSize_whole hc hb, blkTail_eq _ (by omega), blkHead_eq _ (by omega) (by omega)]
    exact ⟨(and_notW_seven (Mem.read64_lt _ _)).trans htag.tail.size,
      htag.tail.freeFlag_eq htag.head hst⟩
  · obtain ⟨hf, -, -, -, h16, -⟩ := ho.whole hc hb
    rw [ho.blkSize_whole hc hb]
    exact ⟨hf.ptrAlign, hf.sizeAlign, h16⟩
  · obtain ⟨c, hc, b, hb, rfl, -⟩ := hl.nodes i p hp
    exact ⟨_, List.mem_map_of_mem hc, List.mem_map_of_mem (Pic.mem_whole.mpr (.inl hb))⟩
  · rw [ho.live_iff p]
    constructor
    · rintro ⟨c, hc, b, hb, rfl, hst⟩
      have hbw := Pic.mem_whole.mpr (.inl hb)
      refine ⟨_, List.mem_map_of_mem hc, List.mem_map_of_mem hbw, ?_, ?_⟩
      · rw [ho.blkFreed_whole hc hbw, hst]
        rfl
      · rw [← ho.poolOf_eq]
        have hpool : PoolByte P s.heap.pool.self (P.poolOf s.heap.pool.self c) :=
          ⟨c, hc, .inr ⟨Nat.le_refl _, by omega⟩⟩
        have hoff := hp.off_block hl hpool hc hb
        dsimp only
        omega
    · rintro ⟨e, he, hpe, hfree, hne⟩
      obtain ⟨c, hc, rfl⟩ := List.mem_map.mp he
      obtain ⟨b, hb, rfl⟩ := List.mem_map.mp hpe
      rw [ho.blkFreed_whole hc hb, decide_eq_false_iff_not] at hfree
      rcases Pic.mem_whole.mp hb with hb' | ⟨hmain, rfl⟩
      · refine ⟨c, hc, b, hb', rfl, ?_⟩
        have hset := ho.managed.settled c hc b hb'
        cases hst : b.st with
        | live => rfl
        | free => exact absurd hst hfree
        | hand => exact absurd hst hset
      · rw [ho.tracked.main] at hmain
        exact absurd (if_neg hmain).symm hne
  · obtain ⟨hf, -, hflag, -, -, hlo, hhi⟩ := ho.whole hc hb
    have hlow := hf.low
    have hstop : P.stop c = c + P.size c := rfl
    have hpool := hp.blkPoolptr_eq (hl.place c hc) hc (by omega) (by omega) hflag (by omega)
    rw [← ho.poolOf_eq]
    exact ⟨hpool, hp.ptr c hc, by dsimp only; omega, by dsimp only; omega⟩
  · rw [ho.heldIn_eq hc, ← ho.poolOf_eq]
    exact ho.balanced.counts c hc
  · rw [ho.balanced.alloced, Pic.inUse, List.map_map]
    congr 1
    refine List.map_congr_left fun c hc => ?_
    rw [Function.comp_apply, ← ho.poolOf_eq]
    exact (ho.balanced.counts c hc).symm
  · rw [ho.balanced.size, Pic.total, List.map_map]
    rfl
  · exact ho.main_kept e (ho.tracked.log.mem_iff.mpr (List.mem_append_left _ he))

/-! ## What goes back -/

/-- Nothing live and nothing on a list is outside the areas. -/
theorem Charted.vacated (ho : Charted man a size s P)
    (hap : ∀ d ∈ P.bases, c + n ≤ d ∨ P.stop d ≤ c) : Vacated s (c, n) := by
  have hl := ho.managed.spans
  have hblock : ∀ d ∈ P.bases, ∀ b ∈ P.blocks d, b.ptr < c ∨ c + n ≤ b.ptr := by
    intro d hd b hb
    have hbd := hl.bounds hd hb
    have hfirst := P.first_le d
    have := hap d hd
    omega
  refine ⟨fun q hq => ?_, fun x hx => ?_⟩
  · obtain ⟨d, hd, b, hb, rfl, -⟩ := (ho.live_iff q).mp hq
    exact hblock d hd b hb
  · obtain ⟨L, hL, i, hi⟩ := hx
    obtain rfl : L = P.lists := funext fun j => (hL j).unique (hl.free.lists j)
    obtain ⟨d, hd, b, hb, rfl, -⟩ := hl.nodes i x hi
    exact hblock d hd b hb

/-- **The last pointer** into an area is the one whose block is all that is live there. -/
theorem Charted.lastIn_iff (ho : Charted man a size s P) (hc : c ∈ P.secs)
    (hp : LiveAt (P.blocks c) p) :
    LastIn s p (c, P.size c) ↔ liveSize (P.blocks c) = mmanMsize s.heap p := by
  have hl := ho.managed.spans
  have hcb : c ∈ P.bases := List.mem_cons_of_mem _ hc
  have hlive : p ∈ s.live := (ho.live_iff p).mpr ⟨c, hcb, hp⟩
  obtain ⟨⟨y, k, st⟩, hb, hbp, hst⟩ := hp
  obtain rfl : y = p := hbp
  obtain rfl : st = .live := hst
  have hsize : mmanMsize s.heap y = k := ho.msize_eq hcb hb
  rw [hsize]
  constructor
  · rintro ⟨-, -, honly⟩
    have hperm : (s.live.filter fun q => c ≤ q ∧ q < c + P.size c).Perm [y] := by
      refine (List.perm_ext_iff_of_nodup (ho.nodup.filter _) (List.nodup_singleton y)).mpr fun q => ?_
      rw [List.mem_filter, decide_eq_true_iff, List.mem_singleton]
      constructor
      · rintro ⟨hq, hin⟩
        exact (honly q hq).mp hin
      · rintro rfl
        exact ⟨hlive, (honly q hlive).mpr rfl⟩
    rw [← ho.heldIn_eq hcb, heldIn, (hperm.map _).sum_nat]
    simpa using hsize
  · intro hlast
    refine ⟨ho.tracked.outstanding_iff.mpr ⟨hc, rfl⟩, hlive, fun q hq => ?_⟩
    have hstop : ∀ d, P.stop d = d + P.size d := fun _ => rfl
    have hsc := hstop c
    constructor
    · rintro ⟨hlo, hhi⟩
      obtain ⟨d, hd, z, hz, rfl, hzl⟩ := (ho.live_iff q).mp hq
      have hbd := hl.bounds hd hz
      have hfirst := P.first_le d
      have hsd := hstop d
      dsimp only at hlo hhi
      have hcd : c = d := by
        rcases hl.areas_apart c hcb d hd with he | he | he
        · exact he
        · omega
        · omega
      subst hcd
      obtain ⟨pre, post, hbs⟩ := List.append_of_mem hb
      have hset := ho.managed.settled c hcb
      rw [hbs] at hset hlast hz
      have hfree := free_of_last hset (fun b hb => (hl.sizes c hcb b (by
        rw [hbs]
        rcases List.mem_append.mp hb with hb | hb <;> simp [hb])).2) hlast
      simp only [List.mem_append, List.mem_cons] at hz
      rcases hz with hz | rfl | hz
      · exact absurd (hzl.symm.trans (hfree z (by simp [hz]))) (by simp)
      · rfl
      · exact absurd (hzl.symm.trans (hfree z (by simp [hz]))) (by simp)
    · rintro rfl
      have hbd := hl.bounds hcb hb
      have hfirst := P.first_le c
      dsimp only at hbd ⊢
      omega

/-- **What a release gives back.** -/
theorem givesBack_free (ho : Orderly man a size s P) (hp : p ∈ s.live)
    (hr : mmanFree libc s.heap p = some h) :
    (∃ P', Orderly man a size ⟨h, s.live.erase p⟩ P') ∧
      GivesBack s (.free p) ⟨h, s.live.erase p⟩ := by
  obtain ⟨c, P', hc, hat, hleaves, ho'⟩ := orderly_free ho hp hr
  have hl := ho.managed.spans
  refine ⟨⟨P', ho'⟩, ?_⟩
  have harea : ∀ e, LastIn s p e → c ∈ P.secs ∧ e = (c, P.size c) := by
    rintro ⟨d, n⟩ ⟨hout, -, honly⟩
    obtain ⟨hd, rfl⟩ := ho.tracked.outstanding_iff.mp hout
    have hdb : d ∈ P.bases := List.mem_cons_of_mem _ hd
    obtain ⟨hlo, hhi⟩ := (honly p hp).mpr rfl
    obtain ⟨b, hb, rfl, -⟩ := hat
    have hbd := hl.bounds hc hb
    have hfirst := P.first_le c
    have hstop : ∀ d, P.stop d = d + P.size d := fun _ => rfl
    have hsc := hstop c
    have hsd := hstop d
    dsimp only at hlo hhi
    have hcd : c = d := by
      rcases hl.areas_apart c hc d hdb with he | he | he
      · exact he
      · omega
      · omega
    subst hcd
    exact ⟨hd, rfl⟩
  cases hleaves with
  | listed bs L h hstay hrel hlog =>
      have hnot : ∀ e, ¬ LastIn s p e := by
        intro e he
        obtain ⟨hsec, rfl⟩ := harea e he
        have hlast := (ho.lastIn_iff hsec hat).mp he
        rcases hstay with hmain | hne | hcb
        · exact ho.managed.pooled.sec_ne hsec hmain
        · exact hne hlast
        · rw [ho.cbDelmem] at hcb
          exact absurd hcb (by simp)
      exact ⟨fun q e hq he => absurd (MmanOp.free.inj hq ▸ he) (hnot e), fun _ => hlog⟩
  | given b L h hsec hlast hcb hlog =>
      have hthis := (ho.lastIn_iff hsec hat).mpr hlast
      refine ⟨fun q e hq he => ?_, fun hno => absurd hthis (hno p _ rfl)⟩
      obtain rfl := MmanOp.free.inj hq
      obtain ⟨-, rfl⟩ := harea e he
      refine ⟨hlog, ho'.vacated fun d hd => ?_⟩
      obtain ⟨hd, hdc⟩ := (Pic.mem_drop (P := P.edit c [b] L) ho.managed.pooled.nodup hsec).mp hd
      have hap := (hl.areas_apart c hc d hd).resolve_left (Ne.symm hdc)
      exact hap

/-! ## Runs -/

theorem orderly_start (hs : Sound man a size) (hst : MmanStart man a size s) :
    Orderly man a size s (Pic.started a size) := by
  obtain ⟨h0, h, hlog, hinit, rfl⟩ := hst
  have hmanaged := managed_start hs hinit true true
  obtain ⟨h', hinit', -, -, hcount, hrest, hdel⟩ := mmanInit_spec hs h0
  obtain rfl : h' = h := congrArg Prod.snd (hinit'.symm.trans hinit)
  simp only [Mman.rest, startMman, Prod.mk.injEq] at hrest
  obtain ⟨hself, hsize, halloced, -, -, hlarge, hreq⟩ := hrest
  have hbase : ∀ c ∈ (Pic.started a size).bases, c = a := fun c hc => List.mem_singleton.mp hc
  have hblocks : (Pic.started a size).blocks a = [⟨a + 16, size - 32, .free⟩] :=
    Pic.edit_blocks _ _
  have hzero : liveSize ((Pic.started a size).blocks a) = 0 := by
    rw [hblocks]
    rfl
  have hbalanced : Balanced (mmanSetcb h' true true) (Pic.started a size) := by
    refine ⟨fun c hc => ?_, ?_, hsize, fun c hc => ?_⟩
    · rw [hbase c hc, hzero]
      show poolAllocedSize h'.mem ((Pic.started a size).poolOf h'.pool.self a) = 0
      rw [show (Pic.started a size).poolOf h'.pool.self a = h'.pool.self from if_pos rfl, hself]
      exact hcount
    · show h'.pool.allocedSize = (([a] : List Nat).map fun c =>
        liveSize ((Pic.started a size).blocks c)).sum
      rw [halloced]
      simp [hzero]
    · rw [hbase c hc, hblocks]
      exact List.IsChain.singleton _
  have htracked : Tracked a size (mmanSetcb h' true true) (Pic.started a size) := by
    refine ⟨rfl, rfl, hmanaged.pooled.nodup, ?_⟩
    show h'.pool.reqmem.Perm (h'.delmem ++ [])
    rw [hreq, hdel, hlog]
    exact List.Perm.refl _
  refine ⟨⟨⟨⟨hmanaged, fun c hc => absurd hc List.not_mem_nil, fun p => ?_, List.nodup_nil⟩,
    hself, htracked⟩, hbalanced, ?_, ?_⟩, fun c hc => absurd hc List.not_mem_nil⟩
  · refine iff_of_false List.not_mem_nil ?_
    rintro ⟨c, hc, b, hb, -, hlive⟩
    rw [hbase c hc, hblocks] at hb
    rw [List.mem_singleton.mp hb] at hlive
    exact absurd hlive (by simp)
  · show (h'.pool.self, true, true, h'.pool.large) = _
    rw [hself, hlarge]
  · show ∀ e ∈ h'.pool.reqmem, _
    rw [hreq]
    simp

/-- **One step** of a user who never resizes a block. -/
theorem plain_step (ho : Orderly man a size s P) (hlegal : op.Legal a size s) (hplain : op.Plain)
    (hst : MmanStep libc s op t) : (∃ P', Orderly man a size t P') ∧ GivesBack s op t := by
  cases hst with
  | @alloc n p reqmem h hr =>
      obtain ⟨-, hlt, hans⟩ := hlegal
      rcases orderly_alloc ho hplain.2 hlt hans hr with ⟨rfl, rfl⟩ | ⟨hp, -, -, hlog, P', ho'⟩
      · exact ⟨⟨P, ho⟩, by simp, fun _ => rfl⟩
      · rw [if_neg hp]
        exact ⟨⟨P', ho'⟩, by simp, fun _ => hlog⟩
  | free hr => exact givesBack_free ho hlegal hr
  | realloc hr => exact hplain.1.elim
  | store => exact ⟨⟨P, orderly_store ho hlegal⟩, by simp, fun _ => rfl⟩

/-- Some picture shows the state. -/
def Pictured (man a size : Nat) (s : MmanState) : Prop := ∃ P, Orderly man a size s P

theorem pictured_reachable (hs : Sound man a size)
    (hrun : Reachable (MmanStart man a size) (UserStep libc a size fun _ => MmanOp.Plain) s) :
    Pictured man a size s := by
  refine hrun.invariant (fun _ hst => ⟨_, orderly_start hs hst⟩) fun s t ho hst => ?_
  obtain ⟨P, ho⟩ := ho
  obtain ⟨op, hlegal, hplain, hst⟩ := hst
  exact (plain_step ho hlegal hplain hst).1

/--
**A manager over runs of allocations and releases.**

As long as no request is so large that rounding it up wraps, all areas are in
order in every state, and an area goes back just when its last live block is
released, with nothing left in it.
-/
theorem mman_in_order (hs : Sound man a size)
    (hrun : Reachable (MmanStart man a size) (UserStep libc a size fun _ => MmanOp.Plain) s) :
    MmanOk man a size s ∧ ∀ op t, op.Legal a size s → op.Plain → MmanStep libc s op t →
      GivesBack s op t := by
  obtain ⟨P, ho⟩ := pictured_reachable hs hrun
  exact ⟨⟨_, _, _, ho.safe⟩, fun _ _ hlegal hplain hst => (plain_step ho hlegal hplain hst).2⟩

/-! ## Some runs -/

/-- The state after an allocation. -/
def afterAlloc (s : MmanState) (n : Nat) (reqmem : Nat → Nat) : MmanState :=
  let r := (mmanAlloc noLibc reqmem s.heap n).getD (0, s.heap)
  ⟨r.2, r.1 :: s.live⟩

theorem afterAlloc_step {reqmem : Nat → Nat} (hp : p ≠ 0)
    (hr : (mmanAlloc noLibc reqmem s.heap n).map Prod.fst = some p) :
    MmanStep noLibc s (.alloc n reqmem) (afterAlloc s n reqmem) := by
  obtain ⟨⟨q, h⟩, hsome, rfl⟩ := Option.map_eq_some_iff.mp hr
  have hstep := MmanStep.alloc (s := s) hsome
  rw [if_neg hp] at hstep
  rwa [afterAlloc, hsome]

/-- The state after a release. -/
def afterFree (s : MmanState) (p : Nat) : MmanState :=
  ⟨(mmanFree noLibc s.heap p).getD s.heap, s.live.erase p⟩

theorem afterFree_step (hr : (mmanFree noLibc s.heap p).isSome) :
    MmanStep noLibc s (.free p) (afterFree s p) := by
  obtain ⟨h, hr⟩ := Option.isSome_iff_exists.mp hr
  have hstep := MmanStep.free (s := s) hr
  rwa [afterFree, hr]

/-- A manager just set up, and nothing held. -/
def freshState : MmanState := ⟨freshMman, []⟩

theorem freshMman_sound : Sound 8192 65536 size4k :=
  ⟨⟨.inl rfl, by decide, by decide, by decide⟩, by decide, by decide, by decide, by decide⟩

theorem freshState_start : MmanStart 8192 65536 size4k freshState :=
  ⟨_, _, rfl, Prod.ext (by rw [mmanInit_eq freshMman_sound]) rfl, rfl⟩

theorem answers_null : Answers a size h fun _ => 0 := fun _ _ => .inl rfl

/-- All of the main area is in one block. -/
def fullState : MmanState := afterAlloc freshState 4064 fun _ => 0

/-- And there is a block in an area of its own. -/
def twoState : MmanState := afterAlloc fullState 100 twoPlaces

theorem fullState_answers : Answers 65536 size4k fullState.heap twoPlaces := by
  have hlog : fullState.heap.pool.reqmem = [] := by decide +kernel
  have hself : fullState.heap.pool.self = 8192 := by decide +kernel
  have hmain : ∀ c k, Holds 65536 size4k fullState.heap c k → c = 65536 ∧ k = size4k := by
    intro c k hc
    refine hc.resolve_right fun hout => ?_
    rw [Outstanding, hlog] at hout
    exact absurd hout (Nat.not_lt_zero _)
  intro n hn
  rw [hself]
  rcases hn with rfl | rfl
  · refine .inr ⟨⟨.inl rfl, by decide, by decide, by decide⟩, fun c k hc => ?_, by decide⟩
    obtain ⟨rfl, rfl⟩ := hmain c k hc
    exact .inr (by decide)
  · refine .inr ⟨⟨.inr rfl, by decide, by decide, by decide⟩, fun c k hc => ?_, by decide⟩
    obtain ⟨rfl, rfl⟩ := hmain c k hc
    exact .inr (by decide)

theorem twoState_reachable : Reachable (MmanStart 8192 65536 size4k)
    (UserStep noLibc 65536 size4k fun _ => MmanOp.Plain) twoState := by
  have hfull : (mmanAlloc noLibc (fun _ => 0) freshState.heap 4064).map Prod.fst = some 65552 := by
    decide +kernel
  have htwo : (mmanAlloc noLibc twoPlaces fullState.heap 100).map Prod.fst = some 131136 := by
    decide +kernel
  have hrun : Reachable (MmanStart 8192 65536 size4k)
      (UserStep noLibc 65536 size4k fun _ => MmanOp.Plain) freshState := .init freshState_start
  have hrun' := hrun.tail ⟨.alloc 4064 fun _ => 0, ⟨by decide, by decide, answers_null⟩,
    ⟨trivial, by unfold MmanOp.Whole; decide⟩, afterAlloc_step (by decide) hfull⟩
  exact hrun'.tail ⟨.alloc 100 twoPlaces, ⟨by decide, by decide, fullState_answers⟩,
    ⟨trivial, by unfold MmanOp.Whole; decide⟩, afterAlloc_step (by decide) htwo⟩

/-- The area of the second block goes back with it. -/
theorem mman_in_order_two : MmanOk 8192 65536 size4k twoState ∧
    (afterFree twoState 131136).heap.delmem = [(131072, size4k)] ∧
    Vacated (afterFree twoState 131136) (131072, size4k) := by
  have hfree : (mmanFree noLibc twoState.heap 131136).isSome := by decide +kernel
  have hlive : 131136 ∈ twoState.live := by decide +kernel
  have hlast : LastIn twoState 131136 (131072, size4k) := by
    unfold LastIn Outstanding
    decide +kernel
  have hlog : twoState.heap.delmem = [] := by decide +kernel
  obtain ⟨hok, hback⟩ := mman_in_order freshMman_sound twoState_reachable
  obtain ⟨hdel, hvac⟩ := (hback (.free 131136) _ hlive ⟨trivial, trivial⟩
    (afterFree_step hfree)).last _ _ rfl hlast
  rw [hlog] at hdel
  exact ⟨hok, hdel, hvac⟩

/-- A block of size 0, the block behind it, and the release of the first. -/
def wrappedState : MmanState :=
  afterFree (afterAlloc (afterAlloc freshState (2 ^ 64 - 1) fun _ => 0) 16 fun _ => 0) 65552

/-- **A request that wraps** is given a block without a byte; its release overwrites the head of
the next one, and the count of the pool is no longer that of what is held. -/
theorem mman_out_of_order :
    Reachable (MmanStart 8192 65536 size4k)
      (UserStep noLibc 65536 size4k fun _ => MmanOp.NoResize) wrappedState ∧
      ¬ MmanOk 8192 65536 size4k wrappedState := by
  have hfirst : (mmanAlloc noLibc (fun _ => 0) freshState.heap (2 ^ 64 - 1)).map Prod.fst =
      some 65552 := by decide +kernel
  have hnext : (mmanAlloc noLibc (fun _ => 0)
      (afterAlloc freshState (2 ^ 64 - 1) fun _ => 0).heap 16).map Prod.fst = some 65568 := by
    decide +kernel
  have hfree : (mmanFree noLibc (afterAlloc (afterAlloc freshState (2 ^ 64 - 1) fun _ => 0) 16
      fun _ => 0).heap 65552).isSome := by decide +kernel
  have hlive : 65552 ∈ (afterAlloc (afterAlloc freshState (2 ^ 64 - 1) fun _ => 0) 16
      fun _ => 0).live := by decide +kernel
  have hcount : poolAllocedSize wrappedState.heap.mem 8192 = 16 := by decide +kernel
  have hheld : heldIn wrappedState (65536, size4k) = 0 := by decide +kernel
  have hrun : Reachable (MmanStart 8192 65536 size4k)
      (UserStep noLibc 65536 size4k fun _ => MmanOp.NoResize) freshState := .init freshState_start
  have hrun' := hrun.tail ⟨.alloc (2 ^ 64 - 1) fun _ => 0, ⟨by decide, by decide, answers_null⟩,
    trivial, afterAlloc_step (by decide) hfirst⟩
  have hrun'' := hrun'.tail ⟨.alloc 16 fun _ => 0, ⟨by decide, by decide, answers_null⟩,
    trivial, afterAlloc_step (by decide) hnext⟩
  refine ⟨hrun''.tail ⟨.free 65552, hlive, trivial, afterFree_step hfree⟩, ?_⟩
  rintro ⟨areas, ps, L, hsafe⟩
  have hmain : (65536, size4k) ∈ areas := (hsafe.areas_iff _ _).mpr (.inl ⟨rfl, rfl⟩)
  have hsame := hsafe.counts _ hmain
  rw [hheld, poolAt, if_pos rfl, hcount] at hsame
  exact absurd hsame (by decide)

end IonOS.Alloc
