import IonOS.Alloc.Safety

/-!
# What reallocation does to payloads

`mpool_realloc` stores tags, list links and copied bytes, on four different paths.
None of these stores goes to a payload that has to be kept: a store goes to a
block that is not live, to the tags of the block at hand, or into the new block.
`Kept` says so for single operations; here it is put together over the picture.
-/

namespace IonOS.Alloc

open IonOS.Lib IonOS.Libs

variable {a e : Nat} {h h1 : Heap Mpool} {m : Mem} {hd : Nat → Nat} {bs bs1 bs' : List Block}
  {L L1 L' : Nat → List Nat} {b : Block} {s : PoolState} {p q n k k1 r w : Nat}

/-- A live payload is clear of the tags and the payload of any other block. -/
theorem Layout.clear_of (hl : Layout a e m hd bs L) (hb : b ∈ bs) {c : Block} (hc : c ∈ bs)
    (hne : b.ptr ≠ c.ptr) (h1 : b.ptr ≤ w) (h2 : w < b.ptr + b.size) :
    w + 8 < c.ptr ∨ c.ptr + c.size + 8 ≤ w := by
  rcases hl.apart hb hc with rfl | h | h
  · exact absurd rfl hne
  · exact .inl (by omega)
  · exact .inr (by omega)

/-- An allocation leaves every live payload as it is. -/
theorem Allocated.payload (ha : Allocated a e h bs r p h1 k bs1 L1) (hl : Laid a e h bs L)
    (hb : b ∈ bs) (hst : b.st = .live) (hw1 : b.ptr ≤ w) (hw2 : w < b.ptr + b.size) :
    h1.mem w = h.mem w :=
  (ha.kept w (hl.outside_live hb hst hw1 hw2)).1

/-- A release leaves every other live payload as it is. -/
theorem Freed.payload (hf : Freed a e h bs p k h1 bs' L') (hl : Laid a e h bs L)
    (hb : b ∈ bs) (hst : b.st = .live) (hne : b.ptr ≠ p) (hw1 : b.ptr ≤ w)
    (hw2 : w < b.ptr + b.size) : h1.mem w = h.mem w := by
  have hp : (⟨p, k, .live⟩ : Block) ∈ bs := (hf.releases.live_iff rfl).mpr (.inl rfl)
  exact hf.kept w (hl.outside_live hb hst hw1 hw2) (hl.clear_of hb hp hne hw1 hw2)

/-- Resizing in place leaves every other live payload as it is. -/
theorem Resized.payload (hr : Resized a e h bs r p k h1 k1 bs' L') (hl : Laid a e h bs L)
    (hb : b ∈ bs) (hst : b.st = .live) (hne : b.ptr ≠ p) (hw1 : b.ptr ≤ w)
    (hw2 : w < b.ptr + b.size) : h1.mem w = h.mem w :=
  hr.kept w (hl.outside_live hb hst hw1 hw2) (hl.clear_of hb hr.resizes.mem.1 hne hw1 hw2)

/-- **The payloads after a reallocation** of the block at `p`, which is now at `q`. -/
structure Preserved (s : PoolState) (p n q : Nat) (h : Heap Mpool) : Prop where
  /-- The new block has room for what was asked for. -/
  room : n ≤ mpoolMsize h q
  /-- The bytes that the old and the new block share are the old ones. -/
  contents : ∀ i < min (mpoolMsize s.heap p) (requestSize n), h.mem (q + i) = s.heap.mem (p + i)
  /-- Every other live block keeps its size and its bytes. -/
  others : ∀ x ∈ s.live, x ≠ p → mpoolMsize h x = mpoolMsize s.heap x ∧
    ∀ i < mpoolMsize s.heap x, h.mem (x + i) = s.heap.mem (x + i)

/-- Resizing in place keeps what the block held, up to the smaller of the two sizes. -/
theorem Resized.preserved (hs : Shows a e s bs L) (hp : p ∈ s.live) (hn : n ≤ 2 ^ 64 - 16)
    (hr : Resized a e s.heap bs (requestSize n) p k h k1 bs' L') : Preserved s p n p h := by
  have hs' := hs.resized hp hr
  obtain ⟨hold, hnew⟩ := hr.resizes.mem
  have hsize := hs.msize_eq hold
  have hsize' := hs'.msize_eq hnew
  dsimp only at hsize hsize'
  obtain ⟨-, -, hreq, -⟩ := requestSize_spec hn
  have hk := hr.resizes.le_size
  refine ⟨by omega, fun i hi => hr.prefix_kept _ (by omega) (by omega), fun x hx hne => ?_⟩
  obtain ⟨b, hb, rfl, hst⟩ := (hs.live_iff x).mp hx
  have hb' := (hr.resizes.live_iff hst hne).mpr hb
  have hsz := hs.msize_eq hb
  rw [hsz]
  exact ⟨hs'.msize_eq hb', fun i hi => hr.payload hs.laid hb hst hne (by omega) (by omega)⟩

/-- Moving copies all of the old block, which is the smaller one. -/
theorem Relocated.preserved (hs : Shows a e s bs L) (hnd : s.live.Nodup) (hp : p ∈ s.live)
    (hn : n ≤ 2 ^ 64 - 16)
    (hr : Relocated a e s.heap bs (requestSize n) p k q h1 k1 bs1 L1 h bs' L') :
    Preserved s p n q h := by
  obtain ⟨hqp, hnd1, hs2, hs3⟩ := hs.relocated hnd hp hr
  obtain ⟨hsmall, hall, hfree⟩ := hr
  have hk := hall.takes.le_size
  have hqnew : q ∉ s.live := (List.nodup_cons.mp hnd1).1
  have hlaid : Laid a e { h1 with mem := memcpy h1.mem q p k } bs1 L1 := hs2.laid
  have hq1 := hall.takes.mem
  have hp1 : (⟨p, k, .live⟩ : Block) ∈ bs1 := (hfree.releases.live_iff rfl).mpr (.inl rfl)
  have hp0 : (⟨p, k, .live⟩ : Block) ∈ bs := by
    rcases (hall.takes.live_iff rfl).mp hp1 with he | hp0
    · exact absurd (congrArg Block.ptr he).symm hqp
    · exact hp0
  have hq' : (⟨q, k1, .live⟩ : Block) ∈ bs' := by
    rcases (hfree.releases.live_iff rfl).mp hq1 with he | hq'
    · exact absurd (congrArg Block.ptr he) hqp
    · exact hq'
  have hsize := hs.msize_eq hp0
  have hsize' := hs3.msize_eq hq'
  dsimp only at hsize hsize'
  obtain ⟨-, -, hreq, -⟩ := requestSize_spec hn
  have hap : q + k ≤ p ∨ p + k ≤ q := by
    rcases hall.laid.apart hq1 hp1 with he | he | he
    · exact absurd (congrArg Block.ptr he) hqp
    · exact .inl (by dsimp only at he; omega)
    · exact .inr (by dsimp only at he; omega)
  refine ⟨by omega, fun i hi => ?_, fun x hx hne => ?_⟩
  · -- released, copied, and not touched by the allocation before
    have hfr := hfree.payload hlaid hq1 rfl hqp (w := q + i) (Nat.le_add_right _ _)
      (by dsimp only; omega)
    have hcp : memcpy h1.mem q p k (q + i) = h1.mem (p + i) := memcpy_inside hap (by omega)
    have hal := hall.payload hs.laid hp0 rfl (w := p + i) (Nat.le_add_right _ _)
      (by dsimp only; omega)
    exact (hfr.trans hcp).trans hal
  · obtain ⟨b, hb, rfl, hst⟩ := (hs.live_iff x).mp hx
    have hb1 : b ∈ bs1 := (hall.takes.live_iff hst).mpr (.inr hb)
    have hbq : b.ptr ≠ q := fun he => hqnew (he ▸ hx)
    have hb' : b ∈ bs' := by
      rcases (hfree.releases.live_iff hst).mp hb1 with he | hb'
      · exact absurd (congrArg Block.ptr he) hne
      · exact hb'
    have hsz := hs.msize_eq hb
    rw [hsz]
    refine ⟨hs3.msize_eq hb', fun i hi => ?_⟩
    have hclear := hall.laid.clear_of hb1 hq1 hbq (w := b.ptr + i) (by omega) (by omega)
    dsimp only at hclear
    have hfr := hfree.payload hlaid hb1 hst hne (w := b.ptr + i) (by omega) (by omega)
    have hcp : memcpy h1.mem q p k (b.ptr + i) = h1.mem (b.ptr + i) := memcpy_other (by omega)
    have hal := hall.payload hs.laid hb hst (w := b.ptr + i) (by omega) (by omega)
    exact (hfr.trans hcp).trans hal

/-- A reallocation that succeeds keeps the payloads. -/
theorem preserved_realloc (hi : Inv a e s) (hp : p ∈ s.live) (hn : n ≤ 2 ^ 64 - 16)
    (hr : mpoolRealloc s.heap p n = some (q, h)) : Preserved s p n q h := by
  obtain ⟨bs, L, hs⟩ := hi.shows
  obtain ⟨pre, k, post, rfl⟩ := hs.block hp
  have hlow := (hs.laid.fitsOf (b := ⟨p, k, .live⟩) (by simp)).low
  dsimp only at hlow
  rw [mpoolRealloc_eq (by omega)] at hr
  rcases reallocBy_cases hs.laid hs.settled hn (mpoolAlloc_again hs.laid hi.quiet hn) with
    ⟨-, h', k', bs', L', hr', hres⟩ | ⟨-, -, hr'⟩ | ⟨-, q', h1, k', bs1, L1, h', bs', L', -, hr', hrel⟩
  · obtain ⟨rfl, rfl⟩ := Prod.mk.inj (Option.some.inj (hr'.symm.trans hr))
    exact hres.preserved hs hp hn
  · exact absurd (hr'.symm.trans hr) (by simp)
  · obtain ⟨rfl, rfl⟩ := Prod.mk.inj (Option.some.inj (hr'.symm.trans hr))
    exact hrel.preserved hs hi.nodup hp hn

/--
**Reallocation preserves data.**

In every state that a run leads to and for every pointer held, a reallocation
that succeeds gives a live block with enough room and the old contents, and
leaves every other live block as it was.
-/
theorem realloc_preserves {pool size : Nat} (hplace : PoolPlace pool a size)
    (hrun : Reachable (PoolStart a size) PoolStep s) (hp : p ∈ s.live) (hn : n ≤ 2 ^ 64 - 16)
    (hr : mpoolRealloc s.heap p n = some (q, h)) :
    (∃ ps L, HeapSafe a (a + size) h (q :: s.live.erase p) ps L) ∧ Preserved s p n q h := by
  have hi := inv_reachable hplace hrun
  exact ⟨heapSafe_of_inv (inv_realloc hi hp hn hr), preserved_realloc hi hp hn hr⟩

/-- Growing the only block of the smallest pool, from 32 bytes to 112. -/
theorem realloc_preserves_grown :
    ∃ h h', mpoolAlloc (mpoolInit emptyHeap 65536 16416).2 24 = some (65552, h) ∧
      mpoolRealloc h 65552 100 = some (65552, h') ∧
      Preserved ⟨h, [65552]⟩ 65552 100 65552 h' := by
  have hplace : PoolPlace 4096 65536 16416 := by constructor <;> decide
  have hinit : (mpoolInit emptyHeap 65536 16416).1 = true := by decide +kernel
  have hrun : ((mpoolAlloc (mpoolInit emptyHeap 65536 16416).2 24).bind fun r =>
      (mpoolRealloc r.2 65552 100).map fun r' => (r.1, r'.1)) = some (65552, 65552) := by
    decide +kernel
  obtain ⟨⟨p, h⟩, hr, hrun⟩ := Option.bind_eq_some_iff.mp hrun
  obtain ⟨⟨q, h'⟩, hr', heq⟩ := Option.map_eq_some_iff.mp hrun
  obtain ⟨rfl, rfl⟩ := Prod.mk.inj heq
  have hstart : Reachable (PoolStart 65536 16416) PoolStep
      ⟨(mpoolInit emptyHeap 65536 16416).2, []⟩ :=
    .init ⟨⟨emptyHeap, Prod.ext hinit rfl⟩, rfl⟩
  exact ⟨h, h', hr, hr', (realloc_preserves hplace (hstart.tail (.alloc (by decide) hr))
    (p := 65552) (by simp) (by decide) hr').2⟩

end IonOS.Alloc
