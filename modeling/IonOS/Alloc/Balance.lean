import IonOS.Alloc.Charted
import Mathlib.Algebra.Order.BigOperators.Group.List

/-!
# The books of a manager

Each pool counts what is live in its area, the manager what is live in all of
them and how big they are together. `Balanced` says that these numbers are right,
and that no two neighbours are free: with both, a secondary area whose count is
zero is one single block, and nothing of it is on a list once that is in hand.

Sums of sizes cannot wrap, because the areas do not overlap.
-/

namespace IonOS.Alloc

open IonOS.Lib

variable {h h' : Heap Mman} {m : Mem} {hd : Nat → Nat} {P : Pic} {f : Nat → Nat}
  {a c k s size x man : Nat} {bs bs₀ pre post : List Block} {L L₀ : Nat → List Nat}

/-! ## Sums over the areas -/

/-- The bytes in use. -/
def Pic.inUse (P : Pic) : Nat := (P.bases.map fun c => liveSize (P.blocks c)).sum

/-- The bytes of all areas. -/
def Pic.total (P : Pic) : Nat := (P.bases.map P.size).sum

/-- Other blocks in one area. -/
theorem Pic.inUse_edit (hnd : P.bases.Nodup) (ha : a ∈ P.bases) :
    (P.edit a bs L).inUse + liveSize (P.blocks a) = P.inUse + liveSize bs := by
  have hold := List.sum_map_erase (fun c => liveSize (P.blocks c)) ha
  have hnew := List.sum_map_erase (fun c => liveSize ((P.edit a bs L).blocks c)) ha
  have hrest : (P.bases.erase a).map (fun c => liveSize ((P.edit a bs L).blocks c)) =
      (P.bases.erase a).map fun c => liveSize (P.blocks c) := by
    refine List.map_congr_left fun c hc => ?_
    rw [Pic.edit_blocks_ne (hnd.mem_erase_iff.mp hc).1]
  rw [hrest, Pic.edit_blocks] at hnew
  unfold Pic.inUse
  rw [Pic.edit_bases]
  omega

/-- An area left out. -/
theorem Pic.sum_drop (g : Nat → Nat) (ha : a ∈ P.secs) :
    ((P.drop a).bases.map g).sum + g a = (P.bases.map g).sum := by
  have hsum := List.sum_map_erase g ha
  show (g P.main + ((P.secs.erase a).map g).sum) + g a = g P.main + (P.secs.map g).sum
  omega

/-- An area more. -/
theorem Pic.sum_entered (g : Nat → Nat) :
    ((P.entered a size).bases.map g).sum = (P.bases.map g).sum + g a := by
  show g P.main + (g a + (P.secs.map g).sum) = (g P.main + (P.secs.map g).sum) + g a
  omega

theorem Pic.entered_size : (P.entered a size).size a = size := Function.update_self ..

theorem Pic.entered_size_ne (hne : c ≠ a) : (P.entered a size).size c = P.size c :=
  Function.update_of_ne hne ..

theorem Fresh.inUse_entered (hf : Fresh P man a size) (hl : Spread m hd P) :
    (P.entered a size).inUse = P.inUse := by
  have hsame : P.bases.map (fun c => liveSize ((P.entered a size).blocks c)) =
      P.bases.map fun c => liveSize (P.blocks c) := by
    refine List.map_congr_left fun c hc => ?_
    rw [Pic.entered_blocks_ne (hf.ne hc hl)]
  rw [Pic.inUse, Pic.sum_entered, hsame, Pic.entered_blocks]
  rfl

theorem Fresh.total_entered (hf : Fresh P man a size) (hl : Spread m hd P) :
    (P.entered a size).total = P.total + size := by
  have hsame : P.bases.map (P.entered a size).size = P.bases.map P.size :=
    List.map_congr_left fun c hc => Pic.entered_size_ne (hf.ne hc hl)
  rw [Pic.total, Pic.sum_entered, hsame, Pic.entered_size]
  rfl

theorem Spread.liveSize_le (hl : Spread m hd P) (ha : a ∈ P.bases) :
    liveSize (P.blocks a) ≤ P.size a := by
  have hin := Alloc.liveSize_le (hl.tiling a ha)
  have hfirst := P.first_le a
  have hstop : P.stop a = a + P.size a := rfl
  omega

/-- What is in use fits into the areas. -/
theorem Spread.inUse_le (hl : Spread m hd P) : P.inUse ≤ P.total :=
  List.sum_le_sum fun _ hc => hl.liveSize_le hc

/-! ## The books -/

/-- **All counts are right**, and free neighbours are merged. -/
structure Balanced (h : Heap Mman) (P : Pic) : Prop where
  counts : ∀ a ∈ P.bases,
    poolAllocedSize h.mem (P.poolOf h.pool.self a) = liveSize (P.blocks a)
  alloced : h.pool.allocedSize = P.inUse
  size : h.pool.size = P.total
  coalesced : ∀ a ∈ P.bases, Coalesced (P.blocks a)

/-- What counts right keeps the books. -/
theorem Balanced.tallied (hb : Balanced h P) (ha : a ∈ P.bases)
    (ht : Tallied f h (P.edit a bs₀ L₀) a h' (P.edit a bs L))
    (hcount : f (liveSize (P.blocks a)) = liveSize bs)
    (hall : f P.inUse = (P.edit a bs L).inUse) (hco : Coalesced bs) :
    Balanced h' (P.edit a bs L) := by
  refine ⟨fun c hc => ?_, ?_, ?_, Pic.edit_all L hb.coalesced hco⟩
  · rw [ht.self]
    by_cases hca : c = a
    · subst hca
      rw [Pic.edit_blocks, ← hcount, ← hb.counts c ha]
      exact ht.count
    · rw [Pic.edit_blocks_ne hca, ← hb.counts c hc]
      exact ht.others c hc hca
  · have halloced : h'.pool.allocedSize = f h.pool.allocedSize :=
      congrArg (fun r => r.2.2.1) ht.rest
    rw [halloced, hb.alloced, hall]
  · have hsize : h'.pool.size = h.pool.size := congrArg (fun r => r.2.1) ht.rest
    exact hsize.trans hb.size

/-- **A block taken** is counted in. -/
theorem Balanced.supplied {r p : Nat} {P' : Pic} (hb : Balanced h P) (hnd : P.bases.Nodup)
    (hs : Supplied r h P p k a h' P') : Balanced h' P' := by
  obtain ⟨bs, L, rfl, htake⟩ := hs.edit
  have ht : Tallied (addW · k) h (P.edit a (P.blocks a) P.lists) a h' (P.edit a bs L) := by
    rw [Pic.edit_self]
    exact hs.tallied
  have hlive := htake.liveSize_eq
  have huse : (P.edit a bs L).inUse + _ = _ := Pic.inUse_edit hnd hs.base
  have hle := ht.spans.inUse_le
  have htotal : (P.edit a bs L).total < 2 ^ 64 := ht.spans.total hnd
  have hone := ht.spans.liveSize_le hs.base
  have hfit := (ht.spans.place a hs.base).fits
  have hpos := (ht.spans.place a hs.base).bounds.2.1
  rw [Pic.edit_blocks] at hone
  refine hb.tallied hs.base ht ?_ ?_ (htake.coalesced (hb.coalesced a hs.base))
  · show addW (liveSize (P.blocks a)) k = _
    rw [addW_of_lt (by omega), hlive]
  · show addW P.inUse k = _
    rw [addW_of_lt (by omega)]
    omega

/-- A block counted out. -/
theorem Balanced.debited (hb : Balanced h P) (hl : Spans h P) (hnd : P.bases.Nodup)
    (ha : a ∈ P.bases) (ht : Tallied (subW · s) h (P.edit a bs₀ L₀) a h' (P.edit a bs L))
    (hlive : liveSize (P.blocks a) = liveSize bs + s) (hco : Coalesced bs) :
    Balanced h' (P.edit a bs L) := by
  have huse : (P.edit a bs L).inUse + _ = _ := Pic.inUse_edit hnd ha
  have hle := hl.inUse_le
  have htotal : P.total < 2 ^ 64 := hl.total hnd
  have hone := hl.liveSize_le ha
  have hfit := (hl.place a ha).fits
  have hpos := (hl.place a ha).bounds.2.1
  refine hb.tallied ha ht ?_ ?_ hco
  · show subW (liveSize (P.blocks a)) s = _
    rw [subW_of_le (by omega) (by omega)]
    omega
  · show subW P.inUse s = _
    rw [subW_of_le (by omega) (by omega)]
    omega

/-- The counts of the other areas are not touched when one is entered. -/
theorem Entered.counts (he : Entered h P a size h') (hl : Spans h P)
    (hp : Pooled h.mem h.pool.self P) (hf : Fresh P h.pool.self a size) (hc : c ∈ P.bases) :
    poolAllocedSize h'.mem (P.poolOf h.pool.self c) =
      poolAllocedSize h.mem (P.poolOf h.pool.self c) := by
  have hplace := (hl.place c hc).bounds
  have hstop : P.stop c = c + P.size c := rfl
  have hap := hf.apart c hc
  have hoff := hf.off
  have hmc := hp.apart c hc
  have hsize : sizeofMman = 256 := rfl
  refine Mem.read64_congr fun w h1 h2 => ?_
  have haway : Away P w := hp.away hl ⟨c, hc, .inr ⟨by omega, by omega⟩⟩
  unfold Pic.poolOf at h1 h2
  refine he.kept w haway ?_ ?_
  · split_ifs at h1 h2 <;> omega
  · split_ifs at h1 h2 <;> omega

/-- **An area more.** -/
theorem Balanced.entered (hb : Balanced h P) (hl : Spans h P) (hp : Pooled h.mem h.pool.self P)
    (hf : Fresh P h.pool.self a size) (he : Entered h P a size h') :
    Balanced h' (P.entered a size) := by
  have hself : h'.pool.self = h.pool.self := he.self
  have hmain : a ≠ P.main := (hf.ne (c := P.main) List.mem_cons_self hl).symm
  refine ⟨fun c hc => ?_, ?_, ?_, fun c hc => ?_⟩
  · rw [hself]
    rcases Pic.mem_entered.mp hc with rfl | hc
    · rw [Pic.entered_blocks]
      have hpool : (P.entered c size).poolOf h.pool.self c = c + 16 := if_neg hmain
      rw [hpool]
      exact he.count
    · rw [Pic.entered_blocks_ne (hf.ne hc hl), ← hb.counts c hc]
      exact he.counts hl hp hf hc
  · have halloced : h'.pool.allocedSize = h.pool.allocedSize := congrArg (fun r => r.2.2.1) he.rest
    rw [halloced, hb.alloced, hf.inUse_entered hl]
  · have hsize : h'.pool.size = addW h.pool.size size := congrArg (fun r => r.2.1) he.rest
    have htotal : (P.entered a size).total < 2 ^ 64 :=
      he.spans.total (he.pooled.nodup)
    rw [hf.total_entered hl] at htotal
    rw [hsize, hb.size, hf.total_entered hl, addW_of_lt htotal]
  · rcases Pic.mem_entered.mp hc with rfl | hc
    · rw [Pic.entered_blocks]
      exact List.IsChain.singleton _
    · rw [Pic.entered_blocks_ne (hf.ne hc hl)]
      exact hb.coalesced c hc

/-- **An area less**, one in which nothing is live. -/
theorem Balanced.dropped (hb : Balanced h P) (hl : Spans h P) (hnd : P.bases.Nodup)
    (ha : a ∈ P.secs) (hd : Dropped h P a h') (hzero : liveSize (P.blocks a) = 0) :
    Balanced h' (P.drop a) := by
  have hself : h'.pool.self = h.pool.self :=
    Mman.rest_self (q := { h.pool with size := subW h.pool.size (P.size a) }) hd.rest
  refine ⟨fun c hc => ?_, ?_, ?_, fun c hc => hb.coalesced c (Pic.drop_sub hc)⟩
  · rw [hself]
    exact (hd.counts c (Pic.drop_sub hc)).trans (hb.counts c (Pic.drop_sub hc))
  · have halloced : h'.pool.allocedSize = h.pool.allocedSize := congrArg (fun r => r.2.2.1) hd.rest
    have hsum := Pic.sum_drop (fun c => liveSize (P.blocks c)) ha
    rw [halloced, hb.alloced]
    show P.inUse = ((P.drop a).bases.map fun c => liveSize (P.blocks c)).sum
    unfold Pic.inUse
    omega
  · have hsize : h'.pool.size = subW h.pool.size (P.size a) := congrArg (fun r => r.2.1) hd.rest
    have hsum := Pic.sum_drop P.size ha
    have htotal := hl.total hnd
    rw [hsize, hb.size, Pic.total, subW_of_le (by omega) htotal]
    show _ = ((P.drop a).bases.map P.size).sum
    omega

/-! ## Operations on a manager at rest -/

/-- What of a manager no call changes but `mman_setcb` and those for large blocks. -/
def Mman.fixed (p : Mman) : Nat × Bool × Bool × (Nat → Nat) :=
  (p.self, p.cbReqmem, p.cbDelmem, p.large)

theorem Mman.fixed_of_rest {p q : Mman} {v w : Nat}
    (h : p.rest = Mman.rest { q with size := v, allocedSize := w }) :
    p.fixed = q.fixed ∧ p.reqmem = q.reqmem := by
  simp only [Mman.rest, Mman.fixed, Prod.mk.injEq] at h ⊢
  obtain ⟨r1, -, -, r4, r5, r6, r7⟩ := h
  exact ⟨⟨r1, r4, r5, r6⟩, r7⟩

/-- Merging among free blocks leaves one. -/
theorem Absorbed.alone {cs cs' : List Block} (habs : Absorbed cs cs') (hco : Coalesced cs)
    (hfree : ∀ b ∈ cs, b.st = .free) : cs' = [] := by
  have hbusy := (habs.busy hco).1
  cases hcs : cs' with
  | nil => rfl
  | cons b l =>
      rw [hcs] at hbusy habs
      have hb := hbusy b rfl
      exact absurd (hfree b ((habs.mem_iff hb).mp List.mem_cons_self)) hb

/-- When one block is all that is live, the others are free. -/
theorem free_of_last (hset : Settled (pre ++ ⟨x, s, .live⟩ :: post))
    (hsz : ∀ b ∈ pre ++ post, 16 ≤ b.size)
    (hlast : liveSize (pre ++ ⟨x, s, .live⟩ :: post) = s) : ∀ b ∈ pre ++ post, b.st = .free := by
  intro b hb
  have hzero : liveSize (pre ++ post) = 0 := by
    simp only [liveSize_append, liveSize_cons, if_true] at hlast ⊢
    omega
  cases hst : b.st with
  | free => rfl
  | hand => exact absurd hst (hset.sides b hb)
  | live =>
      have := size_le_liveSize hb hst
      have := hsz b hb
      omega

/-- **What a release leaves**, if the books were right. -/
inductive Leaves (h : Heap Mman) (P : Pic) (a x s : Nat) : Heap Mman → Pic → Prop where
  | listed (bs : List Block) (L : Nat → List Nat) (h' : Heap Mman)
      (hstay : a = P.main ∨ liveSize (P.blocks a) ≠ s ∨ h.pool.cbDelmem = false)
      (hrel : Releases (P.blocks a) x s bs) (hlog : h'.delmem = h.delmem) :
      Leaves h P a x s h' (P.edit a bs L)
  | given (b : Block) (L : Nat → List Nat) (h' : Heap Mman) (hsec : a ∈ P.secs)
      (hlast : liveSize (P.blocks a) = s) (hcb : h.pool.cbDelmem = true)
      (hlog : h'.delmem = h.delmem ++ [(a, P.size a)]) :
      Leaves h P a x s h' ((P.edit a [b] L).drop a)

/-- **Releasing a block** when the books are right. -/
theorem Charted.released {a₀ size₀ : Nat} {s : MmanState} (ho : Charted man a₀ size₀ s P)
    (hb : Balanced s.heap P) (ha : a ∈ P.bases)
    (hbs : P.blocks a = pre ++ ⟨x, k, .live⟩ :: post) :
    ∃ h' P', mmanRelease s.heap x = some h' ∧ Leaves s.heap P a x k h' P' ∧
      Charted man a₀ size₀ ⟨h', s.live.erase x⟩ P' ∧ Balanced h' P' ∧
      h'.pool.fixed = s.heap.pool.fixed ∧ h'.pool.reqmem = s.heap.pool.reqmem := by
  have hm := ho.managed
  have hp := hm.pooled
  obtain ⟨h', hr, hret⟩ := mmanRelease_spec hm ha hbs
  have htaken := (hm.spans.takeLive ha hbs).1
  have hlive : k ≤ liveSize (P.blocks a) :=
    size_le_liveSize (b := ⟨x, k, .live⟩) (by rw [hbs]; simp) rfl
  have hone := hm.spans.liveSize_le ha
  have hplace := (hm.spans.place a ha).bounds
  have hcount : subW (poolAllocedSize s.heap.mem (P.poolOf s.heap.pool.self a)) k = 0 ↔
      liveSize (P.blocks a) = k := by
    rw [hb.counts a ha, subW_of_le hlive (by omega)]
    omega
  cases hret with
  | listed bs L hstay hrel ht =>
      obtain ⟨hfix, hreq⟩ := Mman.fixed_of_rest (v := s.heap.pool.size) ht.rest
      rw [ne_eq, hcount] at hstay
      exact ⟨h', P.edit a bs L, hr, .listed bs L h' hstay hrel ht.delmem,
        ho.listed ha hbs hrel ht, hb.debited hm.spans hp.nodup ha ht hrel.liveSize_eq
          (hrel.coalesced (hb.coalesced a ha)), hfix, hreq⟩
  | given pre' post' x' k' L h₁ hsec hzero hcb hpre hpost ht hd =>
      have hlast := hcount.mp hzero
      have hset := hm.settled a ha
      have hco := hb.coalesced a ha
      have hsz : ∀ b ∈ pre ++ post, 16 ≤ b.size := fun b hbm => (hm.spans.sizes a ha b (by
        rw [hbs]
        rcases List.mem_append.mp hbm with hbm | hbm <;> simp [hbm])).2
      rw [hbs] at hset hco
      obtain ⟨hcpre, hcpost⟩ := (coalesced_middle (by simp)).mp hco
      have hfree := free_of_last hset hsz (hbs ▸ hlast)
      -- the merged block has the area to itself
      obtain rfl : pre' = [] := List.reverse_eq_nil_iff.mp
        (hpre.alone (coalesced_reverse.mpr hcpre) fun b hbm => hfree b
          (List.mem_append_left _ (List.mem_reverse.mp hbm)))
      obtain rfl : post' = [] := hpost.alone hcpost fun b hbm =>
        hfree b (List.mem_append_right _ hbm)
      have hb₁ : Balanced h₁ (P.edit a [⟨x', k', .hand⟩] L) :=
        hb.debited hm.spans hp.nodup ha ht (by simpa using hlast) (List.IsChain.singleton _)
      obtain ⟨hfix, hreq⟩ := Mman.fixed_of_rest (v := s.heap.pool.size) ht.rest
      obtain ⟨hfix', hreq'⟩ := Mman.fixed_of_rest (w := h₁.pool.allocedSize) hd.rest
      have hself₁ : h₁.pool.self = s.heap.pool.self := congrArg Prod.fst hfix
      have hself : h'.pool.self = h₁.pool.self := congrArg Prod.fst hfix'
      have hp₁ : Pooled h₁.mem h₁.pool.self (P.edit a [⟨x', k', .hand⟩] L) := by
        rw [hself₁]
        exact ht.pooled
      have hlog : h'.delmem = s.heap.delmem ++ [(a, P.size a)] := by
        rw [hd.delmem, ht.delmem]
        rfl
      have hown₁ : OwnBlocks h₁.mem (P.edit a [⟨x', k', .hand⟩] L) :=
        ho.own.tallied htaken hp ha ht
      have ht₀ : Tracked a₀ size₀ s.heap (P.edit a [⟨x', k', .hand⟩] L) := ho.tracked.edit rfl rfl
      have hmem := fun d => Pic.mem_drop (P := P.edit a [⟨x', k', .hand⟩] L) (c := d) hp.nodup hsec
      refine ⟨h', (P.edit a [⟨x', k', .hand⟩] L).drop a, hr, .given _ L h' hsec hlast hcb hlog,
        ⟨⟨⟨hd.spans.drop hp.nodup hsec (by simp), ?_, fun d hdm => ?_⟩,
          hown₁.dropped ht.spans hp₁ hd, fun q => ?_, ho.nodup.erase x⟩,
          (hself.trans hself₁).trans ho.self, ht₀.drop hsec (hreq'.trans hreq) hlog⟩,
        hb₁.dropped ht.spans hp.nodup hsec hd (by simp), hfix'.trans hfix, hreq'.trans hreq⟩
      · rw [hself]
        exact hd.pooled
      · obtain ⟨hdb, hda⟩ := (hmem d).mp hdm
        show Settled ((P.edit a [⟨x', k', .hand⟩] L).blocks d)
        rw [Pic.edit_blocks_ne hda]
        exact hm.settled d hdb
      · have honly : ∀ q, LiveAt [] q ↔ q ≠ x ∧ LiveAt (P.blocks a) q := by
          intro q
          refine iff_of_false (by simp [LiveAt]) ?_
          rintro ⟨hne, b, hbm, rfl, hbl⟩
          rw [hbs] at hbm
          simp only [List.mem_append, List.mem_cons] at hbm
          rcases hbm with hbm | rfl | hbm
          · exact absurd (hbl.symm.trans (hfree b (by simp [hbm]))) (by simp)
          · exact hne rfl
          · exact absurd (hbl.symm.trans (hfree b (by simp [hbm]))) (by simp)
        rw [ho.live_erase ha hbs honly]
        constructor
        · rintro (hq | ⟨d, hdb, hda, hq⟩)
          · obtain ⟨b, hbm, -⟩ := hq
            exact absurd hbm List.not_mem_nil
          · refine ⟨d, (hmem d).mpr ⟨hdb, hda⟩, ?_⟩
            show LiveAt ((P.edit a [⟨x', k', .hand⟩] L).blocks d) q
            rwa [Pic.edit_blocks_ne hda]
        · rintro ⟨d, hdm, hq⟩
          obtain ⟨hdb, hda⟩ := (hmem d).mp hdm
          refine .inr ⟨d, hdb, hda, ?_⟩
          have hq' : LiveAt ((P.edit a [⟨x', k', .hand⟩] L).blocks d) q := hq
          rwa [Pic.edit_blocks_ne hda] at hq'

end IonOS.Alloc
