import IonOS.Alloc.Setup

/-!
# A new area

What `mman_reqmem` does with the memory it was given: the pool gets a block of its
own behind the first marker, and the rest of the area is one free block at the
head of the list of large blocks, whatever its size.

`mman_reqmem` reckons with 56 bytes beside the block. There are 80, so that the
block of a 4 KiB area has 4016 bytes and not the 4040 that pass the test. Sizes
are multiples of 16, and one of them lies in between.
-/

namespace IonOS.Alloc

open IonOS.Lib

variable {m m' : Mem} {hd : Nat → Nat} {P : Pic} {h : Heap Mman} {a c x s w size man : Nat}

/-! ## The memory of the area -/

/-- The words of an area with nothing but the block of its pool and one free block in it. -/
structure NewArea (m : Mem) (a size : Nat) : Prop where
  block : Tagged m ⟨a + 64, size - 80, .free⟩
  flags : Flagged m (a + 64) (size - 80) (size = size2M)
  own : PoolBlock m a (size = size2M)
  first : m.read64 a = a + 16 + 2 + (if size = size2M then 4 else 0)
  last : m.read64 (a + size - 8) / 2 % 2 = 1

/-- The block of the pool is not free. -/
theorem NewArea.left (h : NewArea m a size) : m.read64 (a + 48) % 2 = 0 := h.own.tags.tail.live rfl

theorem NewArea.congr (h : NewArea m a size) (hsize : 4096 ≤ size)
    (hm : ∀ w, (a ≤ w ∧ w < a + 16) ∨ (a + 48 ≤ w ∧ w < a + size) → m' w = m w) :
    NewArea m' a size := by
  have hword : ∀ w, w = a ∨ (a + 48 ≤ w ∧ w + 8 ≤ a + size) → m'.read64 w = m.read64 w :=
    fun w hw => Mem.read64_congr fun v h1 h2 => hm v (by omega)
  have hhead : m'.read64 (a + 64 - 8) = m.read64 (a + 64 - 8) := hword _ (by omega)
  have htail : m'.read64 (a + 64 + (size - 80)) = m.read64 (a + 64 + (size - 80)) :=
    hword _ (by omega)
  refine ⟨h.block.congr hhead htail, h.flags.congr hhead htail,
    h.own.congr fun w hw => hm w (by omega), ?_, ?_⟩
  · rw [hword _ (.inl rfl)]
    exact h.first
  · rw [hword _ (by omega)]
    exact h.last

/-- Splitting off the block of the pool. -/
theorem newArea_split (hp : Place a size) (m : Mem) :
    ∃ m₁ m₂ : Mem, blkSplit (allocareaInit m a size (a + 16)) (a + 16) 32 = (a + 64, m₁) ∧
      blkSize m₁ (a + 16) = 32 ∧
      m₂ = blkSetfreed (blkSetalloced m₁ (a + 16) 32) (a + 64)
        (blkSize (blkSetalloced m₁ (a + 16) 32) (a + 64)) ∧
      NewArea m₂ a size ∧ ∀ w, w < a ∨ a + size ≤ w → m₂ w = m w := by
  obtain ⟨h4k, hpos, hmin, hmax, hmul⟩ := hp.bounds
  have hfit := hp.fits
  have hf : Fits (a + 16) (size - 32) := ⟨by omega, by omega, by omega, by omega⟩
  have hf1 : Fits (a + 16) 32 := ⟨by omega, by omega, by omega, by omega⟩
  have hf2 : Fits (a + 64) (size - 80) := ⟨by omega, by omega, by omega, by omega⟩
  have htag := allocareaInit_tagged (m := m) hf (by omega) (by omega) (a + 16)
  have hflag := allocareaInit_flagged (m := m) hf (by omega) (by omega) (a + 16)
  obtain ⟨hfirst, hlast⟩ := allocareaInit_words (m := m) hf (by omega) (by omega)
    (by omega) (by omega : (a + 16) % 8 = 0) (by omega)
  have hs : blkSize (allocareaInit m a size (a + 16)) (a + 16) = size - 32 :=
    htag.blkSize (by dsimp only; omega) (by dsimp only; omega)
  obtain ⟨hptr, ht1, ht2, hkeep⟩ :=
    blkSplit_tagged hf hs (by decide : 32 % 16 = 0) (by omega) (by simp : BlkState.hand ≠ .free)
  obtain ⟨hflag1, hflag2⟩ := blkSplit_flagged hf hs (by decide : 32 % 16 = 0) (by omega) hflag
  rw [show a + 16 + 32 + 16 = a + 64 by omega, show size - 32 - 32 - 16 = size - 80 by omega]
    at ht2 hflag2
  generalize hm₁ : (blkSplit (allocareaInit m a size (a + 16)) (a + 16) 32).2 = m₁ at *
  -- the tags of the pool's block, then those of the other one
  have hset1 : ∀ w, w + 8 < a + 16 ∨ a + 16 + 32 + 8 ≤ w →
      blkSetalloced m₁ (a + 16) 32 w = m₁ w := flagWrites_other hf1 _ _ _
  have hhead : (blkSetalloced m₁ (a + 16) 32).read64 (a + 64 - 8) = m₁.read64 (a + 64 - 8) :=
    Mem.read64_congr fun v h1 h2 => hset1 v (by omega)
  have htail : (blkSetalloced m₁ (a + 16) 32).read64 (a + 64 + (size - 80)) =
      m₁.read64 (a + 64 + (size - 80)) := Mem.read64_congr fun v h1 h2 => hset1 v (by omega)
  have ht2' : Tagged (blkSetalloced m₁ (a + 16) 32) ⟨a + 64, size - 80, .hand⟩ :=
    ht2.hand.congr hhead htail
  have hflag2' := hflag2.congr hhead htail
  have hs2 : blkSize (blkSetalloced m₁ (a + 16) 32) (a + 64) = size - 80 :=
    ht2'.blkSize (by dsimp only; omega) (by dsimp only; omega)
  have hset2 : ∀ w, w + 8 < a + 64 ∨ a + 64 + (size - 80) + 8 ≤ w →
      blkSetfreed (blkSetalloced m₁ (a + 16) 32) (a + 64) (size - 80) w =
        blkSetalloced m₁ (a + 16) 32 w := flagWrites_other hf2 _ _ _
  have hother : ∀ w, w + 8 < a + 16 ∨ a + size ≤ w + 8 →
      blkSetfreed (blkSetalloced m₁ (a + 16) 32) (a + 64) (size - 80) w =
        allocareaInit m a size (a + 16) w := by
    intro w hw
    rw [hset2 w (by omega), hset1 w (by omega), hkeep w (by omega)]
  refine ⟨m₁, _, Prod.ext (by rw [hptr]) hm₁, ht1.blkSize (by dsimp only; omega)
    (by dsimp only; omega), rfl, ?_, ?_⟩
  · rw [hs2]
    have hown : PoolBlock (blkSetalloced m₁ (a + 16) 32) a (size = size2M) :=
      ⟨blkSetalloced_tagged hf1 ht1, blkSetalloced_flagged hf1 hflag1⟩
    refine ⟨blkSetfreed_tagged hf2 ht2', blkSetfreed_flagged hf2 hflag2',
      hown.congr fun w hw => hset2 w (by omega), ?_, ?_⟩
    · rw [Mem.read64_congr fun v h1 h2 => hother v (by omega)]
      exact hfirst
    · rw [Mem.read64_congr fun v h1 h2 => hother v (by omega), hlast]
      split <;> omega
  · intro w hw
    rw [hs2, hother w (by omega)]
    exact allocareaInit_other hf (by omega) (by omega) (by omega) hw

/-! ## The picture with one more area -/

/-- What `cb_reqmem` may answer with: the place of an area that has nothing of the manager in it. -/
structure Fresh (P : Pic) (man a size : Nat) : Prop where
  place : Place a size
  apart : ∀ c ∈ P.bases, a + size ≤ c ∨ P.stop c ≤ a
  off : man + sizeofMman ≤ a ∨ a + size ≤ man

/-- One more area, and its one block in hand. -/
def Pic.enter (P : Pic) (a size : Nat) : Pic :=
  { P with
    secs := a :: P.secs
    size := Function.update P.size a size
    blocks := Function.update P.blocks a [⟨a + 64, size - 80, .hand⟩] }

namespace Fresh

theorem ne (hf : Fresh P man a size) (hc : c ∈ P.bases) (hl : Spread m hd P) : c ≠ a := by
  rintro rfl
  have hplace := (hl.place c hc).bounds
  have hnew := hf.place.bounds
  have hstop : P.stop c = c + P.size c := rfl
  rcases hf.apart c hc with h | h <;> omega

/-- An area of the new picture is the new one, or one that was there and is as it was. -/
theorem cases (hf : Fresh P man a size) (hl : Spread m hd P) (hc : c ∈ (P.enter a size).bases) :
    (c = a ∧ (P.enter a size).size c = size ∧ (P.enter a size).first c = a + 64 ∧
      (P.enter a size).blocks c = [⟨a + 64, size - 80, .hand⟩]) ∨
    (c ∈ P.bases ∧ c ≠ a ∧ (P.enter a size).size c = P.size c ∧
      (P.enter a size).first c = P.first c ∧ (P.enter a size).blocks c = P.blocks c) := by
  have hold : ∀ c ∈ P.bases, (P.enter a size).size c = P.size c ∧
      (P.enter a size).first c = P.first c ∧ (P.enter a size).blocks c = P.blocks c := by
    intro c hc
    have hne := hf.ne hc hl
    exact ⟨Function.update_of_ne hne .., rfl, Function.update_of_ne hne ..⟩
  have hmain : a ≠ P.main := fun he => hf.ne (c := P.main) List.mem_cons_self hl he.symm
  have hmem : c = P.main ∨ c = a ∨ c ∈ P.secs := by simpa [Pic.bases, Pic.enter] using hc
  rcases hmem with rfl | rfl | hc
  · exact .inr ⟨List.mem_cons_self, hmain.symm, hold _ List.mem_cons_self⟩
  · exact .inl ⟨rfl, Function.update_self .., if_neg hmain, Function.update_self ..⟩
  · have hb : c ∈ P.bases := List.mem_cons_of_mem _ hc
    exact .inr ⟨hb, hf.ne hb hl, hold c hb⟩

end Fresh

/-- **A new area joins the picture.** -/
theorem Spread.enter (hl : Spread m hd P) (hf : Fresh P man a size) (hn : NewArea m a size) :
    Spread m hd (P.enter a size) := by
  obtain ⟨h4k, hpos, hmin, hmax, hmul⟩ := hf.place.bounds
  have hstop : ∀ c, (P.enter a size).stop c = c + (P.enter a size).size c := fun _ => rfl
  have hstop' : ∀ c, P.stop c = c + P.size c := fun _ => rfl
  have hbase : ∀ c ∈ P.bases, c ∈ (P.enter a size).bases := by
    intro c hc
    have : c = P.main ∨ c ∈ P.secs := by simpa [Pic.bases] using hc
    simpa [Pic.bases, Pic.enter] using this.imp_right .inr
  have hlast : a + 64 + (size - 80 + 16) = a + size := by omega
  refine ⟨fun c hc => ?_, fun c hc d hd => ?_, fun c hc => ?_, fun c hc b hb => ?_,
    fun c hc b hb => ?_, fun c hc b hb hst => ?_, fun c hc => ?_, fun c hc => ?_, hl.free, ?_,
    fun c hc b hb hst => ?_⟩
  · rcases hf.cases hl hc with ⟨rfl, hsize, -, -⟩ | ⟨hc, -, hsize, -, -⟩
    · rw [hsize]
      exact hf.place
    · rw [hsize]
      exact hl.place c hc
  · rw [hstop, hstop]
    rcases hf.cases hl hc with ⟨hca, hsize, -, -⟩ | ⟨hc, hne, hsize, -, -⟩
    · rcases hf.cases hl hd with ⟨hda, -⟩ | ⟨hd, -, hsize', -, -⟩
      · exact .inl (hca.trans hda.symm)
      · rw [hsize, hsize', hca]
        exact .inr (hf.apart d hd)
    · rcases hf.cases hl hd with ⟨hda, hsize', -, -⟩ | ⟨hd, -, hsize', -, -⟩
      · rw [hsize, hsize', hda]
        exact .inr (hf.apart c hc).symm
      · rw [hsize, hsize']
        exact hl.areas_apart c hc d hd
  · rcases hf.cases hl hc with ⟨rfl, hsize, hfirst, hbs⟩ | ⟨hc, -, hsize, hfirst, hbs⟩
    · rw [hbs, hfirst, hstop, hsize]
      exact ⟨rfl, hlast⟩
    · rw [hbs, hfirst, hstop, hsize]
      exact hl.tiling c hc
  · rcases hf.cases hl hc with ⟨rfl, -, -, hbs⟩ | ⟨hc, -, -, -, hbs⟩
    · rw [hbs] at hb
      obtain rfl := List.mem_singleton.mp hb
      dsimp only
      omega
    · rw [hbs] at hb
      exact hl.sizes c hc b hb
  · rcases hf.cases hl hc with ⟨rfl, -, -, hbs⟩ | ⟨hc, -, -, -, hbs⟩
    · rw [hbs] at hb
      obtain rfl := List.mem_singleton.mp hb
      exact hn.block.hand
    · rw [hbs] at hb
      exact hl.tags c hc b hb
  · rcases hf.cases hl hc with ⟨rfl, -, -, hbs⟩ | ⟨hc, -, hsize, -, hbs⟩
    · rw [hbs] at hb
      obtain rfl := List.mem_singleton.mp hb
      exact absurd rfl hst
    · rw [hbs] at hb
      rw [hsize]
      exact hl.flags c hc b hb hst
  · rcases hf.cases hl hc with ⟨rfl, -, hfirst, -⟩ | ⟨hc, -, -, hfirst, -⟩
    · rw [hfirst]
      exact .inr hn.left
    · rw [hfirst]
      exact hl.left c hc
  · rw [hstop]
    rcases hf.cases hl hc with ⟨rfl, hsize, -, -⟩ | ⟨hc, -, hsize, -, -⟩
    · rw [hsize]
      exact hn.last
    · rw [hsize]
      exact hl.right c hc
  · intro i x hx
    obtain ⟨c, hc, b, hb, hbx, hst⟩ := hl.nodes i x hx
    refine ⟨c, hbase c hc, b, ?_, hbx, hst⟩
    rcases hf.cases hl (hbase c hc) with ⟨rfl, -⟩ | ⟨-, -, -, -, hbs⟩
    · exact absurd rfl (hf.ne hc hl)
    · rwa [hbs]
  · rcases hf.cases hl hc with ⟨rfl, -, -, hbs⟩ | ⟨hc, -, -, -, hbs⟩
    · rw [hbs] at hb
      obtain rfl := List.mem_singleton.mp hb
      exact absurd hst (by simp)
    · rw [hbs] at hb ⊢
      exact hl.listed c hc b hb hst

/-- **Its pool joins the chain**, right behind the manager's own. -/
theorem Pooled.enter (h : Pooled m man P) (hl : Spread m hd P) (hf : Fresh P man a size)
    (hn : NewArea m' a size) (hptr : poolPtr m' (a + 16) = a) (hhead : poolNext m' man = a + 16)
    (hnext : poolNext m' (a + 16) = poolNext m man)
    (hm : ∀ w, PoolByte P man w → w < man + 16 ∨ man + 24 ≤ w → m' w = m w) :
    Pooled m' man (P.enter a size) := by
  obtain ⟨h4k, hpos, hmin, hmax, hmul⟩ := hf.place.bounds
  have hsize : sizeofMman = 256 := rfl
  have hne : ∀ c ∈ P.bases, c ≠ a := fun c hc => hf.ne hc hl
  have hpool : ∀ c, c ≠ P.main → (P.enter a size).poolOf man c = c + 16 := fun c hc => if_neg hc
  have hpool' : ∀ c, (P.enter a size).poolOf man c = P.poolOf man c := fun _ => rfl
  have hmain : a ≠ P.main := (hne P.main List.mem_cons_self).symm
  -- the words of the old areas, but for the one link
  have hmark : ∀ c ∈ P.bases, m'.read64 c = m.read64 c := by
    intro c hc
    have hman := h.apart c hc
    have hplace := (hl.place c hc).bounds
    have hstop : P.stop c = c + P.size c := rfl
    exact Mem.read64_congr fun w h1 h2 => hm w ⟨c, hc, .inl ⟨h1, h2⟩⟩ (by omega)
  have hword : ∀ c ∈ P.bases, ∀ k ≤ 16, (c = P.main → k = 0) →
      m'.read64 (P.poolOf man c + k) = m.read64 (P.poolOf man c + k) := by
    intro c hc k hk h0
    have hman := h.apart c hc
    have hplace := (hl.place c hc).bounds
    have hstop : P.stop c = c + P.size c := rfl
    refine Mem.read64_congr fun w h1 h2 => hm w ⟨c, hc, .inr ⟨by omega, by omega⟩⟩ ?_
    unfold Pic.poolOf at h1 h2
    by_cases hcm : c = P.main
    · rw [if_pos hcm] at h2
      have := h0 hcm
      omega
    · rw [if_neg hcm] at h1 h2
      omega
  refine ⟨?_, h.align, h.pos, h.fits, fun c hc => ?_, fun c hc => ?_, fun c hc => ?_,
    fun c hc => ?_, ?_⟩
  · obtain ⟨h1, h2⟩ := List.nodup_cons.mp h.nodup
    have hsec : a ∉ P.secs := fun hs => hne a (List.mem_cons_of_mem _ hs) rfl
    refine List.nodup_cons.mpr ⟨fun hs => ?_, List.nodup_cons.mpr ⟨hsec, h2⟩⟩
    rcases List.mem_cons.mp hs with he | hs
    · exact hmain he.symm
    · exact h1 hs
  · have hstop : (P.enter a size).stop c = c + (P.enter a size).size c := rfl
    have hstop' : P.stop c = c + P.size c := rfl
    rcases hf.cases hl hc with ⟨rfl, hs, -, -⟩ | ⟨hc, -, hs, -, -⟩
    · rw [hstop, hs]
      exact hf.off
    · rw [hstop, hs]
      exact h.apart c hc
  · rcases hf.cases hl hc with ⟨rfl, -⟩ | ⟨hc, -⟩
    · rw [hpool c hmain, hn.first]
      split <;> omega
    · rw [hmark c hc]
      exact h.marker c hc
  · rcases hf.cases hl hc with ⟨rfl, hs, -⟩ | ⟨hc, -, hs, -⟩
    · rw [hn.first, hs]
      by_cases hbig : size = size2M
      · rw [if_pos hbig]
        simp only [hbig, iff_true]
        omega
      · rw [if_neg hbig]
        simp only [hbig, iff_false]
        omega
    · rw [hmark c hc, hs]
      exact h.big c hc
  · rcases hf.cases hl hc with ⟨rfl, -⟩ | ⟨hc, -⟩
    · rw [hpool c hmain]
      exact hptr
    · exact (hword c hc 0 (by omega) fun _ => rfl).trans (h.ptr c hc)
  · obtain ⟨hfirst, hrest⟩ := List.isChain_cons.mp h.chain
    have hrest' : (P.secs.map (· + 16) ++ [0]).IsChain fun p q => poolNext m' p = q := by
      refine Links.chain_congr hrest fun p hp => ?_
      obtain ⟨c, hc, rfl⟩ := List.mem_map.mp hp
      have hcm : c ≠ P.main := fun he => (List.nodup_cons.mp h.nodup).1 (he ▸ hc)
      have hsec := hword c (List.mem_cons_of_mem _ hc) 16 (by omega) fun he => absurd he hcm
      rwa [show P.poolOf man c = c + 16 from if_neg hcm] at hsec
    refine List.isChain_cons.mpr ⟨fun q hq => ?_, List.isChain_cons.mpr ⟨fun q hq => ?_, hrest'⟩⟩
    · obtain rfl : a + 16 = q := Option.some.inj hq
      exact hhead
    · exact hnext.trans (hfirst q hq)

/-! ## `mman_reqmem` -/

/-- The picture once the free block of the new area is listed. -/
def Pic.entered (P : Pic) (a size : Nat) : Pic :=
  (P.enter a size).edit a [⟨a + 64, size - 80, .free⟩]
    (Function.update P.lists 8 ((a + 64) :: P.lists 8))

theorem Pic.mem_entered : c ∈ (P.entered a size).bases ↔ c = a ∨ c ∈ P.bases := by
  show c ∈ P.main :: a :: P.secs ↔ c = a ∨ c ∈ P.main :: P.secs
  simp only [List.mem_cons]
  tauto

theorem Pic.entered_blocks : (P.entered a size).blocks a = [⟨a + 64, size - 80, .free⟩] :=
  Pic.edit_blocks _ _

theorem Pic.entered_blocks_ne (hne : c ≠ a) : (P.entered a size).blocks c = P.blocks c :=
  (Pic.edit_blocks_ne hne _ _).trans (Function.update_of_ne hne _ _)

theorem Pic.entered_large : (P.entered a size).lists 8 = (a + 64) :: P.lists 8 := by
  show Function.update P.lists 8 ((a + 64) :: P.lists 8) 8 = _
  rw [Function.update_self]

/-- **What entering an area did.** -/
structure Entered (h : Heap Mman) (P : Pic) (a size : Nat) (h' : Heap Mman) : Prop where
  spans : Spans h' (P.entered a size)
  pooled : Pooled h'.mem h.pool.self (P.entered a size)
  own : PoolBlock h'.mem a (size = size2M)
  /-- Nothing is live in it. -/
  count : poolAllocedSize h'.mem (a + 16) = 0
  /-- Beside the area and the free blocks of the others only the link of the manager changes. -/
  kept : ∀ w, Away P w → w < a ∨ a + size ≤ w → w < h.pool.self + 16 ∨ h.pool.self + 24 ≤ w →
    h'.mem w = h.mem w
  rest : h'.pool.rest = Mman.rest { h.pool with size := addW h.pool.size size }
  delmem : h'.delmem = h.delmem

theorem enterArea_spec (hl : Spans h P) (hp : Pooled h.mem h.pool.self P)
    (hf : Fresh P h.pool.self a size) : Entered h P a size (enterArea h a size) := by
  obtain ⟨h4k, hpos, hmin, hmax, hmul⟩ := hf.place.bounds
  have hfit := hf.place.fits
  have hoff := hf.off
  have hman : h.pool.self + 256 ≤ 2 ^ 64 := hp.fits
  have hmal := hp.align
  have hsize : sizeofMman = 256 := rfl
  obtain ⟨m₁, m₂, hsplit, hs₁, hm₂, hn, hother⟩ := newArea_split hf.place h.mem
  -- the pool of the area, and the link to it
  obtain ⟨m₃, hm₃⟩ : ∃ m₃, m₃ = (setPool m₂ (a + 16) a 0 (poolNext m₂ h.pool.self)).write64
    (h.pool.self + 16) (a + 16) := ⟨_, rfl⟩
  have heq : enterArea h a size = Mman.putLarge
      { h with mem := m₃, pool := { h.pool with size := addW h.pool.size size } } (a + 64) := by
    have hadd : addW a 16 = a + 16 := addW_of_lt (by omega)
    have hpad : padding sizeofMmanPool = 32 := by decide
    unfold enterArea
    dsimp only
    rw [hadd, hpad, hsplit]
    dsimp only
    rw [hs₁, ← hm₂, ← hm₃]
  have hstore : ∀ w, ¬ (a + 16 ≤ w ∧ w < a + 40) → ¬ (h.pool.self + 16 ≤ w ∧ w < h.pool.self + 24) →
      m₃ w = m₂ w := by
    intro w h1 h2
    rw [hm₃, setPool, Mem.write64_other (by omega), Mem.write64_other (by omega),
      Mem.write64_other (by omega), Mem.write64_other (by omega)]
  have hout : ∀ w, w < a ∨ a + size ≤ w → w < h.pool.self + 16 ∨ h.pool.self + 24 ≤ w →
      m₃ w = h.mem w := by
    intro w h1 h2
    rw [hstore w (by omega) (by omega), hother w h1]
  have hn₃ : NewArea m₃ a size := hn.congr hmin fun w hw => hstore w (by omega) (by omega)
  have hlink : poolNext m₂ h.pool.self = poolNext h.mem h.pool.self :=
    Mem.read64_congr fun w h1 h2 => hother w (by omega)
  have hptr : poolPtr m₃ (a + 16) = a := by
    rw [hm₃, poolPtr, setPool, Mem.read64_write64_disjoint _ _ (by omega),
      Mem.read64_write64_disjoint _ _ (by omega), Mem.read64_write64_disjoint _ _ (by omega),
      Mem.read64_write64_same _ _ (by omega)]
  have hcount : poolAllocedSize m₃ (a + 16) = 0 := by
    rw [hm₃, poolAllocedSize, setPool, Mem.read64_write64_disjoint _ _ (by omega),
      Mem.read64_write64_disjoint _ _ (by omega), Mem.read64_write64_same _ _ (by omega)]
  have hnext : poolNext m₃ (a + 16) = poolNext h.mem h.pool.self := by
    rw [hm₃, poolNext, setPool, Mem.read64_write64_disjoint _ _ (by omega),
      hlink]
    exact Mem.read64_write64_same _ _ (Mem.read64_lt _ _)
  have hhead : poolNext m₃ h.pool.self = a + 16 := by
    rw [hm₃, poolNext, Mem.read64_write64_same _ _ (by omega)]
  have hl₃ : Spread m₃ h.pool.heads P := hl.within fun c hc w hlo hhi => by
    have hap := hf.apart c hc
    have hmc := hp.apart c hc
    have hfirst := P.first_le c
    exact hout w (by omega) (by omega)
  have hle := hl₃.enter hf hn₃
  have hpe := hp.enter hl hf hn₃ hptr hhead hnext fun w hw hw' => by
    refine hout w ?_ hw'
    obtain ⟨c, hc, hw⟩ := hw
    have hap := hf.apart c hc
    have hplace := (hl.place c hc).bounds
    have hstop : P.stop c = c + P.size c := rfl
    unfold Pic.poolOf at hw
    split at hw <;> omega
  have hbs : (P.enter a size).blocks a = [] ++ ⟨a + 64, size - 80, .hand⟩ :: [] :=
    Function.update_self ..
  have hsz : (P.enter a size).size a = size := Function.update_self ..
  have ha : a ∈ (P.enter a size).bases := by simp [Pic.bases, Pic.enter]
  obtain ⟨r1, r2, -⟩ := hle.put (j := 8) ha hbs hn₃.block (by rw [hsz]; exact hn₃.flags)
    (.inr ⟨rfl, rfl, rfl⟩)
  have hpo : (P.enter a size).poolOf h.pool.self a = a + 16 :=
    if_neg (hf.ne (c := P.main) List.mem_cons_self hl).symm
  have hsame : h.pool.heads 8 = h.pool.largeBlk := heads_large _
  rw [hsame] at r1 r2
  rw [heq]
  refine ⟨?_, (hpe.moved hle r2).edit _ _ _, ?_, ?_, ?_, rfl, rfl⟩
  · show Spread (freelistPut m₃ h.pool.largeBlk (a + 64)).2 _ _
    have hheads : Mman.heads { { h.pool with size := addW h.pool.size size } with
        largeBlk := (freelistPut m₃ h.pool.largeBlk (a + 64)).1 } =
        Function.update h.pool.heads 8 (freelistPut m₃ h.pool.largeBlk (a + 64)).1 :=
      heads_setLarge _ _
    exact hheads ▸ r1
  · refine hn₃.own.congr fun w hw => (r2 w (hle.away_own ha ?_ (by omega) (by omega))).1
    exact (hf.ne (c := P.main) List.mem_cons_self hl).symm
  · have := hpe.alloced_moved hle r2 ha
    rw [hpo, hcount] at this
    exact this
  · intro w haway hwa hws
    have haway' : Away (P.enter a size) w := by
      intro c hc b hb hst
      rcases hf.cases hl hc with ⟨rfl, -, -, hbs'⟩ | ⟨hc, -, -, -, hbs'⟩
      · rw [hbs'] at hb
        obtain rfl := List.mem_singleton.mp hb
        dsimp only
        omega
      · rw [hbs'] at hb
        exact haway c hc b hb hst
    exact (r2 w haway').1.trans (hout w hwa hws)

end IonOS.Alloc
