import IonOS.Alloc.Joins
import IonOS.Alloc.Picture

/-!
# The pools of a manager

`Spread` is about blocks and lists. Here is what ties an area to its pool: the
first marker points to the pool, the pool to the area, and the pools hang on one
chain that begins with the manager's own. All of this lies outside of every block
that is not live, so that no move of `Moves` and `Joins` touches it. The other way
round, what is stored to a pool is of no concern to blocks and lists.
-/

namespace IonOS.Alloc

open IonOS.Lib

/-! ## Where the pools are -/

/-- The main area's pool is part of the manager, any other one lies behind the area's marker. -/
def Pic.poolOf (P : Pic) (man a : Nat) : Nat := if a = P.main then man else a + 16

@[simp] theorem Pic.edit_poolOf {P : Pic} {a : Nat} (bs : List Block) (L : Nat → List Nat) :
    (P.edit a bs L).poolOf = P.poolOf := rfl

/-- **Areas and pools point at each other**, and the pools form a chain. -/
structure Pooled (m : Mem) (man : Nat) (P : Pic) : Prop where
  nodup : P.bases.Nodup
  align : man % 8 = 0
  pos : 0 < man
  fits : man + sizeofMman ≤ 2 ^ 64
  /-- The manager lies in none of its areas. -/
  apart : ∀ a ∈ P.bases, man + sizeofMman ≤ a ∨ P.stop a ≤ man
  marker : ∀ a ∈ P.bases, m.read64 a / 8 * 8 = P.poolOf man a
  big : ∀ a ∈ P.bases, (m.read64 a / 4 % 2 = 1 ↔ P.size a = size2M)
  ptr : ∀ a ∈ P.bases, poolPtr m (P.poolOf man a) = a
  chain : (man :: P.secs.map (· + 16) ++ [0]).IsChain fun p q => poolNext m p = q

variable {m m' m₁ : Mem} {hd : Nat → Nat} {P P' : Pic} {a b c x s w man : Nat}
  {pre post : List Block} {L : Nat → List Nat}

/-- Which blocks an area has does not matter to its pool. -/
theorem Pooled.edit (h : Pooled m man P) (a : Nat) (bs : List Block) (L : Nat → List Nat) :
    Pooled m man (P.edit a bs L) :=
  ⟨h.nodup, h.align, h.pos, h.fits, h.apart, h.marker, h.big, h.ptr, h.chain⟩

theorem Pooled.sec_ne (h : Pooled m man P) (hc : c ∈ P.secs) : c ≠ P.main :=
  fun he => (List.nodup_cons.mp h.nodup).1 (he ▸ hc)

/-- The byte at `w` is one of the words that `Pooled` is about. -/
def PoolByte (P : Pic) (man w : Nat) : Prop :=
  ∃ a ∈ P.bases, (a ≤ w ∧ w < a + 8) ∨ (P.poolOf man a ≤ w ∧ w < P.poolOf man a + 24)

/-- **Pools are out of the way** of everything that is done to blocks. -/
theorem Pooled.off_block (h : Pooled m man P) (hl : Spread m' hd P) (hw : PoolByte P man w)
    (hc : c ∈ P.bases) {b : Block} (hb : b ∈ P.blocks c) :
    w + 8 < b.ptr ∨ b.ptr + b.size + 8 ≤ w := by
  obtain ⟨a, ha, hw⟩ := hw
  have hbd := hl.bounds hc hb
  have hman := h.apart c hc
  have hplace := (hl.place a ha).bounds
  have hstop : P.stop a = a + P.size a := rfl
  have hsize : sizeofMman = 256 := rfl
  have hfirst := P.first_le c
  by_cases hm : w < a + 8 ∧ a ≤ w
  · rcases hl.areas_apart a ha c hc with rfl | he | he <;> omega
  · have hpool : P.poolOf man a ≤ w ∧ w < P.poolOf man a + 24 := by omega
    unfold Pic.poolOf at hpool
    by_cases hmain : a = P.main
    · rw [if_pos hmain] at hpool
      omega
    · rw [if_neg hmain] at hpool
      rcases hl.areas_apart a ha c hc with rfl | he | he
      · have hsec : P.first a = a + 64 := if_neg hmain
        omega
      · omega
      · omega

theorem Pooled.away (h : Pooled m man P) (hl : Spread m' hd P) (hw : PoolByte P man w) :
    Away P w :=
  fun _ hc _ hb _ => h.off_block hl hw hc hb

/-- The block that the pool of a secondary area has for itself, with both tags in order. -/
structure PoolBlock (m : Mem) (a : Nat) (big : Prop) : Prop where
  tags : Tagged m ⟨a + 16, 32, .live⟩
  flags : Flagged m (a + 16) 32 big

theorem PoolBlock.congr {big : Prop} (h : PoolBlock m a big)
    (hm : ∀ w, (a + 8 ≤ w ∧ w < a + 16) ∨ (a + 48 ≤ w ∧ w < a + 56) → m' w = m w) :
    PoolBlock m' a big := by
  have hhead : m'.read64 (a + 16 - 8) = m.read64 (a + 16 - 8) :=
    Mem.read64_congr fun w h1 h2 => hm w (by omega)
  have htail : m'.read64 (a + 16 + 32) = m.read64 (a + 16 + 32) :=
    Mem.read64_congr fun w h1 h2 => hm w (by omega)
  exact ⟨h.tags.congr hhead htail, h.flags.congr hhead htail⟩

/-- The words of that block are out of the way as well. -/
theorem Spread.off_own (hl : Spread m hd P) (hc : c ∈ P.bases) (hmain : c ≠ P.main)
    (hlo : c ≤ w) (hhi : w < c + 56) (ha : a ∈ P.bases) {b : Block} (hb : b ∈ P.blocks a) :
    w + 8 < b.ptr ∨ b.ptr + b.size + 8 ≤ w := by
  have hbd := hl.bounds ha hb
  have hfirst := P.first_le a
  have hplace := (hl.place c hc).bounds
  have hstop : P.stop c = c + P.size c := rfl
  rcases hl.areas_apart a ha c hc with rfl | he | he
  · have hsec : P.first a = a + 64 := if_neg hmain
    omega
  · omega
  · omega

theorem Spread.away_own (hl : Spread m hd P) (hc : c ∈ P.bases) (hmain : c ≠ P.main)
    (hlo : c ≤ w) (hhi : w < c + 56) : Away P w :=
  fun _ ha _ hb _ => hl.off_own hc hmain hlo hhi ha hb

/-- Only the markers and the two pointers of each pool matter. -/
theorem Pooled.of_words (h : Pooled m man P)
    (hmark : ∀ a ∈ P.bases, m'.read64 a = m.read64 a)
    (hptr : ∀ a ∈ P.bases, poolPtr m' (P.poolOf man a) = poolPtr m (P.poolOf man a))
    (hnext : ∀ a ∈ P.bases, poolNext m' (P.poolOf man a) = poolNext m (P.poolOf man a)) :
    Pooled m' man P := by
  refine ⟨h.nodup, h.align, h.pos, h.fits, h.apart, fun a ha => ?_, fun a ha => ?_,
    fun a ha => ?_, ?_⟩
  · rw [hmark a ha]
    exact h.marker a ha
  · rw [hmark a ha]
    exact h.big a ha
  · rw [hptr a ha]
    exact h.ptr a ha
  · refine Links.chain_congr h.chain fun p hp => ?_
    rcases List.mem_cons.mp hp with rfl | hp
    · have hmain := hnext P.main List.mem_cons_self
      rwa [show P.poolOf p P.main = p from if_pos rfl] at hmain
    · obtain ⟨a, ha, rfl⟩ := List.mem_map.mp hp
      have hne := h.sec_ne ha
      have hsec := hnext a (List.mem_cons_of_mem _ ha)
      rwa [show P.poolOf man a = a + 16 from if_neg hne] at hsec

/-- Only the words of the pools and the markers matter. -/
theorem Pooled.congr (h : Pooled m man P) (hm : ∀ w, PoolByte P man w → m' w = m w) :
    Pooled m' man P := by
  have hpool : ∀ a ∈ P.bases, ∀ k ≤ 16,
      m'.read64 (P.poolOf man a + k) = m.read64 (P.poolOf man a + k) := fun a ha k hk =>
    Mem.read64_congr fun w h1 h2 => hm w ⟨a, ha, .inr ⟨by omega, by omega⟩⟩
  refine h.of_words (fun a ha => ?_) (fun a ha => hpool a ha 0 (by omega))
    fun a ha => hpool a ha 16 (by omega)
  exact Mem.read64_congr fun w h1 h2 => hm w ⟨a, ha, .inl ⟨h1, h2⟩⟩

/-- What moves blocks leaves the pools alone. -/
theorem Pooled.moved (h : Pooled m man P) (hl : Spread m hd P) (hmv : Moved m P m' P') :
    Pooled m' man P :=
  h.congr fun w hw => (hmv w (h.away hl hw)).1

/-- And the counts in them. -/
theorem Pooled.alloced_moved (h : Pooled m man P) (hl : Spread m hd P) (hmv : Moved m P m' P')
    (ha : a ∈ P.bases) :
    poolAllocedSize m' (P.poolOf man a) = poolAllocedSize m (P.poolOf man a) :=
  Mem.read64_congr fun w h1 h2 =>
    (hmv w (h.away hl ⟨a, ha, .inr ⟨by omega, by omega⟩⟩)).1

/-! ## Which pool a block belongs to -/

/-- **`blk_poolptr` finds the pool** of a block whose tags carry the right size flag. -/
theorem Pooled.blkPoolptr_eq (h : Pooled m man P) (hplace : Place a (P.size a)) (ha : a ∈ P.bases)
    (hx : a ≤ x) (hxe : x < P.stop a) (hflag : Flagged m x s (P.size a = size2M)) (h8 : 8 ≤ x) :
    blkPoolptr m x = P.poolOf man a := by
  obtain ⟨hkind, halign, -, hfits⟩ := hplace
  have hstop : P.stop a = a + P.size a := rfl
  have hbig := hflag.is2M h8 (by omega)
  have harea : blkAreaptr m x = a := by
    unfold blkAreaptr
    by_cases h2M : P.size a = size2M
    · have hmask := and_notW_low (v := x) (k := 21) (by omega) (by decide)
      rw [if_pos (hbig.mpr h2M)]
      show x &&& notW (2 ^ 21 - 1) = a
      unfold size2M at h2M
      rw [h2M] at halign hstop
      rw [hmask]
      omega
    · have h4k : P.size a = 4096 := hkind.resolve_right h2M
      have hmask := and_notW_low (v := x) (k := 12) (by omega) (by decide)
      rw [h4k] at halign hstop
      rw [if_neg fun he => h2M (hbig.mp he)]
      show x &&& notW (2 ^ 12 - 1) = a
      rw [hmask]
      omega
  rw [blkPoolptr, harea, flagBits, and_notW_seven (Mem.read64_lt _ _)]
  exact h.marker a ha

theorem Pooled.poolptr (h : Pooled m man P) (hl : Spread m hd P) (ha : a ∈ P.bases) {b : Block}
    (hb : b ∈ P.blocks a) (hflag : Flagged m b.ptr b.size (P.size a = size2M)) :
    blkPoolptr m b.ptr = P.poolOf man a := by
  have hbd := hl.bounds ha hb
  have hlow := (hl.fitsOf ha hb).low
  have hfirst := P.first_le a
  exact h.blkPoolptr_eq (hl.place a ha) ha (by omega) (by omega) hflag (by omega)

theorem Pooled.allocareaSize_eq (h : Pooled m man P) (hplace : Place a (P.size a))
    (ha : a ∈ P.bases) : allocareaSize m a = P.size a := by
  have hbit : (m.read64 a &&& sizeFlag ≠ 0) ↔ m.read64 a / 4 % 2 = 1 := by
    rw [← bne_iff_ne, and_sizeFlag, decide_eq_true_iff]
  unfold allocareaSize
  by_cases h2M : P.size a = size2M
  · rw [if_pos (hbit.mpr ((h.big a ha).mpr h2M)), h2M]
  · rw [if_neg fun hb => h2M ((h.big a ha).mp (hbit.mp hb))]
    exact (hplace.kind.resolve_right h2M).symm

/-! ## Stores elsewhere -/

/-- The picture depends on the tags, the link words and the ends of the areas. -/
theorem Spread.congr (hl : Spread m hd P)
    (htags : ∀ c ∈ P.bases, ∀ b ∈ P.blocks c, m'.read64 (b.ptr - 8) = m.read64 (b.ptr - 8) ∧
      m'.read64 (b.ptr + b.size) = m.read64 (b.ptr + b.size))
    (hends : ∀ c ∈ P.bases, m'.read64 (P.first c - 16) = m.read64 (P.first c - 16) ∧
      m'.read64 (P.stop c - 8) = m.read64 (P.stop c - 8))
    (hfree : FreeLists m' hd P.lists) : Spread m' hd P := by
  refine ⟨hl.place, hl.areas_apart, hl.tiling, hl.sizes, fun c hc b hb => ?_,
    fun c hc b hb hst => ?_, fun c hc => ?_, fun c hc => ?_, hfree, hl.nodes, hl.listed⟩
  · exact (hl.tags c hc b hb).congr (htags c hc b hb).1 (htags c hc b hb).2
  · exact (hl.flags c hc b hb hst).congr (htags c hc b hb).1 (htags c hc b hb).2
  · rw [(hends c hc).1]
    exact hl.left c hc
  · rw [(hends c hc).2]
    exact hl.right c hc

/-- What is outside the areas, or among the first words of one, does not show in the picture. -/
theorem Spread.within (hl : Spread m hd P)
    (hm : ∀ c ∈ P.bases, ∀ w, P.first c ≤ w + 16 → w < P.stop c → m' w = m w) :
    Spread m' hd P := by
  have hkeep : ∀ c ∈ P.bases, ∀ w, P.first c ≤ w + 16 → w + 8 ≤ P.stop c →
      m'.read64 w = m.read64 w := fun c hc w hlo hhi =>
    Mem.read64_congr fun v h1 h2 => hm c hc v (by omega) (by omega)
  refine hl.congr (fun c hc b hb => ?_) (fun c hc => ?_) ?_
  · have hbd := hl.bounds hc hb
    have hlow := (hl.fitsOf hc hb).low
    exact ⟨hkeep c hc _ (by omega) (by omega), hkeep c hc _ (by omega) (by omega)⟩
  · have hle := (hl.tiling c hc).le
    have hfirst := P.first_le c
    have hplace := (hl.place c hc).bounds
    have hstop : P.stop c = c + P.size c := rfl
    exact ⟨hkeep c hc _ (by omega) (by omega), hkeep c hc _ (by omega) (by omega)⟩
  · refine hl.free.congr fun i y hy w h1 h2 => ?_
    obtain ⟨c, hc, b, hb, rfl, -⟩ := hl.nodes i y hy
    have hbd := hl.bounds hc hb
    have hsz := (hl.sizes c hc b hb).2
    exact hm c hc w (by omega) (by omega)

/-- The byte at `w` is part of a pool. -/
def InPool (P : Pic) (man w : Nat) : Prop :=
  ∃ a ∈ P.bases, P.poolOf man a ≤ w ∧ w < P.poolOf man a + 24

/-- **What is stored to pools** does not show in the picture. -/
theorem Spread.poolStore (hl : Spread m hd P) (h : Pooled m man P)
    (hm : ∀ w, ¬ InPool P man w → m' w = m w) : Spread m' hd P := by
  refine hl.within fun c hc w hlo hhi => hm w ?_
  rintro ⟨a, ha, hpool⟩
  have hman := h.apart c hc
  have hplace := (hl.place a ha).bounds
  have hstop : P.stop a = a + P.size a := rfl
  have hsize : sizeofMman = 256 := rfl
  have hfirst := P.first_le c
  unfold Pic.poolOf at hpool
  by_cases hmain : a = P.main
  · rw [if_pos hmain] at hpool
    omega
  · rw [if_neg hmain] at hpool
    -- the pool of a secondary area lies in front of its first block
    rcases hl.areas_apart a ha c hc with rfl | he | he
    · have hsec : P.first a = a + 64 := if_neg hmain
      omega
    · omega
    · omega

/-- **The tags of a pool's own block** are in no pool and out of the way of the blocks. -/
theorem PoolBlock.kept {big : Prop} (ho : PoolBlock m c big) (h : Pooled m man P)
    (hl : Spread m₁ hd P) (hc : c ∈ P.secs)
    (hm : ∀ w, c ≤ w → w < c + 56 → Away P w → ¬ InPool P man w → m' w = m w) :
    PoolBlock m' c big := by
  have hcb : c ∈ P.bases := List.mem_cons_of_mem _ hc
  have hmain := h.sec_ne hc
  have hplace := (hl.place c hcb).bounds
  have hstop : P.stop c = c + P.size c := rfl
  have hsize : sizeofMman = 256 := rfl
  refine ho.congr fun w hw => hm w (by omega) (by omega)
    (hl.away_own hcb hmain (by omega) (by omega)) ?_
  intro hin
  obtain ⟨a, ha, hin⟩ := hin
  have hman := h.apart c hcb
  have hplace' := (hl.place a ha).bounds
  have hstop' : P.stop a = a + P.size a := rfl
  unfold Pic.poolOf at hin
  by_cases hmain' : a = P.main
  · rw [if_pos hmain'] at hin
    omega
  · rw [if_neg hmain'] at hin
    rcases hl.areas_apart a ha c hcb with rfl | he | he <;> omega

/-- Two pools are the same or apart. -/
theorem Pooled.pools_apart (h : Pooled m man P) (hl : Spread m' hd P) (ha : a ∈ P.bases)
    (hc : c ∈ P.bases) : a = c ∨ P.poolOf man a + 24 ≤ P.poolOf man c ∨
      P.poolOf man c + 24 ≤ P.poolOf man a := by
  have hsize : sizeofMman = 256 := rfl
  have hpa := (hl.place a ha).bounds
  have hpc := (hl.place c hc).bounds
  have hma := h.apart a ha
  have hmc := h.apart c hc
  have hstop : ∀ a, P.stop a = a + P.size a := fun _ => rfl
  have hsa := hstop a
  have hsc := hstop c
  by_cases hac : a = c
  · exact .inl hac
  · have hap := (hl.areas_apart a ha c hc).resolve_left hac
    unfold Pic.poolOf
    split_ifs <;> omega

/-- A marker is in no pool. -/
theorem Pooled.marker_apart (h : Pooled m man P) (hl : Spread m' hd P) (ha : a ∈ P.bases)
    (hc : c ∈ P.bases) : c + 8 ≤ P.poolOf man a ∨ P.poolOf man a + 24 ≤ c := by
  have hsize : sizeofMman = 256 := rfl
  have hpa := (hl.place a ha).bounds
  have hpc := (hl.place c hc).bounds
  have hmc := h.apart c hc
  have hstop : ∀ a, P.stop a = a + P.size a := fun _ => rfl
  have hsa := hstop a
  have hsc := hstop c
  have hap := hl.areas_apart a ha c hc
  unfold Pic.poolOf
  split_ifs <;> omega

/-- **Counting** in one pool: pointers, pictures and the other counts stay. -/
theorem Pooled.counted (h : Pooled m man P) (hl : Spread m hd P) (ha : a ∈ P.bases) (v : Nat) :
    Pooled (m.write64 (P.poolOf man a + 8) v) man P ∧
      Spread (m.write64 (P.poolOf man a + 8) v) hd P ∧
      ∀ c ∈ P.bases, c ≠ a →
        poolAllocedSize (m.write64 (P.poolOf man a + 8) v) (P.poolOf man c) =
          poolAllocedSize m (P.poolOf man c) := by
  refine ⟨h.of_words (fun c hc => ?_) (fun c hc => ?_) (fun c hc => ?_), ?_, fun c hc hne => ?_⟩
  · have := h.marker_apart hl ha hc
    exact Mem.read64_write64_disjoint _ _ (by omega)
  · refine Mem.read64_write64_disjoint _ _ ?_
    rcases h.pools_apart hl ha hc with rfl | he | he <;> omega
  · refine Mem.read64_write64_disjoint _ _ ?_
    rcases h.pools_apart hl ha hc with rfl | he | he <;> omega
  · refine hl.poolStore h fun w hw => Mem.write64_other ?_
    by_contra hin
    exact hw ⟨a, ha, by omega, by omega⟩
  · refine Mem.read64_write64_disjoint _ _ ?_
    have := (h.pools_apart hl ha hc).resolve_left hne.symm
    omega

/-- The byte at `w` is in an area, and in no payload that is live. -/
def Internal (P : Pic) (w : Nat) : Prop :=
  (∃ c ∈ P.bases, c ≤ w ∧ w < P.stop c) ∧
    ∀ a ∈ P.bases, ∀ b ∈ P.blocks a, b.st = .live → w < b.ptr ∨ b.ptr + b.size ≤ w

/-- **What the user stores** into payloads and outside the areas does not show either. -/
theorem Spread.userStore (hl : Spread m hd P) (hm : ∀ w, Internal P w → m' w = m w) :
    Spread m' hd P := by
  have hkeep : ∀ c ∈ P.bases, ∀ w, c ≤ w → w + 8 ≤ P.stop c →
      (∀ a ∈ P.bases, ∀ b ∈ P.blocks a, b.st = .live → w + 8 ≤ b.ptr ∨ b.ptr + b.size ≤ w) →
      m'.read64 w = m.read64 w := by
    intro c hc w hlo hhi hw
    refine Mem.read64_congr fun v h1 h2 =>
      hm v ⟨⟨c, hc, by omega, by omega⟩, fun a ha b hb hst => ?_⟩
    have := hw a ha b hb hst
    omega
  refine hl.congr (fun c hc d hd => ⟨?_, ?_⟩) (fun c hc => ⟨?_, ?_⟩) ?_
  · have hlow := (hl.fitsOf hc hd).low
    have hbd := hl.bounds hc hd
    have := P.first_le c
    refine hkeep c hc _ (by omega) (by omega) fun a ha b hb _ => ?_
    rcases hl.apart ha hb hc hd with ⟨-, rfl⟩ | he | he <;> omega
  · have hbd := hl.bounds hc hd
    have := P.first_le c
    refine hkeep c hc _ (by omega) (by omega) fun a ha b hb _ => ?_
    rcases hl.apart ha hb hc hd with ⟨-, rfl⟩ | he | he <;> omega
  · have hle := (hl.tiling c hc).le
    have := P.first_le c
    refine hkeep c hc _ (by omega) (by omega) fun a ha b hb _ => ?_
    have hbd := hl.bounds ha hb
    have := P.first_le a
    rcases hl.areas_apart a ha c hc with rfl | he | he <;> omega
  · have hplace := (hl.place c hc).bounds
    have hstop : P.stop c = c + P.size c := rfl
    refine hkeep c hc _ (by omega) (by omega) fun a ha b hb _ => ?_
    have hbd := hl.bounds ha hb
    have := P.first_le a
    rcases hl.areas_apart a ha c hc with rfl | he | he <;> omega
  · refine hl.free.congr fun i y hy w h1 h2 => ?_
    obtain ⟨c, hc, d, hd, rfl, hf⟩ := hl.nodes i y hy
    have hsz := (hl.sizes c hc d hd).2
    have hbd := hl.bounds hc hd
    have := P.first_le c
    refine hm w ⟨⟨c, hc, by omega, by omega⟩, fun a ha b hb hst => ?_⟩
    rcases hl.apart ha hb hc hd with ⟨-, rfl⟩ | he | he
    · rw [hst] at hf
      exact absurd hf (by simp)
    · omega
    · omega

/-- The words of the pools are the manager's own. -/
theorem Pooled.internal (h : Pooled m man P) (hl : Spread m hd P) (hw : PoolByte P man w) :
    Internal P w ∨ (man ≤ w ∧ w < man + sizeofMman) := by
  have hout : ∀ a ∈ P.bases, ∀ b ∈ P.blocks a, b.st = .live → w < b.ptr ∨ b.ptr + b.size ≤ w := by
    intro a ha b hb _
    have := h.off_block hl hw ha hb
    omega
  obtain ⟨a, ha, hin⟩ := hw
  have hplace := (hl.place a ha).bounds
  have hstop : P.stop a = a + P.size a := rfl
  have hsize : sizeofMman = 256 := rfl
  unfold Pic.poolOf at hin
  split_ifs at hin
  · rcases hin with hin | hin
    · exact .inl ⟨⟨a, ha, by omega, by omega⟩, hout⟩
    · exact .inr ⟨by omega, by omega⟩
  · exact .inl ⟨⟨a, ha, by omega, by omega⟩, hout⟩

/-- The user's stores are no concern of the pools. -/
theorem Pooled.userStore (h : Pooled m man P) (hl : Spread m hd P)
    (hm : ∀ w, Internal P w → m' w = m w)
    (hman : ∀ w, man ≤ w → w < man + sizeofMman → m' w = m w) :
    Pooled m' man P ∧
      ∀ c ∈ P.bases, poolAllocedSize m' (P.poolOf man c) = poolAllocedSize m (P.poolOf man c) := by
  have hword : ∀ w, PoolByte P man w → m' w = m w := by
    intro w hw
    rcases h.internal hl hw with hw | ⟨hlo, hhi⟩
    · exact hm w hw
    · exact hman w hlo hhi
  refine ⟨h.congr hword, fun c hc => Mem.read64_congr fun w h1 h2 => ?_⟩
  exact hword w ⟨c, hc, .inr ⟨by omega, by omega⟩⟩

/-- **A manager at rest**: blocks, lists and pools are in order and nothing is under way. -/
structure Managed (h : Heap Mman) (P : Pic) : Prop where
  spans : Spans h P
  pooled : Pooled h.mem h.pool.self P
  settled : ∀ a ∈ P.bases, Settled (P.blocks a)

end IonOS.Alloc
