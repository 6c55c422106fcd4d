import IonOS.Alloc.Supply

/-!
# Giving a block back to a manager

`mman_free` counts the block out and merges it with its free neighbours. Then it
looks at the count of the area: when nothing is live in a secondary area, the
area goes to `cb_delmem`, merged block and all. Otherwise the block goes on a
list.

To give an area back is to take its pool off the chain. The picture can do
without the area (`Pic.drop`) if none of its blocks is on a list.
-/

namespace IonOS.Alloc

open IonOS.Lib

variable {h h' : Heap Mman} {m m' : Mem} {hd : Nat → Nat} {P : Pic} {f : Nat → Nat}
  {a c s w x man : Nat} {pre post : List Block}

/-! ## Taking a live block -/

/-- The picture in which a live block is in hand. -/
theorem Spread.takeLive (hl : Spread m hd P) (ha : a ∈ P.bases)
    (hbs : P.blocks a = pre ++ ⟨x, s, .live⟩ :: post) :
    Spread m hd (P.edit a (pre ++ ⟨x, s, .hand⟩ :: post) P.lists) ∧
      Flagged m x s (P.size a = size2M) := by
  have hmem : (⟨x, s, .live⟩ : Block) ∈ P.blocks a := by rw [hbs]; simp
  have hbs' : P.blocks a = pre ++ [⟨x, s, .live⟩] ++ post := by simpa using hbs
  have hone : ∀ st : BlkState, Tiling Block.ptr Block.len x [⟨x, s, st⟩] (x + (s + 16)) :=
    fun _ => ⟨rfl, rfl⟩
  have htag : Tagged m ⟨x, s, .hand⟩ := (hl.tags a ha _ hmem).hand
  have h1 := hl.replace [⟨x, s, .live⟩] [⟨x, s, .hand⟩] ha hbs' (hone _) (by simp)
    (hone _) (by simp) (by simp) (by simpa using hl.sizes a ha _ hmem) (by simpa using htag)
    (by simp) fun _ _ => rfl
  rw [List.append_assoc, List.singleton_append] at h1
  exact ⟨h1, hl.flags a ha _ hmem (by simp)⟩

/-- Moving blocks after the count. -/
theorem Tallied.steps {bs₀ bs bs' : List Block} {L₀ L L' : Nat → List Nat} {h₁ : Heap Mman}
    (ht : Tallied f h (P.edit a bs₀ L₀) a h₁ (P.edit a bs L)) (ha : a ∈ P.bases)
    (hs : Steps h₁ (P.edit a bs L) h' (P.edit a bs' L')) :
    Tallied f h (P.edit a bs₀ L₀) a h' (P.edit a bs' L') := by
  have hcount : ∀ c ∈ P.bases, poolAllocedSize h'.mem (P.poolOf h.pool.self c) =
      poolAllocedSize h₁.mem (P.poolOf h.pool.self c) := fun c hc =>
    ht.pooled.alloced_moved ht.spans hs.moved hc
  have hp := (ht.pooled.moved ht.spans hs.moved).edit a bs' L'
  rw [Pic.edit_edit] at hp
  refine ⟨hs.spans, hp, fun w hw hout => ?_, (hcount a ha).trans ht.count,
    fun c hc hne => (hcount c hc).trans (ht.others c hc hne), hs.rest.trans ht.rest,
    hs.delmem.trans ht.delmem⟩
  obtain ⟨h1, h2⟩ := ht.kept w hw hout
  obtain ⟨h3, h4⟩ := hs.moved w h2
  exact ⟨h3.trans h1, h4⟩

/-- **Counting a block out.** -/
theorem debit_tallied (hl : Spans h P) (hp : Pooled h.mem h.pool.self P) (ha : a ∈ P.bases)
    (hbs : P.blocks a = pre ++ ⟨x, s, .hand⟩ :: post)
    (hflag : Flagged h.mem x s (P.size a = size2M)) :
    Tallied (subW · s) h P a (Mman.debit h x) (P.edit a (P.blocks a) P.lists) ∧
      Flagged (Mman.debit h x).mem x s (P.size a = size2M) := by
  have hmem : (⟨x, s, .hand⟩ : Block) ∈ P.blocks a := by rw [hbs]; simp
  have hs : blkSize h.mem x = s := hl.blkSize_eq (b := ⟨x, s, .hand⟩) ha hmem
  have hpool : blkPoolptr h.mem x = P.poolOf h.pool.self a :=
    hp.poolptr (b := ⟨x, s, .hand⟩) hl ha hmem hflag
  have hself : Steps h P h (P.edit a (P.blocks a) P.lists) := by
    rw [Pic.edit_self]
    exact Steps.refl hl
  have hmem' : (Mman.debit h x).mem = h.mem.write64 (P.poolOf h.pool.self a + 8)
      (subW (poolAllocedSize h.mem (P.poolOf h.pool.self a)) s) := by
    unfold Mman.debit
    dsimp only
    rw [hs, hpool]
  have hpool' : (Mman.debit h x).pool =
      { h.pool with allocedSize := subW h.pool.allocedSize s } := by
    unfold Mman.debit
    dsimp only
    rw [hs]
  refine ⟨hself.tallied (f := (subW · s)) hl hp ha rfl (fun v _ => subW_lt v _) hmem' hpool' rfl, ?_⟩
  -- the count is in no block
  have hlow := (hl.fitsOf (b := ⟨x, s, .hand⟩) ha hmem).low
  have h1 := hp.off_block hl (w := P.poolOf h.pool.self a + 8)
    ⟨a, ha, .inr ⟨by omega, by omega⟩⟩ ha hmem
  have h2 := hp.off_block hl (w := P.poolOf h.pool.self a + 15)
    ⟨a, ha, .inr ⟨by omega, by omega⟩⟩ ha hmem
  dsimp only at hlow h1 h2
  rw [hmem']
  refine hflag.congr ?_ ?_
  · exact Mem.read64_write64_disjoint _ _ (by omega)
  · exact Mem.read64_write64_disjoint _ _ (by omega)

/-- **Counted out and merged**: the block in hand has no free neighbours any more. -/
theorem release_merged (hm : Managed h P) (ha : a ∈ P.bases)
    (hbs : P.blocks a = pre ++ ⟨x, s, .live⟩ :: post) :
    ∃ pre' x' s' post' L', Absorbed pre.reverse pre'.reverse ∧ Absorbed post post' ∧
      (blkTrymerge Mman.detach (Mman.debit h x) x).1 = x' ∧
      Tallied (subW · s) h (P.edit a (pre ++ ⟨x, s, .hand⟩ :: post) P.lists) a
        (blkTrymerge Mman.detach (Mman.debit h x) x).2
        (P.edit a (pre' ++ ⟨x', s', .hand⟩ :: post') L') ∧
      Flagged (blkTrymerge Mman.detach (Mman.debit h x) x).2.mem x' s' (P.size a = size2M) := by
  obtain ⟨hl, hflag⟩ := hm.spans.takeLive ha hbs
  have hside : ∀ b ∈ pre ++ post, b.st ≠ .hand := by
    have hset := hm.settled a ha
    rw [hbs] at hset
    exact hset.sides
  obtain ⟨ht, hflag'⟩ := debit_tallied hl (hm.pooled.edit _ _ _) ha (Pic.edit_blocks _ _) hflag
  rw [Pic.edit_edit, Pic.edit_blocks, Pic.edit_lists] at ht
  obtain ⟨pre', x', s', post', L', hpre, hpost, hx', hsteps, hflag''⟩ :=
    blkTrymerge_steps ht.spans ha (Pic.edit_blocks _ _) hflag' hside
  rw [Pic.edit_edit] at hsteps
  exact ⟨pre', x', s', post', L', hpre, hpost, hx', ht.steps ha hsteps, hflag''⟩

/-! ## Giving an area back -/

/-- The picture without one of its secondary areas. -/
def Pic.drop (P : Pic) (a : Nat) : Pic := { P with secs := P.secs.erase a }

theorem Pic.mem_drop (hnd : P.bases.Nodup) (ha : a ∈ P.secs) :
    c ∈ (P.drop a).bases ↔ c ∈ P.bases ∧ c ≠ a := by
  obtain ⟨hmain, hsecs⟩ := List.nodup_cons.mp hnd
  have hne : P.main ≠ a := fun he => hmain (he ▸ ha)
  show c ∈ P.main :: P.secs.erase a ↔ c ∈ P.main :: P.secs ∧ c ≠ a
  rw [List.mem_cons, List.mem_cons, hsecs.mem_erase_iff]
  constructor
  · rintro (rfl | ⟨h1, h2⟩)
    · exact ⟨.inl rfl, hne⟩
    · exact ⟨.inr h2, h1⟩
  · rintro ⟨rfl | h1, h2⟩
    · exact .inl rfl
    · exact .inr ⟨h2, h1⟩

theorem Pic.drop_sub (hc : c ∈ (P.drop a).bases) : c ∈ P.bases := by
  rcases List.mem_cons.mp hc with rfl | hc
  · exact List.mem_cons_self
  · exact List.mem_cons_of_mem _ (List.mem_of_mem_erase hc)

/-- **An area without free blocks** can be left out. -/
theorem Spread.drop (hl : Spread m hd P) (hnd : P.bases.Nodup) (ha : a ∈ P.secs)
    (hno : ∀ b ∈ P.blocks a, b.st ≠ .free) : Spread m hd (P.drop a) := by
  have hsub : ∀ c ∈ (P.drop a).bases, c ∈ P.bases := fun _ => Pic.drop_sub
  refine ⟨fun c hc => hl.place c (hsub c hc), fun c hc d hd => hl.areas_apart c (hsub c hc) d
    (hsub d hd), fun c hc => hl.tiling c (hsub c hc), fun c hc => hl.sizes c (hsub c hc),
    fun c hc => hl.tags c (hsub c hc), fun c hc => hl.flags c (hsub c hc),
    fun c hc => hl.left c (hsub c hc), fun c hc => hl.right c (hsub c hc), hl.free,
    fun i x hx => ?_, fun c hc => hl.listed c (hsub c hc)⟩
  obtain ⟨c, hc, b, hb, hbx, hf⟩ := hl.nodes i x hx
  refine ⟨c, (Pic.mem_drop hnd ha).mpr ⟨hc, ?_⟩, b, hb, hbx, hf⟩
  rintro rfl
  exact hno b hb hf

/-- **All areas together** are smaller than memory. -/
theorem Spread.total (hl : Spread m hd P) (hnd : P.bases.Nodup) :
    (P.bases.map P.size).sum < 2 ^ 64 := by
  have hsum := sum_len_le_of_apart hnd
    (fun c hc => ⟨(hl.place c hc).bounds.2.1, (hl.place c hc).fits⟩) hl.areas_apart
  omega

/-- There are fewer areas than a walk can visit. -/
theorem Spread.few (hl : Spread m hd P) (hnd : P.bases.Nodup) : P.bases.length < walkFuel := by
  have hone : ∀ n ∈ P.bases.map P.size, 1 ≤ n := by
    intro n hn
    obtain ⟨c, hc, rfl⟩ := List.mem_map.mp hn
    have := (hl.place c hc).bounds
    omega
  have hlen := List.length_le_sum_of_one_le _ hone
  have htotal := hl.total hnd
  rw [List.length_map] at hlen
  have hfuel : walkFuel = 2 ^ 64 := rfl
  omega

/-- The pools in the order of the chain, around that of the area at `a`. -/
theorem Pooled.around (h : Pooled m man P) (ha : a ∈ P.secs) :
    ∃ pre y post, man :: P.secs.map (· + 16) = pre ++ y :: (a + 16) :: post ∧
      man :: (P.drop a).secs.map (· + 16) = pre ++ y :: post := by
  obtain ⟨-, hsecs⟩ := List.nodup_cons.mp h.nodup
  obtain ⟨l₁, l₂, hsplit⟩ := List.append_of_mem ha
  have hno : a ∉ l₁ := by
    rw [hsplit] at hsecs
    exact fun hm => (List.nodup_append.mp hsecs).2.2 a hm a (by simp) rfl
  have herase : (P.drop a).secs = l₁ ++ l₂ := by
    show P.secs.erase a = _
    rw [hsplit, List.erase_append_right _ hno, List.erase_cons_head]
  rw [hsplit, herase]
  rcases List.eq_nil_or_concat l₁ with rfl | ⟨l₁, c, rfl⟩
  · exact ⟨[], man, l₂.map (· + 16), rfl, rfl⟩
  · exact ⟨man :: l₁.map (· + 16), c + 16, l₂.map (· + 16), by simp, by simp⟩

/-- What is on the chain is the pool of an area. -/
theorem Pooled.mem_pools (h : Pooled m man P) (hc : c ∈ man :: P.secs.map (· + 16)) :
    ∃ d ∈ P.bases, c = P.poolOf man d := by
  obtain ⟨hmain, -⟩ := List.nodup_cons.mp h.nodup
  rcases List.mem_cons.mp hc with rfl | hc
  · exact ⟨P.main, List.mem_cons_self, (if_pos rfl).symm⟩
  · obtain ⟨d, hd, rfl⟩ := List.mem_map.mp hc
    have hne : d ≠ P.main := fun he => hmain (he ▸ hd)
    exact ⟨d, List.mem_cons_of_mem _ hd, (if_neg hne).symm⟩

/-- Nothing of a pool is at null. -/
theorem Pooled.pool_ne (h : Pooled m man P) : ∀ p ∈ man :: P.secs.map (· + 16), p ≠ 0 := by
  intro p hp
  have hpos := h.pos
  rcases List.mem_cons.mp hp with rfl | hp
  · omega
  · obtain ⟨c, -, rfl⟩ := List.mem_map.mp hp
    omega

/-- No two pools are at one address. -/
theorem Pooled.pools_nodup (h : Pooled m man P) (hl : Spread m' hd P) :
    (man :: P.secs.map (· + 16)).Nodup := by
  obtain ⟨hmain, hsecs⟩ := List.nodup_cons.mp h.nodup
  refine List.nodup_cons.mpr ⟨fun hm => ?_, hsecs.map fun x y (he : x + 16 = y + 16) => by omega⟩
  obtain ⟨c, hc, he⟩ := List.mem_map.mp hm
  have hcb : c ∈ P.bases := List.mem_cons_of_mem _ hc
  have hap := h.apart c hcb
  have hplace := (hl.place c hcb).bounds
  have hstop : P.stop c = c + P.size c := rfl
  have hsize : sizeofMman = 256 := rfl
  omega

/-- **What giving an area back did.** -/
structure Dropped (h : Heap Mman) (P : Pic) (a : Nat) (h' : Heap Mman) : Prop where
  spans : Spans h' P
  pooled : Pooled h'.mem h.pool.self (P.drop a)
  kept : ∀ w, ¬ InPool P h.pool.self w → h'.mem w = h.mem w
  counts : ∀ c ∈ P.bases, poolAllocedSize h'.mem (P.poolOf h.pool.self c) =
    poolAllocedSize h.mem (P.poolOf h.pool.self c)
  rest : h'.pool.rest = Mman.rest { h.pool with size := subW h.pool.size (P.size a) }
  delmem : h'.delmem = h.delmem ++ [(a, P.size a)]

/-- **`mman_delmem`** takes the pool off the chain and gives its area away. -/
theorem mmanDelmem_spec (hl : Spans h P) (hp : Pooled h.mem h.pool.self P) (ha : a ∈ P.secs)
    (hcb : h.pool.cbDelmem = true) :
    ∃ h', mmanDelmem h (a + 16) = some (true, h') ∧ Dropped h P a h' := by
  obtain ⟨pre, y, post, hall, hleft⟩ := hp.around ha
  have hab : a ∈ P.bases := List.mem_cons_of_mem _ ha
  have hmain : a ≠ P.main := fun he => (List.nodup_cons.mp hp.nodup).1 (he ▸ ha)
  have hpool : P.poolOf h.pool.self a = a + 16 := if_neg hmain
  have hchain := hp.chain
  have hnd := hp.pools_nodup hl
  have hne := hp.pool_ne
  have hlen : (h.pool.self :: P.secs.map (· + 16)).length < walkFuel := by
    have := hl.few hp.nodup
    rw [List.length_cons, List.length_map]
    exact this
  have hpools : ∀ z ∈ h.pool.self :: P.secs.map (· + 16), ∃ d ∈ P.bases,
      z = P.poolOf h.pool.self d := fun _ => hp.mem_pools
  rw [hall] at hchain hnd hlen hne hpools
  have hprev : prevPool h (a + 16) = some y := by
    have hfind := Links.find_chain_prev hchain hnd (fun h0 => hne 0 h0 rfl) hlen
    rw [← hall] at hfind
    exact hfind
  have hy0 : y ≠ 0 := hne y (by simp)
  obtain ⟨c, hc, hy⟩ := hpools y (by simp)
  have hynot : y ≠ a + 16 ∧ ∀ z ∈ pre ++ post, z ≠ y := by
    obtain ⟨-, h2, h3⟩ := List.nodup_append.mp hnd
    obtain ⟨h4, -⟩ := List.nodup_cons.mp h2
    refine ⟨fun he => h4 (he ▸ List.mem_cons_self), fun z hz he => ?_⟩
    rcases List.mem_append.mp hz with hz | hz
    · exact h3 z hz y (by simp) he
    · exact h4 (List.mem_cons_of_mem _ (he ▸ hz))
  have hca : c ≠ a := fun he => hynot.1 (by rw [hy, he, hpool])
  -- the store goes to the link of another pool
  obtain ⟨m', hm'⟩ : ∃ m', m' = h.mem.write64 (y + 16) (poolNext h.mem (a + 16)) := ⟨_, rfl⟩
  have hother : ∀ w, w < y + 16 ∨ y + 24 ≤ w → m' w = h.mem w := by
    intro w hw
    rw [hm']
    exact Mem.write64_other (by omega)
  have hkept : ∀ w, ¬ InPool P h.pool.self w → m' w = h.mem w := by
    intro w hw
    refine hother w ?_
    by_contra hin
    exact hw ⟨c, hc, by omega, by omega⟩
  have hmark : ∀ d ∈ P.bases, m'.read64 d = h.mem.read64 d := by
    intro d hd
    have := hp.marker_apart hl hc hd
    exact Mem.read64_congr fun w h1 h2 => hother w (by omega)
  have hword : ∀ d ∈ P.bases, ∀ k ≤ 16, (d = c → k ≤ 8) →
      m'.read64 (P.poolOf h.pool.self d + k) = h.mem.read64 (P.poolOf h.pool.self d + k) := by
    intro d hd k hk hdc
    refine Mem.read64_congr fun w h1 h2 => hother w ?_
    rcases hp.pools_apart hl hc hd with rfl | he | he
    · have := hdc rfl
      omega
    · omega
    · omega
  have hlink : ∀ z ∈ pre ++ y :: (a + 16) :: post, z ≠ y → poolNext m' z = poolNext h.mem z := by
    intro z hz hzy
    obtain ⟨d, hd, rfl⟩ := hpools z hz
    exact hword d hd 16 (by omega) fun he => absurd (by rw [hy, he]) hzy
  have hptr : poolPtr m' (a + 16) = a := by
    have := hp.ptr a hab
    rw [hpool] at this
    have hsame := hword a hab 0 (by omega) fun he => absurd he.symm hca
    rw [hpool] at hsame
    exact hsame.trans this
  have hl' : Spread m' h.pool.heads P := hl.poolStore hp hkept
  have hbig : allocareaSize m' a = P.size a := by
    have := hp.allocareaSize_eq (hl.place a hab) hab
    unfold allocareaSize at this ⊢
    rwa [hmark a hab]
  refine ⟨{ mem := m', pool := { h.pool with size := subW h.pool.size (P.size a) },
            delmem := h.delmem ++ [(a, P.size a)] }, ?_, hl', ?_, hkept,
    fun d hd => hword d hd 8 (by omega) fun _ => by omega, rfl, rfl⟩
  · unfold mmanDelmem
    simp only [hcb, Bool.not_true, Bool.false_eq_true, if_false, hprev, Option.bind_eq_bind,
      Option.bind_some, hy0]
    rw [← hm', hptr, hbig]
    -- `simp` has put the value of the callback field in its place
    rw [← hcb]
    rfl
  · obtain ⟨hmainN, hsecs⟩ := List.nodup_cons.mp hp.nodup
    have hsub : ∀ d ∈ (P.drop a).bases, d ∈ P.bases := fun _ => Pic.drop_sub
    refine ⟨?_, hp.align, hp.pos, hp.fits, fun d hd => hp.apart d (hsub d hd), fun d hd => ?_,
      fun d hd => ?_, fun d hd => ?_, ?_⟩
    · exact List.nodup_cons.mpr ⟨fun hm => hmainN (List.mem_of_mem_erase hm), hsecs.erase a⟩
    · rw [hmark d (hsub d hd)]
      exact hp.marker d (hsub d hd)
    · rw [hmark d (hsub d hd)]
      exact hp.big d (hsub d hd)
    · exact (hword d (hsub d hd) 0 (by omega) fun _ => by omega).trans (hp.ptr d (hsub d hd))
    · show ((h.pool.self :: (P.drop a).secs.map (· + 16)) ++ [0]).IsChain _
      rw [hleft]
      refine Links.chain_unlink hchain ?_ (fun z hz => ?_) fun z hz => ?_
      · show m'.read64 (y + 16) = _
        rw [hm']
        exact Mem.read64_write64_same _ _ (Mem.read64_lt _ _)
      · exact hlink z (by simp [hz]) (hynot.2 z (by simp [hz]))
      · exact hlink z (by simp [hz]) (hynot.2 z (by simp [hz]))

/-! ## `mman_free` on an ordinary block -/

/-- The picture with a live block of the area at `a` in hand. -/
abbrev Pic.taken (P : Pic) (a x s : Nat) (pre post : List Block) : Pic :=
  P.edit a (pre ++ ⟨x, s, .hand⟩ :: post) P.lists

/-- **What became of a block given back**, and of its area. -/
inductive Returned (h : Heap Mman) (P : Pic) (a x s : Nat) (pre post : List Block)
    (h' : Heap Mman) : Prop where
  /-- The block is on a list. -/
  | listed (bs : List Block) (L : Nat → List Nat)
      (hstay : a = P.main ∨ subW (poolAllocedSize h.mem (P.poolOf h.pool.self a)) s ≠ 0 ∨
        h.pool.cbDelmem = false)
      (hrel : Releases (P.blocks a) x s bs)
      (ht : Tallied (subW · s) h (P.taken a x s pre post) a h' (P.edit a bs L))
  /-- The area has been given back, with the block in hand. -/
  | given (pre' post' : List Block) (x' s' : Nat) (L : Nat → List Nat) (h₁ : Heap Mman)
      (hsec : a ∈ P.secs)
      (hcount : subW (poolAllocedSize h.mem (P.poolOf h.pool.self a)) s = 0)
      (hcb : h.pool.cbDelmem = true)
      (hpre : Absorbed pre.reverse pre'.reverse) (hpost : Absorbed post post')
      (ht : Tallied (subW · s) h (P.taken a x s pre post) a h₁
        (P.edit a (pre' ++ ⟨x', s', .hand⟩ :: post') L))
      (hd : Dropped h₁ (P.edit a (pre' ++ ⟨x', s', .hand⟩ :: post') L) a h')

/-- **`mman_free`** lists the merged block or gives the area back with it. -/
theorem mmanRelease_spec (hm : Managed h P) (ha : a ∈ P.bases)
    (hbs : P.blocks a = pre ++ ⟨x, s, .live⟩ :: post) :
    ∃ h', mmanRelease h x = some h' ∧ Returned h P a x s pre post h' := by
  have hmem : (⟨x, s, .live⟩ : Block) ∈ P.blocks a := by rw [hbs]; simp
  have hpool : blkPoolptr h.mem x = P.poolOf h.pool.self a :=
    hm.pooled.poolptr (b := ⟨x, s, .live⟩) hm.spans ha hmem
      (hm.spans.flags a ha _ hmem (by simp))
  obtain ⟨pre', x', s', post', L, hpre, hpost, hx', ht, hflag⟩ := release_merged hm ha hbs
  obtain ⟨h₁, hh₁⟩ : ∃ h₁, h₁ = (blkTrymerge Mman.detach (Mman.debit h x) x).2 := ⟨_, rfl⟩
  rw [← hh₁] at ht hflag
  have heq : mmanRelease h x = mmanReleaseEnd h₁ (P.poolOf h.pool.self a) x' := by
    unfold mmanRelease
    dsimp only
    rw [hpool, hx', hh₁]
  have hself : h₁.pool.self = h.pool.self := ht.self
  have hcb : h₁.pool.cbDelmem = h.pool.cbDelmem := congrArg (fun r => r.2.2.2.2.1) ht.rest
  have hcount : poolAllocedSize h₁.mem (P.poolOf h.pool.self a) =
      subW (poolAllocedSize h.mem (P.poolOf h.pool.self a)) s := ht.count
  have hlist : ∃ bs L, Releases (P.blocks a) x s bs ∧
      Tallied (subW · s) h (P.taken a x s pre post) a (Mman.doFree h₁ x') (P.edit a bs L) := by
    obtain ⟨L', hfree, -⟩ := Mman.doFree_steps ht.spans ha (Pic.edit_blocks _ _) hflag
    rw [Pic.edit_edit] at hfree
    refine ⟨_, L', ?_, ht.steps ha hfree⟩
    rw [hbs]
    exact .intro pre post pre' post' x s x' s' hpre hpost
  rw [heq, mmanReleaseEnd, hself, hcount]
  by_cases hmain : a = P.main
  · rw [if_neg fun hne => hne.1 (if_pos hmain)]
    obtain ⟨bs, L', hrel, ht'⟩ := hlist
    exact ⟨_, rfl, .listed bs L' (.inl hmain) hrel ht'⟩
  have hsec : a ∈ P.secs := (List.mem_cons.mp ha).resolve_left hmain
  have hpa : P.poolOf h.pool.self a = a + 16 := if_neg hmain
  have hne : P.poolOf h.pool.self a ≠ h.pool.self := by
    have hnd := (List.nodup_cons.mp (hm.pooled.pools_nodup hm.spans)).1
    exact fun he => hnd (he ▸ hpa ▸ List.mem_map_of_mem hsec)
  by_cases hzero : subW (poolAllocedSize h.mem (P.poolOf h.pool.self a)) s = 0
  · rw [if_pos ⟨hne, hzero⟩]
    by_cases hdel : h.pool.cbDelmem = true
    · have hself' : Pooled h₁.mem h₁.pool.self
          (P.edit a (pre' ++ ⟨x', s', .hand⟩ :: post') L) := by
        rw [hself]
        exact ht.pooled
      obtain ⟨h', hgone, hd⟩ := mmanDelmem_spec ht.spans hself' hsec (hcb.trans hdel)
      rw [hpa, hgone]
      exact ⟨h', rfl, .given pre' post' x' s' L h₁ hsec hzero hdel hpre hpost ht hd⟩
    · rw [Bool.not_eq_true] at hdel
      obtain ⟨bs, L', hrel, ht'⟩ := hlist
      rw [mmanDelmem, hcb.trans hdel]
      exact ⟨_, rfl, .listed bs L' (.inr (.inr hdel)) hrel ht'⟩
  · rw [if_neg fun hcond => hzero hcond.2]
    obtain ⟨bs, L', hrel, ht'⟩ := hlist
    exact ⟨_, rfl, .listed bs L' (.inr (.inl hzero)) hrel ht'⟩

end IonOS.Alloc
