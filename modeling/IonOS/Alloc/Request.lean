import IonOS.Alloc.Align
import IonOS.Alloc.Enter
import IonOS.Alloc.Find
import IonOS.Alloc.Teardown

/-!
# Asking for memory

When the lists have nothing, `mman_reqmem` chooses between an area of 4 KiB and
one of 2 MiB by the size of the request, and the list of large blocks is searched
once more. The block of the new area is the only new thing on it. It has 80 bytes
less than the area, so that a request of 4032 is sent to an area of 4 KiB that
has 4016.

An aligned request asks for its size and its alignment together. That is more
than it needs, and always enough.
-/

namespace IonOS.Alloc

open IonOS.Lib

variable {h h' : Heap Mman} {P : Pic} {reqmem : Nat → Nat} {f : Mem → Nat → Bool}
  {a size n align x : Nat}

/-! ## `mman_reqmem` -/

/-- What `cb_reqmem` promises for the two sizes it is asked for. -/
def Conforming (reqmem : Nat → Nat) (P : Pic) (man : Nat) : Prop :=
  ∀ size, size = size4k ∨ size = size2M → reqmem size = 0 ∨ Fresh P man (reqmem size) size

/-- The size of the area for a request. -/
def areaSize (n : Nat) : Nat := if size4k < n + 56 then size2M else size4k

/-- The heap once `cb_reqmem` has answered with `a`. -/
def logged (h : Heap Mman) (a size : Nat) : Heap Mman :=
  { h with pool := { h.pool with reqmem := h.pool.reqmem ++ [(a, size)] } }

theorem areaSize_kind (n : Nat) : areaSize n = size4k ∨ areaSize n = size2M := by
  unfold areaSize
  split
  · exact .inr rfl
  · exact .inl rfl

/-- **`mman_reqmem`** enters an area of the right size, or does nothing. -/
theorem mmanReqmem_spec (hl : Spans h P) (hp : Pooled h.mem h.pool.self P)
    (hc : Conforming reqmem P h.pool.self) (hn : n < 2 ^ 32) :
    mmanReqmem reqmem h n = (false, h) ∨
      ∃ a h', mmanReqmem reqmem h n = (true, h') ∧ Fresh P h.pool.self a (areaSize n) ∧
        Entered (logged h a (areaSize n)) P a (areaSize n) h' := by
  have hadd : addW n (sizeofMmanPool + 4 * 8) = n + 56 := addW_of_lt (by
    have : sizeofMmanPool + 4 * 8 = 56 := rfl
    omega)
  have harea : (if size4k < n + 56 then size2M else size4k) = areaSize n := rfl
  unfold mmanReqmem
  dsimp only
  rw [hadd, harea]
  by_cases hcb : h.pool.cbReqmem = true
  · rw [hcb]
    simp only [Bool.not_true, Bool.false_eq_true, if_false]
    by_cases hbig : size2M < n + 56
    · rw [if_pos hbig]
      exact .inl rfl
    · rw [if_neg hbig]
      by_cases h0 : reqmem (areaSize n) = 0
      · refine .inl ?_
        simp [callReqmem, h0]
      · have hf := (hc _ (areaSize_kind n)).resolve_left h0
        refine .inr ⟨reqmem (areaSize n),
          enterArea (logged h (reqmem (areaSize n)) (areaSize n)) (reqmem (areaSize n))
            (areaSize n), ?_, hf, ?_⟩
        · simp only [callReqmem, h0, if_false]
          rfl
        · exact enterArea_spec (h := logged h _ _) hl hp hf
  · rw [Bool.not_eq_true] at hcb
    rw [hcb]
    exact .inl rfl

/-! ## What the second search sees -/

/-- The new block is on the list of large blocks. -/
theorem Entered.block (he : Entered h P a size h') :
    a + 64 ∈ (P.entered a size).lists 8 ∧ blkSize h'.mem (a + 64) = size - 80 := by
  have ha : a ∈ (P.entered a size).bases := Pic.mem_entered.mpr (.inl rfl)
  have hb : (⟨a + 64, size - 80, .free⟩ : Block) ∈ (P.entered a size).blocks a := by
    rw [Pic.entered_blocks]
    exact List.mem_singleton_self _
  have hs := he.spans.blkSize_eq ha hb
  refine ⟨?_, hs⟩
  rw [Pic.entered_large]
  exact List.mem_cons_self

/-- The other large blocks are what they were. -/
theorem Entered.others (he : Entered h P a size h') (hl : Spans h P)
    (hf : Fresh P h.pool.self a size) (hx : x ∈ P.lists 8) :
    blkSize h'.mem x = blkSize h.mem x := by
  obtain ⟨c, hc, b, hb, rfl, -⟩ := hl.nodes 8 x hx
  have hc' : c ∈ (P.entered a size).bases := Pic.mem_entered.mpr (.inr hc)
  have hb' : b ∈ (P.entered a size).blocks c := by
    rwa [Pic.entered_blocks_ne (hf.ne hc hl)]
  exact (he.spans.blkSize_eq hc' hb').trans (hl.blkSize_eq hc hb).symm

/-- A search that comes up with a block. -/
def Serves (r : Option (Nat × Heap Mman)) : Prop := ∃ p h', r = some (p, h') ∧ p ≠ 0

/-- It does so just if a block on the list passes the test. -/
theorem serves_large_iff (hl : Spans h P) :
    Serves (Mman.matchLargeBy f h) ↔ ∃ x ∈ P.lists 8, f h.mem x := by
  obtain ⟨r, hr, -, hfit⟩ := matchLargeBy_found (f := f) hl
  rw [← hfit, hr]
  constructor
  · rintro ⟨p, h', hr', hp⟩
    rwa [Option.some.inj hr']
  · intro h0
    exact ⟨r.1, r.2, rfl, h0⟩

/-! ## Requests -/

theorem requestSize_mod (n : Nat) : requestSize n % 16 = 0 := by
  unfold requestSize
  split
  · rfl
  · rw [padding, and_notW_fifteen (by unfold subW; omega)]
    omega

/-- **A new area has a block for the request** unless the request is 4032. -/
theorem serves_plain_iff (hl : Spans h P) (hf : Fresh P h.pool.self a (areaSize n))
    (he : Entered h P a (areaSize n) h') (h16 : n % 16 = 0) (hn : n < allocLargeBlkSize)
    (hno : ∀ x ∈ P.lists 8, ¬ sizeFits n h.mem x) : Serves (Mman.matchLarge h' n) ↔ n ≠ 4032 := by
  obtain ⟨hnew, hsize⟩ := he.block
  have hlarge : allocLargeBlkSize = 16384 := rfl
  have hroom : n ≤ areaSize n - 80 ↔ n ≠ 4032 := by
    unfold areaSize size4k size2M
    split <;> omega
  rw [matchLarge_eq, serves_large_iff he.spans, ← hroom]
  constructor
  · rintro ⟨x, hx, hfit⟩
    rw [Pic.entered_large] at hx
    rcases List.mem_cons.mp hx with rfl | hx
    · unfold sizeFits at hfit
      rw [hsize] at hfit
      simpa using hfit
    · -- an old block that would do
      refine absurd ?_ (hno x hx)
      unfold sizeFits at hfit ⊢
      rwa [← he.others hl hf hx]
  · intro hle
    refine ⟨a + 64, hnew, ?_⟩
    unfold sizeFits
    rw [hsize]
    simpa using hle

/-- The first aligned address of a new area is close to the block. -/
theorem newArea_gap (hp : Place a size) (ha : AlignPow align) (hs : align ≤ size)
    (hsize : align ≤ 8192) (hroom : a + 64 + align < 2 ^ 64) :
    a + 64 ≤ paddingUp (a + 64) align ∧ paddingUp (a + 64) align < 2 ^ 64 ∧
      paddingUp (a + 64) align - (a + 64) ≤ align - 64 := by
  obtain ⟨h4k, -⟩ := hp.bounds
  rcases paddingUp_spec ha (x := a + 64) (by omega) (by omega) with ⟨h1, h2, h3, h4, -⟩ | ⟨-, -, h3⟩
  · refine ⟨h2, h4, ?_⟩
    have hbig := ha.big
    have hpa : a % align = 0 := by
      obtain ⟨k, -, rfl⟩ := ha.pow
      have hdvd : 2 ^ k ∣ size := by
        rcases hp.kind with rfl | rfl
        · exact (Nat.pow_dvd_pow_iff_pow_le_pow (l := 12) (by decide : 0 < 2)).mpr hs
        · exact (Nat.pow_dvd_pow_iff_pow_le_pow (l := 21) (by decide : 0 < 2)).mpr hs
      exact Nat.mod_eq_zero_of_dvd (hdvd.trans (Nat.dvd_of_mod_eq_zero hp.align))
    have hmul : (paddingUp (a + 64) align - a) % align = 0 :=
      Nat.mod_eq_zero_of_dvd (Nat.dvd_sub (Nat.dvd_of_mod_eq_zero h1) (Nat.dvd_of_mod_eq_zero hpa))
    -- up to 64 the block is aligned already, and above 64 the next multiple is `a + align`
    by_cases hle : align ≤ 64
    · have hdvd : align ∣ 64 := by
        obtain ⟨k, -, rfl⟩ := ha.pow
        exact (Nat.pow_dvd_pow_iff_pow_le_pow (l := 6) (by decide : 0 < 2)).mpr hle
      have hgap : (paddingUp (a + 64) align - (a + 64)) % align = 0 := by
        rw [Nat.sub_add_eq]
        exact Nat.mod_eq_zero_of_dvd (Nat.dvd_sub (Nat.dvd_of_mod_eq_zero hmul) hdvd)
      rw [Nat.mod_eq_of_lt (by omega)] at hgap
      omega
    · by_contra hgap
      rw [Nat.mod_eq_sub_mod (by omega), Nat.mod_eq_of_lt (by omega)] at hmul
      omega
  · omega

/-- **It always has one for the aligned request** that asked for size and alignment. -/
theorem serves_aligned (hf : Place a (areaSize (n + align)))
    (he : Entered h P a (areaSize (n + align)) h') (h16 : n % 16 = 0)
    (hn : n < allocLargeBlkSize) (ha : AlignPow align) (hlt : align < allocLargeBlkSize) :
    Serves (Mman.alignedMatchLarge h' n align) := by
  obtain ⟨hnew, hsize⟩ := he.block
  have hlarge : allocLargeBlkSize = 16384 := rfl
  have hbig := ha.big
  have hdvd := ha.dvd
  -- the next power of two is twice as big
  have hhalf : ∀ j, align < 2 ^ (j + 1) → align ≤ 2 ^ j := by
    intro j hj
    obtain ⟨k, -, rfl⟩ := ha.pow
    have hk : k < j + 1 := (Nat.pow_lt_pow_iff_right (by decide)).mp hj
    exact Nat.pow_le_pow_right (by decide) (by omega : k ≤ j)
  have hpow : align ≤ 8192 := hhalf 13 hlt
  have hsmall : align < 4096 → align ≤ 2048 := hhalf 11
  have hroom : align + 64 < areaSize (n + align) ∧
      n + (align - 64) ≤ areaSize (n + align) - 80 ∧ areaSize (n + align) ≤ 2097152 := by
    unfold areaSize size4k size2M
    split <;> omega
  have hend := hf.fits
  obtain ⟨h1, h2, h3⟩ := newArea_gap hf ha (by omega) hpow (by omega)
  rw [alignedMatchLarge_eq, serves_large_iff he.spans]
  exact ⟨a + 64, hnew, alignedFits_of_room hsize (by omega) h1 h2 (by omega)⟩

/-- After a search in vain, what becomes of the request is what becomes of the second search. -/
theorem mmanAlloc_second {libc : Libc} {h₁ : Heap Mman} (hn : requestSize n < allocLargeBlkSize)
    (hno : Mman.matchAny h (requestSize n) = some (0, h₁))
    (hok : mmanReqmem reqmem h₁ (requestSize n) = (true, h')) (hl : Spans h' P) :
    mmanAlloc libc reqmem h n ≠ none ↔ Serves (Mman.matchLarge h' (requestSize n)) := by
  obtain ⟨r, hr, -, -⟩ := matchLargeBy_found (f := sizeFits (requestSize n)) hl
  rw [← matchLarge_eq] at hr
  have heq : mmanAlloc libc reqmem h n =
      if r.1 = 0 then none else some (r.1, mmanFinish r.2 r.1 (requestSize n)) := by
    rw [mmanAlloc, if_neg (Nat.not_le.mpr hn), hno]
    simp only [Option.bind_eq_bind, Option.bind_some, ne_eq, not_true_eq_false, if_false, hok,
      Bool.not_true, Bool.false_eq_true, hr]
    rfl
  rw [heq, hr]
  constructor
  · intro hne
    exact ⟨r.1, r.2, rfl, fun h0 => hne (if_pos h0)⟩
  · rintro ⟨p, g, hg, hp⟩
    obtain rfl := Option.some.inj hg
    rw [if_neg hp]
    simp

theorem mmanAlignedAlloc_second {libc : Libc} {h₁ : Heap Mman}
    (hn : requestSize n < allocLargeBlkSize) (ha : AlignPow align) (hlt : align < allocLargeBlkSize)
    (hno : Mman.alignedMatchAny h (requestSize n) align = some (0, h₁))
    (hok : mmanReqmem reqmem h₁ (addW (requestSize n) align) = (true, h'))
    (hs : Serves (Mman.alignedMatchLarge h' (requestSize n) align)) :
    mmanAlignedAlloc libc reqmem h n align ≠ none := by
  obtain ⟨p, g, hr, hp⟩ := hs
  have hbig := ha.big
  rw [mmanAlignedAlloc, if_neg (not_not.mpr ha.test), if_neg (by omega), if_neg (by omega), hno]
  simp [hok, hr, hp]

/--
**A requested area satisfies the request** for every size but one, and for
every size and every alignment together.
-/
theorem reqmem_suffices_iff {libc : Libc} (hm : Managed h P)
    (hc : Conforming reqmem P h.pool.self) (hn : requestSize n < allocLargeBlkSize) :
    (∀ h₁, Mman.matchAny h (requestSize n) = some (0, h₁) →
      (mmanReqmem reqmem h₁ (requestSize n)).1 = true →
        (Serves (Mman.matchLarge (mmanReqmem reqmem h₁ (requestSize n)).2 (requestSize n)) ↔
          requestSize n ≠ 4032) ∧
        (mmanAlloc libc reqmem h n ≠ none ↔ requestSize n ≠ 4032)) ∧
    ∀ align, AlignPow align → align < allocLargeBlkSize →
      ∀ h₁, Mman.alignedMatchAny h (requestSize n) align = some (0, h₁) →
        (mmanReqmem reqmem h₁ (addW (requestSize n) align)).1 = true →
          Serves (Mman.alignedMatchLarge
            (mmanReqmem reqmem h₁ (addW (requestSize n) align)).2 (requestSize n) align) ∧
          mmanAlignedAlloc libc reqmem h n align ≠ none := by
  have hlarge : allocLargeBlkSize = 16384 := rfl
  refine ⟨fun h₁ hno hok => ?_, fun align ha hlt h₁ hno hok => ?_⟩
  · obtain ⟨r, hr, hfound⟩ := matchAnyBy_found (f := sizeFits (requestSize n)) hm.spans
      (requestSize n)
    rw [← matchAny_by, hno] at hr
    obtain rfl := Option.some.inj hr
    obtain ⟨heq, hnone⟩ := hfound.null hm.spans rfl
    obtain rfl : h₁ = h := congrArg Prod.snd heq
    rcases mmanReqmem_spec hm.spans hm.pooled hc (n := requestSize n) (by omega) with
      hr | ⟨a, h', hr, hfresh, he⟩
    · rw [hr] at hok
      exact absurd hok (by simp)
    · have hserves := serves_plain_iff (h := logged h₁ a _) hm.spans hfresh he (requestSize_mod n)
        hn hnone
      rw [mmanAlloc_second hn hno hr he.spans, hr]
      exact ⟨hserves, hserves⟩
  · obtain ⟨r, hr, hfound⟩ := matchAnyBy_found (f := alignedFits (requestSize n) align) hm.spans
      (requestSize n)
    rw [← alignedMatchAny_by, hno] at hr
    obtain rfl := Option.some.inj hr
    obtain ⟨heq, -⟩ := hfound.null hm.spans rfl
    obtain rfl : h₁ = h := congrArg Prod.snd heq
    have hadd : addW (requestSize n) align = requestSize n + align := addW_of_lt (by omega)
    rcases mmanReqmem_spec hm.spans hm.pooled hc (n := requestSize n + align) (by omega) with
      hr | ⟨a, h', hr, hfresh, he⟩
    · rw [hadd, hr] at hok
      exact absurd hok (by simp)
    · have hserves := serves_aligned hfresh.place he (requestSize_mod n) hn ha hlt
      rw [← hadd] at hr
      rw [hr]
      exact ⟨hserves, mmanAlignedAlloc_second hn ha hlt hno hr hserves⟩

/-- A `libc` that is out of memory. -/
def noLibc : Libc := { malloc := fun m _ => (0, m), free := fun m _ => m }

/-- Two places far from everything. -/
def twoPlaces (size : Nat) : Nat := if size = size2M then 4194304 else 131072

theorem freshMman_managed : Managed freshMman (Pic.started 65536 size4k) := by
  have hs : Sound 8192 65536 size4k :=
    ⟨⟨.inl rfl, by decide, by decide, by decide⟩, by decide, by decide, by decide, by decide⟩
  exact managed_start hs (Prod.ext (by rw [mmanInit_eq hs]) rfl) true true

theorem twoPlaces_conforming : Conforming twoPlaces (Pic.started 65536 size4k) 8192 := by
  intro size hsize
  have hbase : ∀ c ∈ (Pic.started 65536 size4k).bases, c = 65536 := fun c hc =>
    List.mem_singleton.mp hc
  rcases hsize with rfl | rfl
  · refine .inr ⟨⟨.inl rfl, by decide, by decide, by decide⟩, fun c hc => ?_, by decide⟩
    rw [hbase c hc]
    exact .inr (by decide)
  · refine .inr ⟨⟨.inr rfl, by decide, by decide, by decide⟩, fun c hc => ?_, by decide⟩
    rw [hbase c hc]
    exact .inr (by decide)

/-- The first request that the main area is too small for. -/
theorem reqmem_suffices_5000 :
    (Mman.matchAny freshMman (requestSize 5000)).map Prod.fst = some 0 ∧
      (mmanReqmem twoPlaces freshMman (requestSize 5000)).1 = true ∧
      mmanAlloc noLibc twoPlaces freshMman 5000 ≠ none := by
  have hsearch : (Mman.matchAny freshMman (requestSize 5000)).map Prod.fst = some 0 := by
    decide +kernel
  have hok : (mmanReqmem twoPlaces freshMman (requestSize 5000)).1 = true := by decide +kernel
  obtain ⟨⟨p, h₁⟩, hno, hp⟩ := Option.map_eq_some_iff.mp hsearch
  obtain rfl : p = 0 := hp
  have hsame : h₁ = freshMman := by
    obtain ⟨r, hr, hfound⟩ := matchAnyBy_found (f := sizeFits (requestSize 5000))
      freshMman_managed.spans (requestSize 5000)
    rw [← matchAny_by, hno] at hr
    obtain rfl := Option.some.inj hr
    exact congrArg Prod.snd (hfound.null freshMman_managed.spans rfl).1
  subst hsame
  have hmain := (@reqmem_suffices_iff _ _ _ 5000 noLibc freshMman_managed
    twoPlaces_conforming (by decide)).1
  refine ⟨hsearch, hok, ?_⟩
  exact (hmain freshMman hno hok).2.mpr (by decide)

/-- The manager with all of its main area in one live block. -/
def fullMman : Heap Mman :=
  ((mmanAlloc noLibc (fun _ => 0) freshMman 4064).map Prod.snd).getD freshMman

/-- **A request of 4032** is given an area of 4 KiB that is too small for it. -/
theorem reqmem_too_small :
    (mmanAlloc noLibc (fun _ => 0) freshMman 4064).map Prod.fst = some 65552 ∧
      (Mman.matchAny fullMman (requestSize 4032)).map Prod.fst = some 0 ∧
      (mmanReqmem twoPlaces fullMman (requestSize 4032)).1 = true ∧
      (Mman.matchLarge (mmanReqmem twoPlaces fullMman (requestSize 4032)).2
        (requestSize 4032)).map Prod.fst = some 0 ∧
      (mmanAlloc noLibc twoPlaces fullMman 4032).isNone = true := by
  decide +kernel

end IonOS.Alloc
