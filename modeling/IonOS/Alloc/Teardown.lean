import IonOS.Alloc.Mman
import Mathlib.Data.Finset.Card

/-!
# Taking a manager down

The step of the loop in `mman_deinit` reads the link of the next pool before the
test says that there is a next pool. Whatever the length of the chain, the walk
has come to its end when that happens: the secondary areas have all been given
back, the main one has not, and `NULL` is read. With no secondary area it is read
at once.
-/

namespace IonOS.Alloc

open IonOS.Lib

variable {h h' : Heap Mman} {m m' : Mem} {ps : List Nat} {spoil : Mem → Nat → Nat → Mem}

/-- The area of a pool, as `cb_delmem` takes it. -/
def areaOf (m : Mem) (p : Nat) : Nat × Nat := (poolPtr m p, allocareaSize m (poolPtr m p))

/-- The secondary pools of a manager, in the order of the chain. -/
structure Pools (h : Heap Mman) (ps : List Nat) : Prop where
  chain : (h.pool.self :: ps ++ [0]).IsChain fun p q => poolNext h.mem p = q
  nonnull : 0 ∉ ps
  /-- A pool lies behind the marker of its own area. -/
  own : ∀ p ∈ ps, p = poolPtr h.mem p + 16
  apart : ps.Pairwise fun p q => (areaOf h.mem p).1 + (areaOf h.mem p).2 ≤ (areaOf h.mem q).1 ∨
    (areaOf h.mem q).1 + (areaOf h.mem q).2 ≤ (areaOf h.mem p).1

/-- Who takes memory back may do with it what he likes. -/
def Spoils (spoil : Mem → Nat → Nat → Mem) : Prop :=
  ∀ m ptr size w, w < ptr ∨ ptr + size ≤ w → spoil m ptr size w = m w

/-- **What a teardown owes**: every area has been given back once, the main one among them, and
the manager is zeroed. -/
structure TornDown (ps : List Nat) (h h' : Heap Mman) : Prop where
  delmem : ∃ calls, h'.delmem = h.delmem ++ calls ∧
    calls.Perm ((h.pool.self :: ps).map (areaOf h.mem))
  zero : h' = Mman.zero h'

/-- The teardown comes to its end, however memory that was given back is spoiled. -/
def DeinitOk (h : Heap Mman) (ps : List Nat) : Prop :=
  ∀ spoil, Spoils spoil → ∃ h', mmanDeinit spoil h = some (.ok h') ∧ TornDown ps h h'

/-- The loop is not left by its test. -/
theorem deinitPools_ne_ok {fuel p n : Nat} (hp : p ≠ 0) :
    deinitPools spoil fuel p n h ≠ some (.ok h') := by
  induction fuel generalizing p n h with
  | zero => simp [deinitPools]
  | succ fuel ih =>
    rw [deinitPools, if_neg hp]
    by_cases hn : n = 0
    · rw [if_pos hn]
      simp
    · rw [if_neg hn]
      exact ih hn

theorem mmanDeinit_ne_ok (hcb : h.pool.cbDelmem = true) :
    mmanDeinit spoil h ≠ some (.ok h') := by
  intro hr
  rw [mmanDeinit, hcb] at hr
  simp only [Bool.not_true, Bool.false_eq_true, if_false] at hr
  split at hr
  · simp at hr
  · rename_i hp
    obtain ⟨r, hloop, hmap⟩ := Option.map_eq_some_iff.mp hr
    cases r with
    | error g => simp [Except.map] at hmap
    | ok g => exact deinitPools_ne_ok hp hloop

/-- **No teardown comes to its end.** -/
theorem deinit_never (hcb : h.pool.cbDelmem = true) (ps : List Nat) : ¬ DeinitOk h ps := by
  intro hok
  obtain ⟨h', hr, -⟩ := hok (fun m _ _ => m) (fun _ _ _ _ _ => rfl)
  exact mmanDeinit_ne_ok hcb hr

/-- A manager at 8192 of one area of 4 KiB at 65536, just set up. -/
def freshMman : Heap Mman :=
  let pool : Mman :=
    { self := 0, size := 0, allocedSize := 0, cbReqmem := false, cbDelmem := false, largeBlk := 0,
      freed := fun _ => 0, large := fun _ => 0, reqmem := [] }
  mmanSetcb (mmanInit ⟨fun _ => 0, pool, []⟩ 8192 65536 size4k).2 true true

theorem deinit_never_fresh : ¬ DeinitOk freshMman [] := deinit_never rfl []

/-- With no secondary area `NULL` is read before anything is given back. -/
theorem deinit_reads_null : freshMman.pool.cbDelmem = true ∧ Pools freshMman [] ∧
    mmanDeinit (fun m _ _ => m) freshMman = some (.error freshMman) ∧ ¬ DeinitOk freshMman [] := by
  have hnext : poolNext freshMman.mem freshMman.pool.self = 0 := by decide +kernel
  have hrun : mmanDeinit (fun m _ _ => m) freshMman = some (.error freshMman) := by
    rw [mmanDeinit, if_neg (by decide)]
    exact if_pos hnext
  refine ⟨rfl, ⟨by simpa using hnext, by simp, by simp, by simp⟩, hrun, fun hok => ?_⟩
  obtain ⟨h', hr, -⟩ := hok (fun m _ _ => m) (fun _ _ _ _ _ => rfl)
  rw [hrun] at hr
  simp at hr

/-! ## What happens instead -/

theorem allocareaSize_ge (m : Mem) (a : Nat) : 4096 ≤ allocareaSize m a := by
  unfold allocareaSize size2M size4k
  split <;> omega

/-- Nothing that the loop reads of a pool is in the area of another one. -/
theorem Spoils.kept {p q : Nat} (hs : Spoils spoil) (hown : q = poolPtr m q + 16)
    (hap : (areaOf m p).1 + (areaOf m p).2 ≤ (areaOf m q).1 ∨
      (areaOf m q).1 + (areaOf m q).2 ≤ (areaOf m p).1) :
    let m' := spoil m (poolPtr m p) (allocareaSize m (poolPtr m p))
    poolNext m' q = poolNext m q ∧ areaOf m' q = areaOf m q := by
  intro m'
  have hsize := allocareaSize_ge m (poolPtr m q)
  dsimp only [areaOf] at hap
  have hkeep : ∀ w, poolPtr m q ≤ w → w + 8 ≤ poolPtr m q + 4096 → m'.read64 w = m.read64 w := by
    intro w hlo hhi
    exact Mem.read64_congr fun v h1 h2 => hs _ _ _ v (by omega)
  have hptr : poolPtr m' q = poolPtr m q := hkeep q (by omega) (by omega)
  refine ⟨hkeep (q + 16) (by omega) (by omega), ?_⟩
  rw [areaOf, areaOf, hptr, allocareaSize, allocareaSize, hkeep _ (by omega) (by omega)]

/-- The loop gives back the area of every pool on the chain, and then reads `NULL`. -/
theorem deinitPools_eq {fuel p : Nat} (hs : Spoils spoil)
    (hch : (p :: ps ++ [0]).IsChain fun p q => poolNext h.mem p = q) (h0 : 0 ∉ p :: ps)
    (hown : ∀ q ∈ p :: ps, q = poolPtr h.mem q + 16)
    (hap : (p :: ps).Pairwise fun p q =>
      (areaOf h.mem p).1 + (areaOf h.mem p).2 ≤ (areaOf h.mem q).1 ∨
        (areaOf h.mem q).1 + (areaOf h.mem q).2 ≤ (areaOf h.mem p).1)
    (hfuel : ps.length < fuel) :
    ∃ h', deinitPools spoil fuel p (poolNext h.mem p) h = some (.error h') ∧
      h'.delmem = h.delmem ++ (p :: ps).map (areaOf h.mem) := by
  induction ps generalizing fuel p h with
  | nil =>
    obtain ⟨fuel, rfl⟩ := Nat.exists_eq_succ_of_ne_zero (Nat.ne_of_gt hfuel)
    have hp : p ≠ 0 := fun he => h0 (he ▸ by simp)
    have hnext : poolNext h.mem p = 0 := (List.isChain_cons_cons.mp hch).1
    rw [deinitPools, if_neg hp, if_pos hnext]
    exact ⟨_, rfl, rfl⟩
  | cons q ps ih =>
    obtain ⟨fuel, rfl⟩ := Nat.exists_eq_succ_of_ne_zero (Nat.ne_of_gt (Nat.zero_lt_of_lt hfuel))
    have hp : p ≠ 0 := fun he => h0 (he ▸ by simp)
    have hq : q ≠ 0 := fun he => h0 (he ▸ by simp)
    obtain ⟨hnext, htail⟩ := List.isChain_cons_cons.mp hch
    obtain ⟨hpq, hap⟩ := List.pairwise_cons.mp hap
    -- what is left of the chain is as it was
    have hkept : ∀ r ∈ q :: ps,
        poolNext (callDelmem spoil h (poolPtr h.mem p)).mem r = poolNext h.mem r ∧
          areaOf (callDelmem spoil h (poolPtr h.mem p)).mem r = areaOf h.mem r := by
      intro r hr
      exact hs.kept (hown r (List.mem_cons_of_mem _ hr)) (hpq r hr)
    have hown' : ∀ r ∈ q :: ps,
        r = poolPtr (callDelmem spoil h (poolPtr h.mem p)).mem r + 16 := by
      intro r hr
      have hptr : poolPtr (callDelmem spoil h (poolPtr h.mem p)).mem r = poolPtr h.mem r :=
        congrArg Prod.fst (hkept r hr).2
      rw [hptr]
      exact hown r (List.mem_cons_of_mem _ hr)
    rw [deinitPools, if_neg hp, hnext]
    dsimp only
    rw [if_neg hq]
    obtain ⟨h', hrun, hlog⟩ := ih (Links.chain_congr htail fun r hr => (hkept r hr).1)
      (fun hm => h0 (List.mem_cons_of_mem _ hm)) hown'
      (hap.imp_of_mem fun hr ht hrt => by rw [(hkept _ hr).2, (hkept _ ht).2]; exact hrt)
      (Nat.lt_of_succ_lt_succ hfuel)
    refine ⟨h', hrun, ?_⟩
    rw [hlog, List.map_congr_left fun r hr => (hkept r hr).2]
    simp [callDelmem, areaOf]

theorem Pools.short (hp : Pools h ps) : ps.length ≤ walkFuel := by
  have hdisj : (ps.map (poolPtr h.mem)).Nodup := by
    refine List.pairwise_map.mpr (hp.apart.imp fun {p q} hpq he => ?_)
    have h1 := allocareaSize_ge h.mem (poolPtr h.mem p)
    have h2 := allocareaSize_ge h.mem (poolPtr h.mem q)
    dsimp only [areaOf] at hpq
    omega
  have hsub : (ps.map (poolPtr h.mem)).toFinset ⊆ Finset.range (2 ^ 64) := by
    intro a ha
    obtain ⟨p, -, rfl⟩ := List.mem_map.mp (List.mem_toFinset.mp ha)
    exact Finset.mem_range.mpr (Mem.read64_lt _ _)
  have hcard := Finset.card_le_card hsub
  rwa [List.toFinset_card_of_nodup hdisj, List.length_map, Finset.card_range] at hcard

/-- **Every secondary area goes back once**, with its base and its size, and the main one never:
`NULL` is read before. Nothing is read of a pool that has gone back. -/
theorem deinit_faults (hcb : h.pool.cbDelmem = true) (hp : Pools h ps) (hs : Spoils spoil) :
    ∃ h', mmanDeinit spoil h = some (.error h') ∧
      h'.delmem = h.delmem ++ ps.map (areaOf h.mem) := by
  rw [mmanDeinit, hcb]
  simp only [Bool.not_true, Bool.false_eq_true, if_false]
  cases ps with
  | nil =>
    have hnone : poolNext h.mem h.pool.self = 0 := (List.isChain_cons_cons.mp hp.chain).1
    rw [if_pos hnone]
    exact ⟨h, rfl, by simp⟩
  | cons p ps =>
    obtain ⟨hnext, hch⟩ := List.isChain_cons_cons.mp hp.chain
    have hp0 : p ≠ 0 := fun he => hp.nonnull (he ▸ by simp)
    obtain ⟨h', hrun, hlog⟩ := deinitPools_eq hs hch hp.nonnull hp.own hp.apart
      (Nat.lt_of_lt_of_le (Nat.lt_succ_self _) hp.short)
    rw [hnext, if_neg hp0, hrun]
    exact ⟨h', rfl, hlog⟩

end IonOS.Alloc
