import IonOS.Alloc.Pools

/-!
# A manager just set up

`mman_init` makes one free block of the main area and puts it on the list of
large blocks, whatever its size. There are no secondary areas, and the chain of
pools is the manager's own.
-/

namespace IonOS.Alloc

open IonOS.Lib

variable {a size man : Nat} {h0 : Heap Mman} {m : Mem}

/-- The block of a fresh area has the size flag if the area is a big one. -/
theorem allocareaInit_flagged (hf : Fits (a + 16) (size - 32)) (h32 : 32 ≤ size)
    (hs : size < 2 ^ 64) (pdata : Nat) :
    Flagged (allocareaInit m a size pdata) (a + 16) (size - 32) (size = size2M) := by
  have hhigh := hf.high
  unfold allocareaInit
  dsimp only
  rw [addW_of_lt (a := a) (b := 16) (by omega), subW_of_le (b := 32) h32 hs]
  by_cases hbig : size = size2M
  · rw [if_pos hbig, if_pos (by decide)]
    exact (blkSetArea2M_flagged hf _).of_iff (by simp [hbig])
  · rw [if_neg hbig, if_neg (by decide)]
    exact (blkSetArea4k_flagged hf _).of_iff (by simp [hbig])

/-- One area, and its one block in hand. -/
def Pic.start (a size : Nat) : Pic :=
  { main := a
    secs := []
    size := fun _ => size
    blocks := fun _ => [⟨a + 16, size - 32, .hand⟩]
    lists := fun _ => [] }

/-- The picture once the block is listed. -/
def Pic.started (a size : Nat) : Pic :=
  (Pic.start a size).edit a [⟨a + 16, size - 32, .free⟩]
    (Function.update (fun _ => []) 8 [a + 16])

/-- What `mman_init` is given. -/
structure Sound (man a size : Nat) : Prop where
  place : Place a size
  align : man % 8 = 0
  pos : 0 < man
  fits : man + sizeofMman ≤ 2 ^ 64
  apart : man + sizeofMman ≤ a ∨ a + size ≤ man

/-- The manager as `mman_init` leaves it, before its block is listed. -/
def startMman (man size : Nat) : Mman :=
  { self := man, size := size, allocedSize := 0, cbReqmem := false, cbDelmem := false,
    largeBlk := 0, freed := fun _ => 0, large := fun _ => 0, reqmem := [] }

theorem mmanInit_eq (hs : Sound man a size) (h0 : Heap Mman) :
    mmanInit h0 man a size = (true, Mman.putLarge
      { h0 with
        mem := allocareaInit (setPool h0.mem man a 0 0) a size man
        pool := startMman man size } (a + 16)) := by
  obtain ⟨-, hpos, hmin, -, -⟩ := hs.place.bounds
  have hman := hs.pos
  have hfit := hs.place.fits
  have hkind := hs.place.kind
  have hadd : addW a 16 = a + 16 := addW_of_lt (by omega)
  rw [mmanInit, if_neg (by omega), if_neg (by tauto), hadd]
  rfl

/-- The memory before the block is listed. -/
theorem startArea (hs : Sound man a size) {m' : Mem}
    (hm' : m' = allocareaInit (setPool m man a 0 0) a size man) :
    Tagged m' ⟨a + 16, size - 32, .free⟩ ∧ Flagged m' (a + 16) (size - 32) (size = size2M) ∧
      m'.read64 a = man + 2 + (if size = size2M then 4 else 0) ∧
      m'.read64 (a + size - 8) / 2 % 2 = 1 ∧ poolPtr m' man = a ∧ poolAllocedSize m' man = 0 ∧
      poolNext m' man = 0 := by
  obtain ⟨h4k, hpos, hmin, hmax, hmul⟩ := hs.place.bounds
  have hfit := hs.place.fits
  have hal := hs.align
  have hmfit := hs.fits
  have hap := hs.apart
  have hsz : sizeofMman = 256 := rfl
  have hf : Fits (a + 16) (size - 32) := ⟨by omega, by omega, by omega, by omega⟩
  obtain ⟨hfirst, hlast⟩ := allocareaInit_words (m := setPool m man a 0 0) hf
    (by omega) (by omega) (by omega) hal (by omega)
  have hkeep : ∀ k ≤ 16, m'.read64 (man + k) = (setPool m man a 0 0).read64 (man + k) := by
    intro k hk
    rw [hm']
    exact Mem.read64_congr fun w h1 h2 =>
      allocareaInit_other hf (by omega) (by omega) (by omega) (by omega)
  refine ⟨?_, ?_, ?_, ?_, ?_, ?_, ?_⟩
  · rw [hm']
    exact allocareaInit_tagged hf (by omega) (by omega) man
  · rw [hm']
    exact allocareaInit_flagged hf (by omega) (by omega) man
  · rw [hm', hfirst]
  · rw [hm', hlast]
    split <;> omega
  · refine (hkeep 0 (by omega)).trans ?_
    rw [setPool, Mem.read64_write64_disjoint _ _ (by omega),
      Mem.read64_write64_disjoint _ _ (by omega)]
    exact Mem.read64_write64_same _ _ (by omega)
  · refine (hkeep 8 (by omega)).trans ?_
    rw [setPool, Mem.read64_write64_disjoint _ _ (by omega)]
    exact Mem.read64_write64_same _ _ (by omega)
  · exact (hkeep 16 (by omega)).trans (Mem.read64_write64_same _ _ (by omega))

/-- The picture before the block is listed. -/
theorem start_spread (hs : Sound man a size)
    (htag : Tagged m ⟨a + 16, size - 32, .free⟩) (hfirst : m.read64 a / 2 % 2 = 1)
    (hlast : m.read64 (a + size - 8) / 2 % 2 = 1) :
    Spread m (fun _ => 0) (Pic.start a size) := by
  obtain ⟨h4k, hpos, hmin, hmax, hmul⟩ := hs.place.bounds
  have hbase : ∀ c ∈ (Pic.start a size).bases, c = a := fun c hc => List.mem_singleton.mp hc
  have hblock : ∀ c, ∀ b ∈ (Pic.start a size).blocks c, b = ⟨a + 16, size - 32, .hand⟩ :=
    fun c b hb => List.mem_singleton.mp hb
  have hhead : (Pic.start a size).first a = a + 16 := if_pos rfl
  refine ⟨fun c hc => ?_, fun c hc d hd => ?_, fun c hc => ?_, fun c hc b hb => ?_,
    fun c hc b hb => ?_, fun c hc b hb hst => ?_, fun c hc => ?_, fun c hc => ?_,
    ⟨fun i => ?_, fun i j x hx => ?_, fun i x hx => ?_, fun i => ?_⟩, fun i x hx => ?_,
    fun c hc b hb hst => ?_⟩
  · rw [hbase c hc]
    exact hs.place
  · exact .inl ((hbase c hc).trans (hbase d hd).symm)
  · rw [hbase c hc, hhead]
    refine ⟨rfl, ?_⟩
    show a + 16 + (size - 32 + 16) = a + size
    omega
  · rw [hblock c b hb]
    dsimp only
    omega
  · rw [hblock c b hb]
    exact htag.hand
  · rw [hblock c b hb] at hst
    exact absurd rfl hst
  · rw [hbase c hc, hhead, Nat.add_sub_cancel]
    exact .inl hfirst
  · rw [hbase c hc]
    exact hlast
  · exact Links.isList_nil _ _
  · exact absurd hx List.not_mem_nil
  · exact absurd hx List.not_mem_nil
  · exact Nat.two_pow_pos 64
  · exact absurd hx List.not_mem_nil
  · rw [hblock c b hb] at hst
    exact absurd hst (by simp)

/-- The pools before the block is listed. -/
theorem start_pooled (hs : Sound man a size)
    (hfirst : m.read64 a = man + 2 + (if size = size2M then 4 else 0)) (hptr : poolPtr m man = a)
    (hnext : poolNext m man = 0) : Pooled m man (Pic.start a size) := by
  have hal := hs.align
  have hbase : ∀ c ∈ (Pic.start a size).bases, c = a := fun c hc => List.mem_singleton.mp hc
  have hpool : (Pic.start a size).poolOf man a = man := if_pos rfl
  refine ⟨List.nodup_singleton a, hal, hs.pos, hs.fits, fun c hc => ?_, fun c hc => ?_,
    fun c hc => ?_, fun c hc => ?_, ?_⟩
  · rw [hbase c hc]
    exact hs.apart
  · rw [hbase c hc, hpool, hfirst]
    split <;> omega
  · rw [hbase c hc, hfirst]
    show _ ↔ size = size2M
    by_cases hbig : size = size2M
    · rw [if_pos hbig]
      simp only [hbig, iff_true]
      omega
    · rw [if_neg hbig]
      simp only [hbig, iff_false]
      omega
  · rw [hbase c hc, hpool]
    exact hptr
  · exact List.isChain_cons_cons.mpr ⟨hnext, .singleton _⟩

/-- **`mman_init` sets up a manager**: one free block, one pool, nothing live. -/
theorem mmanInit_spec (hs : Sound man a size) (h0 : Heap Mman) :
    ∃ h, mmanInit h0 man a size = (true, h) ∧ Spans h (Pic.started a size) ∧
      Pooled h.mem man (Pic.started a size) ∧ poolAllocedSize h.mem man = 0 ∧
      h.pool.rest = (startMman man size).rest ∧ h.delmem = h0.delmem := by
  obtain ⟨m, hm⟩ : ∃ m, m = allocareaInit (setPool h0.mem man a 0 0) a size man := ⟨_, rfl⟩
  obtain ⟨htag, hflag, hfirst, hlast, hptr, hcount, hnext⟩ := startArea hs hm
  have hal := hs.align
  have hmark : m.read64 a / 2 % 2 = 1 := by
    rw [hfirst]
    split <;> omega
  have hl := start_spread hs htag hmark hlast
  have hp := start_pooled hs hfirst hptr hnext
  have hbs : (Pic.start a size).blocks a = [] ++ ⟨a + 16, size - 32, .hand⟩ :: [] := rfl
  have ha : a ∈ (Pic.start a size).bases := List.mem_singleton_self a
  obtain ⟨r1, r2, -⟩ := hl.put (j := 8) ha hbs htag hflag (.inr ⟨rfl, rfl, rfl⟩)
  have hcount' := hp.alloced_moved hl r2 ha
  rw [show (Pic.start a size).poolOf man a = man from if_pos rfl, hcount] at hcount'
  rw [mmanInit_eq hs, ← hm]
  refine ⟨_, rfl, ?_, (hp.moved hl r2).edit _ _ _, hcount', rfl, rfl⟩
  show Spread (freelistPut m 0 (a + 16)).2 _ _
  have hheads : Mman.heads { startMman man size with
      largeBlk := (freelistPut m 0 (a + 16)).1 } =
      Function.update (fun _ => 0) 8 (freelistPut m 0 (a + 16)).1 := by
    rw [heads_setLarge]
    congr 1
    exact Function.update_eq_self 8 _
  exact hheads ▸ r1

theorem Mman.rest_self {p q : Mman} (h : p.rest = q.rest) : p.self = q.self :=
  congrArg Prod.fst h

/-- **A manager just set up is at rest**, and so it is with its callbacks. -/
theorem managed_start {h : Heap Mman} (hs : Sound man a size)
    (hinit : mmanInit h0 man a size = (true, h)) (req del : Bool) :
    Managed (mmanSetcb h req del) (Pic.started a size) := by
  obtain ⟨h', hinit', hl, hp, -, hrest, -⟩ := mmanInit_spec hs h0
  obtain rfl : h' = h := congrArg Prod.snd (hinit'.symm.trans hinit)
  have hman : h'.pool.self = man := Mman.rest_self (q := startMman man size) hrest
  refine ⟨hl, ?_, fun c hc b hb => ?_⟩
  · show Pooled h'.mem h'.pool.self _
    rw [hman]
    exact hp
  · have hca : c = a := List.mem_singleton.mp hc
    rw [hca, Pic.started, Pic.edit_blocks] at hb
    rw [List.mem_singleton.mp hb]
    simp

end IonOS.Alloc
