import IonOS.Alloc.FreeLists
import IonOS.Alloc.Mman
import Mathlib.Data.Set.Insert

/-!
# The table of large blocks

A block with memory of its own is known by a node on one of sixteen lists, chosen
by a hash of its address. The nodes come from `malloc` and the lists are those of
`freelist.hpp`. `large_blk_alloc` puts its node at the head of the list, and then
sets both links of it to null once more. What was on the list before is lost.

Here are the two calls by themselves: what each makes of a table that is complete.
-/

namespace IonOS.Alloc

open IonOS.Lib

variable {libc : Libc} {Own : Mem → Set Nat → Prop} {h : Heap Mman} {m m' : Mem} {N : Set Nat}
  {hd : Nat → Nat} {L : Nat → List Nat} {out : List (Nat × Nat)} {i p n x y w blk list : Nat}

/-! ## `malloc` and `free` -/

/-- What the table relies on: `Own m N` says that in `m` the nodes in `N` have been handed out
and not been given back. -/
structure MallocSpec (libc : Libc) (Own : Mem → Set Nat → Prop) : Prop where
  shape : ∀ {m N}, Own m N → ∀ x ∈ N, x % 16 = 0 ∧ x ≠ 0 ∧ x < 2 ^ 64
  apart : ∀ {m N}, Own m N → ∀ x ∈ N, ∀ y ∈ N, x = y ∨ x + 32 ≤ y ∨ y + 32 ≤ x
  null : ∀ {m N m'}, Own m N → libc.malloc m sizeofLargeBlk = (0, m') → Own m' N
  malloc : ∀ {m N x m'}, Own m N → libc.malloc m sizeofLargeBlk = (x, m') → x ≠ 0 →
    x ∉ N ∧ Own m' (insert x N)
  free : ∀ {m N x}, Own m N → x ∈ N → Own (libc.free m x) (N \ {x})
  /-- Neither of them stores to nodes that are in use. -/
  malloc_kept : ∀ {m N}, Own m N → ∀ y ∈ N, ∀ w, y ≤ w → w < y + 32 →
    (libc.malloc m sizeofLargeBlk).2 w = m w
  free_kept : ∀ {m N x}, Own m N → x ∈ N → ∀ y ∈ N, y ≠ x → ∀ w, y ≤ w → w < y + 32 →
    libc.free m x w = m w
  /-- The nodes in use may be stored to. -/
  store : ∀ {m N m'}, Own m N → (∀ w, (∀ x ∈ N, w < x ∨ x + 32 ≤ w) → m' w = m w) → Own m' N

/-! ## The table in memory -/

/-- The block a node is for. -/
def entryOf (m : Mem) (x : Nat) : Nat × Nat := (m.read64 (x + 16), m.read64 (x + 24))

/-- **The table is complete**: `L i` are the nodes on list `i`, and they stand for the blocks that
are outstanding. -/
structure Tabled (Own : Mem → Set Nat → Prop) (h : Heap Mman) (out : List (Nat × Nat))
    (L : Nat → List Nat) : Prop where
  free : FreeLists h.mem h.pool.large L
  own : Own h.mem {x | ∃ i, x ∈ L i}
  entry : ∀ i, ∀ x ∈ L i, entryOf h.mem x ∈ out ∧ largeBlkBlokp (entryOf h.mem x).1 = i
  /-- No two nodes are for one address. -/
  inj : ∀ i, ∀ x ∈ L i, ∀ j, ∀ y ∈ L j, (entryOf h.mem x).1 = (entryOf h.mem y).1 → x = y
  complete : ∀ e ∈ out, ∃ i, ∃ x ∈ L i, entryOf h.mem x = e
  cbReqmem : h.pool.cbReqmem = true
  cbDelmem : h.pool.cbDelmem = true

/-- The walk finds the node of an outstanding block. -/
theorem Tabled.find (ht : Tabled Own h out L) (he : (p, n) ∈ out) :
    ∃ x ∈ L (largeBlkBlokp p), entryOf h.mem x = (p, n) ∧ largeBlkFind h p = some x := by
  obtain ⟨i, x, hx, hxe⟩ := ht.complete _ he
  have hi : largeBlkBlokp p = i := by
    have := (ht.entry i x hx).2
    rwa [hxe] at this
  subst hi
  have hfind := (ht.free.wellFormed (largeBlkBlokp p)).find_eq
    (f := fun m blk => m.read64 (blk + 16) == p)
  refine ⟨x, hx, hxe, ?_⟩
  unfold largeBlkFind
  rw [hfind]
  cases hf : (L (largeBlkBlokp p)).find? fun blk => h.mem.read64 (blk + 16) == p with
  | none =>
      have hno := List.find?_eq_none.mp hf x hx
      have hptr : h.mem.read64 (x + 16) = p := congrArg Prod.fst hxe
      simp [hptr] at hno
  | some y =>
      have hy := List.mem_of_find?_eq_some hf
      have hptr : h.mem.read64 (y + 16) = p := by simpa using List.find?_some hf
      rw [Option.getD_some, ht.inj _ y hy _ x hx (hptr.trans (congrArg Prod.fst hxe).symm)]

/-- It finds nothing for any other address. -/
theorem Tabled.find_none (ht : Tabled Own h out L) (hno : ∀ n, (p, n) ∉ out) :
    largeBlkFind h p = some 0 := by
  have hfind := (ht.free.wellFormed (largeBlkBlokp p)).find_eq
    (f := fun m blk => m.read64 (blk + 16) == p)
  unfold largeBlkFind
  rw [hfind]
  cases hf : (L (largeBlkBlokp p)).find? fun blk => h.mem.read64 (blk + 16) == p with
  | none => rfl
  | some y =>
      have hy := List.mem_of_find?_eq_some hf
      have hptr : h.mem.read64 (y + 16) = p := by simpa using List.find?_some hf
      have hmem := (ht.entry _ y hy).1
      rw [entryOf, hptr] at hmem
      exact absurd hmem (hno _)

/-! ## Taking a block out -/

/-- The heap after a block was taken out of the table. -/
def takenOut (libc : Libc) (h : Heap Mman) (p n x : Nat) : Heap Mman :=
  let (list, m) := freelistDetach h.mem (h.pool.large (largeBlkBlokp p)) x
  { mem := libc.free m x
    pool := { h.pool with large := Function.update h.pool.large (largeBlkBlokp p) list }
    delmem := h.delmem ++ [(p, n)] }

/-- The nodes other than `x` keep their 32 bytes, and `x` its last 16. -/
theorem Tabled.detach_kept (hs : MallocSpec libc Own) (ht : Tabled Own h out L) (hx : x ∈ L i)
    (hy : ∃ j, y ∈ L j) (hw : y + 16 ≤ w ∧ w < y + 32) :
    (freelistDetach h.mem (h.pool.large i) x).2 w = h.mem w := by
  refine ht.free.detach_other hx fun z hz _ => ?_
  rcases hs.apart ht.own y hy z ⟨i, hz⟩ with rfl | he | he <;> omega

theorem Tabled.entry_kept (hs : MallocSpec libc Own) (ht : Tabled Own h out L) (hx : x ∈ L i)
    (hy : ∃ j, y ∈ L j) :
    entryOf (freelistDetach h.mem (h.pool.large i) x).2 y = entryOf h.mem y := by
  refine Prod.ext ?_ ?_
  · exact Mem.read64_congr fun w h1 h2 => ht.detach_kept hs hx hy (by omega)
  · exact Mem.read64_congr fun w h1 h2 => ht.detach_kept hs hx hy (by omega)

/-- **`large_blk_free` gives an outstanding block back.** -/
theorem Tabled.free_eq (hs : MallocSpec libc Own) (ht : Tabled Own h out L)
    (hx : x ∈ L (largeBlkBlokp p)) (he : entryOf h.mem x = (p, n))
    (hf : largeBlkFind h p = some x) :
    largeBlkFree libc h p = some (true, takenOut libc h p n x) := by
  have hx0 := ht.free.node_ne hx
  have hentry := (ht.entry_kept hs hx ⟨_, hx⟩).trans he
  unfold entryOf at hentry
  unfold largeBlkFree takenOut
  simp only [hf, Option.bind_eq_bind, Option.bind_some, hx0, if_false, ht.cbDelmem, Bool.not_true,
    Bool.false_eq_true, hentry]
  rfl

/-- The blocks that are outstanding once the one at `p` is not. -/
def without (out : List (Nat × Nat)) (p : Nat) : List (Nat × Nat) := out.filter fun e => e.1 ≠ p

theorem mem_without {e : Nat × Nat} : e ∈ without out p ↔ e ∈ out ∧ e.1 ≠ p := by
  simp [without]

/-- **Without it the table is complete again.** -/
theorem Tabled.takenOut (hs : MallocSpec libc Own) (ht : Tabled Own h out L)
    (hx : x ∈ L (largeBlkBlokp p)) (he : entryOf h.mem x = (p, n)) :
    Tabled Own (takenOut libc h p n x) (without out p)
      (Function.update L (largeBlkBlokp p) ((L (largeBlkBlokp p)).erase x)) := by
  obtain ⟨i, hi⟩ : ∃ i, i = largeBlkBlokp p := ⟨_, rfl⟩
  rw [← hi] at hx ⊢
  obtain ⟨m, hm⟩ : ∃ m, m = (freelistDetach h.mem (h.pool.large i) x).2 := ⟨_, rfl⟩
  have hmem : ∀ j y, y ∈ Function.update L i ((L i).erase x) j ↔ y ≠ x ∧ y ∈ L j :=
    fun j y => ht.free.mem_erase hx
  have hset : {y | ∃ j, y ∈ Function.update L i ((L i).erase x) j} = {y | ∃ j, y ∈ L j} \ {x} := by
    ext y
    simp only [hmem, Set.mem_ofPred_eq, Set.mem_sdiff, Set.mem_singleton_iff]
    tauto
  have hown : Own m {y | ∃ j, y ∈ L j} := hs.store ht.own fun w hw => by
    rw [hm]
    refine ht.free.detach_other hx fun y hy _ => ?_
    have := hw y ⟨i, hy⟩
    omega
  -- what `free` leaves alone
  have hkept : ∀ y, y ≠ x → (∃ j, y ∈ L j) → ∀ w, y ≤ w → w < y + 32 → libc.free m x w = m w :=
    fun y hne hy => hs.free_kept hown ⟨i, hx⟩ y hy hne
  have hentry : ∀ y, y ≠ x → (∃ j, y ∈ L j) → entryOf (libc.free m x) y = entryOf h.mem y := by
    intro y hne hy
    have hold := ht.entry_kept hs hx hy
    rw [← hm] at hold
    rw [← hold]
    refine Prod.ext ?_ ?_
    · exact Mem.read64_congr fun w h1 h2 => hkept y hne hy w (by omega) (by omega)
    · exact Mem.read64_congr fun w h1 h2 => hkept y hne hy w (by omega) (by omega)
  have hptr : (entryOf h.mem x).1 = p := congrArg Prod.fst he
  have htaken : Alloc.takenOut libc h p n x =
      { mem := libc.free m x
        pool := { h.pool with
          large := Function.update h.pool.large i (freelistDetach h.mem (h.pool.large i) x).1 }
        delmem := h.delmem ++ [(p, n)] } := by
    rw [Alloc.takenOut, ← hi, hm]
  rw [htaken]
  refine ⟨?_, ?_, fun j y hy => ?_, fun j y hy k z hz hyz => ?_, fun e hmemE => ?_, ht.cbReqmem,
    ht.cbDelmem⟩
  · have hdet := ht.free.detach hx
    rw [← hm] at hdet
    refine hdet.congr fun j y hy w h1 h2 => ?_
    obtain ⟨hne, hy⟩ := (hmem j y).mp hy
    exact hkept y hne ⟨j, hy⟩ w h1 (by omega)
  · rw [hset]
    exact hs.free hown ⟨i, hx⟩
  · obtain ⟨hne, hy⟩ := (hmem j y).mp hy
    dsimp only
    rw [hentry y hne ⟨j, hy⟩, mem_without]
    obtain ⟨hout, hj⟩ := ht.entry j y hy
    exact ⟨⟨hout, fun hpy => hne (ht.inj j y hy i x hx (hpy.trans hptr.symm))⟩, hj⟩
  · obtain ⟨hne, hy⟩ := (hmem j y).mp hy
    obtain ⟨hne', hz⟩ := (hmem k z).mp hz
    dsimp only at hyz
    rw [hentry y hne ⟨j, hy⟩, hentry z hne' ⟨k, hz⟩] at hyz
    exact ht.inj j y hy k z hz hyz
  · obtain ⟨hout, hep⟩ := mem_without.mp hmemE
    obtain ⟨j, y, hy, hye⟩ := ht.complete e hout
    have hne : y ≠ x := by
      rintro rfl
      exact hep (by rw [← hye, hptr])
    exact ⟨j, y, (hmem j y).mpr ⟨hne, hy⟩, (hentry y hne ⟨j, hy⟩).trans hye⟩

/-! ## Putting a block in -/

/-- What `large_blk_alloc` makes of the memory that `malloc` left. -/
def putMem (m : Mem) (list blk p n : Nat) : Mem :=
  let m := (m.write64 (blk + 16) p).write64 (blk + 24) n
  let m := (freelistPut m list blk).2
  let m := (m.write64 (blk + 16) p).write64 (blk + 24) n
  (m.write64 (blk + 8) 0).write64 blk 0

/-- The new node has its entry and no links. -/
theorem putMem_words (hp : p < 2 ^ 64) (hn : n < 2 ^ 64) :
    (putMem m list blk p n).read64 blk = 0 ∧ entryOf (putMem m list blk p n) blk = (p, n) := by
  unfold putMem
  refine ⟨Mem.read64_write64_same _ _ (by decide), Prod.ext ?_ ?_⟩
  · show Mem.read64 _ (blk + 16) = p
    rw [Mem.read64_write64_disjoint _ _ (by omega), Mem.read64_write64_disjoint _ _ (by omega),
      Mem.read64_write64_disjoint _ _ (by omega), Mem.read64_write64_same _ _ hp]
  · show Mem.read64 _ (blk + 24) = n
    rw [Mem.read64_write64_disjoint _ _ (by omega), Mem.read64_write64_disjoint _ _ (by omega),
      Mem.read64_write64_same _ _ hn]

/-- Beside the new node a link of the old head is stored to, if there is one. -/
theorem putMem_other (hlist : list < 2 ^ 64) (hw : w < blk ∨ blk + 32 ≤ w)
    (hw' : list ≠ 0 → w < list + 8 ∨ list + 16 ≤ w) : putMem m list blk p n w = m w := by
  have hread : ∀ m : Mem, ((m.write64 blk list).write64 (blk + 8) 0).read64 blk = list := by
    intro m
    rw [Mem.read64_write64_disjoint _ _ (by omega), Mem.read64_write64_same _ _ hlist]
  have hput : ∀ m : Mem, (freelistPut m list blk).2 w = m w := by
    intro m
    unfold freelistPut
    dsimp only
    rw [hread]
    split
    · rename_i h0
      have := hw' h0
      rw [Mem.write64_other (by omega), Mem.write64_other (by omega), Mem.write64_other (by omega)]
    · rw [Mem.write64_other (by omega), Mem.write64_other (by omega)]
  unfold putMem
  rw [Mem.write64_other (by omega), Mem.write64_other (by omega), Mem.write64_other (by omega),
    Mem.write64_other (by omega), hput, Mem.write64_other (by omega), Mem.write64_other (by omega)]

/-- The heap after a block was put into the table. -/
def putIn (h : Heap Mman) (m : Mem) (p n x : Nat) : Heap Mman :=
  { h with
    mem := putMem m (h.pool.large (largeBlkBlokp p)) x p n
    pool := { h.pool with
      reqmem := h.pool.reqmem ++ [(p, n)]
      large := Function.update h.pool.large (largeBlkBlokp p) x } }

theorem largeBlkAlloc_put {reqmem : Nat → Nat} {size : Nat} (hcb : h.pool.cbReqmem = true)
    (hp : reqmem (padding4k size) ≠ 0)
    (hm : libc.malloc h.mem sizeofLargeBlk = (x, m)) (hx : x ≠ 0) :
    largeBlkAlloc libc reqmem h size = some (reqmem (padding4k size),
      putIn h m (reqmem (padding4k size)) (padding4k size) x) := by
  unfold largeBlkAlloc
  simp only [hcb, Bool.not_true, Bool.false_eq_true, if_false, callReqmem, hp, largeBlkPut, hm, hx]
  -- `simp` has put the value of the callback field in its place
  rw [← hcb]
  rfl

/-- **A node on an empty list.** -/
theorem FreeLists.fill (hl : FreeLists m hd L) (hi : L i = []) (hal : x % 16 = 0) (hx : x ≠ 0)
    (hlt : x < 2 ^ 64) (hno : ∀ j, x ∉ L j)
    (hm : ∀ j, ∀ y ∈ L j, ∀ w, y ≤ w → w < y + 16 → m' w = m w) (hnext : m'.read64 x = 0) :
    FreeLists m' (Function.update hd i x) (Function.update L i [x]) := by
  have hold := hl.congr hm
  have hmem : ∀ j y, y ∈ Function.update L i [x] j ↔ (j = i ∧ y = x) ∨ y ∈ L j := by
    intro j y
    rw [← FreeLists.mem_push, hi]
  refine ⟨fun j => ?_, fun j k y hj hk => ?_, fun j y hy => ?_, fun j => ?_⟩
  · by_cases hj : j = i
    · subst hj
      rw [Function.update_self, Function.update_self]
      refine ⟨rfl, List.nodup_singleton x, ?_, hnext⟩
      simpa using hx.symm
    · rw [Function.update_of_ne hj, Function.update_of_ne hj]
      exact hold.lists j
  · rcases (hmem j y).mp hj with ⟨rfl, rfl⟩ | hyj
    · rcases (hmem k y).mp hk with ⟨rfl, -⟩ | hyk
      · rfl
      · exact absurd hyk (hno k)
    · rcases (hmem k y).mp hk with ⟨rfl, rfl⟩ | hyk
      · exact absurd hyj (hno j)
      · exact hl.sole j k y hyj hyk
  · rcases (hmem j y).mp hy with ⟨-, rfl⟩ | hy
    · exact hal
    · exact hl.align j y hy
  · by_cases hj : j = i
    · subst hj
      rwa [Function.update_self]
    · rw [Function.update_of_ne hj]
      exact hl.head_lt j

/-- **A block whose list is empty joins the table.** -/
theorem Tabled.putIn (hs : MallocSpec libc Own) (ht : Tabled Own h out L)
    (hm : libc.malloc h.mem sizeofLargeBlk = (x, m)) (hx : x ≠ 0) (hp : p < 2 ^ 64)
    (hn : n < 2 ^ 64) (hnew : ∀ k, (p, k) ∉ out)
    (hempty : h.pool.large (largeBlkBlokp p) = 0) :
    Tabled Own (putIn h m p n x) ((p, n) :: out)
      (Function.update L (largeBlkBlokp p) [x]) := by
  obtain ⟨i, hi⟩ : ∃ i, i = largeBlkBlokp p := ⟨_, rfl⟩
  rw [← hi] at hempty ⊢
  have hLi : L i = [] := by
    have hhead := (ht.free.lists i).head
    rw [hempty] at hhead
    cases hL : L i with
    | nil => rfl
    | cons y l =>
        rw [hL] at hhead
        exact absurd hhead.symm (ht.free.node_ne (i := i) (by rw [hL]; simp))
  have hmem : ∀ j y, y ∈ Function.update L i [x] j ↔ (j = i ∧ y = x) ∨ y ∈ L j := by
    intro j y
    rw [← FreeLists.mem_push, hLi]
  obtain ⟨hfresh, hown⟩ := hs.malloc ht.own hm hx
  have hno : ∀ j, x ∉ L j := fun j hj => hfresh ⟨j, hj⟩
  obtain ⟨hxal, -, hxlt⟩ := hs.shape hown x (Set.mem_insert _ _)
  have hset : {y | ∃ j, y ∈ Function.update L i [x] j} = insert x {y | ∃ j, y ∈ L j} := by
    ext y
    simp only [hmem, Set.mem_ofPred_eq, Set.mem_insert_iff, exists_or, exists_and_right,
      exists_eq, true_and]
  have hother : ∀ w, w < x ∨ x + 32 ≤ w → putMem m 0 x p n w = m w :=
    fun w hw => putMem_other (by decide) hw fun h0 => absurd rfl h0
  -- the old nodes are apart from the new one and kept by `malloc`
  have hkept : ∀ j, ∀ y ∈ L j, ∀ w, y ≤ w → w < y + 32 → putMem m 0 x p n w = h.mem w := by
    intro j y hy w h1 h2
    have hmal := hs.malloc_kept ht.own y ⟨j, hy⟩ w h1 h2
    rw [hm] at hmal
    rw [hother w ?_]
    · exact hmal
    · rcases hs.apart hown x (Set.mem_insert _ _) y (Set.mem_insert_of_mem _ ⟨j, hy⟩) with
        rfl | he | he
      · exact absurd hy (hno j)
      · omega
      · omega
  have hold : ∀ j, ∀ y ∈ L j, entryOf (putMem m 0 x p n) y = entryOf h.mem y := by
    intro j y hy
    refine Prod.ext ?_ ?_
    · exact Mem.read64_congr fun w h1 h2 => hkept j y hy w (by omega) (by omega)
    · exact Mem.read64_congr fun w h1 h2 => hkept j y hy w (by omega) (by omega)
  obtain ⟨hnext, hentry⟩ := putMem_words (m := m) hp hn
  have hput : Alloc.putIn h m p n x =
      { h with
        mem := putMem m 0 x p n
        pool := { h.pool with
          reqmem := h.pool.reqmem ++ [(p, n)]
          large := Function.update h.pool.large i x } } := by
    rw [Alloc.putIn, ← hi, hempty]
  rw [hput]
  refine ⟨?_, ?_, fun j y hy => ?_, fun j y hy k z hz hyz => ?_, fun e he => ?_, ht.cbReqmem,
    ht.cbDelmem⟩
  · exact ht.free.fill hLi hxal hx hxlt hno
      (fun j y hy w h1 h2 => hkept j y hy w h1 (by omega)) hnext
  · rw [hset]
    refine hs.store hown fun w hw => hother w ?_
    exact hw x (Set.mem_insert _ _)
  · rcases (hmem j y).mp hy with ⟨rfl, rfl⟩ | hy
    · dsimp only
      rw [hentry]
      exact ⟨List.mem_cons_self, hi.symm⟩
    · obtain ⟨hout, hj⟩ := ht.entry j y hy
      dsimp only
      rw [hold j y hy]
      exact ⟨List.mem_cons_of_mem _ hout, hj⟩
  · dsimp only at hyz
    -- an old entry is for another address
    have hne : ∀ j, ∀ y ∈ L j, (entryOf h.mem y).1 ≠ p := by
      intro j y hy hpy
      have hout := (ht.entry j y hy).1
      exact hnew (entryOf h.mem y).2 (by rw [← hpy]; exact hout)
    rcases (hmem j y).mp hy with ⟨-, hyx⟩ | hyold
    · rcases (hmem k z).mp hz with ⟨-, hzx⟩ | hzold
      · exact hyx.trans hzx.symm
      · rw [hyx, hentry, hold k z hzold] at hyz
        exact absurd hyz.symm (hne k z hzold)
    · rcases (hmem k z).mp hz with ⟨-, hzx⟩ | hzold
      · rw [hzx, hentry, hold j y hyold] at hyz
        exact absurd hyz (hne j y hyold)
      · rw [hold j y hyold, hold k z hzold] at hyz
        exact ht.inj j y hyold k z hzold hyz
  · rcases List.mem_cons.mp he with rfl | he
    · exact ⟨i, x, (hmem i x).mpr (.inl ⟨rfl, rfl⟩), hentry⟩
    · obtain ⟨j, y, hy, hye⟩ := ht.complete e he
      exact ⟨j, y, (hmem j y).mpr (.inr hy), (hold j y hy).trans hye⟩

/-- On a list that has a node already the new one is alone. -/
theorem putIn_lost (hx : x ≠ 0) (hp : p < 2 ^ 64) (hn : n < 2 ^ 64) {q : Nat} (hq : q ≠ p)
    (hsame : largeBlkBlokp q = largeBlkBlokp p) : largeBlkFind (putIn h m p n x) q = some 0 := by
  obtain ⟨hnext, hentry⟩ := @putMem_words m p n x (h.pool.large (largeBlkBlokp p)) hp hn
  have hlist : (linksOf (putIn h m p n x).mem).IsList 0
      ((putIn h m p n x).pool.large (largeBlkBlokp q)) [x] := by
    refine ⟨?_, List.nodup_singleton x, by simpa using hx.symm, hnext⟩
    rw [hsame]
    exact Function.update_self ..
  have hptr : (putIn h m p n x).mem.read64 (x + 16) = p := congrArg Prod.fst hentry
  have hfuel : ([x] : List Nat).length < walkFuel := by
    rw [walkFuel, List.length_singleton]
    decide
  have hno : ((putIn h m p n x).mem.read64 (x + 16) == q) = false := by
    rw [hptr]
    simpa using hq.symm
  unfold largeBlkFind
  rw [hlist.find_eq _ hfuel, List.find?_cons, hno]
  rfl

end IonOS.Alloc
