import IonOS.Alloc.Exhaust

/-!
# What the list operations do

The functions of `freelist.hpp` by themselves, on any well-formed lists. The one
thing that a list does not promise is the way back from its first node. Removing
the head leaves that of the new head dangling, and all of them can live with it.

The class lists take no block of `freelistMaxblksize` bytes or more. The owner
has a list of its own for those, and `freelists_put` says by its result that the
block is to go there.
-/

namespace IonOS.Alloc

open IonOS.Lib

/-- The class lists, with all of their nodes apart. -/
def ClassLists (m : Mem) (lists : Nat → Nat) (L : Nat → List Nat) : Prop :=
  Threads (· < freelistNum) m lists L

/-- **What the operations on one list do.** -/
structure ListExact (m : Mem) (hd : Nat) (l : List Nat) : Prop where
  /-- A new node is the head. -/
  put : ∀ x, Newcomer x l → ∃ m', freelistPut m hd x = (x, m') ∧
    WellFormed m' x (x :: l) ∧ WritesOnly (x :: l) m m'
  /-- Exactly the node given is removed. -/
  detach : ∀ x ∈ l, ∃ hd' m', freelistDetach m hd x = (hd', m') ∧
    WellFormed m' hd' (l.erase x) ∧ WritesOnly l m m'
  /-- The first node that is big enough is removed. -/
  found : ∀ size x, l.find? (sizeFits size m) = some x →
    ∃ hd' m', freelistMatch m hd size = some (x, hd', m') ∧
      WellFormed m' hd' (l.erase x) ∧ WritesOnly l m m'
  /-- Without one nothing changes. -/
  missing : ∀ size, l.find? (sizeFits size m) = none →
    freelistMatch m hd size = some (0, hd, m)

/-- **What the operations on the class lists do.** -/
structure ClassExact (m : Mem) (lists : Nat → Nat) (L : Nat → List Nat) : Prop where
  /-- A new node is the head of the list of its size. -/
  put : ∀ x, (∀ j < freelistNum, Newcomer x (L j)) → blkSize m x < freelistMaxblksize →
    ∃ i < freelistNum, (i : Int) = freelistsSize2id (blkSize m x) ∧
      ∃ m', freelistsPut m lists x = (true, Function.update lists i x, m') ∧
        ClassLists m' (Function.update lists i x) (Function.update L i (x :: L i)) ∧
        WritesOnly (x :: L i) m m'
  /-- There is no list for a big block, and nothing changes. -/
  refused : ∀ x, freelistMaxblksize ≤ blkSize m x → freelistsPut m lists x = (false, lists, m)
  /-- Exactly the node given is removed. -/
  detach : ∀ i < freelistNum, ∀ x ∈ L i, ∃ lists' m', freelistsDetach m lists i x = (lists', m') ∧
    ClassLists m' lists' (Function.update L i ((L i).erase x)) ∧ WritesOnly (L i) m m'
  /-- The first node that is big enough is removed, in the order of the search. -/
  found : ∀ size i x, firstFit (sizeFits size m) L (classLists size) = some (i, x) →
    ∃ lists' m', freelistsMatch m lists size = some (x, lists', m') ∧
      ClassLists m' lists' (Function.update L i ((L i).erase x)) ∧ WritesOnly (L i) m m'
  /-- Without one nothing changes. -/
  missing : ∀ size, firstFit (sizeFits size m) L (classLists size) = none →
    freelistsMatch m lists size = some (0, lists, m)

variable {m m' : Mem} {hd size : Nat} {l : List Nat} {lists : Nat → Nat} {L : Nat → List Nat}
  {f : Mem → Nat → Bool}

/-! ## One list -/

theorem WellFormed.exact (h : WellFormed m hd l) : ListExact m hd l := by
  have hkeep : ∀ x, ∀ y ∈ l.erase x, y ∈ l := fun x y => List.mem_of_mem_erase
  refine ⟨?_, ?_, ?_, ?_⟩
  · intro x hx
    exact ⟨_, rfl, h.put hx, h.put_writes⟩
  · intro x hx
    exact ⟨_, _, rfl, h.detach hx, (h.detach_writes hx).mono (hkeep x)⟩
  · intro size x hfind
    have hx := List.mem_of_find?_eq_some hfind
    have hmatch := h.matchBy (f := sizeFits size)
    rw [hfind] at hmatch
    exact ⟨_, _, hmatch, h.detach hx, (h.detach_writes hx).mono (hkeep x)⟩
  · intro size hfind
    have hmatch := h.matchBy (f := sizeFits size)
    rwa [hfind] at hmatch

/-! ## The class lists -/

/-- Only sizes from `freelistMaxblksize` up have no class. -/
theorem freelistsSize2id_neg : freelistsSize2id size < 0 ↔ freelistMaxblksize ≤ size := by
  have hmax : freelistMaxblksize = 16384 := rfl
  constructor
  · intro hneg
    by_contra hlt
    have hlist := listOf_large hneg
    rw [listOf_eq] at hlist
    by_cases h1 : 256 ≤ size
    · have hlog := log2_mid h1 (by omega)
      rw [if_neg (by omega), if_neg (by omega), if_pos (by omega)] at hlist
      omega
    · split at hlist
      · omega
      · rw [if_pos (by omega)] at hlist
        omega
  · intro hle
    unfold freelistsSize2id
    rw [if_neg (by omega), if_neg (by omega), if_pos hle]
    decide

/-- The search for a request goes through the lists from its class upwards. -/
theorem ClassLists.matchBy (h : ClassLists m lists L) (size : Nat) :
    freelistsMatchBy f m lists size = some (match firstFit (f m) L (classLists size) with
      | none => (0, lists, m)
      | some (i, x) => (x, freelistsDetach m lists i x)) := by
  have hlt := freelistsSize2id_lt size
  have hnum : freelistNum = 8 := rfl
  rw [freelistsMatchBy, classLists]
  by_cases hid : freelistsSize2id size < 0
  · rw [if_pos hid, if_pos hid]
    rfl
  · -- from a class on there are only classes
    rw [if_neg hid, if_neg hid, (listOf_class hid).1]
    exact Threads.matchLoop h _ _ fun j _ _ => by omega

theorem mem_classLists_lt {i : Nat} (hi : i ∈ classLists size) : i < freelistNum := by
  unfold classLists at hi
  split at hi
  · exact absurd hi (by simp)
  · rw [List.mem_range'_1] at hi
    omega

theorem ClassLists.detach (h : ClassLists m lists L) {i x : Nat} (hi : i < freelistNum)
    (hx : x ∈ L i) : ∃ lists' m', freelistsDetach m lists i x = (lists', m') ∧
      ClassLists m' lists' (Function.update L i ((L i).erase x)) ∧ WritesOnly (L i) m m' := by
  refine ⟨_, _, freelistsDetach_eq m lists i x, Threads.detach h hi hx, ?_⟩
  exact ((h.list i hi).detach_writes hx).mono fun y => List.mem_of_mem_erase

theorem ClassLists.exact (h : ClassLists m lists L) : ClassExact m lists L := by
  refine ⟨?_, ?_, ?_, ?_, ?_⟩
  · intro x hx hsize
    have hid : ¬ freelistsSize2id (blkSize m x) < 0 := by
      rw [freelistsSize2id_neg]
      omega
    have hlt := freelistsSize2id_lt (blkSize m x)
    have hi : (freelistsSize2id (blkSize m x)).toNat < freelistNum := by
      have hnum : freelistNum = 8 := rfl
      omega
    refine ⟨_, hi, by omega, _, ?_, Threads.put h hi hx, (h.list _ hi).put_writes⟩
    rw [freelistsPut, if_neg hid]
    rfl
  · intro x hsize
    rw [freelistsPut, if_pos (freelistsSize2id_neg.mpr hsize)]
  · intro i hi x hx
    exact h.detach hi hx
  · -- the node found is handed to `freelists_detach`
    intro size i x hfirst
    obtain ⟨hi, hx, -⟩ := firstFit_mem hfirst
    obtain ⟨lists', m', hd, hkept⟩ := h.detach (mem_classLists_lt hi) hx
    have hmatch := h.matchBy (f := sizeFits size) size
    rw [hfirst] at hmatch
    dsimp only at hmatch
    rw [hd] at hmatch
    exact ⟨lists', m', hmatch, hkept⟩
  · intro size hfirst
    have hmatch := h.matchBy (f := sizeFits size) size
    rwa [hfirst] at hmatch

/-! ## All of them -/

/-- **The operations do what they should on every well-formed list.** -/
theorem freelists_exact (hl : WellFormed m hd l) (hc : ClassLists m' lists L) :
    ListExact m hd l ∧ ClassExact m' lists L :=
  ⟨hl.exact, hc.exact⟩

theorem classLists_nil (m : Mem) : ClassLists m (fun _ => 0) (fun _ => []) := by
  refine ⟨fun i _ => ⟨Links.isList_nil _ _, ?_, ?_⟩, ?_⟩
  · intro x hx
    exact absurd hx (by simp)
  · intro x hx
    exact absurd hx (by simp)
  · intro i j _ _ _ x hx
    exact absurd hx (by simp)

/-- Two nodes on the first class list. -/
def pairMem : Mem := (freelistPut (freelistPut (fun _ => 0) 0 8192).2 8192 4096).2

theorem pair_classLists : ClassLists pairMem (Function.update (fun _ => 0) 0 4096)
    (Function.update (fun _ => []) 0 [4096, 8192]) := by
  have hone := Threads.put (classLists_nil (fun _ => 0)) (i := 0) (x := 8192) (by decide)
    fun j _ => ⟨by decide, by decide, by simp⟩
  have htwo := Threads.put hone (i := 0) (x := 4096) (by decide) fun j _ => by
    refine ⟨by decide, by decide, fun y hy => ?_⟩
    by_cases hj : j = 0
    · subst hj
      obtain rfl : y = 8192 := by simpa using hy
      decide
    · simp [Function.update_of_ne hj] at hy
  unfold ClassLists pairMem
  simpa using htwo

theorem freelists_exact_pair : ListExact pairMem 4096 [4096, 8192] ∧
    ClassExact pairMem (Function.update (fun _ => 0) 0 4096)
      (Function.update (fun _ => []) 0 [4096, 8192]) := by
  have hlist := pair_classLists.list 0 (by decide)
  rw [Function.update_self, Function.update_self] at hlist
  exact freelists_exact hlist pair_classLists

/-- A block that no class list takes: its tag says 16384 bytes. -/
def bigMem : Mem := Mem.write64 (fun _ => 0) 4088 16384

/-- It becomes the head of none. -/
theorem freelistsPut_refuses : ClassLists bigMem (fun _ => 0) (fun _ => []) ∧
    Newcomer 4096 [] ∧ blkSize bigMem 4096 = 16384 ∧
    (freelistsPut bigMem (fun _ => 0) 4096).1 = false ∧
    ∀ i, (freelistsPut bigMem (fun _ => 0) 4096).2.1 i ≠ 4096 := by
  have hsize : blkSize bigMem 4096 = 16384 := by decide +kernel
  have hput : freelistsPut bigMem (fun _ => 0) 4096 = (false, fun _ => 0, bigMem) := by
    rw [freelistsPut, hsize]
    rfl
  refine ⟨classLists_nil _, ⟨by decide, by decide, by simp⟩, hsize, ?_, fun i => ?_⟩
  · rw [hput]
  · rw [hput]
    show 0 ≠ 4096
    decide

end IonOS.Alloc
