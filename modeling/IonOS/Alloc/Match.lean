import IonOS.Alloc.Merge

/-!
# Searching the lists

The two allocation functions look through the class lists from the class of the
request upwards and through the list of large blocks after that. `pick` is that
search as a function of the list contents; the loops of the source compute it and
hand the node found to `_detach`.
-/

namespace IonOS.Alloc

open IonOS.Lib

variable {a e : Nat} {h : Heap Mpool} {m : Mem} {hd : Nat → Nat} {bs : List Block}
  {L : Nat → List Nat} {f : Mem → Nat → Bool}

/-- The class lists of a pool, next to one another. -/
theorem class_threads (hl : Laid a e h bs L) : Threads (· < 8) h.mem h.pool.freed L := by
  refine ⟨fun i hi => ?_, fun i j hi hj hne x hx y hy => ?_⟩
  · have hlist := hl.wellFormed i
    rwa [listHead_class _ (by omega)] at hlist
  · have hxy : x ≠ y := fun he => hne (hl.lists_disjoint hx (he ▸ hy))
    have := hl.node_align hx
    have := hl.node_align hy
    omega

/-- The class lists searched for a request, in order. -/
def classLists (size : Nat) : List Nat :=
  if freelistsSize2id size < 0 then []
  else List.range' (listOf size) (freelistNum - listOf size)

/-- The lists searched for a request, in order. -/
def searchLists (size : Nat) : List Nat := classLists size ++ [8]

/-- The node the search comes up with. -/
def pick (p : Nat → Bool) (L : Nat → List Nat) (size : Nat) : Option Nat :=
  (searchLists size).findSome? fun i => (L i).find? p

/-- Detaching a node of a class list. -/
theorem detach_class (hl : Laid a e h bs L) {i x : Nat} (hx : x ∈ L i) (hi : i ≠ 8) :
    detach h x =
      { h with mem := (freelistsDetach h.mem h.pool.freed i x).2
               pool := { h.pool with freed := (freelistsDetach h.mem h.pool.freed i x).1 } } := by
  obtain ⟨b, hb, rfl, -, rfl⟩ := hl.node hx
  rw [detach, hl.blkSize_eq hb]
  by_cases hid : freelistsSize2id b.size < 0
  · exact absurd (listOf_large hid) hi
  · rw [if_neg hid, ← (listOf_class hid).1]

/-- Detaching a node of the list of large blocks. -/
theorem detach_large (hl : Laid a e h bs L) {x : Nat} (hx : x ∈ L 8) :
    detach h x =
      { h with mem := (freelistDetach h.mem h.pool.largeBlk x).2
               pool := { h.pool with
                 largeBlk := (freelistDetach h.mem h.pool.largeBlk x).1 } } := by
  obtain ⟨b, hb, rfl, -, h8⟩ := hl.node hx
  rw [detach, hl.blkSize_eq hb]
  by_cases hid : freelistsSize2id b.size < 0
  · rw [if_pos hid]
  · exact absurd h8 (listOf_class hid).2

/-- The class-list loop takes the first node that any of its lists has to offer. -/
theorem freelistsMatchLoop_eq (hl : Laid a e h bs L) (n id : Nat) (hid : id + n ≤ 8) :
    freelistsMatchLoop f h.mem h.pool.freed n id = some
      (match (List.range' id n).findSome? fun i => (L i).find? (f h.mem) with
        | none => (0, h.pool.freed, h.mem)
        | some x => (x, (detach h x).pool.freed, (detach h x).mem)) := by
  rw [(class_threads hl).matchLoop n id fun j _ _ => by omega, firstFit_snd]
  cases hf : firstFit (f h.mem) L (List.range' id n) with
  | none => rfl
  | some r =>
      obtain ⟨i, x⟩ := r
      obtain ⟨hi, hx, -⟩ := firstFit_mem hf
      rw [List.mem_range'_1] at hi
      simp only [Option.map_some, detach_class hl hx (by omega : i ≠ 8)]

/-- The class-list part of the search. -/
theorem freelistsMatchBy_eq (hl : Laid a e h bs L) (size : Nat) :
    freelistsMatchBy f h.mem h.pool.freed size = some
      (match (classLists size).findSome? fun i => (L i).find? (f h.mem) with
        | none => (0, h.pool.freed, h.mem)
        | some x => (x, (detach h x).pool.freed, (detach h x).mem)) := by
  rw [freelistsMatchBy, classLists]
  by_cases hid : freelistsSize2id size < 0
  · rw [if_pos hid, if_pos hid]; rfl
  · have hlt := freelistsSize2id_lt size
    have hnum : freelistNum = 8 := rfl
    rw [if_neg hid, if_neg hid, ← (listOf_class hid).1]
    refine freelistsMatchLoop_eq hl _ _ ?_
    have := (listOf_class hid).1
    omega

/-- What `pick` finds is a fitting node of one of the lists it looks at. -/
theorem pick_mem {p : Nat → Bool} {size x : Nat} (hp : pick p L size = some x) :
    ∃ i ∈ searchLists size, x ∈ L i ∧ p x := by
  obtain ⟨i, hi, hx⟩ := List.exists_of_findSome?_eq_some hp
  exact ⟨i, hi, List.mem_of_find?_eq_some hx, List.find?_some hx⟩

theorem mem_classLists_ne {size i : Nat} (hi : i ∈ classLists size) : i ≠ 8 := by
  unfold classLists at hi
  split at hi
  · exact absurd hi (by simp)
  · have hnum : freelistNum = 8 := rfl
    rw [List.mem_range'_1] at hi
    omega

/-- **The search of the source is `pick`.** -/
theorem matchAny_eq (hl : Laid a e h bs L) (size : Nat) :
    matchAny f h size = some (match pick (f h.mem) L size with
      | none => (0, h)
      | some x => (x, detach h x)) := by
  have hlarge := (hl.wellFormed 8).matchBy (f := f)
  rw [listHead_large] at hlarge
  rw [matchAny, freelistsMatchBy_eq hl, pick, searchLists, List.findSome?_append]
  cases hcls : (classLists size).findSome? fun i => (L i).find? (f h.mem) with
  | some x =>
      obtain ⟨i, hi, hx⟩ := List.exists_of_findSome?_eq_some hcls
      have hmem : x ∈ L i := List.mem_of_find?_eq_some hx
      have hx0 : x ≠ 0 := (hl.wellFormed i).ne_zero hmem
      simp [hx0, detach_class hl hmem (mem_classLists_ne hi)]
  | none =>
      simp only [Option.bind_eq_bind, Option.bind_some, ne_eq, not_true_eq_false, if_false,
        Option.none_or, List.findSome?_singleton]
      rw [hlarge]
      cases hf : (L 8).find? (f h.mem) with
      | none => rfl
      | some x => simp [detach_large hl (List.mem_of_find?_eq_some hf)]

/-- Without a request callback the search is all there is. -/
theorem matchOrReqmem_eq (hl : Laid a e h bs L) (hcb : h.pool.cbReqmem = none)
    (size want : Nat) :
    matchOrReqmem f h size want = some (match pick (f h.mem) L size with
      | none => (0, h)
      | some x => (x, detach h x)) := by
  have hreq : mpoolReqmem h want = some (false, h) := by rw [mpoolReqmem, hcb]
  rw [matchOrReqmem, matchAny_eq hl]
  cases hp : pick (f h.mem) L size with
  | none =>
      simp only [Option.bind_eq_bind, Option.bind_some, ne_eq, not_true_eq_false, if_false, hreq,
        Bool.not_false, if_true]
      rfl
  | some x =>
      obtain ⟨i, -, hx, -⟩ := pick_mem hp
      have hx0 : x ≠ 0 := fun he => (hl.lists i).nonnull (he ▸ hx)
      simp only [Option.bind_eq_bind, Option.bind_some, ne_eq, hx0, not_false_eq_true, if_true]
      rfl

end IonOS.Alloc
