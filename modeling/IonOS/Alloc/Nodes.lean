import IonOS.Alloc.Freelist
import Mathlib.Data.Finset.Card
import Mathlib.Order.Interval.Finset.Nat

/-!
# Free lists in memory

`IonOS.Lib.IntrusiveList` says what insertion and removal do to link fields.
Here the same is said of memory: where no node lies over another one, the stores
of `freelist.hpp` are exactly those field updates, and nothing outside the first
two payload words of a few nodes is written.

Blocks are 16-byte aligned, and then nodes that differ are apart. The lists do not
need more than that they are.
-/

namespace IonOS.Alloc

open IonOS.Lib

/-! ## Stores as field updates -/

/-- No node lies over another one. -/
def Spaced (l : List Nat) : Prop := ∀ x ∈ l, ∀ y ∈ l, x ≠ y → x + 16 ≤ y ∨ y + 16 ≤ x

theorem Spaced.subset {l l' : List Nat} (h : Spaced l) (hs : ∀ x ∈ l', x ∈ l) : Spaced l' :=
  fun x hx y hy => h x (hs x hx) y (hs y hy)

theorem spaced_of_aligned {l : List Nat} (h : ∀ x ∈ l, x % 16 = 0) : Spaced l := by
  intro x hx y hy hne
  have := h x hx
  have := h y hy
  omega

theorem spaced_cons {x : Nat} {l : List Nat} (h : Spaced l)
    (hx : ∀ y ∈ l, x + 16 ≤ y ∨ y + 16 ≤ x) : Spaced (x :: l) := by
  intro y hy z hz hne
  rcases List.mem_cons.mp hy with rfl | hyl
  · rcases List.mem_cons.mp hz with rfl | hzl
    · exact absurd rfl hne
    · exact hx z hzl
  · rcases List.mem_cons.mp hz with rfl | hzl
    · exact (hx y hyl).symm
    · exact h y hyl z hzl hne

/-- Two link tables agree on these nodes. -/
def SameLinks (l : List Nat) (k k' : Links Nat) : Prop :=
  ∀ y ∈ l, k.next y = k'.next y ∧ k.prev y = k'.prev y

theorem SameLinks.isList {k k' : Links Nat} {hd : Nat} {l l' : List Nat} (h : SameLinks l' k k')
    (hl : k'.IsList 0 hd l) (hs : ∀ y ∈ l, y ∈ l') : k.IsList 0 hd l :=
  hl.congr (fun x hx => (h x (hs x hx)).1)
    (fun x hx => (h x (hs x (List.mem_of_mem_tail hx))).2)

section Stores

variable {m : Mem} {k : Links Nat} {l : List Nat} {x v : Nat}

theorem sameLinks_setNext (h : SameLinks l (linksOf m) k) (hsp : Spaced l) (hx : x ∈ l)
    (hv : v < 2 ^ 64) : SameLinks l (linksOf (m.write64 x v)) (k.setNext x v) := by
  intro y hy
  constructor
  · show Mem.read64 _ y = Function.update k.next x v y
    by_cases hyx : y = x
    · subst hyx
      rw [Function.update_self, Mem.read64_write64_same _ _ hv]
    · have := hsp y hy x hx hyx
      rw [Function.update_of_ne hyx, Mem.read64_write64_disjoint _ _ (by omega)]
      exact (h y hy).1
  · show Mem.read64 _ (y + 8) = k.prev y
    have : y = x ∨ x + 16 ≤ y ∨ y + 16 ≤ x := by
      by_cases hyx : y = x
      · exact .inl hyx
      · exact .inr (hsp y hy x hx hyx).symm
    rw [Mem.read64_write64_disjoint _ _ (by omega)]
    exact (h y hy).2

theorem sameLinks_setPrev (h : SameLinks l (linksOf m) k) (hsp : Spaced l) (hx : x ∈ l)
    (hv : v < 2 ^ 64) : SameLinks l (linksOf (m.write64 (x + 8) v)) (k.setPrev x v) := by
  intro y hy
  constructor
  · show Mem.read64 _ y = k.next y
    have : y = x ∨ x + 16 ≤ y ∨ y + 16 ≤ x := by
      by_cases hyx : y = x
      · exact .inl hyx
      · exact .inr (hsp y hy x hx hyx).symm
    rw [Mem.read64_write64_disjoint _ _ (by omega)]
    exact (h y hy).1
  · show Mem.read64 _ (y + 8) = Function.update k.prev x v y
    by_cases hyx : y = x
    · subst hyx
      rw [Function.update_self, Mem.read64_write64_same _ _ hv]
    · have := hsp y hy x hx hyx
      rw [Function.update_of_ne hyx, Mem.read64_write64_disjoint _ _ (by omega)]
      exact (h y hy).2

end Stores

variable {m m' : Mem} {hd x : Nat} {l : List Nat}

/-! ## Removal -/

theorem linksOf_next (m : Mem) (x : Nat) : (linksOf m).next x = m.read64 x := rfl

theorem linksOf_prev (m : Mem) (x : Nat) : (linksOf m).prev x = m.read64 (x + 8) := rfl

/-- Removing the head stores nothing. -/
theorem freelistDetach_head {post : List Nat} (hl : (linksOf m).IsList 0 hd (x :: post)) :
    freelistDetach m hd x = (post.headD 0, m) := by
  have hhd : hd = x := hl.head
  have hnext : (linksOf m).next x = post.headD 0 := Links.Linked.next_eq (p := []) hl.linked
  rw [linksOf_next] at hnext
  rw [freelistDetach, if_pos hhd, hnext]

/-- Removing any other node is at most two stores, one into each neighbour. -/
theorem freelistDetach_inner {y : Nat} {pre post : List Nat}
    (hl : (linksOf m).IsList 0 hd (pre ++ y :: x :: post))
    (hsp : Spaced (pre ++ y :: x :: post)) :
    freelistDetach m hd x =
      (hd, (if post = [] then m else m.write64 (post.headD 0 + 8) y).write64 y (post.headD 0)) := by
  have hnext : (linksOf m).next x = post.headD 0 :=
    Links.Linked.next_eq (p := pre ++ [y]) (by simpa using hl.linked)
  have hprev : (linksOf m).prev x = y := hl.linked.prev_eq
  rw [linksOf_next] at hnext
  rw [linksOf_prev] at hprev
  have hy0 : y ≠ 0 := fun he => hl.nonnull (he ▸ by simp)
  rw [freelistDetach, if_neg hl.head_ne, Prod.mk.injEq]
  refine ⟨rfl, ?_⟩
  rw [freelistUnlink, hprev, hnext]
  cases post with
  | nil => simp [hnext, hprev, hy0]
  | cons w post =>
      have hw0 : w ≠ 0 := fun he => hl.nonnull (he ▸ by simp)
      have hwx : x ≠ w := by
        have hrest := (List.nodup_cons.mp (List.nodup_append.mp hl.nodup).2.1).2
        exact fun he => (List.nodup_cons.mp hrest).1 (he ▸ by simp)
      -- the node behind is not over this one, so its own words are read again as they were
      have hapart := hsp x (by simp) w (by simp) hwx
      rw [List.headD_cons] at hnext ⊢
      have hnext' : (m.write64 (w + 8) y).read64 x = w := by
        rw [Mem.read64_write64_disjoint _ _ (by omega), hnext]
      have hprev' : (m.write64 (w + 8) y).read64 (x + 8) = y := by
        rw [Mem.read64_write64_disjoint _ _ (by omega), hprev]
      simp [hw0, hnext', hprev', hy0]

/-- The nodes of a list are words, since some word points at each of them. -/
theorem node_lt (hl : (linksOf m).IsList 0 hd l) (hhd : hd < 2 ^ 64) : ∀ y ∈ l, y < 2 ^ 64 := by
  intro y hy
  obtain ⟨pre, post, rfl⟩ := List.append_of_mem hy
  rcases List.eq_nil_or_concat pre with rfl | ⟨pre, z, rfl⟩
  · have hh : hd = y := hl.head
    rwa [← hh]
  · rw [List.concat_eq_append, List.append_assoc, List.singleton_append] at hl
    have hz : (linksOf m).next z = y := hl.linked.next_eq
    rw [← hz]
    exact Mem.read64_lt _ _

/-- **Removal in memory.** -/
theorem freelistDetach_isList {pre post : List Nat}
    (hl : (linksOf m).IsList 0 hd (pre ++ x :: post)) (hhd : hd < 2 ^ 64)
    (hsp : Spaced (pre ++ x :: post)) :
    (linksOf (freelistDetach m hd x).2).IsList 0 (freelistDetach m hd x).1 (pre ++ post) := by
  have hres := hl.unlink
  have hlt := node_lt hl hhd
  rcases List.eq_nil_or_concat pre with rfl | ⟨pre, y, rfl⟩
  · -- the head: nothing is stored, and the next one keeps a way back to a node that is gone
    rw [freelistDetach_head hl]
    rw [Links.IsList.unlink_head hl] at hres
    exact hres
  · rw [List.concat_eq_append, List.append_assoc, List.singleton_append] at *
    have hself : SameLinks (pre ++ y :: x :: post) (linksOf m) (linksOf m) := fun y _ => ⟨rfl, rfl⟩
    rw [freelistDetach_inner hl hsp]
    rw [Links.IsList.unlink_inner hl] at hres
    refine SameLinks.isList (sameLinks_setNext ?_ hsp (by simp) ?_) hres fun z hz => ?_
    · cases post with
      | nil => exact hself
      | cons w post => exact sameLinks_setPrev hself hsp (by simp) (hlt y (by simp))
    · cases post with
      | nil => show 0 < 2 ^ 64; decide
      | cons w post => exact hlt w (by simp)
    · simp only [List.mem_append, List.mem_cons] at hz ⊢
      tauto

/-- Removal writes link words of the other nodes of the same list only. -/
theorem freelistDetach_other {pre post : List Nat}
    (hl : (linksOf m).IsList 0 hd (pre ++ x :: post)) (hsp : Spaced (pre ++ x :: post)) {w : Nat}
    (hw : ∀ y ∈ pre ++ post, w < y ∨ y + 16 ≤ w) : (freelistDetach m hd x).2 w = m w := by
  rcases List.eq_nil_or_concat pre with rfl | ⟨pre, y, rfl⟩
  · rw [freelistDetach_head hl]
  · rw [List.concat_eq_append, List.append_assoc, List.singleton_append] at *
    rw [freelistDetach_inner hl hsp]
    have hwy := hw y (by simp)
    dsimp only
    rw [Mem.write64_other (by omega)]
    cases post with
    | nil => rw [if_pos rfl]
    | cons z post =>
        have hwz := hw z (by simp)
        rw [if_neg (by simp), List.headD_cons, Mem.write64_other (by omega)]

/-! ## Insertion -/

/-- The new node's own words. -/
theorem put_words (m : Mem) (x : Nat) (hhd : hd < 2 ^ 64) :
    ((m.write64 x hd).write64 (x + 8) 0).read64 x = hd := by
  rw [Mem.read64_write64_disjoint _ _ (by omega), Mem.read64_write64_same _ _ hhd]

/-- **Insertion in memory.** -/
theorem freelistPut_isList (hl : (linksOf m).IsList 0 hd l) (hhd : hd < 2 ^ 64)
    (hsp : Spaced (x :: l)) (hx0 : x ≠ 0) (hxlt : x < 2 ^ 64) (hxl : x ∉ l) :
    (linksOf (freelistPut m hd x).2).IsList 0 (freelistPut m hd x).1 (x :: l) := by
  have hres := hl.push hxl hx0
  have hself : SameLinks (x :: l) (linksOf m) (linksOf m) := fun y _ => ⟨rfl, rfl⟩
  have hx : x ∈ x :: l := List.mem_cons_self
  have h1 := sameLinks_setPrev (sameLinks_setNext hself hsp hx hhd) hsp hx (v := 0) (by decide)
  refine SameLinks.isList ?_ hres fun y hy => hy
  unfold freelistPut Links.push
  dsimp only
  rw [put_words m x hhd]
  -- only an old head is given a way back
  by_cases h0 : hd = 0
  · rw [if_neg (not_not.mpr h0), if_pos h0]
    exact h1
  · rw [if_pos h0, if_neg h0]
    refine sameLinks_setPrev h1 hsp ?_ hxlt
    cases l with
    | nil => exact absurd hl.head h0
    | cons y l => rw [show hd = y from hl.head]; simp

/-- Insertion writes link words of the new node and of the old head only. -/
theorem freelistPut_other (hl : (linksOf m).IsList 0 hd l) (hhd : hd < 2 ^ 64)
    {w : Nat} (hwx : w < x ∨ x + 16 ≤ w) (hw : ∀ y ∈ l, w < y ∨ y + 16 ≤ w) :
    (freelistPut m hd x).2 w = m w := by
  have hbase : ((m.write64 x hd).write64 (x + 8) 0) w = m w := by
    rw [Mem.write64_other (by omega), Mem.write64_other (by omega)]
  unfold freelistPut
  dsimp only
  rw [put_words m x hhd]
  split
  · rename_i h0
    have hwhd : w < hd ∨ hd + 16 ≤ w := by
      cases l with
      | nil => exact absurd hl.head h0
      | cons y l => rw [show hd = y from hl.head]; exact hw y (by simp)
    rw [Mem.write64_other (by omega), hbase]
  · exact hbase

/-! ## One list -/

/-- **A well-formed list**: `l` hangs on `hd`, and its nodes are objects of their own. -/
structure WellFormed (m : Mem) (hd : Nat) (l : List Nat) : Prop where
  isList : (linksOf m).IsList 0 hd l
  spaced : Spaced l
  fits : ∀ x ∈ l, x + 16 ≤ 2 ^ 64

/-- A node that is not on the list. -/
structure Newcomer (x : Nat) (l : List Nat) : Prop where
  nonnull : x ≠ 0
  fits : x + 16 ≤ 2 ^ 64
  apart : ∀ y ∈ l, x + 16 ≤ y ∨ y + 16 ≤ x

/-- Memory is the same but for these nodes. -/
def WritesOnly (l : List Nat) (m m' : Mem) : Prop :=
  ∀ w, (∀ y ∈ l, w < y ∨ y + 16 ≤ w) → m' w = m w

theorem WritesOnly.mono {l' : List Nat} (h : WritesOnly l m m') (hs : ∀ x ∈ l, x ∈ l') :
    WritesOnly l' m m' :=
  fun w hw => h w fun y hy => hw y (hs y hy)

theorem Newcomer.not_mem (h : Newcomer x l) : x ∉ l := by
  intro hx
  have := h.apart x hx
  omega

namespace WellFormed

variable {f : Mem → Nat → Bool} (h : WellFormed m hd l)
include h

theorem ne_zero (hx : x ∈ l) : x ≠ 0 := fun he => h.isList.nonnull (he ▸ hx)

theorem head_lt : hd < 2 ^ 64 := by
  rw [h.isList.head]
  cases l with
  | nil => show 0 < 2 ^ 64; decide
  | cons y l =>
      have := h.fits y (by simp)
      show y < 2 ^ 64
      omega

/-- Only the nodes matter. -/
theorem congr {l' : List Nat} (hm : WritesOnly l' m m')
    (hno : ∀ x ∈ l, ∀ y ∈ l', x + 16 ≤ y ∨ y + 16 ≤ x) : WellFormed m' hd l := by
  refine ⟨?_, h.spaced, h.fits⟩
  have hword : ∀ x ∈ l, ∀ k, k ≤ 8 → m'.read64 (x + k) = m.read64 (x + k) := by
    intro x hx k hk
    refine Mem.read64_congr fun w h1 h2 => hm w fun y hy => ?_
    have := hno x hx y hy
    omega
  exact h.isList.congr (fun x hx => hword x hx 0 (by omega))
    (fun x hx => hword x (List.mem_of_mem_tail hx) 8 (by omega))

/-- Around a node, the list without it. -/
theorem split (hx : x ∈ l) : ∃ pre post, l = pre ++ x :: post ∧ l.erase x = pre ++ post := by
  obtain ⟨pre, post, rfl⟩ := List.append_of_mem hx
  have hxpre : x ∉ pre :=
    fun hp => (List.nodup_append.mp h.isList.nodup).2.2 x hp x (by simp) rfl
  exact ⟨pre, post, rfl, by rw [List.erase_append_right _ hxpre, List.erase_cons_head]⟩

/-- **Removal**: exactly the node given goes, and the rest keeps its order. -/
theorem detach (hx : x ∈ l) :
    WellFormed (freelistDetach m hd x).2 (freelistDetach m hd x).1 (l.erase x) := by
  have hsp := h.spaced
  have hlist := h.isList
  refine ⟨?_, hsp.subset fun y hy => List.mem_of_mem_erase hy,
    fun y hy => h.fits y (List.mem_of_mem_erase hy)⟩
  obtain ⟨pre, post, rfl, herase⟩ := h.split hx
  rw [herase]
  exact freelistDetach_isList hlist h.head_lt hsp

/-- Removal stores to other nodes of the list only. -/
theorem detach_writes (hx : x ∈ l) : WritesOnly (l.erase x) m (freelistDetach m hd x).2 := by
  have hsp := h.spaced
  have hlist := h.isList
  obtain ⟨pre, post, rfl, herase⟩ := h.split hx
  rw [herase]
  exact fun w hw => freelistDetach_other hlist hsp hw

/-- **Insertion**: the new node is the head. -/
theorem put (hx : Newcomer x l) : WellFormed (freelistPut m hd x).2 x (x :: l) := by
  have hsp := spaced_cons h.spaced hx.apart
  have hfits := hx.fits
  refine ⟨freelistPut_isList h.isList h.head_lt hsp hx.nonnull (by omega) hx.not_mem, hsp, ?_⟩
  intro y hy
  rcases List.mem_cons.mp hy with rfl | hy
  · exact hfits
  · exact h.fits y hy

/-- Insertion stores to the new node and to the list's nodes only. -/
theorem put_writes : WritesOnly (x :: l) m (freelistPut m hd x).2 :=
  fun _ hw => freelistPut_other h.isList h.head_lt (hw x (by simp))
    fun y hy => hw y (List.mem_cons_of_mem _ hy)

/-- There are fewer nodes than addresses. -/
theorem short : l.length < walkFuel := by
  -- no node twice, and none of them null
  have hsub : l.toFinset ⊆ Finset.Ico 1 (2 ^ 64) := by
    intro x hx
    have hx := List.mem_toFinset.mp hx
    have := h.fits x hx
    have := h.ne_zero hx
    rw [Finset.mem_Ico]
    omega
  have hcard := Finset.card_le_card hsub
  rw [List.toFinset_card_of_nodup h.isList.nodup, Nat.card_Ico] at hcard
  have hfuel : walkFuel = 2 ^ 64 := rfl
  omega

/-- A walk over a list finds its first fitting node. -/
theorem find_eq :
    Links.find (linksOf m).next 0 (f m) walkFuel hd = some ((l.find? (f m)).getD 0) :=
  h.isList.find_eq (f m) h.short

/-- **Matching**: the first fitting node is taken off. -/
theorem matchBy : freelistMatchBy f m hd = some (match l.find? (f m) with
    | none => (0, hd, m)
    | some x => (x, freelistDetach m hd x)) := by
  rw [freelistMatchBy, h.find_eq]
  cases hf : l.find? (f m) with
  | none => simp
  | some x => simp [h.ne_zero (List.mem_of_find?_eq_some hf)]

end WellFormed

/-! ## Several lists -/

/-- **Lists next to one another**: `L i` hangs on head `i`, and no node is on two of them. -/
structure Threads (I : Nat → Prop) (m : Mem) (hd : Nat → Nat) (L : Nat → List Nat) : Prop where
  list : ∀ i, I i → WellFormed m (hd i) (L i)
  apart : ∀ i j, I i → I j → i ≠ j → ∀ x ∈ L i, ∀ y ∈ L j, x + 16 ≤ y ∨ y + 16 ≤ x

/-- The first fitting node of the first of these lists that has one, and which list it is on. -/
def firstFit (p : Nat → Bool) (L : Nat → List Nat) (is : List Nat) : Option (Nat × Nat) :=
  is.findSome? fun i => ((L i).find? p).map fun x => (i, x)

theorem firstFit_mem {p : Nat → Bool} {L : Nat → List Nat} {is : List Nat} {i : Nat}
    (h : firstFit p L is = some (i, x)) : i ∈ is ∧ x ∈ L i ∧ p x := by
  obtain ⟨j, hj, hx⟩ := List.exists_of_findSome?_eq_some h
  obtain ⟨y, hy, he⟩ := Option.map_eq_some_iff.mp hx
  obtain ⟨rfl, rfl⟩ := Prod.mk.inj he
  exact ⟨hj, List.mem_of_find?_eq_some hy, List.find?_some hy⟩

theorem firstFit_snd (p : Nat → Bool) (L : Nat → List Nat) (is : List Nat) :
    (is.findSome? fun i => (L i).find? p) = (firstFit p L is).map Prod.snd := by
  induction is with
  | nil => rfl
  | cons i is ih =>
    rw [firstFit, List.findSome?_cons, List.findSome?_cons]
    cases (L i).find? p with
    | none => exact ih
    | some x => rfl

/-- The class-list removal is the plain one on the list it picks. -/
theorem freelistsDetach_eq (m : Mem) (lists : Nat → Nat) (id ptr : Nat) :
    freelistsDetach m lists id ptr =
      (Function.update lists id (freelistDetach m (lists id) ptr).1,
        (freelistDetach m (lists id) ptr).2) := by
  unfold freelistsDetach freelistDetach
  split
  · rfl
  · simp

namespace Threads

variable {I : Nat → Prop} {hd : Nat → Nat} {L : Nat → List Nat} {f : Mem → Nat → Bool} {i : Nat}
  (h : Threads I m hd L)
include h

/-- One list changes, and only its nodes are stored to. -/
theorem update {hd' : Nat} {l' : List Nat} (hnew : WellFormed m' hd' l')
    (hm : WritesOnly l' m m')
    (hother : ∀ j, I j → j ≠ i → ∀ y ∈ L j, ∀ z ∈ l', y + 16 ≤ z ∨ z + 16 ≤ y) :
    Threads I m' (Function.update hd i hd') (Function.update L i l') := by
  refine ⟨fun j hj => ?_, fun j k hj hk hne x hx y hy => ?_⟩
  · by_cases hji : j = i
    · subst hji
      rw [Function.update_self, Function.update_self]
      exact hnew
    -- the other lists have no node among those stored to
    · rw [Function.update_of_ne hji, Function.update_of_ne hji]
      exact (h.list j hj).congr hm (hother j hj hji)
  · by_cases hji : j = i
    · subst hji
      rw [Function.update_self] at hx
      rw [Function.update_of_ne (Ne.symm hne)] at hy
      exact (hother k hk (Ne.symm hne) y hy x hx).symm
    · rw [Function.update_of_ne hji] at hx
      by_cases hki : k = i
      · subst hki
        rw [Function.update_self] at hy
        exact hother j hj hji x hx y hy
      · rw [Function.update_of_ne hki] at hy
        exact h.apart j k hj hk hne x hx y hy

/-- **Removal from one of the lists.** -/
theorem detach (hi : I i) (hx : x ∈ L i) :
    Threads I (freelistDetach m (hd i) x).2 (Function.update hd i (freelistDetach m (hd i) x).1)
      (Function.update L i ((L i).erase x)) := by
  have hlist := h.list i hi
  refine h.update (hlist.detach hx) (hlist.detach_writes hx) ?_
  intro j hj hne y hy z hz
  exact h.apart j i hj hi hne y hy z (List.mem_of_mem_erase hz)

/-- **Insertion into one of the lists.** -/
theorem put (hi : I i) (hx : ∀ j, I j → Newcomer x (L j)) :
    Threads I (freelistPut m (hd i) x).2 (Function.update hd i x)
      (Function.update L i (x :: L i)) := by
  have hlist := h.list i hi
  refine h.update (hlist.put (hx i hi)) hlist.put_writes ?_
  intro j hj hne y hy z hz
  rcases List.mem_cons.mp hz with rfl | hz
  · exact ((hx j hj).apart y hy).symm
  · exact h.apart j i hj hi hne y hy z hz

/-- The class-list loop takes the first node that any of its lists has to offer. -/
theorem matchLoop (n id : Nat) (hid : ∀ j, id ≤ j → j < id + n → I j) :
    freelistsMatchLoop f m hd n id = some (match firstFit (f m) L (List.range' id n) with
      | none => (0, hd, m)
      | some (i, x) => (x, freelistsDetach m hd i x)) := by
  induction n generalizing id with
  | zero => rfl
  | succ n ih =>
    have hlist := h.list id (hid id (Nat.le_refl _) (by omega))
    rw [freelistsMatchLoop, hlist.find_eq, firstFit, List.range'_succ, List.findSome?_cons]
    cases hf : (L id).find? (f m) with
    | none =>
        simp only [Option.getD_none, if_true, Option.map_none]
        exact ih (id + 1) fun j h1 h2 => hid j (by omega) (by omega)
    | some x =>
        have hx0 := hlist.ne_zero (List.mem_of_find?_eq_some hf)
        simp only [Option.getD_some, hx0, if_false, Option.map_some]

end Threads

end IonOS.Alloc
