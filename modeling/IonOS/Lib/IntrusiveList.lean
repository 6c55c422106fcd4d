import Mathlib.Data.List.Nodup
import Mathlib.Data.List.Chain
import Mathlib.Logic.Function.Basic

/-!
# Doubly linked lists threaded through their own nodes

A node carries its successor and its predecessor; a list is a pointer to its
first node. Insertion happens at the head and removal takes a node by address.

The one thing the representation does *not* promise is the predecessor field of
the first node. Removing the head leaves the new head pointing back at a node
that is gone, and that is harmless only because every operation compares with
the head before it looks at a predecessor. `IsList` is stated so that this field
is free, and the operations are proved from exactly that.
-/

namespace IonOS.Lib

variable {α : Type*}

/-- The link fields of every node. -/
structure Links (α : Type*) where
  /-- The successor field. -/
  next : α → α
  /-- The predecessor field. -/
  prev : α → α

namespace Links

/-- Consecutive nodes point at each other and the last one points at `null`. -/
def Linked (k : Links α) (null : α) : List α → Prop
  | [] => True
  | [x] => k.next x = null
  | x :: y :: l => k.next x = y ∧ k.prev y = x ∧ Linked k null (y :: l)

/-- Following `next` from `hd` visits exactly `l`, ending at `null`. -/
structure IsList (k : Links α) (null hd : α) (l : List α) : Prop where
  /-- The head pointer designates the first node. -/
  head : hd = l.headD null
  /-- No node occurs twice. -/
  nodup : l.Nodup
  /-- The null pointer is not a node. -/
  nonnull : null ∉ l
  /-- The link fields are consistent, the first predecessor field excepted. -/
  linked : Linked k null l

section Operations

variable [DecidableEq α]

/-- Store a successor field. -/
def setNext (k : Links α) (x y : α) : Links α := { k with next := Function.update k.next x y }

/-- Store a predecessor field. -/
def setPrev (k : Links α) (x y : α) : Links α := { k with prev := Function.update k.prev x y }

/-- Insert `x` in front of the list headed by `hd`; the new head is `x`. -/
def push (k : Links α) (null hd x : α) : Links α :=
  let k := (k.setNext x hd).setPrev x null
  if hd = null then k else k.setPrev hd x

/-- Remove `x` from the list headed by `hd`; the result carries the new head. -/
def unlink (k : Links α) (null hd x : α) : α × Links α :=
  if hd = x then (k.next x, k)
  else
    let k := if k.next x = null then k else k.setPrev (k.next x) (k.prev x)
    let k := if k.prev x = null then k else k.setNext (k.prev x) (k.next x)
    (hd, k)

/--
Walk the list from `x` until a node satisfies `p`. `none` means the walk did not
end within the fuel; reaching `null` is reported as `null` itself.
-/
def find (next : α → α) (null : α) (p : α → Bool) : Nat → α → Option α
  | 0, _ => none
  | fuel + 1, x =>
      if x = null then some null
      else if p x then some x
      else find next null p fuel (next x)

end Operations

/-! ## What a list depends on -/

variable {k k' : Links α} {null hd x : α} {l : List α}

theorem Linked.tail {y : α} : ∀ {l : List α}, Linked k null (y :: l) → Linked k null l
  | [], _ => trivial
  | _ :: _, h => h.2.2

theorem Linked.drop : ∀ {p : List α}, Linked k null (p ++ l) → Linked k null l
  | [], h => h
  | _ :: p, h => Linked.drop (p := p) h.tail

/-- Only the fields of the list's own nodes matter, and not the first predecessor. -/
theorem Linked.congr : ∀ {l : List α}, Linked k null l →
    (∀ x ∈ l, k'.next x = k.next x) → (∀ x ∈ l.tail, k'.prev x = k.prev x) → Linked k' null l
  | [], _, _, _ => trivial
  | [x], h, hn, _ => (hn x (by simp)).trans h
  | x :: y :: l, h, hn, hp =>
      ⟨(hn x (by simp)).trans h.1, (hp y (by simp)).trans h.2.1,
        Linked.congr h.2.2 (fun z hz => hn z (List.mem_cons_of_mem _ hz))
          (fun z hz => hp z (List.mem_cons_of_mem _ hz))⟩

theorem IsList.congr (h : IsList k null hd l)
    (hn : ∀ x ∈ l, k'.next x = k.next x) (hp : ∀ x ∈ l.tail, k'.prev x = k.prev x) :
    IsList k' null hd l :=
  ⟨h.head, h.nodup, h.nonnull, h.linked.congr hn hp⟩

/-- The empty list. -/
theorem isList_nil (k : Links α) (null : α) : IsList k null null [] :=
  ⟨rfl, List.nodup_nil, by simp, trivial⟩

/-- The successor of the node before `post`. -/
theorem Linked.next_eq {post : List α} :
    ∀ {p : List α}, Linked k null (p ++ x :: post) → k.next x = post.headD null
  | [], h => by
      cases post with
      | nil => exact h
      | cons y post => exact h.1
  | _ :: p, h => Linked.next_eq (p := p) h.tail

/-- The predecessor of a node that is not the first. -/
theorem Linked.prev_eq {y : α} {post : List α} :
    ∀ {p : List α}, Linked k null (p ++ y :: x :: post) → k.prev x = y
  | [], h => h.2.1
  | _ :: p, h => Linked.prev_eq (p := p) h.tail

/-- A list splits at any node into two linked pieces, the first one closed off by hand. -/
theorem Linked.replace_tail {y : α} {post post' : List α} :
    ∀ {p : List α}, Linked k null (p ++ y :: post) →
      (∀ z ∈ p, k'.next z = k.next z) → (∀ z ∈ (p ++ [y]).tail, k'.prev z = k.prev z) →
      Linked k' null (y :: post') → Linked k' null (p ++ y :: post')
  | [], _, _, _, h' => h'
  | [z], h, hn, hp, h' => ⟨(hn z (by simp)).trans h.1, (hp y (by simp)).trans h.2.1, h'⟩
  | z :: w :: p, h, hn, hp, h' =>
      ⟨(hn z (by simp)).trans h.1, (hp w (by simp)).trans h.2.1,
        Linked.replace_tail (p := w :: p) h.2.2 (fun v hv => hn v (List.mem_cons_of_mem _ hv))
          (fun v hv => hp v (List.mem_cons_of_mem _ hv)) h'⟩

/-- **The links determine the list.** -/
theorem IsList.unique {l' : List α} (h : IsList k null hd l) (h' : IsList k null hd l') :
    l = l' := by
  have key : ∀ (l l' : List α), null ∉ l → null ∉ l' → Linked k null l → Linked k null l' →
      l.headD null = l'.headD null → l = l' := by
    intro l
    induction l with
    | nil =>
        intro l' _ h0 _ _ hhd
        cases l' with
        | nil => rfl
        | cons y l' =>
            have hy : null = y := hhd
            exact absurd (by simp [hy]) h0
    | cons x l ih =>
        intro l' h0 h0' hl hl' hhd
        cases l' with
        | nil =>
            have hx : x = null := hhd
            exact absurd (by simp [hx]) h0
        | cons y l' =>
            obtain rfl : x = y := hhd
            have hx : k.next x = l.headD null := Linked.next_eq (p := []) hl
            have hx' : k.next x = l'.headD null := Linked.next_eq (p := []) hl'
            rw [ih l' (fun hm => h0 (List.mem_cons_of_mem _ hm))
              (fun hm => h0' (List.mem_cons_of_mem _ hm)) hl.tail hl'.tail (hx.symm.trans hx')]
  exact key l l' h.nonnull h'.nonnull h.linked h'.linked (h.head.symm.trans h'.head)

/-! ## The operations -/

variable [DecidableEq α]

theorem push_next_of_ne {y : α} (h : y ≠ x) : (push k null hd x).next y = k.next y := by
  unfold push
  split <;> simp [setNext, setPrev, h]

theorem push_prev_of_ne {y : α} (h : y ≠ x) (h' : y ≠ hd) :
    (push k null hd x).prev y = k.prev y := by
  unfold push
  split <;> simp [setNext, setPrev, h, h']

/-- **Insertion.** The new node is the head and the rest keeps its order. -/
theorem IsList.push (h : IsList k null hd l) (hx : x ∉ l) (hx0 : x ≠ null) :
    IsList (Links.push k null hd x) null x (x :: l) := by
  refine ⟨rfl, List.nodup_cons.mpr ⟨hx, h.nodup⟩, ?_, ?_⟩
  · rw [List.mem_cons]
    rintro (rfl | h0)
    · exact hx0 rfl
    · exact h.nonnull h0
  · cases l with
    | nil =>
        have hnull : hd = null := h.head
        show (Links.push k null hd x).next x = null
        simp [Links.push, setNext, setPrev, hnull]
    | cons y l =>
        have hhd : hd = y := h.head
        have hy0 : y ≠ null := fun he => h.nonnull (he ▸ by simp)
        have hyx : y ≠ x := fun he => hx (he ▸ by simp)
        subst hhd
        refine ⟨by simp [Links.push, setNext, setPrev, hy0], by
          simp [Links.push, setNext, setPrev, hy0], h.linked.congr ?_ ?_⟩
        · intro z hz
          exact push_next_of_ne fun he => hx (he ▸ hz)
        · intro z hz
          have hz' : z ∈ l := hz
          have hzhd : z ≠ hd := fun he => (List.nodup_cons.mp h.nodup).1 (he ▸ hz')
          exact push_prev_of_ne (fun he => hx (he ▸ List.mem_cons_of_mem _ hz')) hzhd

/-- Removing the head only moves the head pointer. -/
theorem IsList.unlink_head {post : List α} (h : IsList k null hd (x :: post)) :
    Links.unlink k null hd x = (post.headD null, k) := by
  have hhd : hd = x := h.head
  unfold Links.unlink
  rw [if_pos hhd, Linked.next_eq (p := []) h.linked]

omit [DecidableEq α] in
/-- A node behind another one is not the head. -/
theorem IsList.head_ne {y : α} {pre post : List α}
    (h : IsList k null hd (pre ++ y :: x :: post)) : hd ≠ x := by
  have hnd := h.nodup
  rw [show pre ++ y :: x :: post = (pre ++ [y]) ++ x :: post by simp, List.nodup_append] at hnd
  have hmem : hd ∈ pre ++ [y] := by
    rw [h.head]
    cases pre with
    | nil => simp
    | cons z pre => simp
  exact fun he => hnd.2.2 hd hmem x (by simp) he

/-- Removing any other node joins its two neighbours. -/
theorem IsList.unlink_inner {y : α} {pre post : List α}
    (h : IsList k null hd (pre ++ y :: x :: post)) :
    Links.unlink k null hd x =
      (hd, (if post = [] then k else k.setPrev (post.headD null) y).setNext y
        (post.headD null)) := by
  have hnext : k.next x = post.headD null :=
    Linked.next_eq (p := pre ++ [y]) (by simpa using h.linked)
  have hprev : k.prev x = y := h.linked.prev_eq
  have hxpost : x ∉ post :=
    (List.nodup_cons.mp (List.nodup_cons.mp (List.nodup_append.mp h.nodup).2.1).2).1
  have hy0 : y ≠ null := fun he => h.nonnull (he ▸ by simp)
  unfold Links.unlink
  rw [if_neg h.head_ne]
  cases post with
  | nil =>
      have hnext0 : k.next x = null := hnext
      simp [hnext0, hprev, hy0]
  | cons w post =>
      have hnextw : k.next x = w := hnext
      have hw0 : w ≠ null := fun he => h.nonnull (he ▸ by simp)
      have hwx : x ≠ w := fun he => hxpost (he ▸ by simp)
      have hprev' : (k.setPrev w y).prev x = y := by simp [setPrev, hwx, hprev]
      have hnext' : (k.setPrev w y).next x = w := hnextw
      simp [hnextw, hprev, hw0, hprev', hnext', hy0]

/-- **Removal.** Exactly the given node goes; the rest keeps its order. -/
theorem IsList.unlink {pre post : List α} (h : IsList k null hd (pre ++ x :: post)) :
    IsList (Links.unlink k null hd x).2 null (Links.unlink k null hd x).1 (pre ++ post) := by
  have hsub : (pre ++ post).Sublist (pre ++ x :: post) :=
    List.Sublist.append (List.Sublist.refl _) (List.sublist_cons_self _ _)
  have hnodup := h.nodup.sublist hsub
  have hnonnull : null ∉ pre ++ post := fun h0 => h.nonnull (hsub.subset h0)
  rcases List.eq_nil_or_concat pre with rfl | ⟨pre, y, rfl⟩
  · -- the head: the new head's predecessor field is left dangling
    rw [IsList.unlink_head h]
    exact ⟨rfl, hnodup, hnonnull, h.linked.tail⟩
  · rw [List.concat_eq_append, List.append_assoc, List.singleton_append] at h hnodup hnonnull ⊢
    rw [IsList.unlink_inner h]
    have hypre : y ∉ pre := fun hy => (List.nodup_append.mp hnodup).2.2 y hy y (by simp) rfl
    have hypost : y ∉ post := (List.nodup_cons.mp (List.nodup_append.mp hnodup).2.1).1
    have hhead : hd = (pre ++ y :: post).headD null := by rw [h.head]; cases pre <;> rfl
    refine ⟨hhead, hnodup, hnonnull, Linked.replace_tail h.linked ?_ ?_ ?_⟩
    · intro z hz
      have hzy : z ≠ y := fun he => hypre (he ▸ hz)
      split <;> simp [setNext, setPrev, hzy]
    · intro z hz
      cases post with
      | nil => simp [setNext]
      | cons w post =>
          have hzw : z ≠ w := by
            rintro rfl
            rw [show pre ++ y :: z :: post = (pre ++ [y]) ++ z :: post by simp,
              List.nodup_append] at hnodup
            exact hnodup.2.2 z (List.mem_of_mem_tail hz) z (by simp) rfl
          simp [setNext, setPrev, hzw]
    · cases post with
      | nil => simp [Linked, setNext]
      | cons w post =>
          have hrest : Linked k null (w :: post) :=
            Linked.drop (p := pre ++ [y, x]) (by simpa using h.linked)
          have hwpost : w ∉ post :=
            (List.nodup_cons.mp (List.nodup_cons.mp (List.nodup_append.mp hnodup).2.1).2).1
          refine ⟨by simp [setNext], by simp [setNext, setPrev], hrest.congr ?_ ?_⟩
          · intro z hz
            have hzy : z ≠ y := fun he => hypost (he ▸ hz)
            simp [setNext, setPrev, hzy]
          · intro z hz
            have hzw : z ≠ w := fun he => hwpost (he ▸ hz)
            simp [setNext, setPrev, hzw]

/-! ## Searching -/

/-- **A walk along `next` finds the first node that qualifies**, given more fuel than there are
nodes. Nothing else of the nodes matters. -/
theorem find_chain {next : α → α} {null : α} {l : List α} (p : α → Bool) {fuel : Nat}
    (h : (l ++ [null]).IsChain fun x y => next x = y) (h0 : null ∉ l) (hfuel : l.length < fuel) :
    Links.find next null p fuel (l.headD null) = some ((l.find? p).getD null) := by
  induction l generalizing fuel with
  | nil =>
    obtain ⟨f, rfl⟩ := Nat.exists_eq_succ_of_ne_zero (Nat.ne_of_gt hfuel)
    simp [Links.find]
  | cons x l ih =>
    obtain ⟨f, rfl⟩ := Nat.exists_eq_succ_of_ne_zero (Nat.ne_of_gt (Nat.zero_lt_of_lt hfuel))
    have hx0 : x ≠ null := fun he => h0 (he ▸ by simp)
    have hnext : next x = l.headD null := by
      cases l with
      | nil => exact (List.isChain_cons_cons.mp h).1
      | cons y l => exact (List.isChain_cons_cons.mp h).1
    rw [Links.find, List.headD_cons, if_neg hx0, List.find?_cons]
    cases hp : p x with
    | true => simp
    | false =>
        simp only [Bool.false_eq_true, if_false, hnext]
        exact ih h.tail (fun hm => h0 (List.mem_cons_of_mem _ hm))
          (by simp only [List.length_cons] at hfuel; omega)

omit [DecidableEq α] in
/-- Links elsewhere do not matter to a chain. -/
theorem chain_congr {next next' : α → α} {null : α} {l : List α}
    (h : (l ++ [null]).IsChain fun x y => next x = y) (hl : ∀ x ∈ l, next' x = next x) :
    (l ++ [null]).IsChain fun x y => next' x = y := by
  rw [List.isChain_iff_forall_rel_of_append_cons_cons] at h ⊢
  intro x y l₁ l₂ he
  rw [hl x ?_]
  · exact h he
  · -- a node with one behind it is not the last
    have hlen : l = l₁ ++ x :: (y :: l₂).dropLast := by
      have := congrArg List.dropLast he
      simpa using this
    rw [hlen]
    simp

/-! ### Chains without a way back -/

omit [DecidableEq α] in
/-- In a chain the nodes in front of `y` lead to nodes in front of `y`, or to `y`. -/
theorem chain_next_mem {next : α → α} {y : α} {pre l : List α}
    (h : (pre ++ y :: l).IsChain fun x y => next x = y) : ∀ z ∈ pre, next z ∈ pre ++ [y] := by
  induction pre with
  | nil => simp
  | cons w pre ih =>
    intro z hz
    rcases List.mem_cons.mp hz with rfl | hz
    · cases pre with
      | nil =>
          have hz : next z = y := (List.isChain_cons_cons.mp h).1
          simp [hz]
      | cons v pre =>
          have hz : next z = v := (List.isChain_cons_cons.mp h).1
          simp [hz]
    · exact List.mem_cons_of_mem _ (ih h.tail z hz)

/-- **The walk finds the node in front of `x`.** -/
theorem find_chain_prev {next : α → α} {null x y : α} {pre post : List α} {fuel : Nat}
    (h : ((pre ++ y :: x :: post) ++ [null]).IsChain fun x y => next x = y)
    (hnd : (pre ++ y :: x :: post).Nodup) (h0 : null ∉ pre ++ y :: x :: post)
    (hfuel : (pre ++ y :: x :: post).length < fuel) :
    Links.find next null (fun z => next z == x) fuel ((pre ++ y :: x :: post).headD null) =
      some y := by
  have hchain := h
  rw [List.append_assoc] at hchain
  have hyx : next y = x := (List.isChain_cons_cons.mp hchain.right_of_append).1
  have hno : ∀ z ∈ pre, next z ≠ x := by
    intro z hz he
    have hmem := chain_next_mem (l := x :: post ++ [null]) hchain z hz
    rw [he] at hmem
    have hnd' : ((pre ++ [y]) ++ x :: post).Nodup := by simpa using hnd
    exact (List.nodup_append.mp hnd').2.2 x hmem x (by simp) rfl
  have hfind : (pre ++ y :: x :: post).find? (fun z => next z == x) = some y := by
    rw [List.find?_append, List.find?_eq_none.mpr fun z hz => by simpa using hno z hz,
      Option.none_or, List.find?_cons]
    simp [hyx]
  rw [find_chain _ h h0 hfuel, hfind]
  rfl

omit [DecidableEq α] in
/-- **Leading past `x`** takes it off the chain. -/
theorem chain_unlink {next next' : α → α} {null x y : α} {pre post : List α}
    (h : ((pre ++ y :: x :: post) ++ [null]).IsChain fun x y => next x = y)
    (hy : next' y = next x) (hpre : ∀ z ∈ pre, next' z = next z)
    (hpost : ∀ z ∈ post, next' z = next z) :
    ((pre ++ y :: post) ++ [null]).IsChain fun x y => next' x = y := by
  rw [List.append_assoc, List.cons_append] at h ⊢
  obtain ⟨hfront, hback⟩ := List.isChain_split.mp h
  obtain ⟨hx, hrest⟩ := List.isChain_cons.mp (List.isChain_cons_cons.mp hback).2
  refine List.isChain_split.mpr ⟨chain_congr hfront hpre, List.isChain_cons.mpr ⟨?_, ?_⟩⟩
  · intro z hz
    exact hy.trans (hx z hz)
  · exact chain_congr hrest hpost

omit [DecidableEq α] in
theorem Linked.isChain : ∀ {l : List α}, Linked k null l →
    (l ++ [null]).IsChain fun x y => k.next x = y
  | [], _ => .singleton _
  | [_], h => List.isChain_cons_cons.mpr ⟨h, .singleton _⟩
  | _ :: _ :: _, h => List.isChain_cons_cons.mpr ⟨h.1, Linked.isChain h.2.2⟩

/-- **The walk finds the first node that qualifies.** -/
theorem IsList.find_eq (h : IsList k null hd l) (p : α → Bool) {fuel : Nat}
    (hfuel : l.length < fuel) :
    Links.find k.next null p fuel hd = some ((l.find? p).getD null) := by
  rw [h.head]
  exact find_chain p h.linked.isChain h.nonnull hfuel

end Links

end IonOS.Lib
