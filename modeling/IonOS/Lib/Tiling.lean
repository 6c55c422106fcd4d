import Mathlib.Algebra.BigOperators.Group.Finset.Basic
import Mathlib.Algebra.GroupWithZero.Nat
import Mathlib.Data.List.Basic
import Mathlib.Order.Interval.Finset.Nat

/-!
# Gapless tilings of an address range

A memory area cut into consecutive pieces: each piece starts where the previous
one ends, and the last one ends at the far end of the area. Cutting a piece in
two or gluing neighbours together changes the list locally; `Tiling.middle` takes
a stretch out of the list, and `Tiling.append_iff` puts another one in its place.

Of pieces that need not be adjacent, only how long they are together is said.
-/

namespace IonOS.Lib

variable {β : Type*} {start len : β → Nat}

/-- The tiles `bs` follow one another without gaps from `a` to `e`. -/
def Tiling (start len : β → Nat) : Nat → List β → Nat → Prop
  | a, [], e => a = e
  | a, b :: bs, e => start b = a ∧ Tiling start len (a + len b) bs e

namespace Tiling

theorem append_iff {a e : Nat} {bs cs : List β} :
    Tiling start len a (bs ++ cs) e ↔
      ∃ q, Tiling start len a bs q ∧ Tiling start len q cs e := by
  induction bs generalizing a with
  | nil => exact ⟨fun h => ⟨a, rfl, h⟩, fun ⟨q, h1, h2⟩ => by cases h1; exact h2⟩
  | cons b bs ih =>
    constructor
    · rintro ⟨hb, h⟩
      obtain ⟨q, h1, h2⟩ := ih.mp h
      exact ⟨q, ⟨hb, h1⟩, h2⟩
    · rintro ⟨q, ⟨hb, h1⟩, h2⟩
      exact ⟨hb, ih.mpr ⟨q, h1, h2⟩⟩

theorem le {a e : Nat} {bs : List β} (h : Tiling start len a bs e) : a ≤ e := by
  induction bs generalizing a with
  | nil => exact Nat.le_of_eq h
  | cons b bs ih => exact Nat.le_trans (Nat.le_add_right _ _) (ih h.2)

/-- Every tile lies inside the area. -/
theorem bounds {a e : Nat} {bs : List β} (h : Tiling start len a bs e) {b : β} (hb : b ∈ bs) :
    a ≤ start b ∧ start b + len b ≤ e := by
  obtain ⟨pre, post, rfl⟩ := List.append_of_mem hb
  obtain ⟨q, h1, h2, h3⟩ := append_iff.mp h
  have := h1.le
  have := h3.le
  omega

/-- A tile lies behind every tile before it. -/
theorem before {a e : Nat} {pre post : List β} {b c : β}
    (h : Tiling start len a (pre ++ b :: post) e) (hc : c ∈ pre) :
    start c + len c ≤ start b := by
  obtain ⟨q, h1, h2, _⟩ := append_iff.mp h
  have := (h1.bounds hc).2
  omega

/-- A tile lies in front of every tile after it. -/
theorem after {a e : Nat} {pre post : List β} {b c : β}
    (h : Tiling start len a (pre ++ b :: post) e) (hc : c ∈ post) :
    start b + len b ≤ start c := by
  obtain ⟨q, _, h2, h3⟩ := append_iff.mp h
  have := (h3.bounds hc).1
  omega

/-- Two tiles are the same or apart. -/
theorem apart {a e : Nat} {bs : List β} (h : Tiling start len a bs e) {b c : β}
    (hb : b ∈ bs) (hc : c ∈ bs) :
    b = c ∨ start b + len b ≤ start c ∨ start c + len c ≤ start b := by
  obtain ⟨pre, post, rfl⟩ := List.append_of_mem hb
  rcases List.mem_append.mp hc with hc | hc
  · exact .inr (.inr (h.before hc))
  · rcases List.mem_cons.mp hc with rfl | hc
    · exact .inl rfl
    · exact .inr (.inl (h.after hc))

/-- Tiles of positive length are determined by where they start. -/
theorem eq_of_start {a e : Nat} {bs : List β} (h : Tiling start len a bs e)
    (hpos : ∀ b ∈ bs, 0 < len b) {b c : β} (hb : b ∈ bs) (hc : c ∈ bs)
    (hs : start b = start c) : b = c := by
  have := hpos b hb
  have := hpos c hc
  rcases h.apart hb hc with he | he | he
  · exact he
  · omega
  · omega

/-- A tiling has only one end. -/
theorem end_unique {a e e' : Nat} {bs : List β} (h : Tiling start len a bs e)
    (h' : Tiling start len a bs e') : e = e' := by
  induction bs generalizing a with
  | nil => exact h.symm.trans h'
  | cons b bs ih => exact ih h.2 h'.2

/-- **Tiles that are their own starts** are determined by their lengths and the area. -/
theorem unique {len : Nat → Nat} (hpos : ∀ x, 0 < len x) {a e : Nat} {xs ys : List Nat}
    (h : Tiling id len a xs e) (h' : Tiling id len a ys e) : xs = ys := by
  induction xs generalizing a ys with
  | nil =>
    cases ys with
    | nil => rfl
    | cons y ys =>
        have hae : a = e := h
        have := h'.2.le
        have := hpos y
        omega
  | cons x xs ih =>
    cases ys with
    | nil =>
        have hae : a = e := h'
        have := h.2.le
        have := hpos x
        omega
    | cons y ys =>
        obtain ⟨rfl, h⟩ := h
        obtain ⟨rfl, h'⟩ := h'
        rw [ih h h']
        rfl

/-- **Cutting out a stretch.** What tiles the middle says where the sides end and begin. -/
theorem middle {a e p q : Nat} {pre mid post : List β}
    (h : Tiling start len a (pre ++ mid ++ post) e) (hne : mid ≠ [])
    (hmid : Tiling start len p mid q) :
    Tiling start len a pre p ∧ Tiling start len q post e := by
  obtain ⟨q', h1, hpost⟩ := append_iff.mp h
  obtain ⟨p', hpre, hmid'⟩ := append_iff.mp h1
  have hp : p' = p := by
    cases mid with
    | nil => exact absurd rfl hne
    | cons b mid => exact hmid'.1.symm.trans hmid.1
  subst hp
  rw [hmid'.end_unique hmid] at hpost
  exact ⟨hpre, hpost⟩

/-- The tile after `b` starts where `b` ends. -/
theorem next_start {a e : Nat} {pre post : List β} {b c : β}
    (h : Tiling start len a (pre ++ b :: c :: post) e) : start c = start b + len b := by
  obtain ⟨q, _, h2, h3, _⟩ := append_iff.mp h
  omega

/-- The last tile ends at the far end. -/
theorem last_end {a e : Nat} {pre : List β} {b : β}
    (h : Tiling start len a (pre ++ [b]) e) : start b + len b = e := by
  obtain ⟨q, _, h2, h3⟩ := append_iff.mp h
  have : q + len b = e := h3
  omega

/-- Tiles may be named differently, as long as they lie where they lay. -/
theorem map {γ : Type} {start' len' : γ → Nat} {f : β → γ} {a e : Nat} {bs : List β}
    (hs : ∀ b ∈ bs, start' (f b) = start b) (hlen : ∀ b ∈ bs, len' (f b) = len b)
    (h : Tiling start len a bs e) : Tiling start' len' a (bs.map f) e := by
  induction bs generalizing a with
  | nil => exact h
  | cons b bs ih =>
    refine ⟨(hs b (by simp)).trans h.1, ?_⟩
    rw [hlen b (by simp)]
    exact ih (fun c hc => hs c (List.mem_cons_of_mem _ hc))
      (fun c hc => hlen c (List.mem_cons_of_mem _ hc)) h.2

end Tiling

/-- **Pieces that lie apart** have no more room together than what they lie in. -/
theorem sum_len_le_of_apart [DecidableEq β] {lo hi : Nat} {bs : List β} (hnd : bs.Nodup)
    (hin : ∀ b ∈ bs, lo ≤ start b ∧ start b + len b ≤ hi)
    (hap : ∀ b ∈ bs, ∀ c ∈ bs, b = c ∨ start b + len b ≤ start c ∨ start c + len c ≤ start b) :
    (bs.map len).sum ≤ hi - lo := by
  have hsum : (bs.map len).sum = ∑ b ∈ bs.toFinset, (Finset.Ico (start b) (start b + len b)).card := by
    rw [← List.sum_toFinset len hnd]
    exact Finset.sum_congr rfl fun b _ => by rw [Nat.card_Ico, Nat.add_sub_cancel_left]
  have hdisj : Set.PairwiseDisjoint (bs.toFinset : Set β)
      fun b => Finset.Ico (start b) (start b + len b) := by
    intro b hb c hc hne
    have := (hap b (List.mem_toFinset.mp hb) c (List.mem_toFinset.mp hc)).resolve_left hne
    refine Finset.disjoint_left.mpr fun w hw hw' => ?_
    rw [Finset.mem_Ico] at hw hw'
    omega
  have hsub : bs.toFinset.biUnion (fun b => Finset.Ico (start b) (start b + len b)) ⊆
      Finset.Ico lo hi := by
    intro w hw
    obtain ⟨b, hb, hw⟩ := Finset.mem_biUnion.mp hw
    have := hin b (List.mem_toFinset.mp hb)
    rw [Finset.mem_Ico] at hw ⊢
    omega
  rw [hsum, ← Finset.card_biUnion hdisj, ← Nat.card_Ico]
  exact Finset.card_le_card hsub

end IonOS.Lib
