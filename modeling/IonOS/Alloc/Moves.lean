import IonOS.Alloc.Areas

/-!
# The manager's building blocks, one by one

Each function of the manager that works on blocks, as a move on the picture. The
area a move happens in has base `a`; the blocks of every other area stay as they
are. Whole operations chain these statements with `Steps.trans`.
-/

namespace IonOS.Alloc

open IonOS.Lib

namespace Spread

variable {m m' : Mem} {hd hd' : Nat → Nat} {P : Pic} {L' : Nat → List Nat} {a i j x s : Nat}
  {pre post : List Block} {st st' : BlkState}

/-! ## Rewriting blocks in hand -/

/-- What is outside every tile is outside the stretch. -/
theorem outside_stretch {p q w : Nat} {mid : List Block}
    (hmid : Tiling Block.ptr Block.len p mid q)
    (hw : ∀ b ∈ mid, w + 8 < b.ptr ∨ b.ptr + b.size + 8 ≤ w) : w + 8 < p ∨ q ≤ w + 8 := by
  induction mid generalizing p with
  | nil =>
    have hpq : p = q := hmid
    omega
  | cons b mid ih =>
    have hb := hw b (by simp)
    have hlen : b.len = b.size + 16 := rfl
    have hptr := hmid.1
    have := ih hmid.2 fun c hc => hw c (by simp [hc])
    omega

/-- Rewriting blocks in hand moves nothing else. -/
theorem replace_moved {p q : Nat} {mid mid' : List Block} (ha : a ∈ P.bases)
    (hbs : P.blocks a = pre ++ mid ++ post)
    (hmid : Tiling Block.ptr Block.len p mid q)
    (hmid' : Tiling Block.ptr Block.len p mid' q) (hhand : ∀ b ∈ mid, b.st = .hand)
    (hm : ∀ x, x + 8 < p ∨ q ≤ x + 8 → m' x = m x) :
    Moved m P m' (P.edit a (pre ++ mid' ++ post) P.lists) := by
  intro w hw
  have hout := outside_stretch (w := w) hmid fun b hb => hw a ha b (by rw [hbs]; simp [hb]) (by
    rw [hhand b hb]
    simp)
  refine ⟨hm w hout, ?_⟩
  intro c hc b hb hst
  by_cases he : c = a
  · subst he
    rw [Pic.edit_blocks] at hb
    simp only [List.mem_append] at hb
    rcases hb with (hb | hb) | hb
    · exact hw c ha b (by rw [hbs]; simp [hb]) hst
    · have hbd := hmid'.bounds hb
      have hlen : b.len = b.size + 16 := rfl
      omega
    · exact hw c ha b (by rw [hbs]; simp [hb]) hst
  · rw [Pic.edit_blocks_ne he] at hb
    exact hw c hc b hb hst

/-! ## Moving one block between the hand and a list -/

/-- Stores confined to link words leave every tag and both ends of every area in place. -/
theorem words_kept (hl : Spread m hd P)
    (hm : ∀ w, (∀ c ∈ P.bases, ∀ b ∈ P.blocks c, w < b.ptr ∨ b.ptr + 16 ≤ w) → m' w = m w) :
    (∀ c ∈ P.bases, ∀ b ∈ P.blocks c, m'.read64 (b.ptr - 8) = m.read64 (b.ptr - 8) ∧
      m'.read64 (b.ptr + b.size) = m.read64 (b.ptr + b.size)) ∧
      ∀ c ∈ P.bases, m'.read64 (P.first c - 16) = m.read64 (P.first c - 16) ∧
        m'.read64 (P.stop c - 8) = m.read64 (P.stop c - 8) := by
  refine ⟨fun c hc b hb => ⟨?_, ?_⟩, fun c hc => ⟨?_, ?_⟩⟩
  · refine Mem.read64_congr fun w h1 h2 => hm w fun e he d hd => ?_
    have := (hl.sizes e he d hd).2
    have := (hl.fitsOf hc hb).low
    rcases hl.apart hc hb he hd with ⟨-, rfl⟩ | h | h <;> omega
  · refine Mem.read64_congr fun w h1 h2 => hm w fun e he d hd => ?_
    have := (hl.sizes e he d hd).2
    rcases hl.apart hc hb he hd with ⟨-, rfl⟩ | h | h <;> omega
  · refine Mem.read64_congr fun w h1 h2 => hm w fun e he d hd => ?_
    have hbd := hl.bounds he hd
    have := P.first_le c
    have := P.first_le e
    have := (hl.tiling c hc).le
    rcases hl.areas_apart c hc e he with rfl | h | h <;> omega
  · refine Mem.read64_congr fun w h1 h2 => hm w fun e he d hd => ?_
    have hbd := hl.bounds he hd
    have := (hl.sizes e he d hd).2
    have := P.first_le e
    have := (hl.place c hc).bounds
    have hstop : P.stop c = c + P.size c := rfl
    rcases hl.areas_apart c hc e he with rfl | h | h <;> omega

/-- The blocks after one of them changed its state. -/
theorem mem_restate {c : Nat} {b : Block} (hbs : P.blocks a = pre ++ ⟨x, s, st⟩ :: post)
    (hb : b ∈ (P.edit a (pre ++ ⟨x, s, st'⟩ :: post) L').blocks c) :
    (c = a ∧ b = ⟨x, s, st'⟩) ∨ (b ∈ P.blocks c ∧ (c = a → b ∈ pre ++ post)) := by
  by_cases he : c = a
  · subst he
    rw [Pic.edit_blocks] at hb
    simp only [List.mem_append, List.mem_cons] at hb
    rcases hb with hb | hb | hb
    · exact .inr ⟨by rw [hbs]; simp [hb], fun _ => by simp [hb]⟩
    · exact .inl ⟨rfl, hb⟩
    · exact .inr ⟨by rw [hbs]; simp [hb], fun _ => by simp [hb]⟩
  · rw [Pic.edit_blocks_ne he] at hb
    exact .inr ⟨hb, fun h => absurd h he⟩

/-- A block other than the one at `x` stays when that changes its state. -/
theorem mem_restate_of_ne {c : Nat} {b : Block} (hbs : P.blocks a = pre ++ ⟨x, s, st⟩ :: post)
    (hb : b ∈ P.blocks c) (hx : b.ptr ≠ x) :
    b ∈ (P.edit a (pre ++ ⟨x, s, st'⟩ :: post) L').blocks c := by
  by_cases he : c = a
  · subst he
    rw [Pic.edit_blocks]
    rw [hbs] at hb
    simp only [List.mem_append, List.mem_cons] at hb ⊢
    rcases hb with hb | rfl | hb
    · exact .inl hb
    · exact absurd rfl hx
    · exact .inr (.inr hb)
  · rw [Pic.edit_blocks_ne he]
    exact hb

/-- The other blocks of the area start elsewhere. -/
theorem ptr_ne {b : Block} (hl : Spread m hd P) (ha : a ∈ P.bases)
    (hbs : P.blocks a = pre ++ ⟨x, s, st⟩ :: post) (hb : b ∈ pre ++ post) : b.ptr ≠ x := by
  have htil := hl.tiling a ha
  rw [hbs] at htil
  rcases List.mem_append.mp hb with hb | hb
  · have h : b.ptr + (b.size + 16) ≤ x := htil.before hb
    omega
  · have h : x + (s + 16) ≤ b.ptr := htil.after hb
    omega

/--
**One block changes its state and its list.**

The stores go to link words of blocks that are not live, so that all tags stay;
what the lists are afterwards is for the caller to say.
-/
theorem relist (hl : Spread m hd P) (ha : a ∈ P.bases)
    (hbs : P.blocks a = pre ++ ⟨x, s, st⟩ :: post) (hst : st ≠ .live)
    (htag : Tagged m ⟨x, s, st'⟩)
    (hflag : st' ≠ .hand → Flagged m x s (P.size a = size2M))
    (hm : ∀ w, (∀ c ∈ P.bases, ∀ b ∈ P.blocks c, b.st ≠ .live → w < b.ptr ∨ b.ptr + 16 ≤ w) →
      m' w = m w)
    (hfree : FreeLists m' hd' L')
    (hmem : ∀ i y, y ∈ L' i ↔ (y = x ∧ st' = .free ∧ i = j) ∨ (y ≠ x ∧ y ∈ P.lists i))
    (hj : st' = .free → j = listOf s ∨ (pre = [] ∧ post = [] ∧ j = 8)) :
    Spread m' hd' (P.edit a (pre ++ ⟨x, s, st'⟩ :: post) L') ∧
      (st' ≠ .live → Moved m P m' (P.edit a (pre ++ ⟨x, s, st'⟩ :: post) L')) := by
  have hx : (⟨x, s, st⟩ : Block) ∈ P.blocks a := by rw [hbs]; simp
  obtain ⟨htags, hends⟩ := hl.words_kept fun w hw => hm w fun c hc b hb _ => hw c hc b hb
  obtain ⟨hh, ht⟩ := htags a ha _ hx
  refine ⟨⟨hl.place, hl.areas_apart, ?_, ?_, ?_, ?_, ?_, ?_, hfree, ?_, ?_⟩, ?_⟩
  · intro c hc
    by_cases he : c = a
    · subst he
      have htil := hl.tiling c ha
      rw [hbs] at htil
      obtain ⟨q, h1, h2, h3⟩ := Tiling.append_iff.mp htil
      rw [Pic.edit_blocks]
      exact Tiling.append_iff.mpr ⟨q, h1, h2, h3⟩
    · rw [Pic.edit_blocks_ne he]
      exact hl.tiling c hc
  · intro c hc b hb
    rcases mem_restate hbs hb with ⟨-, rfl⟩ | ⟨hb, -⟩
    · exact hl.sizes a ha ⟨x, s, st⟩ hx
    · exact hl.sizes c hc b hb
  · intro c hc b hb
    rcases mem_restate hbs hb with ⟨-, rfl⟩ | ⟨hb, -⟩
    · exact htag.congr hh ht
    · exact (hl.tags c hc b hb).congr (htags c hc b hb).1 (htags c hc b hb).2
  · intro c hc b hb hbst
    rcases mem_restate hbs hb with ⟨he, rfl⟩ | ⟨hb, -⟩
    · subst he
      exact (hflag hbst).congr hh ht
    · exact (hl.flags c hc b hb hbst).congr (htags c hc b hb).1 (htags c hc b hb).2
  · intro c hc
    show m'.read64 (P.first c - 16) / 2 % 2 = 1 ∨ m'.read64 (P.first c - 16) % 2 = 0
    rw [(hends c hc).1]
    exact hl.left c hc
  · intro c hc
    show m'.read64 (P.stop c - 8) / 2 % 2 = 1
    rw [(hends c hc).2]
    exact hl.right c hc
  · intro i y hy
    rcases (hmem i y).mp hy with ⟨rfl, hf, -⟩ | ⟨hyx, hy⟩
    · exact ⟨a, ha, ⟨y, s, st'⟩, by simp, rfl, hf⟩
    · obtain ⟨c, hc, b, hb, rfl, hf⟩ := hl.nodes i y hy
      exact ⟨c, hc, b, mem_restate_of_ne hbs hb hyx, rfl, hf⟩
  · intro c hc b hb hf
    rcases mem_restate hbs hb with ⟨he, rfl⟩ | ⟨hb, hside⟩
    · subst he
      rcases hj hf with rfl | ⟨rfl, rfl, rfl⟩
      · exact .inl ((hmem _ _).mpr (.inl ⟨rfl, hf, rfl⟩))
      · exact .inr ⟨by simp, (hmem _ _).mpr (.inl ⟨rfl, hf, rfl⟩)⟩
    · have hbx : b.ptr ≠ x := by
        intro he
        obtain ⟨rfl, rfl⟩ := hl.eq_of_ptr hc hb ha hx he
        exact hl.ptr_ne ha hbs (hside rfl) rfl
      rcases hl.listed c hc b hb hf with h | ⟨hone, h⟩
      · exact .inl ((hmem _ _).mpr (.inr ⟨hbx, h⟩))
      · refine .inr ⟨?_, (hmem _ _).mpr (.inr ⟨hbx, h⟩)⟩
        by_cases he : c = a
        · subst he
          -- two different blocks, but only one in the area
          rw [hone] at hx
          exact absurd (congrArg Block.ptr (List.mem_singleton.mp hx)).symm hbx
        · rw [Pic.edit_blocks_ne he]
          exact hone
  · intro hst' w hw
    refine ⟨hm w fun c hc b hb hbst => ?_, fun c hc b hb hbst => ?_⟩
    · have := (hl.sizes c hc b hb).2
      have := hw c hc b hb hbst
      omega
    · rcases mem_restate hbs hb with ⟨he, rfl⟩ | ⟨hb, -⟩
      · subst he
        exact hw c hc ⟨x, s, st⟩ hx hst
      · exact hw c hc b hb hbst

/-- A node is the block it is a node of, and free. -/
theorem free_of_node (hl : Spread m hd P) (ha : a ∈ P.bases)
    (hbs : P.blocks a = pre ++ ⟨x, s, st⟩ :: post) (hx : x ∈ P.lists i) : st = .free := by
  obtain ⟨c, hc, b, hb, hbx, hf⟩ := hl.nodes i x hx
  have hmem : (⟨x, s, st⟩ : Block) ∈ P.blocks a := by rw [hbs]; simp
  obtain ⟨-, rfl⟩ := hl.eq_of_ptr hc hb ha hmem hbx
  exact hf

/-- **Taking a free block into the hand.** -/
theorem detach (hl : Spread m hd P) (ha : a ∈ P.bases)
    (hbs : P.blocks a = pre ++ ⟨x, s, .free⟩ :: post) (hx : x ∈ P.lists i) :
    Spread (freelistDetach m (hd i) x).2 (Function.update hd i (freelistDetach m (hd i) x).1)
        (P.edit a (pre ++ ⟨x, s, .hand⟩ :: post)
          (Function.update P.lists i ((P.lists i).erase x))) ∧
      Moved m P (freelistDetach m (hd i) x).2 (P.edit a (pre ++ ⟨x, s, .hand⟩ :: post)
          (Function.update P.lists i ((P.lists i).erase x))) ∧
      Flagged (freelistDetach m (hd i) x).2 x s (P.size a = size2M) := by
  have hmem : (⟨x, s, .free⟩ : Block) ∈ P.blocks a := by rw [hbs]; simp
  have hm : ∀ w, (∀ c ∈ P.bases, ∀ b ∈ P.blocks c, b.st ≠ .live → w < b.ptr ∨ b.ptr + 16 ≤ w) →
      (freelistDetach m (hd i) x).2 w = m w := by
    intro w hw
    refine hl.free.detach_other hx fun y hy _ => ?_
    obtain ⟨c, hc, b, hb, rfl, hf⟩ := hl.nodes i y hy
    exact hw c hc b hb (by rw [hf]; simp)
  obtain ⟨htags, -⟩ := hl.words_kept fun w hw => hm w fun c hc b hb _ => hw c hc b hb
  obtain ⟨hh, ht⟩ := htags a ha _ hmem
  obtain ⟨h1, h2⟩ := hl.relist (j := i) ha hbs (by simp) (hl.tags a ha _ hmem).hand
    (by simp) hm (hl.free.detach hx) (fun k y => by rw [hl.free.mem_erase hx]; simp) (by simp)
  exact ⟨h1, h2 (by simp), (hl.flags a ha _ hmem (by simp)).congr hh ht⟩

/-- **Putting a block in hand on a list**, once its tags say it is free. -/
theorem put (hl : Spread m hd P) (ha : a ∈ P.bases)
    (hbs : P.blocks a = pre ++ ⟨x, s, .hand⟩ :: post) (htag : Tagged m ⟨x, s, .free⟩)
    (hflag : Flagged m x s (P.size a = size2M))
    (hj : j = listOf s ∨ (pre = [] ∧ post = [] ∧ j = 8)) :
    Spread (freelistPut m (hd j) x).2 (Function.update hd j (freelistPut m (hd j) x).1)
        (P.edit a (pre ++ ⟨x, s, .free⟩ :: post)
          (Function.update P.lists j (x :: P.lists j))) ∧
      Moved m P (freelistPut m (hd j) x).2 (P.edit a (pre ++ ⟨x, s, .free⟩ :: post)
          (Function.update P.lists j (x :: P.lists j))) ∧
      ∀ c ∈ P.bases, ∀ b ∈ P.blocks c,
        (freelistPut m (hd j) x).2.read64 (b.ptr - 8) = m.read64 (b.ptr - 8) ∧
          (freelistPut m (hd j) x).2.read64 (b.ptr + b.size) = m.read64 (b.ptr + b.size) := by
  have hmem : (⟨x, s, .hand⟩ : Block) ∈ P.blocks a := by rw [hbs]; simp
  obtain ⟨hxal, -, hxlow, hxhigh⟩ := hl.fitsOf ha hmem
  dsimp only at hxal hxlow hxhigh
  have hno : ∀ k, x ∉ P.lists k := by
    intro k hx
    exact absurd (hl.free_of_node ha hbs hx) (by simp)
  have hm : ∀ w, (∀ c ∈ P.bases, ∀ b ∈ P.blocks c, b.st ≠ .live → w < b.ptr ∨ b.ptr + 16 ≤ w) →
      (freelistPut m (hd j) x).2 w = m w := by
    intro w hw
    refine hl.free.put_other (hw a ha _ hmem (by simp)) fun y hy => ?_
    obtain ⟨c, hc, b, hb, rfl, hf⟩ := hl.nodes j y hy
    exact hw c hc b hb (by rw [hf]; simp)
  obtain ⟨h1, h2⟩ := hl.relist (j := j) ha hbs (by simp) htag (fun _ => hflag) hm
    (hl.free.put hxal (by omega) (by omega) hno j) (fun k y => by
      rw [FreeLists.mem_push]
      constructor
      · rintro (⟨hk, hy⟩ | hy)
        · exact .inl ⟨hy, rfl, hk⟩
        · exact .inr ⟨fun he => hno k (he ▸ hy), hy⟩
      · rintro (⟨hy, -, hk⟩ | ⟨-, hy⟩)
        · exact .inl ⟨hk, hy⟩
        · exact .inr hy) fun _ => hj
  exact ⟨h1, h2 (by simp), (hl.words_kept fun w hw => hm w fun c hc b hb _ => hw c hc b hb).1⟩

end Spread

/-! ## Heaps -/

/-- The nine list heads of a manager. -/
def Mman.heads (p : Mman) : Nat → Nat := Function.update p.freed 8 p.largeBlk

@[simp] theorem heads_large (p : Mman) : p.heads 8 = p.largeBlk := by simp [Mman.heads]

@[simp] theorem heads_class (p : Mman) {i : Nat} (h : i ≠ 8) : p.heads i = p.freed i := by
  simp [Mman.heads, h]

theorem heads_setLarge (p : Mman) (v : Nat) :
    Mman.heads { p with largeBlk := v } = Function.update p.heads 8 v := by
  simp [Mman.heads]

theorem heads_setFreed (p : Mman) {i : Nat} (h : i ≠ 8) (v : Nat) :
    Mman.heads { p with freed := Function.update p.freed i v } =
      Function.update p.heads i v := by
  simp [Mman.heads, Function.update_comm h]

/-- What of a manager the list operations never touch. -/
def Mman.rest (p : Mman) :
    Nat × Nat × Nat × Bool × Bool × (Nat → Nat) × List (Nat × Nat) :=
  (p.self, p.size, p.allocedSize, p.cbReqmem, p.cbDelmem, p.large, p.reqmem)

/-- The picture of a heap. -/
abbrev Spans (h : Heap Mman) (P : Pic) : Prop := Spread h.mem h.pool.heads P

/-- The manager went from one heap to another, storing to blocks that are not live only. -/
structure Steps (h : Heap Mman) (P : Pic) (h' : Heap Mman) (P' : Pic) : Prop where
  spans : Spans h' P'
  moved : Moved h.mem P h'.mem P'
  rest : h'.pool.rest = h.pool.rest
  delmem : h'.delmem = h.delmem

theorem Steps.refl {h : Heap Mman} {P : Pic} (hl : Spans h P) : Steps h P h P :=
  ⟨hl, Moved.refl _ _, rfl, rfl⟩

theorem Steps.trans {h h' h'' : Heap Mman} {P P' P'' : Pic} (s : Steps h P h' P')
    (s' : Steps h' P' h'' P'') : Steps h P h'' P'' :=
  ⟨s'.spans, s.moved.trans s'.moved, s'.rest.trans s.rest, s'.delmem.trans s.delmem⟩

theorem Steps.of_eq {h h' : Heap Mman} {P P' : Pic} {m : Mem} {hd : Nat → Nat}
    (hs : Spread m hd P') (hmv : Moved h.mem P m P') (hm : h'.mem = m) (hhd : h'.pool.heads = hd)
    (hrest : h'.pool.rest = h.pool.rest) (hdel : h'.delmem = h.delmem) : Steps h P h' P' := by
  subst hm hhd
  exact ⟨hs, hmv, hrest, hdel⟩

variable {h : Heap Mman} {P : Pic} {a x s y t : Nat} {pre post : List Block} {st : BlkState}
  {big : Prop}

/-! ## Lists -/

/-- `detach` in terms of the list its block belongs to. -/
theorem Mman.detach_eq (hs : blkSize h.mem x = s) :
    (Mman.detach h x).mem = (freelistDetach h.mem (h.pool.heads (listOf s)) x).2 ∧
      (Mman.detach h x).pool.heads = Function.update h.pool.heads (listOf s)
        (freelistDetach h.mem (h.pool.heads (listOf s)) x).1 ∧
      (Mman.detach h x).pool.rest = h.pool.rest ∧ (Mman.detach h x).delmem = h.delmem := by
  unfold Mman.detach
  rw [hs]
  by_cases hid : freelistsSize2id s < 0
  · rw [if_pos hid, listOf_large hid, heads_large]
    exact ⟨rfl, heads_setLarge _ _, rfl, rfl⟩
  · obtain ⟨hlist, hne⟩ := listOf_class hid
    rw [if_neg hid, freelistsDetach_eq, ← hlist, heads_class _ hne]
    exact ⟨rfl, heads_setFreed _ hne _, rfl, rfl⟩

/-- **`_detach` takes a free block into the hand.** -/
theorem Mman.detach_steps (hl : Spans h P) (ha : a ∈ P.bases)
    (hbs : P.blocks a = pre ++ ⟨x, s, .free⟩ :: post) (hx : x ∈ P.lists (listOf s)) :
    ∃ L', Steps h P (Mman.detach h x) (P.edit a (pre ++ ⟨x, s, .hand⟩ :: post) L') := by
  have hs : blkSize h.mem x = s := hl.blkSize_eq ha (b := ⟨x, s, .free⟩) (by rw [hbs]; simp)
  obtain ⟨hm, hhd, hrest, hdel⟩ := Mman.detach_eq hs
  obtain ⟨h1, h2, -⟩ := hl.detach ha hbs hx
  exact ⟨_, .of_eq h1 h2 hm hhd hrest hdel⟩

/-- A block in hand may change its tags. -/
theorem Spread.retag {m m' : Mem} {hd : Nat → Nat} (hl : Spread m hd P) (ha : a ∈ P.bases)
    (hbs : P.blocks a = pre ++ ⟨x, s, .hand⟩ :: post) {st' : BlkState} (hst' : st' ≠ .free)
    (htag : Tagged m' ⟨x, s, st'⟩) (hflag : st' ≠ .hand → Flagged m' x s (P.size a = size2M))
    (hm : ∀ w, w + 8 < x ∨ x + s + 8 ≤ w → m' w = m w) :
    Spread m' hd (P.edit a (pre ++ ⟨x, s, st'⟩ :: post) P.lists) ∧
      Moved m P m' (P.edit a (pre ++ ⟨x, s, st'⟩ :: post) P.lists) := by
  have hmem : (⟨x, s, .hand⟩ : Block) ∈ P.blocks a := by rw [hbs]; simp
  have hbs' : P.blocks a = pre ++ [⟨x, s, .hand⟩] ++ post := by simpa using hbs
  have hone : ∀ st : BlkState, Tiling Block.ptr Block.len x [⟨x, s, st⟩] (x + (s + 16)) :=
    fun _ => ⟨rfl, rfl⟩
  have hm' : ∀ w, w + 8 < x ∨ x + (s + 16) ≤ w + 8 → m' w = m w := fun w hw => hm w (by omega)
  have h1 := hl.replace [⟨x, s, .hand⟩] [⟨x, s, st'⟩] ha hbs' (hone _) (by simp) (hone st')
    (by simp) (by simpa using hst') (by simpa using hl.sizes a ha _ hmem) (by simpa using htag)
    (by simpa using hflag) hm'
  have h2 : Moved m P m' (P.edit a (pre ++ [⟨x, s, st'⟩] ++ post) P.lists) :=
    Spread.replace_moved ha hbs' (hone _) (hone st') (by simp) hm'
  simp only [List.append_assoc, List.singleton_append] at h1 h2
  exact ⟨h1, h2⟩

/-- `doFree` in terms of the list its block belongs to. -/
theorem Mman.doFree_eq {m : Mem} (hm : m = blkSetfreed h.mem x (blkSize h.mem x))
    (hs : blkSize m x = s) :
    (Mman.doFree h x).mem = (freelistPut m (h.pool.heads (listOf s)) x).2 ∧
      (Mman.doFree h x).pool.heads = Function.update h.pool.heads (listOf s)
        (freelistPut m (h.pool.heads (listOf s)) x).1 ∧
      (Mman.doFree h x).pool.rest = h.pool.rest ∧ (Mman.doFree h x).delmem = h.delmem := by
  unfold Mman.doFree
  dsimp only
  rw [← hm, freelistsPut, hs]
  by_cases hid : freelistsSize2id s < 0
  · rw [if_pos hid, listOf_large hid, heads_large]
    exact ⟨rfl, heads_setLarge _ _, rfl, rfl⟩
  · obtain ⟨hlist, hne⟩ := listOf_class hid
    rw [if_neg hid, ← hlist, heads_class _ hne]
    exact ⟨rfl, heads_setFreed _ hne _, rfl, rfl⟩

/-- **`do_free` puts a block in hand on its list.** -/
theorem Mman.doFree_steps (hl : Spans h P) (ha : a ∈ P.bases)
    (hbs : P.blocks a = pre ++ ⟨x, s, .hand⟩ :: post)
    (hflag : Flagged h.mem x s (P.size a = size2M)) :
    ∃ L', Steps h P (Mman.doFree h x) (P.edit a (pre ++ ⟨x, s, .free⟩ :: post) L') ∧
      ∀ b ∈ pre ++ post,
        (Mman.doFree h x).mem.read64 (b.ptr - 8) = h.mem.read64 (b.ptr - 8) ∧
          (Mman.doFree h x).mem.read64 (b.ptr + b.size) = h.mem.read64 (b.ptr + b.size) := by
  have hmem : (⟨x, s, .hand⟩ : Block) ∈ P.blocks a := by rw [hbs]; simp
  have hf : Fits x s := hl.fitsOf (b := ⟨x, s, .hand⟩) ha hmem
  have hs : blkSize h.mem x = s := hl.blkSize_eq (b := ⟨x, s, .hand⟩) ha hmem
  have htag := blkSetfreed_tagged hf (hl.tags a ha _ hmem)
  obtain ⟨h1, m1⟩ := hl.retag ha hbs (by simp : BlkState.hand ≠ .free)
    htag.hand (by simp) (flagWrites_other hf _ _ _)
  have hs1 : blkSize (blkSetfreed h.mem x s) x = s :=
    h1.blkSize_eq (b := ⟨x, s, .hand⟩) ha (by simp)
  obtain ⟨h2, m2, k2⟩ := h1.put (j := listOf s) ha (Pic.edit_blocks _ _) htag
    (blkSetfreed_flagged hf hflag) (.inl rfl)
  rw [Pic.edit_edit] at h2 m2
  obtain ⟨hm, hhd, hrest, hdel⟩ := Mman.doFree_eq (h := h) (m := blkSetfreed h.mem x s)
    (by rw [hs]) hs1
  refine ⟨_, .of_eq h2 (m1.trans m2) hm hhd hrest hdel, fun b hb => ?_⟩
  have hb' : b ∈ (P.edit a (pre ++ ⟨x, s, .hand⟩ :: post) P.lists).blocks a := by
    rw [Pic.edit_blocks]
    rcases List.mem_append.mp hb with hb | hb <;> simp [hb]
  obtain ⟨hh, ht⟩ := k2 a ha b hb'
  have hne := hl.ptr_ne ha hbs hb
  have hlow := (h1.fitsOf ha hb').low
  have hsz := (h1.sizes a ha b hb').2
  rw [hm, hh, ht]
  -- the other blocks lie outside the one whose tags are written
  rcases h1.apart ha hb' ha (d := ⟨x, s, .hand⟩) (by simp) with ⟨-, rfl⟩ | he | he
  · exact absurd rfl hne
  · dsimp only at he
    exact ⟨Mem.read64_congr fun w _ _ => flagWrites_other hf _ _ _ w (by omega),
      Mem.read64_congr fun w _ _ => flagWrites_other hf _ _ _ w (by omega)⟩
  · dsimp only at he
    exact ⟨Mem.read64_congr fun w _ _ => flagWrites_other hf _ _ _ w (by omega),
      Mem.read64_congr fun w _ _ => flagWrites_other hf _ _ _ w (by omega)⟩

/-! ## Splitting -/

theorem Flagged.of_iff {m : Mem} {p s : Nat} {big' : Prop} (h : Flagged m p s big)
    (hiff : big ↔ big') : Flagged m p s big' :=
  ⟨h.head.trans hiff, h.tail.trans hiff⟩

/-- Both parts of a block carry the flag it had. -/
theorem blkSplit_flagged {m : Mem} {size : Nat} (hf : Fits x s) (hs : blkSize m x = s)
    (h16 : size % 16 = 0) (hsz : size + 16 ≤ s) (hflag : Flagged m x s big) :
    Flagged (blkSplit m x size).2 x size big ∧
      Flagged (blkSplit m x size).2 (x + size + 16) (s - size - 16) big := by
  obtain ⟨h1, h2, h3, h4⟩ := hf
  have hoff : addW size 16 = size + 16 := addW_of_lt (by omega)
  have hrem : subW s (size + 16) = s - size - 16 := by
    rw [subW_of_le (by omega) (by omega)]; omega
  have hadd : addW x (size + 16) = x + size + 16 := by
    rw [addW_of_lt (by omega)]; omega
  have hf1 : Fits x size := ⟨h1, h16, h3, by omega⟩
  have hf2 : Fits (x + size + 16) (s - size - 16) := ⟨by omega, by omega, by omega, by omega⟩
  have keep : ∀ {m : Mem} {b : Prop} (v w : Nat), Flagged m x size b →
      Flagged ((m.write64 (subW (x + size + 16) 8) v).write64
        (addW (x + size + 16) (s - size - 16)) w) x size b := by
    intro m b v w ht
    exact ht.congr (Mem.read64_congr fun y _ hy => tagWrites_other hf2 m v w (.inl (by omega)))
      (Mem.read64_congr fun y _ hy => tagWrites_other hf2 m v w (.inl (by omega)))
  have hbig := hflag.is2M (by omega) (by omega)
  unfold blkSplit
  dsimp only
  rw [hs, hoff, hrem, hadd]
  by_cases h2M : blkAreaIs2M m x = true
  · rw [if_pos h2M, if_pos h2M]
    have hb : True ↔ big := by simp [hbig.mp h2M]
    exact ⟨keep _ _ (keep _ _ ((blkSetArea2M_flagged hf1 _).of_iff hb)),
      (blkSetArea2M_flagged hf2 _).of_iff hb⟩
  · rw [if_neg h2M, if_neg h2M]
    have hb : False ↔ big := ⟨False.elim, fun h => h2M (hbig.mpr h)⟩
    exact ⟨keep _ _ ((blkSetsize_flagged hf1 _).of_iff hb),
      (blkSetsize_flagged hf2 _).of_iff hb⟩

/-- **Cutting a block in hand in two.** -/
theorem blkSplit_steps {size : Nat} (hl : Spans h P) (ha : a ∈ P.bases)
    (hbs : P.blocks a = pre ++ ⟨x, s, .hand⟩ :: post)
    (h16 : size % 16 = 0) (hmin : 16 ≤ size) (hsz : size + 32 ≤ s) :
    (blkSplit h.mem x size).1 = x + size + 16 ∧
      Steps h P { h with mem := (blkSplit h.mem x size).2 }
        (P.edit a (pre ++ ⟨x, size, .hand⟩ :: ⟨x + size + 16, s - size - 16, .hand⟩ :: post)
          P.lists) := by
  have hmem : (⟨x, s, .hand⟩ : Block) ∈ P.blocks a := by rw [hbs]; simp
  have hf : Fits x s := hl.fitsOf (b := ⟨x, s, .hand⟩) ha hmem
  have hs : blkSize h.mem x = s := hl.blkSize_eq (b := ⟨x, s, .hand⟩) ha hmem
  have h16s := hf.sizeAlign
  obtain ⟨hptr, ht1, ht2, hm⟩ := blkSplit_tagged hf hs h16 (by omega) (by simp : BlkState.hand ≠ .free)
  have hbs' : P.blocks a = pre ++ [⟨x, s, .hand⟩] ++ post := by simpa using hbs
  have hone : Tiling Block.ptr Block.len x [⟨x, s, .hand⟩] (x + (s + 16)) := ⟨rfl, rfl⟩
  have htwo : Tiling Block.ptr Block.len x
      [⟨x, size, .hand⟩, ⟨x + size + 16, s - size - 16, .hand⟩] (x + (s + 16)) :=
    ⟨rfl, rfl, by show x + (size + 16) + (s - size - 16 + 16) = _; omega⟩
  have hm' : ∀ w, w + 8 < x ∨ x + (s + 16) ≤ w + 8 → (blkSplit h.mem x size).2 w = h.mem w :=
    fun w hw => hm w (by omega)
  have h1 := hl.replace _ _ ha hbs' hone (by simp) htwo (by simp) (by simp)
    (by simp only [List.mem_cons, List.not_mem_nil, or_false, forall_eq_or_imp, forall_eq]; omega)
    (by simpa using ⟨ht1, ht2.hand⟩) (by simp) hm'
  have h2 := Spread.replace_moved ha hbs' hone htwo (by simp) hm'
  simp only [List.append_assoc, List.cons_append, List.nil_append] at h1 h2
  exact ⟨hptr, h1, h2, rfl, rfl⟩

/-- **Cutting off what is not needed.** -/
theorem trySplitAndFree_steps {size : Nat} (hl : Spans h P) (ha : a ∈ P.bases)
    (hbs : P.blocks a = pre ++ ⟨x, s, .hand⟩ :: post)
    (hflag : Flagged h.mem x s (P.size a = size2M))
    (h16 : size % 16 = 0) (hmin : 16 ≤ size) (hsz : size ≤ s) :
    ∃ L', Steps h P (Mman.trySplitAndFree h x size).2
        (P.edit a (pre ++ ⟨x, splitSize s size, .hand⟩ :: (splitRest x s size ++ post)) L') ∧
      Flagged (Mman.trySplitAndFree h x size).2.mem x (splitSize s size)
        (P.size a = size2M) := by
  have hmem : (⟨x, s, .hand⟩ : Block) ∈ P.blocks a := by rw [hbs]; simp
  have hf : Fits x s := hl.fitsOf (b := ⟨x, s, .hand⟩) ha hmem
  have hs : blkSize h.mem x = s := hl.blkSize_eq (b := ⟨x, s, .hand⟩) ha hmem
  have hbd := hl.bounds ha hmem
  have hplace := (hl.place a ha).bounds
  have hfirst := P.first_le a
  have hstop : P.stop a = a + P.size a := rfl
  dsimp only at hbd
  unfold Mman.trySplitAndFree splitSize splitRest
  rw [hs, addW_of_lt (by omega)]
  by_cases hc : size + 64 ≤ s
  · rw [if_pos hc, if_pos hc, if_pos hc]
    obtain ⟨hptr, s1⟩ := blkSplit_steps hl ha hbs h16 hmin (by omega)
    obtain ⟨hflag1, hflag2⟩ := blkSplit_flagged hf hs h16 (by omega) hflag
    have hbs1 : (P.edit a (pre ++ ⟨x, size, .hand⟩ ::
        ⟨x + size + 16, s - size - 16, .hand⟩ :: post) P.lists).blocks a =
        (pre ++ [⟨x, size, .hand⟩]) ++ ⟨x + size + 16, s - size - 16, .hand⟩ :: post := by simp
    obtain ⟨L', s2, hkept⟩ := Mman.doFree_steps s1.spans ha hbs1 hflag2
    rw [Pic.edit_edit] at s2
    obtain ⟨hh, ht⟩ := hkept ⟨x, size, .hand⟩ (by simp)
    dsimp only
    rw [hptr]
    exact ⟨L', by simpa using s1.trans s2, hflag1.congr hh ht⟩
  · rw [if_neg hc, if_neg hc, if_neg hc]
    refine ⟨P.lists, ?_, hflag⟩
    rw [List.nil_append, ← hbs, Pic.edit_self]
    exact Steps.refl hl

end IonOS.Alloc
