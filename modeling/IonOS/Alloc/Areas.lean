import IonOS.Alloc.FreeLists
import IonOS.Alloc.Mman

/-!
# The areas of a manager as one picture

What `Layout` is for the one area of a pool, `Spread` is for the areas of a
manager: each area is tiled by its blocks, and the free blocks of all areas
together are on the lists. Two things are new. Every tag of a block in a 2 MiB
area carries the size flag, which `Flagged` says; a block in hand may have lost
it. And a block that nobody has taken since its area was set up is on the list of
large blocks whatever its size, but then it has the area to itself.

In a secondary area the picture starts behind the block of the pool.

As in `Layout`, a run of blocks that are on no list may be replaced by another
one (`Spread.replace`). What the stores of an operation leave alone is said once,
by `Moved`: everything outside the blocks that are not live.
-/

namespace IonOS.Alloc

open IonOS.Lib

/-! ## The size flag -/

theorem or_freeFlag_bit2 (w : Nat) : (w ||| freeFlag) / 4 % 2 = w / 4 % 2 := by
  have hor : w ||| freeFlag = w / 2 * 2 + 1 := or_one w
  omega

theorem clear_freeFlag_bit2 {w : Nat} (hw : w < 2 ^ 64) :
    (w &&& notW freeFlag) / 4 % 2 = w / 4 % 2 := by
  have hand : w &&& notW freeFlag = w / 2 * 2 := and_notW_one hw
  omega

theorem or_sizeFlag_bit2 (w : Nat) : (w ||| sizeFlag) / 4 % 2 = 1 := by
  have hdiv : (w ||| 4) / 2 ^ 2 = w / 2 ^ 2 ||| 4 / 2 ^ 2 := Nat.or_div_two_pow
  have hone : w / 2 ^ 2 ||| 4 / 2 ^ 2 = w / 2 ^ 2 / 2 * 2 + 1 := or_one _
  have hw : w ||| sizeFlag = w ||| 4 := rfl
  omega

theorem clear_sizeFlag_bit2 (w : Nat) : (w &&& notW sizeFlag) / 4 % 2 = 0 := by
  have hbit : (w &&& notW sizeFlag) &&& 2 ^ 2 = (w &&& notW sizeFlag) / 2 ^ 2 % 2 * 2 ^ 2 :=
    and_bit _ 2
  have hzero : notW sizeFlag &&& 2 ^ 2 = 0 := by decide
  rw [Nat.and_assoc, hzero, Nat.and_zero] at hbit
  omega

theorem and_sizeFlag (w : Nat) : (w &&& sizeFlag != 0) = decide (w / 4 % 2 = 1) := by
  have h : w &&& sizeFlag = w / 4 % 2 * 4 := by simpa [sizeFlag] using and_bit w 2
  rw [h]
  rcases Nat.mod_two_eq_zero_or_one (w / 4) with h0 | h0 <;> simp [h0]

/-- Both tags of the block at `p` say whether its area is a big one. -/
structure Flagged (m : Mem) (p s : Nat) (big : Prop) : Prop where
  head : m.read64 (p - 8) / 4 % 2 = 1 ↔ big
  tail : m.read64 (p + s) / 4 % 2 = 1 ↔ big

section Flags

variable {m m' : Mem} {p s : Nat} {big : Prop}

theorem Flagged.congr (h : Flagged m p s big) (hh : m'.read64 (p - 8) = m.read64 (p - 8))
    (ht : m'.read64 (p + s) = m.read64 (p + s)) : Flagged m' p s big := by
  refine ⟨?_, ?_⟩
  · rw [hh]; exact h.head
  · rw [ht]; exact h.tail

theorem Flagged.is2M (h : Flagged m p s big) (h8 : 8 ≤ p) (hp : p < 2 ^ 64) :
    blkAreaIs2M m p = true ↔ big := by
  rw [blkAreaIs2M, blkHead_eq m h8 hp, and_sizeFlag, decide_eq_true_iff]
  exact h.head

variable (hf : Fits p s)
include hf

/-- A bare size carries no flag. -/
theorem blkSetsize_flagged (m : Mem) : Flagged (blkSetsize m p s) p s False := by
  obtain ⟨h1, h2, h3, h4⟩ := hf
  rw [blkSetsize, subW_of_le (by omega) (by omega), addW_of_lt (by omega)]
  refine ⟨?_, ?_⟩
  · rw [Mem.read64_write64_ne _ _ (by omega) (by omega) (by omega),
      Mem.read64_write64_same _ _ (by omega), iff_false]
    omega
  · rw [Mem.read64_write64_same _ _ (by omega), iff_false]
    omega

theorem blkSetfreed_flagged (h : Flagged m p s big) : Flagged (blkSetfreed m p s) p s big := by
  obtain ⟨hhead, htail⟩ := tagWords_map hf m (· ||| freeFlag)
    (fun _ hw => Nat.or_lt_two_pow hw (by decide))
  refine ⟨?_, ?_⟩
  · rw [blkSetfreed, hhead, or_freeFlag_bit2]
    exact h.head
  · rw [blkSetfreed, htail, or_freeFlag_bit2]
    exact h.tail

theorem blkSetalloced_flagged (h : Flagged m p s big) :
    Flagged (blkSetalloced m p s) p s big := by
  obtain ⟨hhead, htail⟩ := tagWords_map hf m (· &&& notW freeFlag)
    (fun _ hw => Nat.lt_of_le_of_lt Nat.and_le_left hw)
  refine ⟨?_, ?_⟩
  · rw [blkSetalloced, hhead, clear_freeFlag_bit2 (Mem.read64_lt _ _)]
    exact h.head
  · rw [blkSetalloced, htail, clear_freeFlag_bit2 (Mem.read64_lt _ _)]
    exact h.tail

theorem blkSetArea2M_flagged (m : Mem) : Flagged (blkSetArea2M m p s) p s True := by
  obtain ⟨hhead, htail⟩ := tagWords_map hf m (· ||| sizeFlag)
    (fun _ hw => Nat.or_lt_two_pow hw (by decide))
  refine ⟨?_, ?_⟩
  · rw [blkSetArea2M, hhead, or_sizeFlag_bit2]
    simp
  · rw [blkSetArea2M, htail, or_sizeFlag_bit2]
    simp

theorem blkSetArea4k_flagged (m : Mem) : Flagged (blkSetArea4k m p s) p s False := by
  obtain ⟨hhead, htail⟩ := tagWords_map hf m (· &&& notW sizeFlag)
    (fun _ hw => Nat.lt_of_le_of_lt Nat.and_le_left hw)
  refine ⟨?_, ?_⟩
  · rw [blkSetArea4k, hhead, clear_sizeFlag_bit2]
    simp
  · rw [blkSetArea4k, htail, clear_sizeFlag_bit2]
    simp

end Flags

/-! ## The picture -/

/-- Where an area may lie. -/
structure Place (a size : Nat) : Prop where
  kind : size = size4k ∨ size = size2M
  align : a % size = 0
  pos : 0 < a
  fits : a + size ≤ 2 ^ 64

theorem Place.bounds {a size : Nat} (h : Place a size) :
    a % 4096 = 0 ∧ 4096 ≤ a ∧ 4096 ≤ size ∧ size ≤ 2097152 ∧ size % 4096 = 0 := by
  obtain ⟨h1, h2, h3, -⟩ := h
  unfold size4k size2M at h1
  rcases h1 with rfl | rfl <;> omega

/-- The areas of a manager by where they start, and the free lists. -/
structure Pic where
  main : Nat
  /-- The secondary areas in the order of their pools. -/
  secs : List Nat
  size : Nat → Nat
  blocks : Nat → List Block
  lists : Nat → List Nat

namespace Pic

variable {P : Pic} {a c : Nat}

def bases (P : Pic) : List Nat := P.main :: P.secs

/-- The first block, behind the pool's own block in a secondary area. -/
def first (P : Pic) (a : Nat) : Nat := if a = P.main then a + 16 else a + 64

def stop (P : Pic) (a : Nat) : Nat := a + P.size a

/-- Other blocks in one area, and other lists. -/
def edit (P : Pic) (a : Nat) (bs : List Block) (L : Nat → List Nat) : Pic :=
  { P with blocks := Function.update P.blocks a bs, lists := L }

@[simp] theorem edit_bases (bs : List Block) (L : Nat → List Nat) :
    (P.edit a bs L).bases = P.bases := rfl

@[simp] theorem edit_first (bs : List Block) (L : Nat → List Nat) :
    (P.edit a bs L).first = P.first := rfl

@[simp] theorem edit_size (bs : List Block) (L : Nat → List Nat) :
    (P.edit a bs L).size = P.size := rfl

@[simp] theorem edit_stop (bs : List Block) (L : Nat → List Nat) :
    (P.edit a bs L).stop = P.stop := rfl

@[simp] theorem edit_lists (bs : List Block) (L : Nat → List Nat) :
    (P.edit a bs L).lists = L := rfl

@[simp] theorem edit_blocks (bs : List Block) (L : Nat → List Nat) :
    (P.edit a bs L).blocks a = bs := Function.update_self ..

theorem edit_blocks_ne (h : c ≠ a) (bs : List Block) (L : Nat → List Nat) :
    (P.edit a bs L).blocks c = P.blocks c := Function.update_of_ne h ..

/-- What is true of the blocks of every area stays so if it is of the new ones. -/
theorem edit_all {Q : List Block → Prop} {l : List Nat} {bs : List Block} (L : Nat → List Nat)
    (h : ∀ c ∈ l, Q (P.blocks c)) (hbs : Q bs) : ∀ c ∈ l, Q ((P.edit a bs L).blocks c) := by
  intro c hc
  by_cases hca : c = a
  · subst hca
    rwa [edit_blocks]
  · rw [edit_blocks_ne hca]
    exact h c hc

@[simp] theorem edit_edit (bs bs' : List Block) (L L' : Nat → List Nat) :
    (P.edit a bs L).edit a bs' L' = P.edit a bs' L' := by
  simp [edit]

theorem edit_self (P : Pic) (a : Nat) : P.edit a (P.blocks a) P.lists = P := by
  simp [edit]

theorem first_le (P : Pic) (a : Nat) : a + 16 ≤ P.first a ∧ P.first a ≤ a + 64 := by
  unfold first
  split <;> omega

end Pic

/-- **The picture is right**: the blocks tile the areas and the lists hold the free ones. -/
structure Spread (m : Mem) (hd : Nat → Nat) (P : Pic) : Prop where
  place : ∀ a ∈ P.bases, Place a (P.size a)
  areas_apart : ∀ a ∈ P.bases, ∀ c ∈ P.bases, a = c ∨ P.stop a ≤ c ∨ P.stop c ≤ a
  tiling : ∀ a ∈ P.bases, Tiling Block.ptr Block.len (P.first a) (P.blocks a) (P.stop a)
  /-- Every payload is a positive multiple of two words. -/
  sizes : ∀ a ∈ P.bases, ∀ b ∈ P.blocks a, b.size % 16 = 0 ∧ 16 ≤ b.size
  tags : ∀ a ∈ P.bases, ∀ b ∈ P.blocks a, Tagged m b
  flags : ∀ a ∈ P.bases, ∀ b ∈ P.blocks a, b.st ≠ .hand →
    Flagged m b.ptr b.size (P.size a = size2M)
  /-- In front of the first block is the marker, or the tail of the pool's block. -/
  left : ∀ a ∈ P.bases, m.read64 (P.first a - 16) / 2 % 2 = 1 ∨ m.read64 (P.first a - 16) % 2 = 0
  right : ∀ a ∈ P.bases, m.read64 (P.stop a - 8) / 2 % 2 = 1
  free : FreeLists m hd P.lists
  nodes : ∀ i, ∀ x ∈ P.lists i, ∃ a ∈ P.bases, ∃ b ∈ P.blocks a, b.ptr = x ∧ b.st = .free
  /-- A free block is on the list of its size, or on the large list and alone in its area. -/
  listed : ∀ a ∈ P.bases, ∀ b ∈ P.blocks a, b.st = .free →
    b.ptr ∈ P.lists (listOf b.size) ∨ (P.blocks a = [b] ∧ b.ptr ∈ P.lists 8)

/-- The byte at `w` is in no block but live ones. -/
def Away (P : Pic) (w : Nat) : Prop :=
  ∀ a ∈ P.bases, ∀ b ∈ P.blocks a, b.st ≠ .live → w + 8 < b.ptr ∨ b.ptr + b.size + 8 ≤ w

/-- Nothing was stored outside the blocks that were not live, and no more of them are so now. -/
def Moved (m : Mem) (P : Pic) (m' : Mem) (P' : Pic) : Prop :=
  ∀ w, Away P w → m' w = m w ∧ Away P' w

theorem Moved.refl (m : Mem) (P : Pic) : Moved m P m P := fun _ hw => ⟨rfl, hw⟩

theorem Moved.trans {m m' m'' : Mem} {P P' P'' : Pic} (h : Moved m P m' P')
    (h' : Moved m' P' m'' P'') : Moved m P m'' P'' := by
  intro w hw
  obtain ⟨h1, h2⟩ := h w hw
  obtain ⟨h3, h4⟩ := h' w h2
  exact ⟨h3.trans h1, h4⟩

namespace Spread

variable {m m' : Mem} {hd : Nat → Nat} {P : Pic} {a c : Nat} {pre post : List Block} {b d : Block}

theorem fitsOf (hl : Spread m hd P) (ha : a ∈ P.bases) (hb : b ∈ P.blocks a) :
    Fits b.ptr b.size := by
  have hplace := hl.place a ha
  have hbd := (hl.tiling a ha).bounds hb
  have hfirst := P.first_le a
  have hal : P.first a % 16 = 0 := by
    have := hplace.bounds
    unfold Pic.first
    split <;> omega
  have hp := tiling_align hal (fun c hc => (hl.sizes a ha c hc).1) (hl.tiling a ha) b hb
  have hlen : b.len = b.size + 16 := rfl
  have hfit : P.stop a ≤ 2 ^ 64 := hplace.fits
  exact ⟨hp, (hl.sizes a ha b hb).1, by omega, by omega⟩

theorem bounds (hl : Spread m hd P) (ha : a ∈ P.bases) (hb : b ∈ P.blocks a) :
    P.first a ≤ b.ptr ∧ b.ptr + b.size + 16 ≤ P.stop a := (hl.tiling a ha).bounds hb

/-- Two blocks are the same or their extents, tags included, do not meet. -/
theorem apart (hl : Spread m hd P) (ha : a ∈ P.bases) (hb : b ∈ P.blocks a) (hc : c ∈ P.bases)
    (hd : d ∈ P.blocks c) :
    (a = c ∧ b = d) ∨ b.ptr + b.size + 16 ≤ d.ptr ∨ d.ptr + d.size + 16 ≤ b.ptr := by
  have hbb := hl.bounds ha hb
  have hdb := hl.bounds hc hd
  have := P.first_le a
  have := P.first_le c
  rcases hl.areas_apart a ha c hc with rfl | h | h
  · rcases (hl.tiling a ha).apart hb hd with h | h | h
    · exact .inl ⟨rfl, h⟩
    · exact .inr (.inl h)
    · exact .inr (.inr h)
  · exact .inr (.inl (by omega))
  · exact .inr (.inr (by omega))

theorem eq_of_ptr (hl : Spread m hd P) (ha : a ∈ P.bases) (hb : b ∈ P.blocks a)
    (hc : c ∈ P.bases) (hd : d ∈ P.blocks c) (h : b.ptr = d.ptr) : a = c ∧ b = d := by
  rcases hl.apart ha hb hc hd with h' | h' | h'
  · exact h'
  · omega
  · omega

theorem blkSize_eq (hl : Spread m hd P) (ha : a ∈ P.bases) (hb : b ∈ P.blocks a) :
    blkSize m b.ptr = b.size := by
  have hf := hl.fitsOf ha hb
  have := hf.low
  have := hf.high
  exact (hl.tags a ha b hb).blkSize (by omega) (by omega)

/-! ### Rewriting a run of blocks in hand -/

/-- **Local rewriting**, as `Layout.replace` does it in one area. -/
theorem replace {p q : Nat} (mid mid' : List Block) (hl : Spread m hd P) (ha : a ∈ P.bases)
    (hbs : P.blocks a = pre ++ mid ++ post)
    (hmid : Tiling Block.ptr Block.len p mid q) (hne : mid ≠ [])
    (hmid' : Tiling Block.ptr Block.len p mid' q)
    (hst : ∀ b ∈ mid, b.st ≠ .free) (hst' : ∀ b ∈ mid', b.st ≠ .free)
    (hsz : ∀ b ∈ mid', b.size % 16 = 0 ∧ 16 ≤ b.size) (htag : ∀ b ∈ mid', Tagged m' b)
    (hflag : ∀ b ∈ mid', b.st ≠ .hand → Flagged m' b.ptr b.size (P.size a = size2M))
    (hm : ∀ x, x + 8 < p ∨ q ≤ x + 8 → m' x = m x) :
    Spread m' hd (P.edit a (pre ++ mid' ++ post) P.lists) := by
  have htil := hl.tiling a ha
  rw [hbs] at htil
  obtain ⟨hpre, hpost⟩ := htil.middle hne hmid
  have hple := hpre.le
  have hqle := hpost.le
  have hpos := (hl.place a ha).bounds
  have hfirst := P.first_le a
  have hword : ∀ w, w + 16 ≤ p ∨ q ≤ w + 8 → m'.read64 w = m.read64 w := by
    intro w hw
    exact Mem.read64_congr fun x h1 h2 => hm x (by omega)
  -- a block that stays lies outside the stretch
  have hout : ∀ c ∈ P.bases, ∀ b ∈ P.blocks c, (c = a → b ∈ pre ++ post) →
      b.ptr + b.size + 16 ≤ p ∨ q ≤ b.ptr := by
    intro c hc b hb hside
    have hbb := hl.bounds hc hb
    have := P.first_le c
    rcases hl.areas_apart c hc a ha with he | he | he
    · rcases List.mem_append.mp (hside he) with hb | hb
      · exact .inl (hpre.bounds hb).2
      · exact .inr (hpost.bounds hb).1
    · exact .inl (by omega)
    · exact .inr (by omega)
  have hwords : ∀ c ∈ P.bases, ∀ b ∈ P.blocks c, (c = a → b ∈ pre ++ post) →
      m'.read64 (b.ptr - 8) = m.read64 (b.ptr - 8) ∧
        m'.read64 (b.ptr + b.size) = m.read64 (b.ptr + b.size) := by
    intro c hc b hb hside
    have hlow := (hl.fitsOf hc hb).low
    have := hout c hc b hb hside
    exact ⟨hword _ (by omega), hword _ (by omega)⟩
  -- every block of the new picture is one that stays or a new one
  have hnew : ∀ c ∈ P.bases, ∀ b ∈ (P.edit a (pre ++ mid' ++ post) P.lists).blocks c,
      (c = a ∧ b ∈ mid') ∨ (b ∈ P.blocks c ∧ (c = a → b ∈ pre ++ post)) := by
    intro c hc b hb
    by_cases he : c = a
    · subst he
      rw [Pic.edit_blocks] at hb
      simp only [List.mem_append] at hb
      rcases hb with (hb | hb) | hb
      · exact .inr ⟨by rw [hbs]; simp [hb], fun _ => by simp [hb]⟩
      · exact .inl ⟨rfl, hb⟩
      · exact .inr ⟨by rw [hbs]; simp [hb], fun _ => by simp [hb]⟩
    · rw [Pic.edit_blocks_ne he] at hb
      exact .inr ⟨hb, fun h => absurd h he⟩
  have hside : ∀ c ∈ P.bases, ∀ b ∈ P.blocks c, b.st = .free → c = a → b ∈ pre ++ post := by
    intro c hc b hb hf he
    subst he
    rw [hbs] at hb
    simp only [List.mem_append] at hb
    rcases hb with (hb | hb) | hb
    · simp [hb]
    · exact absurd hf (hst b hb)
    · simp [hb]
  refine ⟨hl.place, hl.areas_apart, ?_, ?_, ?_, ?_, ?_, ?_, ?_, ?_, ?_⟩
  · intro c hc
    by_cases he : c = a
    · subst he
      rw [Pic.edit_blocks]
      exact Tiling.append_iff.mpr ⟨q, Tiling.append_iff.mpr ⟨p, hpre, hmid'⟩, hpost⟩
    · rw [Pic.edit_blocks_ne he]
      exact hl.tiling c hc
  · intro c hc b hb
    rcases hnew c hc b hb with ⟨-, hb⟩ | ⟨hb, -⟩
    · exact hsz b hb
    · exact hl.sizes c hc b hb
  · intro c hc b hb
    rcases hnew c hc b hb with ⟨-, hb⟩ | ⟨hb, hs⟩
    · exact htag b hb
    · obtain ⟨h1, h2⟩ := hwords c hc b hb hs
      exact (hl.tags c hc b hb).congr h1 h2
  · intro c hc b hb hst
    rcases hnew c hc b hb with ⟨he, hmem⟩ | ⟨hb, hs⟩
    · subst he
      exact hflag b hmem hst
    · obtain ⟨h1, h2⟩ := hwords c hc b hb hs
      exact (hl.flags c hc b hb hst).congr h1 h2
  · intro c hc
    have := P.first_le c
    have hle := (hl.tiling c hc).le
    show m'.read64 (P.first c - 16) / 2 % 2 = 1 ∨ m'.read64 (P.first c - 16) % 2 = 0
    rw [hword (P.first c - 16)]
    · exact hl.left c hc
    · rcases hl.areas_apart c hc a ha with rfl | he | he <;> omega
  · intro c hc
    have := (hl.place c hc).bounds
    have hsize : P.stop c = c + P.size c := rfl
    show m'.read64 (P.stop c - 8) / 2 % 2 = 1
    rw [hword (P.stop c - 8)]
    · exact hl.right c hc
    · rcases hl.areas_apart c hc a ha with rfl | he | he <;> omega
  · refine hl.free.congr fun i x hx w h1 h2 => hm w ?_
    obtain ⟨c, hc, b, hb, rfl, hf⟩ := hl.nodes i x hx
    have := hout c hc b hb (hside c hc b hb hf)
    have := (hl.sizes c hc b hb).2
    omega
  · intro i x hx
    obtain ⟨c, hc, b, hb, hbx, hf⟩ := hl.nodes i x hx
    refine ⟨c, hc, b, ?_, hbx, hf⟩
    by_cases he : c = a
    · have := hside c hc b hb hf he
      subst he
      rw [Pic.edit_blocks]
      rcases List.mem_append.mp this with h | h <;> simp [h]
    · rw [Pic.edit_blocks_ne he]
      exact hb
  · intro c hc b hb hf
    rcases hnew c hc b hb with ⟨-, hb⟩ | ⟨hb, hs⟩
    · exact absurd hf (hst' b hb)
    · rcases hl.listed c hc b hb hf with h | ⟨hone, h⟩
      · exact .inl h
      · by_cases he : c = a
        · -- a block alone in its area leaves no room for the stretch
          subst he
          have hlen := congrArg List.length (hbs.symm.trans hone)
          have hpos := List.length_pos_of_mem (hs rfl)
          have hmpos := List.length_pos_of_ne_nil hne
          simp only [List.length_append, List.length_singleton] at hlen hpos
          omega
        · rw [Pic.edit_blocks_ne he]
          exact .inr ⟨hone, h⟩

end Spread

end IonOS.Alloc
