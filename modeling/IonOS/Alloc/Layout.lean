import IonOS.Alloc.Pool
import IonOS.Lib.Tiling

/-!
# The layout of a managed area

The picture the allocator works on, and the only place where boundary tags, list
nodes and addresses meet. A block is in one of three states. `free` and `live`
are what the outside sees; `hand` is a block some operation is working on, which
is on no list and whose free flag means nothing for the moment. Every primitive
of the allocator then keeps the *same* invariant `Layout`, whole operations are
chains of primitives, and a layout without a block in hand is a consistent heap.

`Layout` speaks about a memory and the nine list heads rather than about a pool,
because nothing else of the pool matters to it.
-/

namespace IonOS.Alloc

open IonOS.Lib

/-! ## Blocks and their tags -/

/-- What a block is at the moment. -/
inductive BlkState where
  | free
  | live
  | hand
  deriving DecidableEq

/-- A block of the picture. -/
structure Block where
  ptr : Nat
  size : Nat
  st : BlkState

/-- Payload and the two tags. -/
def Block.len (b : Block) : Nat := b.size + 16

/-- A word is a possible tag of a block with this size and state. -/
structure IsTag (w size : Nat) (st : BlkState) : Prop where
  size : w / 8 * 8 = size
  area : w / 2 % 2 = 0
  free : st = .free → w % 2 = 1
  live : st = .live → w % 2 = 0

/-- Both tags of a block are in place. -/
structure Tagged (m : Mem) (b : Block) : Prop where
  head : IsTag (m.read64 (b.ptr - 8)) b.size b.st
  tail : IsTag (m.read64 (b.ptr + b.size)) b.size b.st

theorem IsTag.hand {w size : Nat} {st : BlkState} (h : IsTag w size st) : IsTag w size .hand :=
  ⟨h.size, h.area, nofun, nofun⟩

/-- A bare size is a tag with no flag set. -/
theorem IsTag.fresh {size : Nat} (h : size % 8 = 0) {st : BlkState} (hst : st ≠ .free) :
    IsTag size size st :=
  ⟨by omega, by omega, fun he => absurd he hst, fun _ => by omega⟩

theorem IsTag.setFree {w size : Nat} {st : BlkState} (h : IsTag w size st) :
    IsTag (w ||| freeFlag) size .free := by
  have hor : w ||| freeFlag = w / 2 * 2 + 1 := or_one w
  have hsize := h.size
  have harea := h.area
  rw [hor]
  exact ⟨by omega, by omega, fun _ => by omega, nofun⟩

theorem IsTag.clearFree {w size : Nat} {st : BlkState} (h : IsTag w size st) (hw : w < 2 ^ 64) :
    IsTag (w &&& notW freeFlag) size .live := by
  have hand : w &&& notW freeFlag = w / 2 * 2 := and_notW_one hw
  have hsize := h.size
  have harea := h.area
  rw [hand]
  exact ⟨by omega, by omega, nofun, fun _ => by omega⟩

/-- A change confined to bit 2 and above the size leaves a tag a tag. -/
theorem IsTag.of_fields {w w' size : Nat} {st : BlkState} (h : IsTag w size st)
    (hhi : w' / 8 = w / 8) (hlo : w' % 4 = w % 4) : IsTag w' size st := by
  have hsize := h.size
  have harea := h.area
  refine ⟨by omega, by omega, fun he => ?_, fun he => ?_⟩
  · have := h.free he; omega
  · have := h.live he; omega

theorem IsTag.setSizeFlag {w size : Nat} {st : BlkState} (h : IsTag w size st) :
    IsTag (w ||| sizeFlag) size st := by
  refine h.of_fields ?_ ?_
  · have : (w ||| 4) / 2 ^ 3 = w / 2 ^ 3 ||| 4 / 2 ^ 3 := Nat.or_div_two_pow
    simpa [sizeFlag] using this
  · have : (w ||| 4) % 2 ^ 2 = w % 2 ^ 2 ||| 4 % 2 ^ 2 := Nat.or_mod_two_pow
    simpa [sizeFlag] using this

theorem IsTag.clearSizeFlag {w size : Nat} {st : BlkState} (h : IsTag w size st)
    (hw : w < 2 ^ 64) : IsTag (w &&& notW sizeFlag) size st := by
  refine h.of_fields ?_ ?_
  · have hdiv : (w &&& notW 4) / 2 ^ 3 = w / 2 ^ 3 &&& notW 4 / 2 ^ 3 := Nat.and_div_two_pow
    have hmask : notW 4 / 2 ^ 3 = 2 ^ 61 - 1 := by decide
    rw [hmask, Nat.and_two_pow_sub_one_eq_mod, Nat.mod_eq_of_lt (by omega)] at hdiv
    simpa [sizeFlag] using hdiv
  · have hmod : (w &&& notW 4) % 2 ^ 2 = w % 2 ^ 2 &&& notW 4 % 2 ^ 2 := Nat.and_mod_two_pow
    have hmask : notW 4 % 2 ^ 2 = 2 ^ 2 - 1 := by decide
    rw [hmask, Nat.and_two_pow_sub_one_eq_mod, Nat.mod_mod] at hmod
    simpa [sizeFlag] using hmod

/-! ## Reading the tags through the code's own macros -/

theorem and_freeFlag (w : Nat) : (w &&& freeFlag != 0) = decide (w % 2 = 1) := by
  have h : w &&& freeFlag = w % 2 := Nat.and_one_is_mod w
  rw [h]
  rcases Nat.mod_two_eq_zero_or_one w with h0 | h0 <;> simp [h0]

theorem and_areaFlag (w : Nat) : (w &&& areaFlag != 0) = decide (w / 2 % 2 = 1) := by
  have h : w &&& areaFlag = w / 2 % 2 * 2 := by simpa [areaFlag] using and_bit w 1
  rw [h]
  rcases Nat.mod_two_eq_zero_or_one (w / 2) with h0 | h0 <;> simp [h0]

theorem blkHead_eq (m : Mem) {p : Nat} (h8 : 8 ≤ p) (hp : p < 2 ^ 64) :
    blkHead m p = m.read64 (p - 8) := by
  rw [blkHead, subW_of_le h8 hp]

theorem blkPrevtail_eq (m : Mem) {p : Nat} (h16 : 16 ≤ p) (hp : p < 2 ^ 64) :
    blkPrevtail m p = m.read64 (p - 16) := by
  rw [blkPrevtail, subW_of_le h16 hp]

theorem blkTail_eq (m : Mem) {p s : Nat} (h : p + s < 2 ^ 64) :
    blkTail m p s = m.read64 (p + s) := by
  rw [blkTail, addW_of_lt h]

theorem blkNexthead_eq (m : Mem) {p s : Nat} (h : p + s + 8 < 2 ^ 64) :
    blkNexthead m p s = m.read64 (p + s + 8) := by
  rw [blkNexthead, addW_of_lt (a := p) (by omega), addW_of_lt h]

theorem Tagged.blkSize {m : Mem} {b : Block} (ht : Tagged m b) (h8 : 8 ≤ b.ptr)
    (hp : b.ptr < 2 ^ 64) : blkSize m b.ptr = b.size := by
  rw [Alloc.blkSize, blkHead_eq m h8 hp, flagBits, and_notW_seven (Mem.read64_lt _ _)]
  exact ht.head.size

theorem Tagged.blkFreed {m : Mem} {b : Block} (ht : Tagged m b) (h8 : 8 ≤ b.ptr)
    (hp : b.ptr < 2 ^ 64) (hst : b.st ≠ .hand) : blkFreed m b.ptr = decide (b.st = .free) := by
  rw [Alloc.blkFreed, blkHead_eq m h8 hp, and_freeFlag]
  cases hb : b.st with
  | free => simp [ht.head.free hb]
  | live => simp [ht.head.live hb]
  | hand => exact absurd hb hst

theorem Tagged.hand {m : Mem} {p s : Nat} {st : BlkState} (h : Tagged m ⟨p, s, st⟩) :
    Tagged m ⟨p, s, .hand⟩ := ⟨h.head.hand, h.tail.hand⟩

/-- A block's tags only depend on the two tag words. -/
theorem Tagged.congr {m m' : Mem} {b : Block} (h : Tagged m b)
    (hh : m'.read64 (b.ptr - 8) = m.read64 (b.ptr - 8))
    (ht : m'.read64 (b.ptr + b.size) = m.read64 (b.ptr + b.size)) : Tagged m' b := by
  refine ⟨?_, ?_⟩
  · rw [hh]; exact h.head
  · rw [ht]; exact h.tail

/-! ## Writing the tags -/

/-- The two tag words are aligned and lie inside the address space. -/
structure Fits (p s : Nat) : Prop where
  ptrAlign : p % 16 = 0
  sizeAlign : s % 16 = 0
  low : 16 ≤ p
  high : p + s + 16 ≤ 2 ^ 64

section Writes

variable {p s : Nat} (hf : Fits p s)
include hf

theorem blkSetsize_tagged (m : Mem) {st : BlkState} (hst : st ≠ .free) :
    Tagged (blkSetsize m p s) ⟨p, s, st⟩ := by
  obtain ⟨h1, h2, h3, h4⟩ := hf
  have hfresh : IsTag s s st := IsTag.fresh (by omega) hst
  rw [blkSetsize, subW_of_le (by omega) (by omega), addW_of_lt (by omega)]
  constructor
  · show IsTag (Mem.read64 _ (p - 8)) s st
    rw [Mem.read64_write64_ne _ _ (by omega) (by omega) (by omega),
      Mem.read64_write64_same _ _ (by omega)]
    exact hfresh
  · show IsTag (Mem.read64 _ (p + s)) s st
    rw [Mem.read64_write64_same _ _ (by omega)]
    exact hfresh

/-- A function applied to both tag words, the way the flag setters do it. -/
theorem tagWords_map (m : Mem) (f : Nat → Nat) (hflt : ∀ w, w < 2 ^ 64 → f w < 2 ^ 64) :
    ((m.write64 (subW p 8) (f (blkHead m p))).write64 (addW p s)
      (f (blkTail (m.write64 (subW p 8) (f (blkHead m p))) p s))).read64 (p - 8) =
        f (m.read64 (p - 8)) ∧
    ((m.write64 (subW p 8) (f (blkHead m p))).write64 (addW p s)
      (f (blkTail (m.write64 (subW p 8) (f (blkHead m p))) p s))).read64 (p + s) =
        f (m.read64 (p + s)) := by
  obtain ⟨h1, h2, h3, h4⟩ := hf
  have hhead := hflt _ (Mem.read64_lt m (p - 8))
  have htail := hflt _ (Mem.read64_lt m (p + s))
  rw [blkHead_eq m (by omega) (by omega), blkTail_eq _ (by omega), subW_of_le (by omega) (by omega),
    addW_of_lt (by omega), Mem.read64_write64_ne _ _ (b := p + s) (by omega) (by omega) (by omega)]
  constructor
  · rw [Mem.read64_write64_ne _ _ (by omega) (by omega) (by omega),
      Mem.read64_write64_same _ _ hhead]
  · rw [Mem.read64_write64_same _ _ htail]

/-- What holds of both tag words before holds of what they are changed to. -/
theorem tagged_map {m : Mem} {st st' : BlkState} (f : Nat → Nat)
    (hflt : ∀ w, w < 2 ^ 64 → f w < 2 ^ 64)
    (ht : Tagged m ⟨p, s, st⟩) (hstep : ∀ w, w < 2 ^ 64 → IsTag w s st → IsTag (f w) s st') :
    Tagged ((m.write64 (subW p 8) (f (blkHead m p))).write64 (addW p s)
      (f (blkTail (m.write64 (subW p 8) (f (blkHead m p))) p s))) ⟨p, s, st'⟩ := by
  obtain ⟨hhead, htail⟩ := tagWords_map hf m f hflt
  constructor
  · show IsTag (Mem.read64 _ (p - 8)) s st'
    rw [hhead]
    exact hstep _ (Mem.read64_lt _ _) ht.head
  · show IsTag (Mem.read64 _ (p + s)) s st'
    rw [htail]
    exact hstep _ (Mem.read64_lt _ _) ht.tail

theorem blkSetfreed_tagged {m : Mem} {st : BlkState} (ht : Tagged m ⟨p, s, st⟩) :
    Tagged (blkSetfreed m p s) ⟨p, s, .free⟩ :=
  tagged_map hf (· ||| freeFlag) (fun _ hw => Nat.or_lt_two_pow hw (by decide)) ht
    fun _ _ h => h.setFree

theorem blkSetalloced_tagged {m : Mem} {st : BlkState} (ht : Tagged m ⟨p, s, st⟩) :
    Tagged (blkSetalloced m p s) ⟨p, s, .live⟩ :=
  tagged_map hf (· &&& notW freeFlag) (fun _ hw => Nat.lt_of_le_of_lt Nat.and_le_left hw) ht
    fun _ hw h => h.clearFree hw

theorem blkSetArea2M_tagged {m : Mem} {st : BlkState} (ht : Tagged m ⟨p, s, st⟩) :
    Tagged (blkSetArea2M m p s) ⟨p, s, st⟩ :=
  tagged_map hf (· ||| sizeFlag) (fun _ hw => Nat.or_lt_two_pow hw (by decide)) ht
    fun _ _ h => h.setSizeFlag

theorem blkSetArea4k_tagged {m : Mem} {st : BlkState} (ht : Tagged m ⟨p, s, st⟩) :
    Tagged (blkSetArea4k m p s) ⟨p, s, st⟩ :=
  tagged_map hf (· &&& notW sizeFlag) (fun _ hw => Nat.lt_of_le_of_lt Nat.and_le_left hw) ht
    fun _ hw h => h.clearSizeFlag hw

/-- Storing to both tag words leaves every byte outside the block alone. -/
theorem tagWrites_other (m : Mem) (v w : Nat) {x : Nat} (hx : x + 8 < p ∨ p + s + 8 ≤ x) :
    (m.write64 (subW p 8) v).write64 (addW p s) w x = m x := by
  obtain ⟨h1, h2, h3, h4⟩ := hf
  rw [subW_of_le (by omega) (by omega), addW_of_lt (by omega), Mem.write64_other (by omega),
    Mem.write64_other (by omega)]

end Writes

/-! ## The invariant -/

/-- The bounds of the managed area, with room left in the address space for the pool itself. -/
structure Area (a e : Nat) : Prop where
  align : a % 16 = 0
  alignEnd : e % 16 = 0
  pos : 16 ≤ a
  fits : e ≤ 2 ^ 64
  room : e - a + 48 ≤ 2 ^ 64

/-- The list a size belongs to: a class list, or list 8 for large blocks. -/
def listOf (size : Nat) : Nat :=
  if freelistsSize2id size < 0 then 8 else (freelistsSize2id size).toNat

/-- The nine list heads of a pool. -/
def listHead (p : Mpool) : Nat → Nat := Function.update p.freed 8 p.largeBlk

/-- **The layout invariant**: the blocks `bs` tile the area and the lists hold the free ones. -/
structure Layout (a e : Nat) (m : Mem) (hd : Nat → Nat) (bs : List Block) (L : Nat → List Nat) :
    Prop where
  area : Area a e
  /-- The blocks follow one another from behind the first marker up to the last one. -/
  tiling : Tiling Block.ptr Block.len (a + 16) bs e
  /-- Every payload is a positive multiple of two words. -/
  sizes : ∀ b ∈ bs, b.size % 16 = 0 ∧ 16 ≤ b.size
  tags : ∀ b ∈ bs, Tagged m b
  first : m.read64 a / 2 % 2 = 1
  last : m.read64 (e - 8) / 2 % 2 = 1
  lists : ∀ i, (linksOf m).IsList 0 (hd i) (L i)
  /-- Each list holds exactly the free blocks of its sizes. -/
  listed : ∀ i x, x ∈ L i ↔ ∃ b ∈ bs, b.ptr = x ∧ b.st = .free ∧ listOf b.size = i

/-- Blocks that follow one another from an aligned address are aligned. -/
theorem tiling_align {p q : Nat} {cs : List Block} (hp : p % 16 = 0)
    (hs : ∀ c ∈ cs, c.size % 16 = 0) (ht : Tiling Block.ptr Block.len p cs q) :
    ∀ c ∈ cs, c.ptr % 16 = 0 := by
  induction cs generalizing p with
  | nil => intro c hc; exact absurd hc (by simp)
  | cons d cs ih =>
    intro c hc
    have hd := hs d (by simp)
    rcases List.mem_cons.mp hc with rfl | hc
    · rw [ht.1]; exact hp
    · refine ih (p := p + d.len) ?_ (fun c hc => hs c (List.mem_cons_of_mem _ hc)) ht.2 c hc
      show (p + (d.size + 16)) % 16 = 0
      omega

namespace Layout

variable {a e : Nat} {m m' : Mem} {hd : Nat → Nat} {bs : List Block} {L : Nat → List Nat}

theorem fitsOf (hl : Layout a e m hd bs L) {b : Block} (hb : b ∈ bs) : Fits b.ptr b.size := by
  obtain ⟨h1, h2, h3, h4, _⟩ := hl.area
  have hbd := hl.tiling.bounds hb
  have hp := tiling_align (by omega) (fun c hc => (hl.sizes c hc).1) hl.tiling b hb
  have hlen : b.len = b.size + 16 := rfl
  exact ⟨hp, (hl.sizes b hb).1, by omega, by omega⟩

/-- Two blocks are the same or their extents, tags included, do not meet. -/
theorem apart (hl : Layout a e m hd bs L) {b c : Block} (hb : b ∈ bs) (hc : c ∈ bs) :
    b = c ∨ b.ptr + b.size + 16 ≤ c.ptr ∨ c.ptr + c.size + 16 ≤ b.ptr :=
  hl.tiling.apart hb hc

theorem eq_of_ptr (hl : Layout a e m hd bs L) {b c : Block} (hb : b ∈ bs) (hc : c ∈ bs)
    (h : b.ptr = c.ptr) : b = c :=
  hl.tiling.eq_of_start (fun b _ => by unfold Block.len; omega) hb hc h

theorem bounds (hl : Layout a e m hd bs L) {b : Block} (hb : b ∈ bs) :
    a + 16 ≤ b.ptr ∧ b.ptr + b.size + 16 ≤ e := hl.tiling.bounds hb

theorem blkSize_eq (hl : Layout a e m hd bs L) {b : Block} (hb : b ∈ bs) :
    blkSize m b.ptr = b.size := by
  have hf := hl.fitsOf hb
  have := hf.low
  have := hf.high
  exact (hl.tags b hb).blkSize (by omega) (by omega)

/-- A list node is a free block of that list's sizes. -/
theorem node (hl : Layout a e m hd bs L) {i x : Nat} (hx : x ∈ L i) :
    ∃ b ∈ bs, b.ptr = x ∧ b.st = .free ∧ listOf b.size = i := (hl.listed i x).mp hx

theorem node_align (hl : Layout a e m hd bs L) {i x : Nat} (hx : x ∈ L i) : x % 16 = 0 := by
  obtain ⟨b, hb, rfl, _⟩ := hl.node hx
  exact (hl.fitsOf hb).ptrAlign

/-- Different lists have no node in common. -/
theorem lists_disjoint (hl : Layout a e m hd bs L) {i j x : Nat} (hi : x ∈ L i) (hj : x ∈ L j) :
    i = j := by
  obtain ⟨b, hb, hbx, _, hbi⟩ := hl.node hi
  obtain ⟨c, hc, hcx, _, hcj⟩ := hl.node hj
  have : b = c := hl.eq_of_ptr hb hc (hbx.trans hcx.symm)
  subst this
  exact hbi.symm.trans hcj

/-! ### Rewriting a run of blocks in hand -/

/--
**Local rewriting.**

Blocks that are on no list may be replaced by any others that tile the same
stretch, provided the memory outside the stretch is untouched and the new tags
are in place. Splitting, merging and every flag change are instances.
-/
theorem replace {pre post : List Block} {p q : Nat} (mid mid' : List Block) (m' : Mem)
    (hl : Layout a e m hd (pre ++ mid ++ post) L)
    (hmid : Tiling Block.ptr Block.len p mid q) (hne : mid ≠ [])
    (hmid' : Tiling Block.ptr Block.len p mid' q)
    (hst : ∀ b ∈ mid, b.st ≠ .free) (hst' : ∀ b ∈ mid', b.st ≠ .free)
    (hsz : ∀ b ∈ mid', b.size % 16 = 0 ∧ 16 ≤ b.size) (htag : ∀ b ∈ mid', Tagged m' b)
    (hm : ∀ x, x + 8 < p ∨ q ≤ x + 8 → m' x = m x) :
    Layout a e m' hd (pre ++ mid' ++ post) L := by
  -- the stretch is where the tiling puts it
  obtain ⟨hpre, hpost⟩ := hl.tiling.middle hne hmid
  have hple := hpre.le
  have hqle := hpost.le
  have hout : ∀ b ∈ pre ++ post, b ∈ pre ++ mid ++ post ∧
      (b.ptr + b.size + 16 ≤ p ∨ q ≤ b.ptr) := by
    intro b hb
    rcases List.mem_append.mp hb with hb | hb
    · exact ⟨by simp [hb], .inl (hpre.bounds hb).2⟩
    · exact ⟨by simp [hb], .inr (hpost.bounds hb).1⟩
  have hword : ∀ w, w + 16 ≤ p ∨ q ≤ w + 8 → m'.read64 w = m.read64 w := by
    intro w hw
    exact Mem.read64_congr fun x h1 h2 => hm x (by omega)
  have hkeep : ∀ b ∈ pre ++ post, Tagged m' b := by
    intro b hb
    obtain ⟨hbm, hb'⟩ := hout b hb
    have hlow := (hl.fitsOf hbm).low
    exact (hl.tags b hbm).congr (hword _ (by omega)) (hword _ (by omega))
  have hfree : ∀ b : Block, b.st = .free →
      ((b ∈ pre ++ mid ++ post ↔ b ∈ pre ++ post) ∧
        (b ∈ pre ++ mid' ++ post ↔ b ∈ pre ++ post)) := by
    intro b hb
    have h1 : b ∉ mid := fun h => hst b h hb
    have h2 : b ∉ mid' := fun h => hst' b h hb
    simp [h1, h2]
  have hnode : ∀ i, ∀ x ∈ L i, x + 32 ≤ p ∨ q ≤ x := by
    intro i x hx
    obtain ⟨b, hb, rfl, hbf, _⟩ := hl.node hx
    have := (hout b ((hfree b hbf).1.mp hb)).2
    have := (hl.sizes b hb).2
    omega
  refine ⟨hl.area, Tiling.append_iff.mpr ⟨q, Tiling.append_iff.mpr ⟨p, hpre, hmid'⟩, hpost⟩,
    ?_, ?_, ?_, ?_, ?_, ?_⟩
  · intro b hb
    rcases List.mem_append.mp hb with hb | hb
    · rcases List.mem_append.mp hb with hb | hb
      · exact hl.sizes b (by simp [hb])
      · exact hsz b hb
    · exact hl.sizes b (by simp [hb])
  · intro b hb
    rcases List.mem_append.mp hb with hb | hb
    · rcases List.mem_append.mp hb with hb | hb
      · exact hkeep b (by simp [hb])
      · exact htag b hb
    · exact hkeep b (by simp [hb])
  · rw [hword a (by omega)]; exact hl.first
  · have := hl.area.pos
    rw [hword (e - 8) (by omega)]; exact hl.last
  · intro i
    refine (hl.lists i).congr ?_ ?_
    · intro x hx
      exact hword x (by have := hnode i x hx; omega)
    · intro x hx
      exact hword (x + 8) (by have := hnode i x (List.mem_of_mem_tail hx); omega)
  · intro i x
    rw [hl.listed i x]
    constructor
    · rintro ⟨b, hb, hbx, hbf, hbi⟩
      exact ⟨b, (hfree b hbf).2.mpr ((hfree b hbf).1.mp hb), hbx, hbf, hbi⟩
    · rintro ⟨b, hb, hbx, hbf, hbi⟩
      exact ⟨b, (hfree b hbf).1.mpr ((hfree b hbf).2.mp hb), hbx, hbf, hbi⟩

end Layout

/-! ## A fresh area -/

/-- The tags `allocarea_init` writes around the one block of a fresh area. -/
theorem allocareaInit_tagged {size : Nat} (hf : Fits (a + 16) (size - 32)) (h32 : 32 ≤ size)
    (hs : size < 2 ^ 64) (pdata : Nat) :
    Tagged (allocareaInit m a size pdata) ⟨a + 16, size - 32, .free⟩ := by
  obtain ⟨-, -, -, hhigh⟩ := id hf
  unfold allocareaInit
  dsimp only
  rw [addW_of_lt (a := a) (b := 16) (by omega), subW_of_le (b := 32) h32 hs]
  generalize Mem.write64 _ a _ = m1
  have hsize : Tagged (blkSetsize m1 (a + 16) (size - 32)) ⟨a + 16, size - 32, .hand⟩ :=
    blkSetsize_tagged hf m1 (by simp)
  have hfree := blkSetfreed_tagged hf hsize
  split
  · exact blkSetArea2M_tagged hf hfree
  · exact blkSetArea4k_tagged hf hfree

/-- The stores for the first block of a fresh area are its tags. -/
theorem firstBlock_other {p s w : Nat} (hf : Fits p s) (hw : w + 8 < p ∨ p + s + 8 ≤ w) (f : Nat)
    (m : Mem) :
    (if f ≠ 0 then blkSetArea2M (blkSetfreed (blkSetsize m p s) p s) p s
      else blkSetArea4k (blkSetfreed (blkSetsize m p s) p s) p s) w = m w := by
  split
  · rw [blkSetArea2M, tagWrites_other hf _ _ _ hw, blkSetfreed, tagWrites_other hf _ _ _ hw,
      blkSetsize, tagWrites_other hf _ _ _ hw]
  · rw [blkSetArea4k, tagWrites_other hf _ _ _ hw, blkSetfreed, tagWrites_other hf _ _ _ hw,
      blkSetsize, tagWrites_other hf _ _ _ hw]

/-- The stores of `allocarea_init` stay in the area. -/
theorem allocareaInit_other {pdata w : Nat} (hf : Fits (a + 16) (size - 32)) (h32 : 32 ≤ size)
    (h16 : size % 16 = 0) (hs : size < 2 ^ 64) (hw : w < a ∨ a + size ≤ w) :
    allocareaInit m a size pdata w = m w := by
  have hhigh := hf.high
  have hend : addW a (subW (size / 8) 1 * 8) = a + size - 8 := by
    rw [subW_of_le (by omega) (by omega), addW_of_lt (by omega)]
    omega
  unfold allocareaInit
  rw [addW_of_lt (a := a) (b := 16) (by omega), subW_of_le (b := 32) h32 hs, hend,
    firstBlock_other hf (by omega),
    Mem.write64_other (by omega), Mem.write64_other (by omega)]

/-- Both markers of a fresh area: the pool's address with the flags on it. -/
theorem allocareaInit_words {size pdata : Nat} (hf : Fits (a + 16) (size - 32)) (h32 : 32 ≤ size)
    (h16 : size % 16 = 0) (hs : size < 2 ^ 64) (h8 : pdata % 8 = 0) (hp : pdata < 2 ^ 64) :
    (allocareaInit m a size pdata).read64 a =
        pdata + 2 + (if size = size2M then 4 else 0) ∧
      (allocareaInit m a size pdata).read64 (a + size - 8) =
        pdata + 2 + (if size = size2M then 4 else 0) := by
  obtain ⟨halign, -, -, hhigh⟩ := id hf
  have hend : addW a (subW (size / 8) 1 * 8) = a + size - 8 := by
    rw [subW_of_le (by omega) (by omega), addW_of_lt (by omega)]; omega
  -- the stores for the block itself stay between the markers
  have hother : ∀ (f : Nat) (m : Mem) (w : Nat), w = a ∨ w = a + size - 8 →
      (if f ≠ 0 then
        blkSetArea2M (blkSetfreed (blkSetsize m (a + 16) (size - 32)) (a + 16) (size - 32))
          (a + 16) (size - 32)
        else blkSetArea4k (blkSetfreed (blkSetsize m (a + 16) (size - 32)) (a + 16) (size - 32))
          (a + 16) (size - 32)).read64 w = m.read64 w := by
    intro f m w hw
    exact Mem.read64_congr fun v h1 h2 => firstBlock_other hf (by omega) f m
  have hdata : pdata ||| areaFlag ||| (if size = size2M then sizeFlag else 0) =
      pdata + 2 + (if size = size2M then 4 else 0) := by
    rw [Nat.or_assoc, or_low (k := 3) h8 (by split <;> decide)]
    unfold areaFlag sizeFlag
    split <;> rfl
  have hlt : pdata + 2 + (if size = size2M then 4 else 0) < 2 ^ 64 := by
    split <;> omega
  unfold allocareaInit
  dsimp only
  rw [addW_of_lt (a := a) (b := 16) (by omega), subW_of_le (b := 32) h32 hs, hend, hdata,
    hother _ _ _ (.inl rfl), hother _ _ _ (.inr rfl), Mem.read64_write64_same _ _ hlt,
    Mem.read64_write64_ne _ _ (by omega) (by omega) (by omega), Mem.read64_write64_same _ _ hlt]
  exact ⟨rfl, rfl⟩

/-- Both are markers. -/
theorem allocareaInit_markers {size : Nat} (hf : Fits (a + 16) (size - 32)) (h32 : 32 ≤ size)
    (h16 : size % 16 = 0) (hs : size < 2 ^ 64) :
    (allocareaInit m a size 0).read64 a / 2 % 2 = 1 ∧
      (allocareaInit m a size 0).read64 (a + size - 8) / 2 % 2 = 1 := by
  obtain ⟨h1, h2⟩ := allocareaInit_words (m := m) hf h32 h16 hs (by decide : 0 % 8 = 0)
    (by decide)
  rw [h1, h2]
  split <;> decide

end IonOS.Alloc
