import IonOS.Arch.Shortage
import IonOS.Lib.Blocks
import IonOS.Lib.Translation

/-!
# Mapped pages as memory

What the kernel maps pages for: to have memory there. `map_range` with physical address 0 gives
each page a frame that was free, so no store to a mapped page can reach a table or another page.
The page tables lie in the same memory as the pages, and that they are left alone is what
everything rests on.
-/

namespace IonOS.Arch

open IonOS.Lib IonOS.Libs IonOS.Mm

variable {user : Bool} {root f g t : Frame} {m m' : Mem} {s s' s'' : Machine} {p : List (Fin 512)}
  {i : Fin 512} {need v w virt flags n : Nat} {b : UInt8}

/-! ## What an entry allows -/

/-- The bits `need` are set in the entry. -/
def Grants (need v : Nat) : Prop := v &&& need = need

instance (need v : Nat) : Decidable (Grants need v) := inferInstanceAs (Decidable (_ = _))

/-- Present and writable, and open to user mode. -/
def needed (user : Bool) : Nat := if user then 7 else 3

theorem Grants.or (h : Grants need v) (w : Nat) : Grants need (w ||| v) := by
  unfold Grants at h ⊢
  rw [Nat.and_or_distrib_right, h]
  apply Nat.eq_of_testBit_eq
  intro j
  rw [Nat.testBit_or, Nat.testBit_and]
  cases w.testBit j <;> cases need.testBit j <;> rfl

/-- Bits of `need` are bits of what grants it. -/
theorem Grants.bit {k : Nat} (h : Grants need v) (hk : need &&& k = k) : v &&& k = k :=
  calc v &&& k
    _ = v &&& (need &&& k) := by rw [hk]
    _ = v &&& need &&& k := (Nat.and_assoc _ _ _).symm
    _ = k := by rw [h, hk]

/-- A new table is open to everyone. -/
theorem grants_table (user : Bool) (a : Nat) : Grants (needed user) (a ||| 1 ||| 2 ||| 4) := by
  have h : Grants (needed user) (1 ||| 2 ||| 4) := by cases user <;> decide
  rw [Nat.or_assoc, Nat.or_assoc]
  exact h.or a

/-- The flags of `mm/table.hpp` are the processor's. -/
theorem grants_archFlags (h : Grants (needed user) flags) :
    Grants (needed user) (archFlags flags) ∧ flags &&& 0x1 ≠ 0 := by
  have h1 : flags &&& 0x1 = 1 := h.bit (by cases user <;> decide)
  have h2 : flags &&& 0x2 = 2 := h.bit (by cases user <;> decide)
  refine ⟨?_, by rw [h1]; decide⟩
  unfold archFlags
  rw [h1, h2, if_pos (by decide), if_pos (by decide)]
  cases user with
  | false => split <;> split <;> decide
  | true =>
      have h4 : flags &&& 0x4 = 4 := h.bit (by decide)
      rw [h4, if_pos (by decide)]
      split <;> decide

/-! ## Frames in memory -/

/-- The bytes of frame `g` are as they were. -/
def SameFrame (g : Frame) (m m' : Mem) : Prop :=
  ∀ i < pageSize, m' (physToVirt hhdmOffset (g.addr + i)) = m (physToVirt hhdmOffset (g.addr + i))

theorem SameFrame.trans {m'' : Mem} (h : SameFrame g m m') (h' : SameFrame g m' m'') :
    SameFrame g m m'' := fun i hi => (h' i hi).trans (h i hi)

theorem frameByte_eq (g : Frame) {i : Nat} (hi : i < pageSize) :
    physToVirt hhdmOffset (g.addr + i) = (g.addr + hhdmOffset) % 2 ^ 64 + i := by
  unfold physToVirt addW Frame.addr hhdmOffset pageSize at *
  omega

/-- Bytes of different frames are different bytes. -/
theorem frameByte_inj {i j : Nat} (hi : i < pageSize) (hj : j < pageSize)
    (h : physToVirt hhdmOffset (f.addr + i) = physToVirt hhdmOffset (g.addr + j)) :
    f = g ∧ i = j := by
  have hf := f.lt
  have hg := g.lt
  rw [frameByte_eq f hi, frameByte_eq g hj] at h
  unfold Frame.addr hhdmOffset pageSize at *
  exact ⟨Frame.ext' (by omega), by omega⟩

/-- The entries of a table are bytes of its frame. -/
theorem entryByte (t : Frame) (i : Fin 512) {k : Nat} (hk : k < 8) :
    8 * i.val + k < pageSize ∧ entryAddr (physToVirt hhdmOffset t.addr) i + k =
      physToVirt hhdmOffset (t.addr + (8 * i.val + k)) := by
  have hi := i.isLt
  have hlt : 8 * i.val + k < pageSize := by
    unfold pageSize
    omega
  refine ⟨hlt, ?_⟩
  rw [entryAddr_eq hhdmOffset_aligned, frameByte_eq t hlt]
  omega

/-- A write to a table leaves other frames alone. -/
theorem write_sameFrame (hne : g ≠ t) (m : Mem) (i : Fin 512) (v : Nat) :
    SameFrame g m (m.write64 (entryAddr (physToVirt hhdmOffset t.addr) i) v) := by
  intro j hj
  refine Mem.write64_other ?_
  by_contra hin
  -- a byte within the entry is a byte of the table
  obtain ⟨k, hk, hjk⟩ : ∃ k < 8, physToVirt hhdmOffset (g.addr + j) =
      entryAddr (physToVirt hhdmOffset t.addr) i + k :=
    ⟨physToVirt hhdmOffset (g.addr + j) - entryAddr (physToVirt hhdmOffset t.addr) i, by omega,
      by omega⟩
  obtain ⟨hlt, hbyte⟩ := entryByte t i hk
  exact hne (frameByte_inj hj hlt (hjk.trans hbyte)).1

theorem clear_sameFrame (hne : g ≠ t) (m : Mem) {n : Nat} (hn : n ≤ 512) :
    SameFrame g m (pageTableClear m (physToVirt hhdmOffset t.addr) n) := by
  induction n with
  | zero => exact fun _ _ => rfl
  | succ n ih => exact (ih (by omega)).trans (write_sameFrame hne _ ⟨n, by omega⟩ 0)

/-! ## What mapping leaves alone -/

/-- The upper levels let through whoever is let through at all. -/
def Open (user : Bool) (root : Frame) (m : Mem) : Prop :=
  AllEdges (edge hhdmOffset m) entryFrame root 3 (Grants (needed user))

/-- `g` is in use, but not for a table. -/
def Withheld (root : Frame) (s : Machine) (g : Frame) : Prop :=
  s.frames.get g.num = false ∧ ¬ InTree (edge hhdmOffset s.mem) entryFrame root 3 g

/-- The entries of the top-level table that are in use stay. -/
def TopStays (root : Frame) (m m' : Mem) : Prop :=
  ∀ i v, edge hhdmOffset m root i = some v → edge hhdmOffset m' root i = some v

/-- What making tables does, seen from the pages there are. -/
structure Widened (user : Bool) (root : Frame) (s s' : Machine) : Prop where
  grown : Grown root s s'
  opened : Open user root s.mem → Open user root s'.mem
  same : ∀ g, Withheld root s g → SameFrame g s.mem s'.mem
  top : TopStays root s.mem s'.mem

theorem Withheld.mono (h : Withheld root s g) (htaking : Taking s.frames s'.frames)
    (hjoined : InTree (edge hhdmOffset s'.mem) entryFrame root 3 g →
      InTree (edge hhdmOffset s.mem) entryFrame root 3 g ∨ FreeFrame s.frames g.num) :
    Withheld root s' g := by
  obtain ⟨hused, hno⟩ := h
  refine ⟨?_, ?_⟩
  · by_contra hfree
    rw [htaking.2 g.num (by simpa using hfree)] at hused
    exact absurd hused (by simp)
  · intro hin
    rcases hjoined hin with hin | hfree
    · exact hno hin
    · rw [hfree.2] at hused
      exact absurd hused (by simp)

theorem Widened.withheld (h : Widened user root s s') (hg : Withheld root s g) :
    Withheld root s' g := hg.mono h.grown.taking (h.grown.joined g)

/-- The frames withheld are so afterwards, and have the same bytes. -/
def Spares (root : Frame) (s s' : Machine) : Prop :=
  ∀ g, Withheld root s g → Withheld root s' g ∧ SameFrame g s.mem s'.mem

theorem Spares.trans (h : Spares root s s') (h' : Spares root s' s'') : Spares root s s'' := by
  intro g hg
  obtain ⟨hg', hsame⟩ := h g hg
  obtain ⟨hg'', hsame'⟩ := h' g hg'
  exact ⟨hg'', hsame.trans hsame'⟩

theorem Widened.trans (h : Widened user root s s') (h' : Widened user root s' s'') :
    Widened user root s s'' where
  grown := h.grown.trans h'.grown
  opened hu := h'.opened (h.opened hu)
  same g hg := (h.same g hg).trans (h'.same g (h.withheld hg))
  top i v hv := h'.top i v (h.top i v hv)

/-- The frame of a table that is granted was free. -/
theorem createEvents_granted {e : Nat} (hsize : s.frames.size ≤ hhdmFrames)
    (h0 : s.mem.read64 e = 0) (hask : .ask true 0 ∉ createEvents hhdmOffset s e) :
    ∃ f : Frame, ∃ b, allocFrames s.frames 1 = (f.addr, b) ∧ f.addr < 2 ^ 47 ∧
      FreeFrame s.frames f.num := by
  obtain ⟨f, hf, hlt⟩ := allocFrames_frame hsize
  refine ⟨f, _, Prod.ext hf rfl, hlt, (allocFrames_handed hsize hf fun h => hask ?_).1⟩
  have haddr : f.addr = 0 := by
    unfold Frame.addr
    rw [h, Nat.zero_mul]
  unfold createEvents
  rw [if_pos h0]
  dsimp only
  rw [hf, haddr]
  exact List.mem_cons_self

/-- The memory with the new table. -/
theorem pageTableCreate_mem {e : Nat} {b : Bitmap} (h0 : s.mem.read64 e = 0)
    (halloc : allocFrames s.frames 1 = (f.addr, b)) (hlt : f.addr < 2 ^ 47) :
    (pageTableCreate hhdmOffset s e).2.mem =
      pageTableClear (s.mem.write64 e (f.addr + 7)) (physToVirt hhdmOffset f.addr) 512 := by
  obtain ⟨hvalue, hframe, -, hv⟩ := tableEntry hlt
  have hread : offMask hhdmOffset (f.addr + 7) = f.addr := by
    rw [offMask_entry (by rw [hframe]; exact hlt), hframe]
  unfold pageTableCreate
  rw [if_pos h0, halloc]
  dsimp only
  rw [hvalue, Mem.read64_write64_same _ _ hv, hread]

/-- **A table that is granted** comes from the free frames, and opens to everyone. -/
theorem pageTableCreate_widened (user : Bool) (hr : Ready root ∅ s)
    (hsize : s.frames.size ≤ hhdmFrames) (ht : tableWalk hhdmOffset s.mem root p = some t)
    (hp : p.length < 3) (hask : .ask true 0 ∉
      createEvents hhdmOffset s (entryAddr (physToVirt hhdmOffset t.addr) i)) :
    ∃ f s', pageTableCreate hhdmOffset s (entryAddr (physToVirt hhdmOffset t.addr) i) =
        (physToVirt hhdmOffset f.addr, s') ∧ Widened user root s s' ∧
      tableWalk hhdmOffset s'.mem root (p ++ [i]) = some f := by
  obtain ⟨f, s', hcreate, hgrown, hwalk⟩ := pageTableCreate_grown hr hsize ht hp hask
  refine ⟨f, s', hcreate, ?_, hwalk⟩
  by_cases h0 : s.mem.read64 (entryAddr (physToVirt hhdmOffset t.addr) i) = 0
  · obtain ⟨f', b', halloc, hlt, hfree⟩ := createEvents_granted hsize h0 hask
    have hfresh := hr.fresh f' hfree
    have htf : t ≠ f' := fun he => hfresh ⟨p, by omega, he ▸ ht⟩
    have hnone : edge hhdmOffset s.mem t i = none := edge_eq_none.mpr h0
    obtain ⟨hvalue, hframe, -⟩ := tableEntry hlt
    obtain ⟨m, hlink, hedge⟩ := pageTableCreate_link hlt htf hnone halloc
    have hm : s'.mem = m := by rw [(Prod.mk.inj (hcreate.symm.trans hlink)).2]
    refine ⟨hgrown, fun hu => ?_, fun g hg => ?_, fun j v hv => ?_⟩
    · obtain ⟨es, hes⟩ := walk_eq_some.mp ht
      unfold Open
      rw [hm, hedge]
      refine hu.linked hr.tables.tree hes hp hnone (by rw [hframe]; exact hfresh) ?_
      rw [← hvalue]
      exact grants_table user f'.addr
    · have hgt : g ≠ t := fun he => hg.2 ⟨p, by omega, he ▸ ht⟩
      have hgf : g ≠ f' := by
        rintro rfl
        exact absurd (hg.1.symm.trans hfree.2) (by simp)
      have hmem := pageTableCreate_mem h0 halloc hlt
      rw [hcreate] at hmem
      rw [hmem]
      exact (write_sameFrame hgt _ _ _).trans (clear_sameFrame hgf _ (Nat.le_refl _))
    · -- the new edge is none of these, and the new table is not the top-level one
      have hroot : root ≠ entryFrame (f'.addr + 7) := by
        rw [hframe]
        exact fun he => hfresh ⟨[], by simp, he ▸ walk_nil⟩
      have hne : ¬ (root = t ∧ j = i) := by
        rintro ⟨rfl, rfl⟩
        rw [hnone] at hv
        exact nomatch hv
      rw [hm, hedge, link, setEdge, if_neg hne, if_neg hroot]
      exact hv
  · -- nothing was made
    obtain ⟨f', hfollow, -⟩ := pageTableCreate_follow hr.tables ht hp h0
    obtain ⟨-, rfl⟩ := Prod.mk.inj (hcreate.symm.trans hfollow)
    exact ⟨hgrown, id, fun _ _ _ _ => rfl, fun _ _ hv => hv⟩

/-- **`map` with its tables granted** writes to tables only. -/
theorem map_widened (user : Bool) (hr : Ready root ∅ s) (hsize : s.frames.size ≤ hhdmFrames)
    (hlt : f.addr < 2 ^ 47)
    (hask : .ask true 0 ∉ mapEvents hhdmOffset root.addr s virt f.addr flags) :
    (Open user root s.mem →
      Open user root (map hhdmOffset root.addr s virt f.addr flags).mem) ∧
    (∀ g, Withheld root s g →
      SameFrame g s.mem (map hhdmOffset root.addr s virt f.addr flags).mem) ∧
    TopStays root s.mem (map hhdmOffset root.addr s virt f.addr flags).mem := by
  unfold mapEvents at hask
  dsimp only at hask
  simp only [List.mem_append, not_or] at hask
  obtain ⟨⟨⟨k3, k2⟩, k1⟩, -⟩ := hask
  obtain ⟨f3, s3, e3, g3, w3⟩ := pageTableCreate_widened (i := l4 virt) user hr hsize walk_nil
    (by decide) k3
  have e3' : pageTableCreate hhdmOffset s
      (entryAddr (physToVirt hhdmOffset root.addr) (l4Index virt)) = _ := e3
  rw [e3'] at k2 k1
  obtain ⟨f2, s2, e2, g2, w2⟩ := pageTableCreate_widened (i := l3 virt) user g3.grown.ready
    (g3.grown.taking.1.trans_le hsize) w3 (by simp) k2
  have e2' : pageTableCreate hhdmOffset s3
      (entryAddr (physToVirt hhdmOffset f3.addr) (l3Index virt)) = _ := e2
  rw [e2'] at k1
  obtain ⟨f1, s1, e1, g1, w1⟩ := pageTableCreate_widened (i := l2 virt) user g2.grown.ready
    (g2.grown.taking.1.trans_le (g3.grown.taking.1.trans_le hsize)) w2 (by simp) k1
  have hw := (g3.trans g2).trans g1
  obtain ⟨hvalue, hvlt, -⟩ := leafValue_spec hlt flags
  rw [map_write f.addr flags e3 e2 e1, hvalue]
  refine ⟨fun hu => ?_, fun g hg => ?_, fun j v hv => ?_⟩
  · unfold Open
    dsimp only
    rw [edge_write hhdmOffset_aligned _ f1 (l1 virt) hvlt]
    exact (hw.opened hu).below hw.grown.ready.tables.tree w1 rfl
  · have hne : g ≠ f1 := fun he => (hw.withheld hg).2 ⟨_, by simp, he ▸ w1⟩
    exact (hw.same g hg).trans (write_sameFrame hne _ _ _)
  · -- the last level is not the first
    have hne : root ≠ f1 := by
      rintro rfl
      have := hw.grown.ready.tables.tree _ _ _ (by simp) (by simp) walk_nil w1
      exact absurd this (by simp)
    dsimp only
    rw [edge_write hhdmOffset_aligned _ f1 (l1 virt) hvlt, setEdge, if_neg fun he => hne he.1]
    exact hw.top j v hv

/-! ## Mapped pages -/

/-- Where the processor finds the byte at `w`, for a write. Bits 48 and up of an address repeat
bit 47 and say nothing. -/
def translate (user : Bool) (root : Frame) (m : Mem) (w : Nat) : Option Nat :=
  (pageWalk hhdmOffset m root w).bind fun x =>
    if ∀ v ∈ x.1, Grants (needed user) v then
      some (physToVirt hhdmOffset (x.2.addr + w % pageSize))
    else none

/-- The kernel with the pages it has mapped by `map_range(_, 0, _, _)`. -/
structure Space where
  machine : Machine
  pages : List Nat

/-- The pages of a range are added, the first `n` of them. -/
def addPages (virt : Nat) (pages : List Nat) : Nat → List Nat
  | 0 => pages
  | n + 1 => page (addW virt (n * pageSize)) :: addPages virt pages n

/-- A call of `map_range` with physical address 0, or a store. -/
inductive SpaceEvent where
  | mapRange (virt flags n : Nat)
  | store (w : Nat) (b : UInt8)

/-- The calls are granted the frames they ask for, and the stores are to pages mapped. -/
inductive SpaceDoes (user : Bool) (root : Frame) : Space → SpaceEvent → Space → Prop where
  | mapRange {s : Space} {virt flags n : Nat} (hflags : Grants (needed user) flags)
      (hsup : Supplied hhdmOffset root.addr s.machine virt flags n) :
      SpaceDoes user root s (.mapRange virt flags n)
        ⟨Arch.mapRange hhdmOffset root.addr s.machine virt 0 flags n, addPages virt s.pages n⟩
  | store {s : Space} {w : Nat} {b : UInt8} {m : Mem} (hw : page w ∈ s.pages)
      (hm : storeBy (translate user root) s.machine.mem w b = some m) :
      SpaceDoes user root s (.store w b) ⟨{ s.machine with mem := m }, s.pages⟩

/-- Well-formed tables, no free frame among them, and nothing mapped yet. -/
structure SpaceStart (user : Bool) (root : Frame) (s : Space) : Prop where
  tables : PageTables hhdmOffset s.machine.mem root
  size : s.machine.frames.size ≤ hhdmFrames
  fresh : ∀ f : Frame, FreeFrame s.machine.frames f.num →
    ¬ InTree (edge hhdmOffset s.machine.mem) entryFrame root 3 f
  opened : Open user root s.machine.mem
  pages : s.pages = []

/-- The page of `w` is frame `f`, in use for no table, and may be written. -/
structure Backs (user : Bool) (root : Frame) (s : Machine) (w : Nat) (f : Frame) : Prop where
  walk : ∃ es, pageWalk hhdmOffset s.mem root w = some (es, f) ∧
    ∀ v ∈ es, Grants (needed user) v
  withheld : Withheld root s f

/-- **The invariant.** -/
structure SpaceInv (user : Bool) (root : Frame) (s : Space) : Prop where
  ready : Ready root ∅ s.machine
  size : s.machine.frames.size ≤ hhdmFrames
  opened : Open user root s.machine.mem
  backed : ∀ w, page w ∈ s.pages → ∃ f, Backs user root s.machine w f
  low : ∀ pg ∈ s.pages, pg < 2 ^ 36
  /-- No frame is behind two pages. -/
  apart : ∀ w w' f, page w ∈ s.pages → page w' ∈ s.pages → Backs user root s.machine w f →
    Backs user root s.machine w' f → page w = page w'

theorem SpaceStart.inv {s : Space} (h : SpaceStart user root s) : SpaceInv user root s where
  ready := ⟨h.tables, Nat.le_trans h.size (by decide), h.fresh, by simp [missing], by simp⟩
  size := h.size
  opened := h.opened
  backed w hw := by
    rw [h.pages] at hw
    exact (List.not_mem_nil hw).elim
  low pg hpg := by
    rw [h.pages] at hpg
    exact (List.not_mem_nil hpg).elim
  apart w w' f hw := by
    rw [h.pages] at hw
    exact (List.not_mem_nil hw).elim

variable {k k' : Space}

theorem page_lt (w : Nat) : page w < 2 ^ 36 := Nat.mod_lt _ (by decide)

/-! ## One more page -/

/-- The last entry of a walk is that of the page, the others are those of tables. -/
theorem Open.upper (h : Open user root m) {es : List Nat}
    (hw : pageWalk hhdmOffset m root w = some (es ++ [v], f)) :
    ∀ u ∈ es, Grants (needed user) u := by
  have hpath : pagePath w = [l4 w, l3 w, l2 w] ++ [l1 w] := rfl
  unfold pageWalk tableRoute at hw
  rw [hpath, route_concat] at hw
  obtain ⟨x, hx, hw⟩ := Option.bind_eq_some_iff.mp hw
  obtain ⟨u, -, hu⟩ := Option.map_eq_some_iff.mp hw
  obtain ⟨rfl, -⟩ := List.append_inj' (Prod.mk.inj hu).1.symm rfl
  exact h.of_route hx (by simp)

/-- Another page's walk is what it was, and so is what is behind it. -/
theorem SpaceInv.backs_before (hi : SpaceInv user root k) (hw : page w ∈ k.pages)
    (hwalk : pageWalk hhdmOffset s.mem root w = pageWalk hhdmOffset k.machine.mem root w)
    (hb : Backs user root s w g) : Backs user root k.machine w g := by
  obtain ⟨es, hes, hall⟩ := hb.walk
  rw [hwalk] at hes
  obtain ⟨f, hf⟩ := hi.backed w hw
  obtain ⟨es', hes', -⟩ := hf.walk
  obtain ⟨-, rfl⟩ := Prod.mk.inj (Option.some.inj (hes.symm.trans hes'))
  exact ⟨⟨es, hes, hall⟩, hf.withheld⟩

/-- What mapping the pages `new` leaves, apart from them. -/
structure Added (user : Bool) (root : Frame) (k : Space) (new : Nat → Prop) (s : Machine) :
    Prop where
  walks : ∀ w, ¬ new (page w) →
    pageWalk hhdmOffset s.mem root w = pageWalk hhdmOffset k.machine.mem root w
  spares : Spares root k.machine s
  free : ∀ w g, new (page w) → Backs user root s w g → FreeFrame k.machine.frames g.num
  top : TopStays root k.machine.mem s.mem

/-- **One page of `map_range`.** Its frame was free, so it is behind no other page. -/
theorem inv_page (hi : SpaceInv user root k) (hflags : Grants (needed user) flags)
    (hf : (allocFrames k.machine.frames 1).1 = f.addr) (hlt : f.addr < 2 ^ 47) (h0 : f.num ≠ 0)
    (hask : .ask true 0 ∉ mapEvents hhdmOffset root.addr
      { k.machine with frames := (allocFrames k.machine.frames 1).2 } virt f.addr flags)
    (hs : s = map hhdmOffset root.addr
      { k.machine with frames := (allocFrames k.machine.frames 1).2 } virt f.addr flags) :
    SpaceInv user root ⟨s, page virt :: k.pages⟩ ∧ Added user root k (· = page virt) s := by
  have hsize52 : k.machine.frames.size ≤ 2 ^ 52 := Nat.le_trans hi.size (by decide)
  have htaken := (allocFrames_taking hsize52).1
  obtain ⟨hfree, hused⟩ := allocFrames_handed hi.size hf h0
  have hready : Ready root ∅ { k.machine with frames := (allocFrames k.machine.frames 1).2 } :=
    ⟨hi.ready.tables, htaken.1.trans_le hi.ready.size,
      fun g hg => hi.ready.fresh g (FreeFrame.mono htaken hg), by simp [missing], by simp⟩
  have hsize := htaken.1.trans_le hi.size
  have hmapt := map_taking hready.size hhdmOffset root.addr virt f.addr flags
  obtain ⟨hr', hjoined, ⟨es, hwalk⟩, hother⟩ := map_granted hlt hready hsize hask
  obtain ⟨hopen, hsame, htop⟩ := map_widened user hready hsize hlt hask
  rw [← hs] at hmapt hr' hjoined hwalk hother hopen hsame htop
  -- what was withheld before is so with the frame taken, and after
  have hbetween : ∀ g, Withheld root k.machine g → Withheld root
      { k.machine with frames := (allocFrames k.machine.frames 1).2 } g :=
    fun g hg => hg.mono htaken fun hin => .inl hin
  have hafter : ∀ g, Withheld root
      { k.machine with frames := (allocFrames k.machine.frames 1).2 } g → Withheld root s g :=
    fun g hg => hg.mono hmapt (hjoined g)
  have hleaf : leafValue f flags ≠ 0 := by
    intro h
    obtain ⟨-, -, hframe, -⟩ := leafValue_spec hlt flags
    rw [h] at hframe
    exact h0 (hframe ▸ rfl)
  rw [if_neg hleaf] at hwalk
  have hnew : Backs user root s virt f := by
    refine ⟨⟨_, hwalk, ?_⟩, hafter f ⟨hused, hi.ready.fresh f hfree⟩⟩
    intro v hv
    rcases List.mem_append.mp hv with hv | hv
    · exact (hopen hi.opened).upper hwalk v hv
    · obtain rfl := List.mem_singleton.mp hv
      exact (grants_archFlags hflags).1.or _
  -- the new page, wherever it is met, has this frame
  have honly : ∀ w g, page w = page virt → Backs user root s w g → g = f := by
    rintro w g hw ⟨⟨es', hes', -⟩, -⟩
    rw [pageWalk_page hw, hwalk] at hes'
    exact (Prod.mk.inj (Option.some.inj hes')).2.symm
  have hold : ∀ w, page w ∈ page virt :: k.pages → page w ≠ page virt → page w ∈ k.pages :=
    fun w hw hne => (List.mem_cons.mp hw).resolve_left hne
  have hmix : ∀ w w' g, page w = page virt → page w' ∈ page virt :: k.pages →
      page w' ≠ page virt → Backs user root s w g → ¬ Backs user root s w' g := by
    intro w w' g hw hw' hne hb hb'
    obtain rfl := honly w g hw hb
    have hbefore := hi.backs_before (hold w' hw' hne) (hother w' hne) hb'
    exact absurd (hbefore.withheld.1.symm.trans hfree.2) (by simp)
  refine ⟨⟨hr', hmapt.1.trans_le hsize, hopen hi.opened, ?_, ?_, ?_⟩, hother,
    fun g hg => ⟨hafter g (hbetween g hg), hsame g (hbetween g hg)⟩, fun w g hw hb => ?_, htop⟩
  · intro w hw
    by_cases hne : page w = page virt
    · obtain ⟨es', hes', hall⟩ := hnew.walk
      exact ⟨f, ⟨es', (pageWalk_page hne).trans hes', hall⟩, hnew.withheld⟩
    · obtain ⟨g, ⟨es', hes', hall⟩, hg⟩ := hi.backed w (hold w hw hne)
      exact ⟨g, ⟨es', (hother w hne).trans hes', hall⟩, hafter g (hbetween g hg)⟩
  · intro pg hpg
    rcases List.mem_cons.mp hpg with rfl | hpg
    · exact page_lt virt
    · exact hi.low pg hpg
  · intro w w' g hw hw' hb hb'
    by_cases hne : page w = page virt
    · by_cases hne' : page w' = page virt
      · rw [hne, hne']
      · exact absurd hb' (hmix w w' g hne hw' hne' hb)
    · by_cases hne' : page w' = page virt
      · exact absurd hb (hmix w' w g hne' hw hne hb')
      · exact hi.apart w w' g (hold w hw hne) (hold w' hw' hne')
          (hi.backs_before (hold w hw hne) (hother w hne) hb)
          (hi.backs_before (hold w' hw' hne') (hother w' hne') hb')
  · rw [honly w g hw hb]
    exact hfree

/-! ## A whole range -/

theorem mem_addPages {pg : Nat} {ps : List Nat} :
    pg ∈ addPages virt ps n ↔ pg ∈ addPages virt [] n ∨ pg ∈ ps := by
  induction n with
  | zero => simp [addPages]
  | succ n ih => rw [addPages, addPages, List.mem_cons, List.mem_cons, ih, or_assoc]

/-- **The loop of `map_range`.** -/
theorem inv_range (hi : SpaceInv user root k) (hflags : Grants (needed user) flags)
    (hsup : Supplied hhdmOffset root.addr k.machine virt flags n)
    (hs : s = mapRange hhdmOffset root.addr k.machine virt 0 flags n) :
    SpaceInv user root ⟨s, addPages virt k.pages n⟩ ∧
      Added user root k (· ∈ addPages virt [] n) s := by
  induction n generalizing s with
  | zero =>
      subst hs
      exact ⟨hi, fun _ _ => rfl, fun g hg => ⟨hg, fun _ _ => rfl⟩,
        fun _ _ hw => (List.not_mem_nil hw).elim, fun _ _ hv => hv⟩
  | succ n ih =>
    unfold Supplied at hsup
    rw [rangeEvents_succ] at hsup
    obtain ⟨hi', hwalks, hspares, hfree, htop⟩ :=
      ih (fun table h => hsup table (List.mem_append_left _ h)) rfl
    have htaken := mapRange_taking hi.ready.size hhdmOffset root.addr virt 0 flags n
    rw [mapRange_zero_succ] at hs
    generalize mapRange hhdmOffset root.addr k.machine virt 0 flags n = before at *
    obtain ⟨f, hf, hlt⟩ := allocFrames_frame hi'.size
    dsimp only at hf
    rw [hf] at hsup hs
    have h0 : f.num ≠ 0 := by
      intro h
      have haddr : f.addr = 0 := by
        unfold Frame.addr
        rw [h, Nat.zero_mul]
      rw [haddr] at hsup
      have := (hsup false (List.mem_append_right _ List.mem_cons_self)).2
      exact (grants_archFlags hflags).2 this
    have hask : .ask true 0 ∉ mapEvents hhdmOffset root.addr
        { before with frames := (allocFrames before.frames 1).2 } (addW virt (n * pageSize)) f.addr
        flags := by
      intro h
      have := (hsup true (List.mem_append_right _ (List.mem_cons_of_mem _ h))).1
      exact absurd this (by simp)
    obtain ⟨hi'', hwalks', hspares', hfree', htop'⟩ := inv_page hi' hflags hf hlt h0 hask hs
    refine ⟨hi'', fun w hw => ?_, hspares.trans hspares', fun w g hw hb => ?_,
      fun i v hv => htop' i v (htop i v hv)⟩
    · rw [addPages, List.mem_cons, not_or] at hw
      exact (hwalks' w hw.1).trans (hwalks w hw.2)
    · by_cases hnew : page w = page (addW virt (n * pageSize))
      · exact FreeFrame.mono htaken (hfree' w g hnew hb)
      · have hold := (List.mem_cons.mp hw).resolve_left hnew
        have hin : page w ∈ addPages virt k.pages n := mem_addPages.mpr (.inl hold)
        exact hfree w g hold (hi'.backs_before hin (hwalks' w hnew) hb)

/-! ## Stores -/

/-- The addresses mapped, each once. -/
def Space.addrs (k : Space) (w : Nat) : Prop := w < 2 ^ 48 ∧ page w ∈ k.pages

/-- Where an address leads. -/
theorem SpaceInv.translate_eq (hi : SpaceInv user root k) (hw : page w ∈ k.pages) :
    ∃ f, Backs user root k.machine w f ∧ translate user root k.machine.mem w =
      some (physToVirt hhdmOffset (f.addr + w % pageSize)) := by
  obtain ⟨f, hf⟩ := hi.backed w hw
  refine ⟨f, hf, ?_⟩
  obtain ⟨es, hes, hall⟩ := hf.walk
  unfold translate
  rw [hes, Option.bind_some, if_pos hall]

theorem page_mod (w : Nat) : page (w % 2 ^ 48) = page w := by
  unfold page pageSize
  omega

theorem page_split {pg i : Nat} (hpg : pg < 2 ^ 36) (hi : i < pageSize) :
    page (pg * pageSize + i) = pg ∧ (pg * pageSize + i) % pageSize = i := by
  unfold page pageSize at *
  omega

/-- Bits 48 and up do not count. -/
theorem translate_mod (w : Nat) :
    translate user root m (w % 2 ^ 48) = translate user root m w := by
  have hoffset : w % 2 ^ 48 % pageSize = w % pageSize := Nat.mod_mod_of_dvd _ (by decide)
  unfold translate
  rw [pageWalk_page (page_mod w), hoffset]

/-- **No byte of a table is behind an address.** -/
theorem SpaceInv.edge_same (hi : SpaceInv user root k)
    (hm : ∀ a, ¬ Behind (translate user root) k.machine.mem k.addrs a → m a = k.machine.mem a)
    (ht : InTree (edge hhdmOffset k.machine.mem) entryFrame root 3 t) (i : Fin 512) :
    edge hhdmOffset m t i = edge hhdmOffset k.machine.mem t i := by
  have hentry : entry hhdmOffset m t i = entry hhdmOffset k.machine.mem t i := by
    refine Mem.read64_congr fun x h1 h2 => hm x ?_
    rintro ⟨w, ⟨-, hw⟩, htr⟩
    obtain ⟨f, hf, heq⟩ := hi.translate_eq hw
    obtain ⟨j, hj, rfl⟩ : ∃ j < 8, x = entryAddr (physToVirt hhdmOffset t.addr) i + j :=
      ⟨x - entryAddr (physToVirt hhdmOffset t.addr) i, by omega, by omega⟩
    obtain ⟨hlt, hbyte⟩ := entryByte t i hj
    rw [heq, hbyte] at htr
    obtain ⟨rfl, -⟩ := frameByte_inj (Nat.mod_lt _ (by decide)) hlt (Option.some.inj htr)
    exact hf.withheld.2 ht
  unfold edge
  rw [hentry]

/-- **The pages are a memory of their own.** -/
theorem SpaceInv.shielded (hi : SpaceInv user root k) :
    Shielded (translate user root) k.machine.mem k.addrs where
  mapped w hw := by
    obtain ⟨f, -, heq⟩ := hi.translate_eq hw.2
    exact ⟨_, heq⟩
  inj w w' a hw hw' ha ha' := by
    obtain ⟨f, hf, heq⟩ := hi.translate_eq hw.2
    obtain ⟨f', hf', heq'⟩ := hi.translate_eq hw'.2
    have hsame := Option.some.inj ((heq.symm.trans ha).trans (ha'.symm.trans heq'))
    have hmod : ∀ v, v % pageSize < pageSize := fun v => Nat.mod_lt _ (by decide)
    obtain ⟨rfl, hoffset⟩ := frameByte_inj (hmod w) (hmod w') hsame
    have hpage := hi.apart w w' f hw.2 hw'.2 hf hf'
    have hlow := hw.1
    have hlow' := hw'.1
    unfold page pageSize at *
    omega
  kept m hm v := by
    have hroute := route_agree (fun t ht i => hi.edge_same hm ht i) (q := pagePath v)
      (by simp [pagePath])
    unfold translate pageWalk tableRoute
    rw [hroute]

/-- **Where the tables are left alone, and no frame is given back**, the pages stay. -/
theorem SpaceInv.agree (hi : SpaceInv user root k) (htaking : Taking k.machine.frames s.frames)
    (hedge : ∀ t, InTree (edge hhdmOffset k.machine.mem) entryFrame root 3 t → ∀ i,
      edge hhdmOffset s.mem t i = edge hhdmOffset k.machine.mem t i) :
    SpaceInv user root ⟨s, k.pages⟩ ∧
      ∀ w, pageWalk hhdmOffset s.mem root w = pageWalk hhdmOffset k.machine.mem root w := by
  have hwalk : ∀ w, pageWalk hhdmOffset s.mem root w = pageWalk hhdmOffset k.machine.mem root w :=
    fun w => route_agree hedge (by simp [pagePath])
  have hintree : ∀ g, InTree (edge hhdmOffset s.mem) entryFrame root 3 g ↔
      InTree (edge hhdmOffset k.machine.mem) entryFrame root 3 g := fun g => inTree_agree hedge
  have htables := hi.ready.tables
  refine ⟨⟨⟨⟨htables.root_low, ?_, ?_⟩, htaking.1.trans_le hi.ready.size, ?_, by simp [missing],
    by simp⟩, htaking.1.trans_le hi.size, allEdges_agree hedge hi.opened, ?_, hi.low, ?_⟩, hwalk⟩
  · exact htables.tree.congr fun q hq => walk_agree hedge (by omega)
  · intro q t i v hq ht hv
    have ht' : tableWalk hhdmOffset k.machine.mem root q = some t :=
      (walk_agree hedge (by omega)).symm.trans ht
    rw [hedge t ⟨q, by omega, ht'⟩ i] at hv
    exact htables.upper q t i v hq ht' hv
  · intro f hf hin
    exact hi.ready.fresh f (FreeFrame.mono htaking hf) ((hintree f).mp hin)
  · intro w hw
    obtain ⟨f, ⟨es, hes, hall⟩, hf⟩ := hi.backed w hw
    exact ⟨f, ⟨es, (hwalk w).trans hes, hall⟩, hf.mono htaking fun hin => .inl ((hintree f).mp hin)⟩
  · intro w w' f hw hw' hf hf'
    exact hi.apart w w' f hw hw' (hi.backs_before hw (hwalk w) hf)
      (hi.backs_before hw' (hwalk w') hf')

/-- A store to a page writes to the cell behind one of the addresses. -/
theorem store_frame (hw : page w ∈ k.pages)
    (hm : storeBy (translate user root) k.machine.mem w b = some m) :
    ∀ a, ¬ Behind (translate user root) k.machine.mem k.addrs a → m a = k.machine.mem a := by
  obtain ⟨c, hc, rfl⟩ := storeBy_eq_some.mp hm
  intro a ha
  refine Function.update_of_ne ?_ _ _
  rintro rfl
  -- the cell is that of an address below 2 ^ 48, too
  refine ha ⟨w % 2 ^ 48, ⟨Nat.mod_lt _ (by decide), ?_⟩, ?_⟩
  · rw [page_mod]
    exact hw
  · rw [translate_mod]
    exact hc

/-- The tables are those before a store. -/
theorem inv_store (hi : SpaceInv user root k) (hw : page w ∈ k.pages)
    (hm : storeBy (translate user root) k.machine.mem w b = some m) :
    SpaceInv user root ⟨{ k.machine with mem := m }, k.pages⟩ ∧
      ∀ w', pageWalk hhdmOffset m root w' = pageWalk hhdmOffset k.machine.mem root w' := by
  have hframe := store_frame hw hm
  exact hi.agree (s := { k.machine with mem := m }) (Taking.refl _)
    fun t ht i => hi.edge_same hframe ht i

/-! ## Runs -/

/-- What is in the pages mapped, by page and place in it. -/
def pageContents (user : Bool) (root : Frame) (k : Space) : Contents Nat UInt8 := fun pg i =>
  if pg ∈ k.pages ∧ i < pageSize then
    loadBy (translate user root) k.machine.mem (pg * pageSize + i)
  else none

/-- What an event should do. A page that is mapped anew has whatever its frame had. -/
def SpaceEvent.effect : SpaceEvent → Contents Nat UInt8 → Contents Nat UInt8
  | .mapRange virt _ n, c => fun pg i => if pg ∈ addPages virt [] n then none else c pg i
  | .store w b, c => c.write (page w) (w % pageSize) b

theorem SpaceEvent.effect_mono (d : SpaceEvent) (c c' : Contents Nat UInt8)
    (h : c.Extends c') : Contents.Extends (d.effect c) (d.effect c') := by
  cases d with
  | mapRange virt flags n =>
      intro pg i v hv
      unfold effect at hv ⊢
      dsimp only at hv ⊢
      split at hv
      · exact nomatch hv
      · rename_i hpg
        rw [if_neg hpg]
        exact h pg i v hv
  | store w b => exact h.write _ _ _

theorem pageContents_eq_some {pg j : Nat} {c : UInt8} :
    pageContents user root k pg j = some c ↔ pg ∈ k.pages ∧ j < pageSize ∧
      loadBy (translate user root) k.machine.mem (pg * pageSize + j) = some c := by
  unfold pageContents
  split
  · rename_i hpg
    rw [← and_assoc]
    exact (and_iff_right hpg).symm
  · rename_i hpg
    exact iff_of_false nofun fun h => hpg ⟨h.1, h.2.1⟩

theorem inv_does {d : SpaceEvent} (hi : SpaceInv user root k) (hd : SpaceDoes user root k d k') :
    SpaceInv user root k' := by
  cases hd with
  | mapRange hflags hsup => exact (inv_range hi hflags hsup rfl).1
  | store hw hm => exact (inv_store hi hw hm).1

/-- What is known of a page stays right while other pages are mapped. -/
theorem extends_range (hi : SpaceInv user root k) (hflags : Grants (needed user) flags)
    (hsup : Supplied hhdmOffset root.addr k.machine virt flags n)
    (hs : s = mapRange hhdmOffset root.addr k.machine virt 0 flags n) :
    Contents.Extends ((SpaceEvent.mapRange virt flags n).effect (pageContents user root k))
      (pageContents user root ⟨s, addPages virt k.pages n⟩) := by
  obtain ⟨-, hwalks, hspares, -⟩ := inv_range hi hflags hsup hs
  intro pg j c hc
  unfold SpaceEvent.effect at hc
  dsimp only at hc
  split at hc
  · exact nomatch hc
  rename_i hnew
  obtain ⟨hpg, hj, hc⟩ := pageContents_eq_some.mp hc
  obtain ⟨hpage, hoffset⟩ := page_split (hi.low pg hpg) hj
  refine pageContents_eq_some.mpr ⟨mem_addPages.mpr (.inr hpg), hj, ?_⟩
  -- the walk of the page and the bytes of its frame are what they were
  obtain ⟨f, hf, heq⟩ := hi.translate_eq (w := pg * pageSize + j) (by rwa [hpage])
  have hwalk := hwalks (pg * pageSize + j) (by rwa [hpage])
  have hsame := (hspares f hf.withheld).2 j hj
  have htr : translate user root s.mem (pg * pageSize + j) =
      translate user root k.machine.mem (pg * pageSize + j) := by
    unfold translate
    rw [hwalk]
  rw [hoffset] at heq
  unfold loadBy at hc ⊢
  rw [heq, Option.map_some] at hc
  rw [htr, heq, Option.map_some, hsame]
  exact hc

/-- What is stored is known, and nothing that is known goes. -/
theorem extends_store (hi : SpaceInv user root k) (hw : page w ∈ k.pages)
    (hm : storeBy (translate user root) k.machine.mem w b = some m) :
    Contents.Extends ((SpaceEvent.store w b).effect (pageContents user root k))
      (pageContents user root ⟨{ k.machine with mem := m }, k.pages⟩) := by
  have hsh := hi.shielded
  have hstored : storeBy (translate user root) k.machine.mem (w % 2 ^ 48) b = some m := by
    unfold storeBy at hm ⊢
    rw [translate_mod]
    exact hm
  have hself : k.addrs (w % 2 ^ 48) :=
    ⟨Nat.mod_lt _ (by decide), by rw [page_mod]; exact hw⟩
  have haddr : page w * pageSize + w % pageSize = w % 2 ^ 48 := by
    unfold page pageSize
    omega
  refine Contents.Extends.update (fun pg hpg j c hc => ?_) fun j c hc => ?_
  · obtain ⟨hin, hj, hc⟩ := pageContents_eq_some.mp hc
    obtain ⟨hpage, -⟩ := page_split (hi.low pg hin) hj
    have hlow := hi.low pg hin
    have hother : k.addrs (pg * pageSize + j) := by
      refine ⟨?_, by rwa [hpage]⟩
      unfold pageSize at *
      omega
    refine pageContents_eq_some.mpr ⟨hin, hj, ?_⟩
    rw [← hc]
    refine hsh.load_other hself hother (fun he => hpg ?_) hstored
    rw [← hpage, he, page_mod]
  · by_cases hj : j = w % pageSize
    · subst hj
      rw [Function.update_self] at hc
      refine pageContents_eq_some.mpr ⟨hw, Nat.mod_lt _ (by decide), ?_⟩
      rw [haddr, ← hc]
      exact hsh.load_same hself hstored
    · rw [Function.update_of_ne hj] at hc
      obtain ⟨hin, hlt, hc⟩ := pageContents_eq_some.mp hc
      obtain ⟨hpage, hoffset⟩ := page_split (page_lt w) hlt
      have hlow := page_lt w
      have hother : k.addrs (page w * pageSize + j) := by
        refine ⟨?_, by rwa [hpage]⟩
        unfold pageSize at *
        omega
      refine pageContents_eq_some.mpr ⟨hin, hlt, ?_⟩
      rw [← hc]
      refine hsh.load_other hself hother (fun he => hj ?_) hstored
      omega

/-- **Each event does what it should.** -/
theorem extends_does {d : SpaceEvent} (hi : SpaceInv user root k)
    (hd : SpaceDoes user root k d k') :
    Contents.Extends (d.effect (pageContents user root k)) (pageContents user root k') := by
  cases hd with
  | mapRange hflags hsup => exact extends_range hi hflags hsup rfl
  | store hw hm => exact extends_store hi hw hm

/-- The pages that are not mapped in `k'` have the walks that they have in `k`. -/
def OtherWalks (root : Frame) (k k' : Space) : Prop :=
  ∀ w, page w ∉ k'.pages →
    pageWalk hhdmOffset k'.machine.mem root w = pageWalk hhdmOffset k.machine.mem root w

theorem walk_does {d : SpaceEvent} (hi : SpaceInv user root k) (hd : SpaceDoes user root k d k')
    (hw : page w ∉ k'.pages) : page w ∉ k.pages ∧
      pageWalk hhdmOffset k'.machine.mem root w = pageWalk hhdmOffset k.machine.mem root w := by
  cases hd with
  | mapRange hflags hsup =>
      rw [mem_addPages, not_or] at hw
      exact ⟨hw.2, (inv_range hi hflags hsup rfl).2.walks w hw.1⟩
  | store hin hm => exact ⟨hw, (inv_store hi hin hm).2 w⟩

/--
**Mapped pages are memory.**

Over every run of calls of `map_range` that get the frames they ask for, and of stores through the
tables to the pages mapped, in any order: each byte stored since its page was last mapped reads
back as stored last, no store to a mapped page faults, and every other page keeps its walk.
-/
theorem space_remembers {ds : List SpaceEvent} (hstart : SpaceStart user root k)
    (h : Trace (SpaceDoes user root) k ds k') :
    (ds.foldr SpaceEvent.effect .empty).Extends (pageContents user root k') ∧
      (∀ w b, page w ∈ k'.pages →
        ∃ m, storeBy (translate user root) k'.machine.mem w b = some m) ∧
      OtherWalks root k k' := by
  have hstep : ∀ k₁ d k₂, SpaceInv user root k₁ ∧ OtherWalks root k k₁ →
      SpaceDoes user root k₁ d k₂ → SpaceInv user root k₂ ∧ OtherWalks root k k₂ := by
    rintro k₁ d k₂ ⟨hi, hother⟩ hd
    refine ⟨inv_does hi hd, fun w hw => ?_⟩
    obtain ⟨hw', hwalk⟩ := walk_does hi hd hw
    exact hwalk.trans (hother w hw')
  have hkeep := h.invariant hstep ⟨hstart.inv, fun _ _ => rfl⟩
  refine ⟨?_, ?_, hkeep.2⟩
  · exact h.extends (fun _ _ _ => inv_does) hstart.inv SpaceEvent.effect_mono
      (fun _ _ _ => extends_does) (Contents.empty_extends _)
  · intro w b hw
    obtain ⟨f, -, heq⟩ := hkeep.1.translate_eq hw
    exact ⟨_, storeBy_eq_some.mpr ⟨_, heq, rfl⟩⟩

theorem bareMachine_start : SpaceStart true bareRoot ⟨bareMachine, []⟩ := by
  refine ⟨bareMachine_tables, by decide, bareMachine_fresh, ?_, rfl⟩
  intro p t i v _ _ hv
  exact absurd ((edge_zero hhdmOffset t i).symm.trans hv) (by simp)

theorem bareMachine_supplied :
    Supplied hhdmOffset bareRoot.addr bareMachine 0x400000 7 1 := by
  have hall : (rangeEvents hhdmOffset bareRoot.addr bareMachine 0x400000 7 1).all
      (fun e => match e with | .ask _ 0 => false | _ => true) = true := by decide +kernel
  intro table hask
  exact absurd (List.all_eq_true.mp hall _ hask) (by simp)

/-- One page on the bare machine, open to user mode, and a byte in it. -/
theorem space_remembers_bare : ∃ k, Trace (SpaceDoes true bareRoot) ⟨bareMachine, []⟩
    [.store 0x400005 9, .mapRange 0x400000 7 1] k ∧
      loadBy (translate true bareRoot) k.machine.mem 0x400005 = some 9 := by
  have hmap : Trace (SpaceDoes true bareRoot) ⟨bareMachine, []⟩ [.mapRange 0x400000 7 1] _ :=
    Trace.nil.cons (.mapRange (by decide) bareMachine_supplied)
  have hpage : page 0x400005 ∈ addPages 0x400000 [] 1 := by decide
  obtain ⟨m, hm⟩ := (space_remembers bareMachine_start hmap).2.1 0x400005 9 hpage
  have hrun := hmap.cons (.store hpage hm)
  have hknown := (space_remembers bareMachine_start hrun).1 0x400 5 9 (by decide)
  exact ⟨_, hrun, (pageContents_eq_some.mp hknown).2.2⟩

end IonOS.Arch
