import IonOS.Arch.Shortage

/-!
# How many frames a range calls for

Whether `map_range` gets the frames it asks for is settled before it starts. A page
costs a frame, and one more for each table on its way that neither is there nor is
made for a page before it. `Spent` is what carries the loop: the tables that have been
made, and how many free frames are left.
-/

namespace IonOS.Arch

open IonOS.Lib IonOS.Libs IonOS.Mm

/-- The frames that the first `n` pages call for: one each, and one for each missing table. -/
def demand (root : Frame) (s : Machine) (virt n : Nat) : Nat :=
  n + (missing hhdmOffset s.mem root (rangePaths virt n)).card

/--
There are frames enough. Where page `i` is to be present, or needs a table that the pages
before it do not, the free frames cover it and all before it. A page that is to be present
must not be given frame 0 either, which the search finds first where it is free.
-/
def Provided (root : Frame) (s : Machine) (virt flags n : Nat) : Prop :=
  ∀ i < n, (flags &&& 0x1 ≠ 0 → 0 ∉ freeBelow s.frames hhdmFrames) ∧
    (flags &&& 0x1 ≠ 0 ∨ demand root s virt i + 1 < demand root s virt (i + 1) →
      demand root s virt (i + 1) ≤ (freeBelow s.frames hhdmFrames).card)

/-- What making the tables along `Q` and handing out `k` frames leaves. -/
structure Spent (root : Frame) (s : Machine) (Q : Finset (List (Fin 512))) (k : Nat)
    (s' : Machine) : Prop where
  ready : Ready root ∅ s'
  taking : Taking s.frames s'.frames
  tables : ∀ q, q.length ≤ 3 → (tableWalk hhdmOffset s'.mem root q = none ↔
    q ∉ Q ∧ tableWalk hhdmOffset s.mem root q = none)
  left : (freeBelow s'.frames hhdmFrames).card = (freeBelow s.frames hhdmFrames).card - k

variable {root t : Frame} {s s' s'' : Machine} {P Q : Finset (List (Fin 512))}
  {p : List (Fin 512)} {i : Fin 512} {k l virt flags n : Nat}

theorem mem_missing : p ∈ missing hhdmOffset s.mem root P ↔
    p ∈ P ∧ tableWalk hhdmOffset s.mem root p = none := Finset.mem_filter

theorem missing_mono (h : Q ⊆ P) : (missing hhdmOffset s.mem root Q).card ≤
    (missing hhdmOffset s.mem root P).card := Finset.card_le_card (Finset.filter_subset_filter _ h)

theorem missing_over (hsub : Q ⊆ P) (h : ¬ (missing hhdmOffset s.mem root Q).card ≤ n) :
    ¬ (missing hhdmOffset s.mem root P).card ≤ n := fun h' => h ((missing_mono hsub).trans h')

theorem freeBelow_taking {b b' : Bitmap} {lim : Nat} (h : Taking b b') :
    freeBelow b' lim ⊆ freeBelow b lim := by
  intro f hf
  obtain ⟨hlt, hlim, hget⟩ := mem_freeBelow.mp hf
  exact mem_freeBelow.mpr ⟨by rw [← h.1]; exact hlt, hlim, h.2 f hget⟩

namespace Spent

theorem refl (hr : Ready root ∅ s) : Spent root s ∅ 0 s :=
  ⟨hr, Taking.refl _, fun q _ => by simp, rfl⟩

theorem trans (h : Spent root s Q k s') (h' : Spent root s' P l s'') :
    Spent root s (Q ∪ P) (k + l) s'' where
  ready := h'.ready
  taking := h.taking.trans h'.taking
  tables q hq := by
    rw [h'.tables q hq, h.tables q hq, Finset.mem_union, not_or]
    exact ⟨fun ⟨hp, hq, hs⟩ => ⟨⟨hq, hp⟩, hs⟩, fun ⟨⟨hq, hp⟩, hs⟩ => ⟨hp, hq, hs⟩⟩
  left := by rw [h'.left, h.left, Nat.sub_sub]

/-- **Each missing table is paid for once.** -/
theorem missing_union (h : Spent root s Q k s') (hP : ∀ p ∈ P, p.length ≤ 3) :
    (missing hhdmOffset s.mem root (Q ∪ P)).card = (missing hhdmOffset s.mem root Q).card +
      (missing hhdmOffset s'.mem root P).card := by
  have hdisjoint : Disjoint (missing hhdmOffset s.mem root Q)
      (missing hhdmOffset s'.mem root P) := by
    refine Finset.disjoint_left.mpr fun p hq hp => ?_
    obtain ⟨hp, hnone⟩ := mem_missing.mp hp
    exact ((h.tables p (hP p hp)).mp hnone).1 (mem_missing.mp hq).1
  have hunion : missing hhdmOffset s.mem root (Q ∪ P) =
      missing hhdmOffset s.mem root Q ∪ missing hhdmOffset s'.mem root P := by
    ext p
    rw [Finset.mem_union, mem_missing, mem_missing, mem_missing, Finset.mem_union]
    by_cases hq : p ∈ Q
    · simp only [hq, true_or, true_and]
      refine ⟨.inl, fun h' => h'.elim id fun hp => ?_⟩
      exact ((h.tables p (hP p hp.1)).mp hp.2).2
    · by_cases hp : p ∈ P
      · simp [hq, hp, h.tables p (hP p hp)]
      · simp [hq, hp]
  rw [hunion, Finset.card_union_of_disjoint hdisjoint]

end Spent

/-! ## One request -/

/-- **The search finds a frame while one is free**, the lowest, so frame 0 first. -/
theorem allocFrames_ask {b : Bitmap} (hsize : b.size ≤ hhdmFrames) :
    ((allocFrames b 1).1 = 0 ↔ freeBelow b hhdmFrames = ∅ ∨ 0 ∈ freeBelow b hhdmFrames) ∧
      0 ∉ freeBelow (allocFrames b 1).2 hhdmFrames ∧
      (freeBelow (allocFrames b 1).2 hhdmFrames).card = (freeBelow b hhdmFrames).card - 1 := by
  have hlim : b.size / 8 * 8 ≤ hhdmFrames := by omega
  have hsize52 : b.size ≤ 2 ^ 52 := Nat.le_trans hsize (by decide)
  rcases allocFrames_cases hsize52 (Nat.le_refl 1) with ⟨r, hr, hfirst, he⟩ | ⟨hall, he⟩
  · -- the frame found is the lowest, so it is frame 0 if that is free
    have hmem : r ∈ freeBelow b hhdmFrames := mem_freeBelow.mpr ⟨hr, by omega, hfirst.2.1⟩
    have hzero : r = 0 ↔ 0 ∈ freeBelow b hhdmFrames := by
      refine ⟨fun h => h ▸ hmem, fun h => ?_⟩
      by_contra hne
      have := hfirst.2.2 0 (Nat.le_refl 0) (by omega)
      rw [(mem_freeBelow.mp h).2.2] at this
      exact absurd this (by simp)
    have herase : freeBelow (b.setRange r (addW r 1) false) hhdmFrames =
        (freeBelow b hhdmFrames).erase r := by
      refine freeBelow_erase (Bitmap.setRange_size _ _ _ _) fun f => ?_
      rw [addW_of_lt (by omega), Bitmap.get_setRange (by omega) (by omega)]
      by_cases h : f = r
      · rw [if_pos h, if_pos (by omega)]
      · rw [if_neg h, if_neg (by omega)]
    rw [he]
    dsimp only
    rw [herase, Finset.card_erase_of_mem hmem, (frameAddr (by omega)).2.2, hzero]
    refine ⟨⟨.inr, ?_⟩, ?_, rfl⟩
    · rintro (hempty | h)
      · rw [hempty] at hmem
        exact absurd hmem (by simp)
      · exact h
    · rw [Finset.mem_erase]
      exact fun h => h.1 (hzero.mpr h.2).symm
  · have hempty : freeBelow b hhdmFrames = ∅ := by
      refine Finset.eq_empty_of_forall_notMem fun f hf => ?_
      obtain ⟨hlt, -, hget⟩ := mem_freeBelow.mp hf
      rw [hall f hlt] at hget
      exact absurd hget (by simp)
    rw [he]
    simp [hempty]

/-- The request for a page's frame takes one frame, while there is one. -/
theorem spent_ask (hr : Ready root ∅ s) (hsize : s.frames.size ≤ hhdmFrames) :
    Spent root s ∅ 1 { s with frames := (allocFrames s.frames 1).2 } := by
  have htaking := (allocFrames_taking hr.size).1
  refine ⟨⟨hr.tables, htaking.1.trans_le hr.size, fun f hf => ?_, by simp [missing], by simp⟩,
    htaking, fun q _ => by simp, (allocFrames_ask hsize).2.2⟩
  exact hr.fresh f (FreeFrame.mono htaking hf)

/-- An empty entry's request is refused only where no frame is free. -/
theorem createEvents_ask {entry : Nat} (hsize : s.frames.size ≤ hhdmFrames)
    (h0 : 0 ∉ freeBelow s.frames hhdmFrames) (hread : s.mem.read64 entry = 0) :
    .ask true 0 ∉ createEvents hhdmOffset s entry ↔ (freeBelow s.frames hhdmFrames).Nonempty := by
  have hanswer := (allocFrames_ask hsize).1
  rw [or_iff_left h0, ← Finset.not_nonempty_iff_eq_empty] at hanswer
  unfold createEvents
  rw [if_pos hread]
  simp only [List.mem_cons, Event.ask.injEq, true_and, reduceCtorEq, List.not_mem_nil, or_false]
  rw [eq_comm, hanswer, not_not]

/-! ## One page -/

/-- **A table that is missing costs a frame**, where there is one. -/
theorem create_missing (hr : Ready root ∅ s) (hsize : s.frames.size ≤ hhdmFrames)
    (h0 : 0 ∉ freeBelow s.frames hhdmFrames) (ht : tableWalk hhdmOffset s.mem root p = some t)
    (hp : p.length < 3)
    (hread : s.mem.read64 (entryAddr (physToVirt hhdmOffset t.addr) i) = 0) :
    (missing hhdmOffset s.mem root {p ++ [i]}).card = 1 ∧
    ((freeBelow s.frames hhdmFrames).Nonempty →
      ∃ f s', pageTableCreate hhdmOffset s (entryAddr (physToVirt hhdmOffset t.addr) i) =
          (physToVirt hhdmOffset f.addr, s') ∧ Spent root s {p ++ [i]} 1 s' ∧
        tableWalk hhdmOffset s'.mem root (p ++ [i]) = some f) := by
  have hnone : edge hhdmOffset s.mem t i = none := edge_eq_none.mpr hread
  have hnew : tableWalk hhdmOffset s.mem root (p ++ [i]) = none := by
    unfold tableWalk at ht ⊢
    rw [walk_concat, ht, Option.bind_some, hnone]
    rfl
  refine ⟨?_, fun hfree => ?_⟩
  · rw [missing, Finset.filter_true_of_mem, Finset.card_singleton]
    intro q hq
    rw [Finset.mem_singleton.mp hq]
    exact hnew
  obtain ⟨es, hes⟩ := walk_eq_some.mp ht
  obtain ⟨f, m, b', hmem, -, hcreate, hedge, hbsize, hget⟩ :=
    pageTableCreate_granted hr ht hp hnone hfree
  obtain ⟨f', s', hcreate', hgrown, hwalk⟩ := pageTableCreate_grown hr hsize ht hp
    ((createEvents_ask hsize h0 hread).mpr hfree)
  obtain ⟨-, rfl⟩ := Prod.mk.inj (hcreate.symm.trans hcreate')
  have hframe : entryFrame (f.addr + 7) = f := by
    refine (tableEntry ?_).2.1
    have := (mem_freeBelow.mp hmem).2.1
    unfold hhdmFrames at this
    unfold Frame.addr pageSize
    omega
  refine ⟨f', _, hcreate', ⟨hgrown.ready, hgrown.taking, fun q hq => ?_, ?_⟩, hwalk⟩
  · -- the walks that were there stay, and one is new
    have hlink : tableWalk hhdmOffset m root q =
        if q = p ++ [i] then some (entryFrame (f.addr + 7))
        else tableWalk hhdmOffset s.mem root q := by
      unfold tableWalk
      rw [hedge]
      refine walk_link hr.tables.tree hes hp hnone ?_ (by omega)
      rw [hframe]
      exact hr.fresh f (freeFrame_of_mem hmem)
    dsimp only
    rw [hlink, Finset.mem_singleton]
    split
    · simp [*]
    · simp [*]
  · rw [freeBelow_erase hbsize hget, Finset.card_erase_of_mem hmem]

/-- One that is there costs none. -/
theorem create_there (hr : Ready root ∅ s) (ht : tableWalk hhdmOffset s.mem root p = some t)
    (hp : p.length < 3)
    (hread : s.mem.read64 (entryAddr (physToVirt hhdmOffset t.addr) i) ≠ 0) :
    (missing hhdmOffset s.mem root {p ++ [i]}).card = 0 ∧
      ∃ f, pageTableCreate hhdmOffset s (entryAddr (physToVirt hhdmOffset t.addr) i) =
          (physToVirt hhdmOffset f.addr, s) ∧ Spent root s {p ++ [i]} 0 s ∧
        tableWalk hhdmOffset s.mem root (p ++ [i]) = some f := by
  obtain ⟨f, hcreate, hf⟩ := pageTableCreate_follow hr.tables ht hp hread
  refine ⟨?_, f, hcreate, ⟨hr, Taking.refl _, fun q _ => ?_, rfl⟩, hf⟩
  · rw [missing, Finset.card_eq_zero, Finset.filter_eq_empty_iff]
    intro q hq
    rw [Finset.mem_singleton.mp hq, hf]
    simp
  · rw [Finset.mem_singleton, iff_and_self]
    intro hnone heq
    rw [heq, hf] at hnone
    exact absurd hnone (by simp)

/--
**A table costs a frame where it is missing**, and is refused where there is none: told
of a state that has paid for the tables along `Q` already.
-/
theorem Spent.create (h : Spent root s Q (missing hhdmOffset s.mem root Q).card s')
    (hsize : s.frames.size ≤ hhdmFrames) (h0 : 0 ∉ freeBelow s.frames hhdmFrames)
    (hfit : (missing hhdmOffset s.mem root Q).card ≤ (freeBelow s.frames hhdmFrames).card)
    (ht : tableWalk hhdmOffset s'.mem root p = some t) (hp : p.length < 3) :
    (.ask true 0 ∉ createEvents hhdmOffset s' (entryAddr (physToVirt hhdmOffset t.addr) i) ↔
      (missing hhdmOffset s.mem root (Q ∪ {p ++ [i]})).card ≤
        (freeBelow s.frames hhdmFrames).card) ∧
    ((missing hhdmOffset s.mem root (Q ∪ {p ++ [i]})).card ≤
        (freeBelow s.frames hhdmFrames).card →
      ∃ f s'', pageTableCreate hhdmOffset s' (entryAddr (physToVirt hhdmOffset t.addr) i) =
          (physToVirt hhdmOffset f.addr, s'') ∧
        Spent root s (Q ∪ {p ++ [i]}) (missing hhdmOffset s.mem root (Q ∪ {p ++ [i]})).card s'' ∧
        tableWalk hhdmOffset s''.mem root (p ++ [i]) = some f) := by
  have hsize' : s'.frames.size ≤ hhdmFrames := h.taking.1.trans_le hsize
  have h0' : 0 ∉ freeBelow s'.frames hhdmFrames := fun h' => h0 (freeBelow_taking h.taking h')
  have hcost := h.missing_union (P := {p ++ [i]}) fun q hq => by
    rw [Finset.mem_singleton.mp hq, List.length_append, List.length_singleton]
    omega
  rw [hcost]
  -- what the new table costs is told by the entry as the tables along `Q` have left it
  by_cases hread : s'.mem.read64 (entryAddr (physToVirt hhdmOffset t.addr) i) = 0
  · obtain ⟨hone, hmade⟩ := create_missing h.ready hsize' h0' ht hp hread
    have hfree : (freeBelow s'.frames hhdmFrames).Nonempty ↔
        (missing hhdmOffset s.mem root Q).card + 1 ≤ (freeBelow s.frames hhdmFrames).card := by
      rw [← Finset.card_pos, h.left]
      omega
    rw [hone]
    refine ⟨(createEvents_ask hsize' h0' hread).trans hfree, fun hle => ?_⟩
    obtain ⟨f, s'', hcreate, hspent, hwalk⟩ := hmade (hfree.mpr hle)
    exact ⟨f, s'', hcreate, h.trans hspent, hwalk⟩
  · obtain ⟨hzero, f, hcreate, hspent, hwalk⟩ := create_there h.ready ht hp hread
    have hevents : createEvents hhdmOffset s' (entryAddr (physToVirt hhdmOffset t.addr) i) = [] :=
      if_neg hread
    rw [hevents, hzero]
    exact ⟨by simp [hfit], fun _ => ⟨f, s', hcreate, h.trans hspent, hwalk⟩⟩

/-- Writing a last-level entry costs nothing. -/
theorem Spent.leaf {v : Nat} {es : List Nat} (h : Spent root s Q k s')
    (ht : tableRoute hhdmOffset s'.mem root p = some (es, t)) (hp : p.length = 3)
    (hv : v < 2 ^ 64) (hs : s'' = { s' with
      mem := s'.mem.write64 (entryAddr (physToVirt hhdmOffset t.addr) i) v }) :
    Spent root s Q k s'' := by
  obtain ⟨hr, hwalks, -⟩ := ready_leaf h.ready ht hp hv hs
  have hframes : s''.frames = s'.frames := by rw [hs]
  exact ⟨hr, hframes ▸ h.taking, fun q hq => by rw [hwalks q hq, h.tables q hq], hframes ▸ h.left⟩

/-- **`map`** gets its tables if and only if the free frames cover those that are missing. -/
theorem spent_map {f : Frame} (virt flags : Nat) (hlt : f.addr < 2 ^ 47) (hr : Ready root ∅ s)
    (hsize : s.frames.size ≤ hhdmFrames) (h0 : 0 ∉ freeBelow s.frames hhdmFrames) :
    (.ask true 0 ∉ mapEvents hhdmOffset root.addr s virt f.addr flags ↔
      (missing hhdmOffset s.mem root (tablePaths virt)).card ≤
        (freeBelow s.frames hhdmFrames).card) ∧
    ((missing hhdmOffset s.mem root (tablePaths virt)).card ≤
        (freeBelow s.frames hhdmFrames).card →
      Spent root s (tablePaths virt) (missing hhdmOffset s.mem root (tablePaths virt)).card
        (map hhdmOffset root.addr s virt f.addr flags)) := by
  have hpaths : tablePaths virt = ∅ ∪ {[] ++ [l4 virt]} ∪ {[l4 virt] ++ [l3 virt]} ∪
      {[l4 virt, l3 virt] ++ [l2 virt]} := by
    ext q
    simp only [tablePaths, List.nil_append, List.cons_append, Finset.empty_union,
      Finset.mem_union, Finset.mem_insert, Finset.mem_singleton, or_assoc]
  unfold mapEvents
  dsimp only
  simp only [List.mem_append, List.mem_singleton, reduceCtorEq, or_false, not_or, and_assoc]
  rw [hpaths]
  -- three requests, each of which needs the ones before it granted
  have hempty : missing hhdmOffset s.mem root ∅ = ∅ := rfl
  have hspent : Spent root s ∅ (missing hhdmOffset s.mem root ∅).card s := .refl hr
  obtain ⟨i3, g3⟩ := hspent.create (i := l4 virt) hsize h0 (by simp [hempty]) walk_nil (by decide)
  by_cases c3 : (missing hhdmOffset s.mem root (∅ ∪ {[] ++ [l4 virt]})).card ≤
      (freeBelow s.frames hhdmFrames).card
  · obtain ⟨f3, s3, e3, p3, w3⟩ := g3 c3
    have e3' : pageTableCreate hhdmOffset s
        (entryAddr (physToVirt hhdmOffset root.addr) (l4Index virt)) = _ := e3
    rw [e3']
    obtain ⟨i2, g2⟩ := p3.create (i := l3 virt) hsize h0 c3 w3 (by simp)
    by_cases c2 : (missing hhdmOffset s.mem root
        (∅ ∪ {[] ++ [l4 virt]} ∪ {[l4 virt] ++ [l3 virt]})).card ≤
          (freeBelow s.frames hhdmFrames).card
    · obtain ⟨f2, s2, e2, p2, w2⟩ := g2 c2
      have e2' : pageTableCreate hhdmOffset s3
          (entryAddr (physToVirt hhdmOffset f3.addr) (l3Index virt)) = _ := e2
      rw [e2']
      obtain ⟨i1, g1⟩ := p2.create (i := l2 virt) hsize h0 c2 w2 (by simp)
      refine ⟨⟨fun h => i1.mp h.2.2, fun h => ⟨i3.mpr c3, i2.mpr c2, i1.mpr h⟩⟩, fun c1 => ?_⟩
      obtain ⟨f1, s1, e1, p1, w1⟩ := g1 c1
      obtain ⟨es, hes⟩ := walk_eq_some.mp w1
      obtain ⟨hvalue, hvlt, -⟩ := leafValue_spec hlt flags
      have hmap := map_write f.addr flags e3 e2 e1
      rw [hvalue] at hmap
      exact p1.leaf hes rfl hvlt hmap
    · constructor
      · exact iff_of_false (fun h => c2 (i2.mp h.2.1)) (missing_over Finset.subset_union_left c2)
      · exact fun h => absurd h (missing_over Finset.subset_union_left c2)
  · have hsub : ∀ A B C : Finset (List (Fin 512)), A ⊆ A ∪ B ∪ C := fun _ _ _ =>
      Finset.subset_union_left.trans Finset.subset_union_left
    constructor
    · exact iff_of_false (fun h => c3 (i3.mp h.1)) (missing_over (hsub _ _ _) c3)
    · exact fun h => absurd h (missing_over (hsub _ _ _) c3)

/-! ## The loop -/

/-- The tables on the way to a page, where the address wraps and where it does not. -/
theorem tablePaths_addW (a b : Nat) : tablePaths (addW a b) = tablePaths (a + b) := by
  have h4 : l4 (addW a b) = l4 (a + b) := by
    simp only [l4, l4Index, nineBits, Fin.mk.injEq, addW]
    omega
  have h3 : l3 (addW a b) = l3 (a + b) := by
    simp only [l3, l3Index, nineBits, Fin.mk.injEq, addW]
    omega
  have h2 : l2 (addW a b) = l2 (a + b) := by
    simp only [l2, l2Index, nineBits, Fin.mk.injEq, addW]
    omega
  rw [tablePaths, h4, h3, h2]
  rfl

theorem tablePaths_length {v : Nat} (h : p ∈ tablePaths v) : p.length ≤ 3 := by
  simp only [tablePaths, Finset.mem_insert, Finset.mem_singleton] at h
  rcases h with rfl | rfl | rfl <;> simp

theorem rangePaths_succ (virt n : Nat) :
    rangePaths virt (n + 1) = rangePaths virt n ∪ tablePaths (virt + n * pageSize) := by
  unfold rangePaths
  rw [Finset.range_add_one, Finset.biUnion_insert, Finset.union_comm]

theorem ask_not_mem_mapEvents {off r frame phys : Nat} :
    .ask false frame ∉ mapEvents off r s virt phys flags := by
  have hcreate : ∀ (x : Machine) e, .ask false frame ∉ createEvents off x e := by
    intro x e
    unfold createEvents
    split <;> simp
  unfold mapEvents
  simp [hcreate]

/-- One more page: its frame, and the tables on its way. -/
theorem supplied_succ {off r : Nat} : Supplied off r s virt flags (n + 1) ↔
    Supplied off r s virt flags n ∧
      ((allocFrames (mapRange off r s virt 0 flags n).frames 1).1 = 0 → flags &&& 0x1 = 0) ∧
      .ask true 0 ∉ mapEvents off r { mapRange off r s virt 0 flags n with
          frames := (allocFrames (mapRange off r s virt 0 flags n).frames 1).2 }
        (addW virt (n * pageSize))
        (allocFrames (mapRange off r s virt 0 flags n).frames 1).1 flags := by
  unfold Supplied
  rw [rangeEvents_succ]
  constructor
  · intro h
    refine ⟨fun table hm => h table (List.mem_append_left _ hm), fun hzero => ?_, fun hm => ?_⟩
    · refine (h false (List.mem_append_right _ ?_)).2
      rw [hzero]
      exact List.mem_cons_self
    · have := (h true (List.mem_append_right _ (List.mem_cons_of_mem _ hm))).1
      exact absurd this (by simp)
  · rintro ⟨hn, hframe, htables⟩ table hm
    rcases List.mem_append.mp hm with hm | hm
    · exact hn table hm
    rcases List.mem_cons.mp hm with hm | hm
    · obtain ⟨rfl, hzero⟩ := Event.ask.inj hm
      exact ⟨rfl, hframe hzero.symm⟩
    · cases table with
      | true => exact absurd hm htables
      | false => exact absurd hm ask_not_mem_mapEvents

/-- **One step of the loop**: the page's frame, and what the tables on its way cost then. -/
theorem Spent.page (virt flags : Nat) (h : Spent root s Q k s')
    (hsize : s.frames.size ≤ hhdmFrames) :
    ((allocFrames s'.frames 1).1 = 0 ↔
      (freeBelow s'.frames hhdmFrames).card = 0 ∨ 0 ∈ freeBelow s'.frames hhdmFrames) ∧
    (.ask true 0 ∉ mapEvents hhdmOffset root.addr
        { s' with frames := (allocFrames s'.frames 1).2 } virt (allocFrames s'.frames 1).1 flags ↔
      (missing hhdmOffset s'.mem root (tablePaths virt)).card ≤
        (freeBelow s.frames hhdmFrames).card - (k + 1)) ∧
    ((missing hhdmOffset s'.mem root (tablePaths virt)).card ≤
        (freeBelow s.frames hhdmFrames).card - (k + 1) →
      Spent root s (Q ∪ tablePaths virt)
        (k + 1 + (missing hhdmOffset s'.mem root (tablePaths virt)).card)
        (map hhdmOffset root.addr { s' with frames := (allocFrames s'.frames 1).2 } virt
          (allocFrames s'.frames 1).1 flags)) := by
  have hsize' : s'.frames.size ≤ hhdmFrames := h.taking.1.trans_le hsize
  obtain ⟨f, hf, hlt⟩ := allocFrames_frame hsize'
  obtain ⟨hanswer, hzero, -⟩ := allocFrames_ask hsize'
  rw [← Finset.card_eq_zero] at hanswer
  have hask := h.trans (spent_ask h.ready hsize')
  rw [Finset.union_empty] at hask
  obtain ⟨htables, hmap⟩ := spent_map virt flags hlt hask.ready
    (hask.taking.1.trans_le hsize) hzero
  rw [hask.left] at htables hmap
  rw [hf] at hanswer ⊢
  exact ⟨hanswer, htables, fun hfit => hask.trans (hmap hfit)⟩

/-- **The loop asks for what the range calls for**, page by page. -/
theorem provided_spent (hr : Ready root ∅ s) (hsize : s.frames.size ≤ hhdmFrames) :
    (Supplied hhdmOffset root.addr s virt flags n ↔ Provided root s virt flags n) ∧
    (Provided root s virt flags n → Spent root s (rangePaths virt n) (demand root s virt n)
      (mapRange hhdmOffset root.addr s virt 0 flags n)) := by
  induction n with
  | zero =>
    have hnone : Provided root s virt flags 0 := fun i hi => absurd hi (Nat.not_lt_zero i)
    refine ⟨iff_of_true (fun table hm => absurd hm ?_) hnone, fun _ => .refl hr⟩
    rw [rangeEvents]
    exact List.not_mem_nil
  | succ n ih =>
    obtain ⟨hiff, hspent⟩ := ih
    have hsplit : Provided root s virt flags (n + 1) ↔ Provided root s virt flags n ∧ _ :=
      Nat.forall_lt_succ_right
    rw [supplied_succ, hsplit, hiff]
    by_cases hn : Provided root s virt flags n
    · have hsp := hspent hn
      rw [mapRange_zero_succ]
      generalize hmr : mapRange hhdmOffset root.addr s virt 0 flags n = before at hsp ⊢
      obtain ⟨hanswer, htables, hpage⟩ :=
        hsp.page (addW virt (n * pageSize)) flags hsize
      rw [tablePaths_addW] at htables hpage
      have hcost := hsp.missing_union (P := tablePaths (virt + n * pageSize)) fun _ =>
        tablePaths_length
      have hdemand : demand root s virt (n + 1) = demand root s virt n + 1 +
          (missing hhdmOffset before.mem root (tablePaths (virt + n * pageSize))).card := by
        unfold demand
        rw [rangePaths_succ, hcost]
        omega
      -- frame 0 is found first, so a page that was granted had it taken before
      have hlow : flags &&& 0x1 ≠ 0 → (0 ∈ freeBelow before.frames hhdmFrames ↔
          0 ∈ freeBelow s.frames hhdmFrames) := by
        intro hflag
        refine ⟨fun h => freeBelow_taking hsp.taking h, fun h => ?_⟩
        cases n with
        | zero => exact hmr ▸ h
        | succ m => exact absurd h ((hn 0 (Nat.succ_pos m)).1 hflag)
      have hleft := hsp.left
      rw [htables, hdemand, rangePaths_succ]
      constructor
      · refine and_congr_right fun _ => ?_
        by_cases hflag : flags &&& 0x1 = 0
        · simp only [hflag, ne_eq, not_true_eq_false, false_imp_iff, implies_true, true_and,
            false_or]
          omega
        · simp only [hflag, ne_eq, not_false_eq_true, forall_const, imp_false, true_or, hanswer,
            hlow hflag, not_or]
          rw [and_comm (a := ¬ _), and_assoc]
          exact and_congr_right fun _ => by omega
      · rintro ⟨-, -, henough⟩
        exact hpage (by omega)
    · exact ⟨iff_of_false (fun h => hn h.1) fun h => hn h.1, fun h => absurd h.1 hn⟩

/--
**Whether a call is supplied is settled before it.**

From any well-formed tree whose frames are not free: no request of `map_range` is
refused that matters if and only if the free frames cover the pages and the missing
tables, counted in the state before the call.
-/
theorem supplied_iff (ht : PageTables hhdmOffset s.mem root) (hsize : s.frames.size ≤ hhdmFrames)
    (hfresh : ∀ f : Frame, FreeFrame s.frames f.num →
      ¬ InTree (edge hhdmOffset s.mem) entryFrame root 3 f) :
    Supplied hhdmOffset root.addr s virt flags n ↔ Provided root s virt flags n :=
  (provided_spent ⟨ht, Nat.le_trans hsize (by decide), hfresh, by simp [missing], by simp⟩ hsize).1

end IonOS.Arch
