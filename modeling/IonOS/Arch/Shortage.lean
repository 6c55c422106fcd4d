import IonOS.Arch.Backing

/-!
# Mapping without frames

`page_table_create` and `map_range` use what `alloc_frames` returns without a look
at it. When there is no frame the answer is 0, which is a physical address like any
other: the entry points at frame 0, and a table in frame 0 is cleared.

What a call does to memory is written down as a list of events, with the requests
for frames among them. Replayed, the list gives the memory the call leaves
(`replay_rangeEvents`), so it leaves nothing out. A refused request shows up in it as
an entry that points at frame 0, except that of a page mapped without the present
flag, and that is the only way to have one (`rangeReported_iff`).
-/

namespace IonOS.Arch

open IonOS.Lib IonOS.Libs IonOS.Mm

/-! ## Events -/

/-- What a call of `map` or `map_range` asks for and does. -/
inductive Event where
  /-- `alloc_frames(1)`, for a table or for a page, and the answer. -/
  | ask (table : Bool) (frame : Nat)
  /-- A page-table entry is written. -/
  | set (entry value : Nat)
  | clear (table : Nat)

/-- The memory after an event. -/
def Event.apply (m : Mem) : Event → Mem
  | .ask _ _ => m
  | .set entry value => m.write64 entry value
  | .clear table => pageTableClear m table 512

def replay (m : Mem) (es : List Event) : Mem := es.foldl Event.apply m

/-- The events of `page_table_create`. -/
def createEvents (off : Nat) (s : Machine) (entry : Nat) : List Event :=
  if s.mem.read64 entry = 0 then
    let (frame, _) := allocFrames s.frames 1
    let value := frame ||| 1 ||| 2 ||| 4
    let m := s.mem.write64 entry value
    [.ask true frame, .set entry value, .clear (physToVirt off (offMask off (m.read64 entry)))]
  else []

/-- The events of `map`. -/
def mapEvents (off root : Nat) (s : Machine) (virt phys flags : Nat) : List Event :=
  let e4 := entryAddr (physToVirt off root) (l4Index virt)
  let c3 := pageTableCreate off s e4
  let e3 := entryAddr c3.1 (l3Index virt)
  let c2 := pageTableCreate off c3.2 e3
  let e2 := entryAddr c2.1 (l2Index virt)
  let c1 := pageTableCreate off c2.2 e2
  createEvents off s e4 ++ createEvents off c3.2 e3 ++ createEvents off c2.2 e2 ++
    [.set (entryAddr c1.1 (l1Index virt)) (offMask off phys ||| archFlags flags)]

/-- The events of `map_range` with physical address 0; the first `n` steps of the loop. -/
def rangeEvents (off root : Nat) (s : Machine) (virt flags : Nat) : Nat → List Event
  | 0 => []
  | n + 1 =>
      let before := mapRange off root s virt 0 flags n
      let (frame, frames) := allocFrames before.frames 1
      rangeEvents off root s virt flags n ++ .ask false frame ::
        mapEvents off root { before with frames := frames } (addW virt (n * pageSize)) frame flags

variable {off root : Nat} {s : Machine} {virt phys flags n : Nat} {m : Mem}

theorem replay_append (m : Mem) (es es' : List Event) :
    replay m (es ++ es') = replay (replay m es) es' := List.foldl_append

@[simp] theorem replay_ask (m : Mem) (table : Bool) (frame : Nat) (es : List Event) :
    replay m (.ask table frame :: es) = replay m es := rfl

theorem replay_createEvents (off : Nat) (s : Machine) (entry : Nat) :
    replay s.mem (createEvents off s entry) = (pageTableCreate off s entry).2.mem := by
  unfold createEvents pageTableCreate
  split
  · rfl
  · rfl

theorem replay_mapEvents (off root : Nat) (s : Machine) (virt phys flags : Nat) :
    replay s.mem (mapEvents off root s virt phys flags) =
      (map off root s virt phys flags).mem := by
  unfold mapEvents map
  dsimp only
  rw [replay_append, replay_append, replay_append, replay_createEvents, replay_createEvents,
    replay_createEvents]
  rfl

/-- **The events are all that happens to memory.** -/
theorem replay_rangeEvents (off root : Nat) (s : Machine) (virt flags n : Nat) :
    replay s.mem (rangeEvents off root s virt flags n) =
      (mapRange off root s virt 0 flags n).mem := by
  induction n with
  | zero => rfl
  | succ n ih =>
    rw [rangeEvents, mapRange]
    dsimp only
    rw [replay_append, ih, if_pos rfl, replay_ask]
    generalize mapRange off root s virt 0 flags n = before
    exact replay_mapEvents off root { before with frames := (allocFrames before.frames 1).2 } _ _
      flags

/-! ## What a refused request leads to -/

/-- Bit 0 of an entry; without it the processor does not look at the rest. -/
def Present (v : Nat) : Prop := v % 2 = 1

instance (v : Nat) : Decidable (Present v) := inferInstanceAs (Decidable (_ = _))

/-- Every entry written comes from a request, and every request leads to one. -/
structure Traced (off flags : Nat) (es : List Event) : Prop where
  set : ∀ e v, .set e v ∈ es → ∃ frame, .ask true frame ∈ es ∧ v = frame ||| 1 ||| 2 ||| 4 ∨
    .ask false frame ∈ es ∧ v = offMask off frame ||| archFlags flags
  clear : ∀ t, .clear t ∈ es → ∃ frame, .ask true frame ∈ es ∧ t = physToVirt off frame
  table : ∀ frame, .ask true frame ∈ es → ∃ e, .set e (frame ||| 1 ||| 2 ||| 4) ∈ es
  page : ∀ frame, .ask false frame ∈ es →
    ∃ e, .set e (offMask off frame ||| archFlags flags) ∈ es
  frame : ∀ table frame, .ask table frame ∈ es → ∃ f : Frame, f.addr = frame ∧ f.addr < 2 ^ 47

/-- The answer of `alloc_frames` is a frame of the direct map, frame 0 if there is none free. -/
theorem allocFrames_frame {b : Bitmap} (hsize : b.size ≤ hhdmFrames) :
    ∃ f : Frame, (allocFrames b 1).1 = f.addr ∧ f.addr < 2 ^ 47 := by
  unfold hhdmFrames at hsize
  have hsize52 : b.size ≤ 2 ^ 52 := by omega
  rcases allocFrames_cases hsize52 (Nat.le_refl 1) with ⟨r, hr, -, he⟩ | ⟨-, he⟩
  · refine ⟨⟨r, by omega⟩, by rw [he]; rfl, ?_⟩
    unfold Frame.addr pageSize
    dsimp only
    omega
  · exact ⟨⟨0, by decide⟩, by rw [he]; rfl, by decide⟩

namespace Traced

variable {es es' : List Event}

theorem nil : Traced off flags [] := by
  constructor <;> simp

theorem append (h : Traced off flags es) (h' : Traced off flags es') :
    Traced off flags (es ++ es') := by
  constructor
  · intro e v hm
    rcases List.mem_append.mp hm with hm | hm
    · obtain ⟨frame, hf⟩ := h.set e v hm
      exact ⟨frame, hf.imp (.imp_left (List.mem_append_left _)) (.imp_left (List.mem_append_left _))⟩
    · obtain ⟨frame, hf⟩ := h'.set e v hm
      exact ⟨frame,
        hf.imp (.imp_left (List.mem_append_right _)) (.imp_left (List.mem_append_right _))⟩
  · intro t hm
    rcases List.mem_append.mp hm with hm | hm
    · obtain ⟨frame, hf, ht⟩ := h.clear t hm
      exact ⟨frame, List.mem_append_left _ hf, ht⟩
    · obtain ⟨frame, hf, ht⟩ := h'.clear t hm
      exact ⟨frame, List.mem_append_right _ hf, ht⟩
  · intro frame hm
    rcases List.mem_append.mp hm with hm | hm
    · exact (h.table frame hm).imp fun e he => List.mem_append_left _ he
    · exact (h'.table frame hm).imp fun e he => List.mem_append_right _ he
  · intro frame hm
    rcases List.mem_append.mp hm with hm | hm
    · exact (h.page frame hm).imp fun e he => List.mem_append_left _ he
    · exact (h'.page frame hm).imp fun e he => List.mem_append_right _ he
  · intro table frame hm
    rcases List.mem_append.mp hm with hm | hm
    · exact h.frame table frame hm
    · exact h'.frame table frame hm

end Traced

theorem traced_create (flags entry : Nat) (hsize : s.frames.size ≤ hhdmFrames) :
    Traced hhdmOffset flags (createEvents hhdmOffset s entry) := by
  obtain ⟨f, hf, hlt⟩ := allocFrames_frame hsize
  obtain ⟨hvalue, hframe, -, hv⟩ := tableEntry hlt
  have hread : offMask hhdmOffset (f.addr + 7) = f.addr := by
    rw [offMask_entry (by rw [hframe]; exact hlt), hframe]
  have hevents : createEvents hhdmOffset s entry = [] ∨ createEvents hhdmOffset s entry =
      [.ask true f.addr, .set entry (f.addr ||| 1 ||| 2 ||| 4),
        .clear (physToVirt hhdmOffset f.addr)] := by
    unfold createEvents
    split
    · right
      dsimp only
      rw [hf, hvalue, Mem.read64_write64_same _ _ hv, hread]
    · exact .inl rfl
  rcases hevents with he | he
  · rw [he]
    exact .nil
  · rw [he]
    constructor
    · intro e v hm
      obtain ⟨-, rfl⟩ : e = entry ∧ v = _ := by simpa using hm
      exact ⟨f.addr, .inl ⟨by simp, rfl⟩⟩
    · intro t hm
      have ht : t = physToVirt hhdmOffset f.addr := by simpa using hm
      exact ⟨f.addr, by simp, ht⟩
    · intro frame hm
      obtain rfl : frame = _ := by simpa using hm
      exact ⟨entry, by simp⟩
    · intro frame hm
      exact absurd hm (by simp)
    · intro table frame hm
      obtain ⟨-, rfl⟩ : table = true ∧ frame = _ := by simpa using hm
      exact ⟨f, rfl, hlt⟩

/-- One page: the request for its frame, and what `map` does with the answer. -/
theorem traced_map {f : Frame} (hlt : f.addr < 2 ^ 47) (hsize : s.frames.size ≤ hhdmFrames) :
    Traced hhdmOffset flags
      (.ask false f.addr :: mapEvents hhdmOffset root s virt f.addr flags) := by
  have hsize52 : s.frames.size ≤ 2 ^ 52 := Nat.le_trans hsize (by decide)
  unfold mapEvents
  dsimp only
  have t3 := pageTableCreate_taking hsize52 hhdmOffset
    (entryAddr (physToVirt hhdmOffset root) (l4Index virt))
  have c3 := traced_create flags (entryAddr (physToVirt hhdmOffset root) (l4Index virt)) hsize
  generalize pageTableCreate hhdmOffset s _ = r3 at t3 ⊢
  have h3 : r3.2.frames.size ≤ hhdmFrames := t3.1.trans_le hsize
  have t2 := pageTableCreate_taking (t3.1.trans_le hsize52) hhdmOffset (entryAddr r3.1 (l3Index virt))
  have c2 := traced_create flags (entryAddr r3.1 (l3Index virt)) h3
  generalize pageTableCreate hhdmOffset r3.2 _ = r2 at t2 ⊢
  have h2 : r2.2.frames.size ≤ hhdmFrames := t2.1.trans_le h3
  have c1 := traced_create flags (entryAddr r2.1 (l2Index virt)) h2
  generalize pageTableCreate hhdmOffset r2.2 _ = r1
  have htables := (c3.append c2).append c1
  generalize createEvents hhdmOffset s _ ++ _ ++ _ = es at htables ⊢
  constructor
  · intro e v hm
    rcases List.mem_cons.mp hm with hm | hm
    · exact absurd hm (by simp)
    rcases List.mem_append.mp hm with hm | hm
    · obtain ⟨frame, hf⟩ := htables.set e v hm
      refine ⟨frame, hf.imp (.imp_left fun h => ?_) (.imp_left fun h => ?_)⟩
      · exact List.mem_cons_of_mem _ (List.mem_append_left _ h)
      · exact List.mem_cons_of_mem _ (List.mem_append_left _ h)
    · obtain ⟨-, rfl⟩ : e = _ ∧ v = _ := by simpa using hm
      exact ⟨f.addr, .inr ⟨List.mem_cons_self, rfl⟩⟩
  · intro t hm
    have hm : Event.clear t ∈ es := by simpa using hm
    obtain ⟨frame, hf, ht⟩ := htables.clear t hm
    exact ⟨frame, List.mem_cons_of_mem _ (List.mem_append_left _ hf), ht⟩
  · intro frame hm
    have hm : Event.ask true frame ∈ es := by simpa using hm
    exact (htables.table frame hm).imp fun e he =>
      List.mem_cons_of_mem _ (List.mem_append_left _ he)
  · intro frame hm
    have hm : frame = f.addr ∨ Event.ask false frame ∈ es := by simpa using hm
    rcases hm with rfl | hm
    · exact ⟨_, List.mem_cons_of_mem _ (List.mem_append_right _ List.mem_cons_self)⟩
    · exact (htables.page frame hm).imp fun e he =>
        List.mem_cons_of_mem _ (List.mem_append_left _ he)
  · intro table frame hm
    have hm : table = false ∧ frame = f.addr ∨ Event.ask table frame ∈ es := by simpa using hm
    rcases hm with ⟨-, rfl⟩ | hm
    · exact ⟨f, rfl, hlt⟩
    · exact htables.frame table frame hm

/-- **Every step of the loop leaves its trace.** -/
theorem traced_range (hsize : s.frames.size ≤ hhdmFrames) (root virt flags n : Nat) :
    Traced hhdmOffset flags (rangeEvents hhdmOffset root s virt flags n) := by
  induction n with
  | zero => exact .nil
  | succ n ih =>
    rw [rangeEvents]
    dsimp only
    have htaking := mapRange_taking (Nat.le_trans hsize (by decide)) hhdmOffset root virt 0 flags n
    generalize mapRange hhdmOffset root s virt 0 flags n = before at htaking ⊢
    have hbefore : before.frames.size ≤ hhdmFrames := htaking.1.trans_le hsize
    have halloc := (allocFrames_taking (Nat.le_trans hbefore (by decide))).1
    obtain ⟨f, hf, hlt⟩ := allocFrames_frame hbefore
    rw [hf]
    exact ih.append (traced_map hlt (halloc.1.trans_le hbefore))

/-! ## Tables that are granted -/

/-- What making tables does to a tree: walks stay, and what joins was free. -/
structure Grown (root : Frame) (s s' : Machine) : Prop where
  ready : Ready root ∅ s'
  taking : Taking s.frames s'.frames
  routes : ∀ q : List (Fin 512), q.length = 4 →
    tableRoute hhdmOffset s'.mem root q = tableRoute hhdmOffset s.mem root q
  joined : ∀ g : Frame, InTree (edge hhdmOffset s'.mem) entryFrame root 3 g →
    InTree (edge hhdmOffset s.mem) entryFrame root 3 g ∨ FreeFrame s.frames g.num

variable {rootf t : Frame} {s' s'' : Machine} {p : List (Fin 512)} {i : Fin 512}

theorem FreeFrame.mono {b b' : Bitmap} {f : Nat} (h : Taking b b') (hf : FreeFrame b' f) :
    FreeFrame b f := ⟨h.1 ▸ hf.1, h.2 f hf.2⟩

theorem freeFrame_of_mem {b : Bitmap} {f lim : Nat} (h : f ∈ freeBelow b lim) : FreeFrame b f := by
  obtain ⟨hlt, -, hget⟩ := mem_freeBelow.mp h
  exact ⟨by omega, hget⟩

theorem Grown.trans (h : Grown rootf s s') (h' : Grown rootf s' s'') : Grown rootf s s'' where
  ready := h'.ready
  taking := h.taking.trans h'.taking
  routes q hq := (h'.routes q hq).trans (h.routes q hq)
  joined g hg := by
    rcases h'.joined g hg with hin | hfree
    · exact h.joined g hin
    · exact .inr (FreeFrame.mono h.taking hfree)

/-- Without tables to make, nothing is missing. -/
theorem Ready.narrow {P : Finset (List (Fin 512))} (hr : Ready rootf P s) : Ready rootf ∅ s :=
  ⟨hr.tables, hr.size, hr.fresh, by simp [missing], by simp⟩

/-- Where a table is missing and a frame free, `page_table_create` links that frame. -/
theorem pageTableCreate_granted (hr : Ready rootf ∅ s)
    (ht : tableWalk hhdmOffset s.mem rootf p = some t) (hp : p.length < 3)
    (hnone : edge hhdmOffset s.mem t i = none) (hfree : (freeBelow s.frames hhdmFrames).Nonempty) :
    ∃ (f : Frame) (m : Mem) (b' : Bitmap), f.num ∈ freeBelow s.frames hhdmFrames ∧
      allocFrames s.frames 1 = (f.addr, b') ∧
      pageTableCreate hhdmOffset s (entryAddr (physToVirt hhdmOffset t.addr) i) =
        (physToVirt hhdmOffset f.addr, ⟨m, b'⟩) ∧
      edge hhdmOffset m = link (edge hhdmOffset s.mem) entryFrame t i (f.addr + 7) ∧
      b'.size = s.frames.size ∧ ∀ g, b'.get g = if g = f.num then false else s.frames.get g := by
  obtain ⟨r, b', hmem, halloc, hbsize, hget⟩ := allocFrames_one hr.size hfree
  have hrlt : r < 2 ^ 35 := (mem_freeBelow.mp hmem).2.1
  obtain ⟨f, rfl⟩ : ∃ f : Frame, f.num = r := ⟨⟨r, by omega⟩, rfl⟩
  have haddr : f.addr < 2 ^ 47 := by
    unfold Frame.addr pageSize
    omega
  have htf : t ≠ f := fun he => hr.fresh f (freeFrame_of_mem hmem) ⟨p, by omega, he ▸ ht⟩
  obtain ⟨m, hcreate, hedge⟩ := pageTableCreate_link haddr htf hnone halloc
  exact ⟨f, m, b', hmem, halloc, hcreate, hedge, hbsize, hget⟩

/-- **A table that is granted joins the tree.** -/
theorem pageTableCreate_grown (hr : Ready rootf ∅ s) (hsize : s.frames.size ≤ hhdmFrames)
    (ht : tableWalk hhdmOffset s.mem rootf p = some t) (hp : p.length < 3)
    (hask : .ask true 0 ∉
      createEvents hhdmOffset s (entryAddr (physToVirt hhdmOffset t.addr) i)) :
    ∃ f s', pageTableCreate hhdmOffset s (entryAddr (physToVirt hhdmOffset t.addr) i) =
        (physToVirt hhdmOffset f.addr, s') ∧ Grown rootf s s' ∧
      tableWalk hhdmOffset s'.mem rootf (p ++ [i]) = some f := by
  obtain ⟨es, hes⟩ := walk_eq_some.mp ht
  by_cases h0 : s.mem.read64 (entryAddr (physToVirt hhdmOffset t.addr) i) = 0
  · have hnone : edge hhdmOffset s.mem t i = none := edge_eq_none.mpr h0
    have hfree : (freeBelow s.frames hhdmFrames).Nonempty := by
      rcases allocFrames_cases hr.size (Nat.le_refl 1) with ⟨r, hlt, hfirst, -⟩ | ⟨-, he⟩
      · exact ⟨r, mem_freeBelow.mpr ⟨hlt, by omega, hfirst.2.1⟩⟩
      · -- a refusal would be among the events
        refine absurd ?_ hask
        unfold createEvents
        rw [if_pos h0, he]
        exact List.mem_cons_self
    obtain ⟨f, m, b', hmem, -, hcreate, hedge, hbsize, hget⟩ :=
      pageTableCreate_granted hr ht hp hnone hfree
    have haddr : f.addr < 2 ^ 47 := by
      have := (mem_freeBelow.mp hmem).2.1
      unfold hhdmFrames at this
      unfold Frame.addr pageSize
      omega
    have hff : FreeFrame s.frames f.num := freeFrame_of_mem hmem
    -- one table is missing, and there is a frame for it
    have hready : Ready rootf {p ++ [i]} s := by
      refine ⟨hr.tables, hr.size, hr.fresh, ?_, ?_⟩
      · calc (missing hhdmOffset s.mem rootf {p ++ [i]}).card
            ≤ ({p ++ [i]} : Finset (List (Fin 512))).card := Finset.card_filter_le _ _
          _ = 1 := Finset.card_singleton _
          _ ≤ (freeBelow s.frames hhdmFrames).card := Finset.card_pos.mpr hfree
      · intro q hq
        rw [Finset.mem_singleton.mp hq, List.length_append, List.length_singleton]
        omega
    obtain ⟨hready', hwalk, hroutes⟩ := (ready_link hready hes hp hnone
      (Finset.mem_singleton_self _) hmem hedge hbsize hget : Ready _ _ ⟨m, b'⟩ ∧ _)
    refine ⟨f, _, hcreate, ⟨hready'.narrow, ⟨hbsize, fun g hg => ?_⟩, hroutes, fun g hg => ?_⟩, hwalk⟩
    · dsimp only at hg
      rw [hget] at hg
      split at hg
      · exact absurd hg (by simp)
      · exact hg
    · obtain ⟨-, hframe, -⟩ := tableEntry haddr
      dsimp only at hg
      rw [hedge] at hg
      rcases inTree_link hr.tables.tree hes hp hnone (by rw [hframe]; exact hr.fresh f hff) hg with
        rfl | hin
      · rw [hframe]
        exact .inr hff
      · exact .inl hin
  · obtain ⟨f, hcreate, hf⟩ := pageTableCreate_follow hr.tables ht hp h0
    exact ⟨f, s, hcreate, ⟨hr, Taking.refl _, fun _ _ => rfl, fun _ => .inl⟩, hf⟩

/-- The entry that `map` writes for a page. -/
def leafValue (f : Frame) (flags : Nat) : Nat := f.addr ||| archFlags flags

theorem leafValue_spec {f : Frame} (hlt : f.addr < 2 ^ 47) (flags : Nat) :
    offMask hhdmOffset f.addr ||| archFlags flags = leafValue f flags ∧
      leafValue f flags < 2 ^ 64 ∧ entryFrame (leafValue f flags) = f ∧
      (Present (leafValue f flags) ↔ flags &&& 0x1 ≠ 0) := by
  have haddr : f.addr = f.num * 4096 := rfl
  have haligned : f.addr % pageSize = 0 := by
    unfold pageSize
    omega
  obtain ⟨hself, hvlt, -⟩ := leafEntry flags haligned hlt
  have hbits : archFlags flags / 2 ^ 12 % 2 ^ 40 = 0 ∧
      (archFlags flags % 2 = 1 ↔ flags &&& 0x1 ≠ 0) := by
    unfold archFlags
    split <;> split <;> split <;> split <;> simp_all
  refine ⟨by rw [hself]; rfl, hvlt, Frame.ext' ?_, ?_⟩
  · show (f.addr ||| archFlags flags) / 2 ^ 12 % 2 ^ 40 = f.num
    rw [Nat.or_div_two_pow, Nat.or_mod_two_pow, hbits.1, Nat.or_zero]
    have := f.lt
    omega
  · unfold Present leafValue
    rw [Nat.or_mod_two_eq_one, hbits.2, haddr]
    omega

/-- **`map` with tables granted**: the page's walk ends in the entry written, unless that is zero,
and other walks stay. -/
theorem map_granted {f : Frame} (hlt : f.addr < 2 ^ 47) (hr : Ready rootf ∅ s)
    (hsize : s.frames.size ≤ hhdmFrames)
    (hask : .ask true 0 ∉ mapEvents hhdmOffset rootf.addr s virt f.addr flags) :
    Ready rootf ∅ (map hhdmOffset rootf.addr s virt f.addr flags) ∧
      (∀ g : Frame,
        InTree (edge hhdmOffset (map hhdmOffset rootf.addr s virt f.addr flags).mem) entryFrame rootf 3 g →
          InTree (edge hhdmOffset s.mem) entryFrame rootf 3 g ∨ FreeFrame s.frames g.num) ∧
      (∃ es, pageWalk hhdmOffset (map hhdmOffset rootf.addr s virt f.addr flags).mem rootf virt =
        if leafValue f flags = 0 then none else some (es ++ [leafValue f flags], f)) ∧
      ∀ w, page w ≠ page virt →
        pageWalk hhdmOffset (map hhdmOffset rootf.addr s virt f.addr flags).mem rootf w =
          pageWalk hhdmOffset s.mem rootf w := by
  unfold mapEvents at hask
  dsimp only at hask
  simp only [List.mem_append, not_or] at hask
  obtain ⟨⟨⟨k3, k2⟩, k1⟩, -⟩ := hask
  obtain ⟨f3, s3, e3, g3, w3⟩ := pageTableCreate_grown (i := l4 virt) hr hsize walk_nil
    (by decide) k3
  have e3' : pageTableCreate hhdmOffset s
      (entryAddr (physToVirt hhdmOffset rootf.addr) (l4Index virt)) = _ := e3
  rw [e3'] at k2 k1
  obtain ⟨f2, s2, e2, g2, w2⟩ := pageTableCreate_grown (i := l3 virt) g3.ready
    (g3.taking.1.trans_le hsize) w3 (by simp) k2
  have e2' : pageTableCreate hhdmOffset s3
      (entryAddr (physToVirt hhdmOffset f3.addr) (l3Index virt)) = _ := e2
  rw [e2'] at k1
  obtain ⟨f1, s1, e1, g1, w1⟩ := pageTableCreate_grown (i := l2 virt) g2.ready
    (g2.taking.1.trans_le (g3.taking.1.trans_le hsize)) w2 (by simp) k1
  obtain ⟨es, hes⟩ := walk_eq_some.mp w1
  obtain ⟨hvalue, hvlt, hframe, -⟩ := leafValue_spec hlt flags
  have hmap := map_write f.addr flags e3 e2 e1
  rw [hvalue] at hmap
  have hgrown := (g3.trans g2).trans g1
  obtain ⟨hr', hwalks, hroute, hother⟩ := ready_leaf (i := l1 virt) hgrown.ready hes rfl hvlt hmap
  refine ⟨hr', fun g hg => ?_, ⟨es, ?_⟩, fun w hw => ?_⟩
  · obtain ⟨q, hq, hw⟩ := hg
    exact hgrown.joined g ⟨q, hq, (hwalks q hq).symm.trans hw⟩
  · rw [hframe] at hroute
    exact hroute
  · have hne : pagePath w ≠ pagePath virt := fun h => hw (pagePath_inj.mp h)
    unfold pageWalk
    rw [hother (pagePath w) rfl hne, hgrown.routes _ rfl]

/-! ## Whole ranges -/

/-- The processor translates the page of `w` to frame `f`. -/
def MapsTo (off : Nat) (m : Mem) (root : Frame) (w : Nat) (f : Frame) : Prop :=
  ∃ es, pageWalk off m root w = some (es, f) ∧ ∀ v ∈ es, Present v

/-- No request of the call is refused that matters: none for a table, and none for a page that is
to be present. -/
def Supplied (off root : Nat) (s : Machine) (virt flags n : Nat) : Prop :=
  ∀ table, .ask table 0 ∈ rangeEvents off root s virt flags n → table = false ∧ flags &&& 0x1 = 0

/-- What `n` steps of a supplied call leave. -/
structure RangeRun (root : Frame) (s : Machine) (virt flags n : Nat) (s' : Machine) : Prop where
  ready : Ready root ∅ s'
  taking : Taking s.frames s'.frames
  others : ∀ w, (∀ i < n, page w ≠ page (addW virt (i * pageSize))) →
    pageWalk hhdmOffset s'.mem root w = pageWalk hhdmOffset s.mem root w
  /-- The frames behind the pages are taken, and none of them is a table. -/
  backed : ∀ i < n, ∀ f, MapsTo hhdmOffset s'.mem root (addW virt (i * pageSize)) f →
    f.num ≠ 0 ∧ s'.frames.get f.num = false ∧
      ¬ InTree (edge hhdmOffset s'.mem) entryFrame root 3 f
  apart : ∀ i < n, ∀ j < n, ∀ f, MapsTo hhdmOffset s'.mem root (addW virt (i * pageSize)) f →
    MapsTo hhdmOffset s'.mem root (addW virt (j * pageSize)) f →
      page (addW virt (i * pageSize)) = page (addW virt (j * pageSize))

theorem pageWalk_page {w w' : Nat} (h : page w = page w') :
    pageWalk off m rootf w = pageWalk off m rootf w' := by
  unfold pageWalk
  rw [pagePath_inj.mpr h]

theorem MapsTo.of_walk {m' : Mem} {w w' : Nat} {f : Frame} (h : MapsTo off m rootf w f)
    (hw : pageWalk off m rootf w = pageWalk off m' rootf w') : MapsTo off m' rootf w' f := by
  obtain ⟨es, hes, hpresent⟩ := h
  exact ⟨es, hw ▸ hes, hpresent⟩

/-- A frame that was handed out was free, and is not any more. -/
theorem allocFrames_handed {b : Bitmap} {f : Frame} (hsize : b.size ≤ hhdmFrames)
    (hf : (allocFrames b 1).1 = f.addr) (h0 : f.num ≠ 0) :
    FreeFrame b f.num ∧ (allocFrames b 1).2.get f.num = false := by
  have hsize52 : b.size ≤ 2 ^ 52 := Nat.le_trans hsize (by decide)
  have haddr : f.addr = f.num * pageSize := rfl
  have hne : (allocFrames b 1).1 ≠ 0 := by
    rw [hf, haddr]
    unfold pageSize
    omega
  have hnum : (allocFrames b 1).1 / pageSize = f.num := by
    rw [hf, haddr]
    exact Nat.mul_div_cancel _ (by decide)
  rcases allocFrames_cases hsize52 (Nat.le_refl 1) with ⟨r, hr, hfirst, he⟩ | ⟨-, he⟩
  · have hrf : f.num = r := by
      rw [← hnum, he]
      exact Nat.mul_div_cancel _ (by decide)
    rw [hrf] at hnum ⊢
    refine ⟨⟨by omega, hfirst.2.1⟩, ?_⟩
    have htaken := ((allocFrames_taking hsize52).2 hne).2.2
    rwa [hnum] at htaken
  · rw [he] at hne
    exact absurd rfl hne

/-- **One page.** Its frame was free just before, so it is none of the frames of the pages before
it and none of the tables. -/
theorem rangeRun_step {before : Machine} {f : Frame} (hrun : RangeRun rootf s virt flags n before)
    (hsize : before.frames.size ≤ hhdmFrames) (hf : (allocFrames before.frames 1).1 = f.addr)
    (hlt : f.addr < 2 ^ 47) (hpresent : flags &&& 0x1 ≠ 0 → f.num ≠ 0)
    (hask : .ask true 0 ∉ mapEvents hhdmOffset rootf.addr
      { before with frames := (allocFrames before.frames 1).2 } (addW virt (n * pageSize)) f.addr
      flags) :
    RangeRun rootf s virt flags (n + 1) (map hhdmOffset rootf.addr
      { before with frames := (allocFrames before.frames 1).2 } (addW virt (n * pageSize)) f.addr
      flags) := by
  have htaken := (allocFrames_taking (Nat.le_trans hsize (by decide))).1
  have hready : Ready rootf ∅ { before with frames := (allocFrames before.frames 1).2 } :=
    ⟨hrun.ready.tables, htaken.1.trans_le hrun.ready.size,
      fun g hg => hrun.ready.fresh g (FreeFrame.mono htaken hg), by simp [missing], by simp⟩
  have hmapt := map_taking hready.size hhdmOffset rootf.addr (addW virt (n * pageSize)) f.addr flags
  obtain ⟨hr', hjoined, ⟨es, hwalk⟩, hother⟩ := map_granted hlt hready (htaken.1.trans_le hsize) hask
  generalize map hhdmOffset rootf.addr _ _ f.addr flags = after at hmapt hr' hjoined hwalk hother ⊢
  -- the new page, wherever in the range it is met
  have hnew : ∀ i g, page (addW virt (i * pageSize)) = page (addW virt (n * pageSize)) →
      MapsTo hhdmOffset after.mem rootf (addW virt (i * pageSize)) g → g = f ∧ f.num ≠ 0 := by
    rintro i g hi ⟨es', hes', hall⟩
    rw [pageWalk_page hi, hwalk] at hes'
    split at hes'
    · exact absurd hes' (by simp)
    · obtain ⟨rfl, rfl⟩ := Prod.mk.inj (Option.some.inj hes')
      have hv := hall (leafValue f flags) (by simp)
      exact ⟨rfl, hpresent ((leafValue_spec hlt flags).2.2.2.mp hv)⟩
  have hold : ∀ i, i < n + 1 → page (addW virt (i * pageSize)) ≠ page (addW virt (n * pageSize)) →
      i < n ∧ ∀ g, MapsTo hhdmOffset after.mem rootf (addW virt (i * pageSize)) g →
        MapsTo hhdmOffset before.mem rootf (addW virt (i * pageSize)) g := by
    intro i hi hne
    have hin : i ≠ n := fun h => hne (by rw [h])
    exact ⟨by omega, fun g hg => hg.of_walk (hother _ hne)⟩
  -- what is taken and no table stays so
  have hstays : ∀ g : Frame, (allocFrames before.frames 1).2.get g.num = false →
      ¬ InTree (edge hhdmOffset before.mem) entryFrame rootf 3 g →
        after.frames.get g.num = false ∧
          ¬ InTree (edge hhdmOffset after.mem) entryFrame rootf 3 g := by
    intro g hg hno
    refine ⟨?_, fun hin => ?_⟩
    · by_contra h
      rw [hmapt.2 g.num (by simpa using h)] at hg
      exact absurd hg (by simp)
    · rcases hjoined g hin with hin | hfree
      · exact hno hin
      · rw [hfree.2] at hg
        exact absurd hg (by simp)
  have hfresh : f.num ≠ 0 → FreeFrame before.frames f.num ∧
      (allocFrames before.frames 1).2.get f.num = false :=
    fun h0 => allocFrames_handed hsize hf h0
  refine ⟨hr', hrun.taking.trans (htaken.trans hmapt), fun w hw => ?_, ?_, ?_⟩
  · rw [hother w (hw n (Nat.lt_succ_self n)), ← hrun.others w fun i hi => hw i (by omega)]
  · intro i hi g hg
    by_cases hpage : page (addW virt (i * pageSize)) = page (addW virt (n * pageSize))
    · obtain ⟨rfl, h0⟩ := hnew i g hpage hg
      obtain ⟨hfree, htk⟩ := hfresh h0
      exact ⟨h0, hstays g htk (hrun.ready.fresh g hfree)⟩
    · obtain ⟨hin, hback⟩ := hold i hi hpage
      obtain ⟨h0, htk, hno⟩ := hrun.backed i hin g (hback g hg)
      refine ⟨h0, hstays g ?_ hno⟩
      by_contra h
      rw [htaken.2 g.num (by simpa using h)] at htk
      exact absurd htk (by simp)
  · intro i hi j hj g hgi hgj
    -- the frame of the new page was free, that of an older one was not
    have hmix : ∀ k l, k < n + 1 → page (addW virt (k * pageSize)) ≠ page (addW virt (n * pageSize)) →
        page (addW virt (l * pageSize)) = page (addW virt (n * pageSize)) →
        MapsTo hhdmOffset after.mem rootf (addW virt (k * pageSize)) g →
        ¬ MapsTo hhdmOffset after.mem rootf (addW virt (l * pageSize)) g := by
      intro k l hk hkn hln hgk hgl
      obtain ⟨rfl, h0⟩ := hnew l g hln hgl
      obtain ⟨hkin, hback⟩ := hold k hk hkn
      have htk := (hrun.backed k hkin g (hback g hgk)).2.1
      rw [(hfresh h0).1.2] at htk
      exact absurd htk (by simp)
    by_cases hpi : page (addW virt (i * pageSize)) = page (addW virt (n * pageSize))
    · by_cases hpj : page (addW virt (j * pageSize)) = page (addW virt (n * pageSize))
      · rw [hpi, hpj]
      · exact absurd hgi (hmix j i hj hpj hpi hgj)
    · by_cases hpj : page (addW virt (j * pageSize)) = page (addW virt (n * pageSize))
      · exact absurd hgj (hmix i j hi hpi hpj hgi)
      · obtain ⟨hin, hbi⟩ := hold i hi hpi
        obtain ⟨hjn, hbj⟩ := hold j hj hpj
        exact hrun.apart i hin j hjn g (hbi g hgi) (hbj g hgj)

theorem rangeEvents_succ (off root : Nat) (s : Machine) (virt flags n : Nat) :
    rangeEvents off root s virt flags (n + 1) = rangeEvents off root s virt flags n ++
      .ask false (allocFrames (mapRange off root s virt 0 flags n).frames 1).1 ::
        mapEvents off root { mapRange off root s virt 0 flags n with
          frames := (allocFrames (mapRange off root s virt 0 flags n).frames 1).2 }
          (addW virt (n * pageSize))
          (allocFrames (mapRange off root s virt 0 flags n).frames 1).1 flags := rfl

theorem mapRange_zero_succ (off root : Nat) (s : Machine) (virt flags n : Nat) :
    mapRange off root s virt 0 flags (n + 1) =
      map off root { mapRange off root s virt 0 flags n with
        frames := (allocFrames (mapRange off root s virt 0 flags n).frames 1).2 }
        (addW virt (n * pageSize)) (allocFrames (mapRange off root s virt 0 flags n).frames 1).1
        flags := rfl

/-- **The loop**, as far as it is supplied. -/
theorem rangeRun (hr : Ready rootf ∅ s) (hsize : s.frames.size ≤ hhdmFrames)
    (hsup : Supplied hhdmOffset rootf.addr s virt flags n) :
    RangeRun rootf s virt flags n (mapRange hhdmOffset rootf.addr s virt 0 flags n) := by
  induction n with
  | zero => exact ⟨hr, Taking.refl _, fun _ _ => rfl, by simp, by simp⟩
  | succ n ih =>
    unfold Supplied at hsup
    rw [rangeEvents_succ] at hsup
    have hrun := ih fun table h => hsup table (List.mem_append_left _ h)
    rw [mapRange_zero_succ]
    generalize mapRange hhdmOffset rootf.addr s virt 0 flags n = before at hsup hrun ⊢
    have hbefore : before.frames.size ≤ hhdmFrames := hrun.taking.1.trans_le hsize
    obtain ⟨f, hf, hlt⟩ := allocFrames_frame hbefore
    rw [hf] at hsup ⊢
    refine rangeRun_step hrun hbefore hf hlt (fun hflag h0 => ?_) fun hno => ?_
    · have haddr : f.addr = 0 := by
        unfold Frame.addr
        rw [h0, Nat.zero_mul]
      rw [haddr] at hsup
      exact hflag (hsup false (List.mem_append_right _ List.mem_cons_self)).2
    · have := (hsup true (List.mem_append_right _ (List.mem_cons_of_mem _ hno))).1
      exact absurd this (by simp)

/-- What `map_range(virt, 0, count, flags)` owes a machine that runs out of frames. -/
structure RangeReported (off : Nat) (root : Frame) (s : Machine) (virt flags n : Nat) : Prop where
  /-- No entry is made to point at frame 0. -/
  entries : ∀ e v, .set e v ∈ rangeEvents off root.addr s virt flags n → Present v →
    (entryFrame v).num ≠ 0
  /-- Frame 0 is not cleared. -/
  cleared : ∀ t, .clear t ∈ rangeEvents off root.addr s virt flags n → t ≠ physToVirt off 0
  /-- No page comes to be mapped to frame 0. -/
  mapped : ∀ w f, f.num = 0 → MapsTo off (mapRange off root.addr s virt 0 flags n).mem root w f →
    MapsTo off s.mem root w f
  /-- The frame behind a page of the range is not a table, and not behind another page of it. -/
  backing : ∀ i < n, ∀ f,
    MapsTo off (mapRange off root.addr s virt 0 flags n).mem root (addW virt (i * pageSize)) f →
    ¬ InTree (edge off (mapRange off root.addr s virt 0 flags n).mem) entryFrame root 3 f ∧
    ∀ j < n,
      MapsTo off (mapRange off root.addr s virt 0 flags n).mem root (addW virt (j * pageSize)) f →
      page (addW virt (i * pageSize)) = page (addW virt (j * pageSize))

/--
**Shortage goes unreported exactly when a request is refused that matters.**

From any well-formed tree whose frames are not free: the call keeps off frame 0, and
gives its pages frames of their own, if and only if every table it makes gets a
frame and, when the pages are to be present, every page does.
-/
theorem rangeReported_iff (ht : PageTables hhdmOffset s.mem rootf)
    (hsize : s.frames.size ≤ hhdmFrames)
    (hfresh : ∀ f : Frame, FreeFrame s.frames f.num →
      ¬ InTree (edge hhdmOffset s.mem) entryFrame rootf 3 f) :
    RangeReported hhdmOffset rootf s virt flags n ↔
      Supplied hhdmOffset rootf.addr s virt flags n := by
  have htrace := traced_range hsize rootf.addr virt flags n
  have hzero : (0 : Nat) = Frame.addr ⟨0, by decide⟩ := rfl
  have hnum : ∀ f : Frame, f.addr ≠ 0 → f.num ≠ 0 := by
    intro f hf h0
    unfold Frame.addr at hf
    rw [h0, Nat.zero_mul] at hf
    exact hf rfl
  constructor
  · intro hrep table hask
    cases table with
    | true =>
      obtain ⟨e, he⟩ := htrace.table 0 hask
      exact absurd rfl (hrep.entries e _ he (by decide))
    | false =>
      refine ⟨rfl, ?_⟩
      by_contra hflag
      obtain ⟨e, he⟩ := htrace.page 0 hask
      obtain ⟨hvalue, -, hframe, hpresent⟩ :=
        leafValue_spec (f := ⟨0, by decide⟩) (by decide) flags
      rw [hzero, hvalue] at he
      have hne := hrep.entries e _ he (hpresent.mpr hflag)
      rw [hframe] at hne
      exact hne rfl
  · intro hsup
    have hrun := rangeRun ⟨ht, Nat.le_trans hsize (by decide), hfresh, by simp [missing], by simp⟩
      hsize hsup
    refine ⟨fun e v he hv => ?_, fun t hm => ?_, fun w f h0 hw => ?_, fun i hi f hf => ?_⟩
    · obtain ⟨frame, ⟨hask, rfl⟩ | ⟨hask, rfl⟩⟩ := htrace.set e v he
      · obtain ⟨f, rfl, hlt⟩ := htrace.frame true frame hask
        obtain ⟨hvalue, hframe, -⟩ := tableEntry hlt
        rw [hvalue, hframe]
        refine hnum f fun h0 => ?_
        rw [h0] at hask
        exact absurd (hsup true hask).1 (by simp)
      · obtain ⟨f, rfl, hlt⟩ := htrace.frame false frame hask
        obtain ⟨hvalue, -, hframe, hpresent⟩ := leafValue_spec hlt flags
        rw [hvalue] at hv ⊢
        rw [hframe]
        refine hnum f fun h0 => ?_
        rw [h0] at hask
        exact hpresent.mp hv (hsup false hask).2
    · obtain ⟨frame, hask, heq⟩ := htrace.clear t hm
      obtain ⟨f, rfl, hlt⟩ := htrace.frame true frame hask
      rw [heq]
      intro h
      rw [(physToVirt_zero_iff (by omega)).mp h] at hask
      exact absurd (hsup true hask).1 (by simp)
    · by_cases hin : ∃ i < n, page w = page (addW virt (i * pageSize))
      · obtain ⟨i, hi, hpage⟩ := hin
        exact absurd h0 (hrun.backed i hi f (hw.of_walk (pageWalk_page hpage))).1
      · exact hw.of_walk (hrun.others w fun i hi h => hin ⟨i, hi, h⟩)
    · exact ⟨(hrun.backed i hi f hf).2.2, fun j hj hg => hrun.apart i hi j hj f hf hg⟩

end IonOS.Arch
