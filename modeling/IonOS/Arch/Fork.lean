import IonOS.Arch.Clone
import IonOS.Arch.Space
import IonOS.Lib.Words

/-!
# What a fork shares

`clone_not_isolated` says that a fork is not isolated. This is what it is instead: the new table
has the entries of the old one, so below them there is one tree with two roots. A page that is
mapped in the parent, then or later, in a slot that was in use is the child's as well, and neither
can write to a byte of it that the other does not read. In the slots that were empty the child has
an entry that is not present, and never sees anything.
-/

namespace IonOS.Arch

open IonOS.Lib IonOS.Libs IonOS.Mm

variable {off flags refs x : Nat} {user : Bool} {root root' f : Frame} {m : Mem} {s : Machine}
  {k k' : Space} {w n : Nat} {b : UInt8} {d : SpaceEvent} {i : Fin 512}

/-! ## Where a fork writes -/

/-- One step of the loop over the entries: there is no table to go down to from an empty one. -/
theorem copyEntries_succ (off : Nat) {next : Machine → Nat → Bool → Nat × Machine}
    (hnext : ∀ s b, next s 0 b = (0, s)) (source table : Nat) (kernelSpace : Nat → Bool)
    (s : Machine) (n : Nat) :
    ∃ v, copyEntries off next source table kernelSpace s (n + 1) =
      { copyEntries off next source table kernelSpace s n with
        mem := (copyEntries off next source table kernelSpace s n).mem.write64
          (entryAddr table n) v } := by
  rw [copyEntries]
  dsimp only
  split
  · exact ⟨_, rfl⟩
  · rename_i h0
    rw [not_not.mp h0, show copyMask 0 = 0 from Nat.zero_and _, hnext]
    exact ⟨_, rfl⟩

/-- The loop over the entries writes in the new table. -/
theorem copyEntries_other {next : Machine → Nat → Bool → Nat × Machine}
    (hnext : ∀ s b, next s 0 b = (0, s)) (source table : Nat) (kernelSpace : Nat → Bool)
    (s : Machine) (hlt : table + 8 * n ≤ 2 ^ 64) (hx : x < table ∨ table + 8 * n ≤ x) :
    (copyEntries off next source table kernelSpace s n).mem x = s.mem x := by
  induction n with
  | zero => rfl
  | succ n ih =>
    obtain ⟨v, hv⟩ := copyEntries_succ off hnext source table kernelSpace s n
    have hentry : entryAddr table n = table + 8 * n := addW_of_lt (by omega)
    rw [hv, hentry]
    exact (Mem.write64_other (by omega)).trans (ih (by omega) (by omega))

theorem copyEntries_frames {next : Machine → Nat → Bool → Nat × Machine}
    (hnext : ∀ s b, next s 0 b = (0, s)) (source table : Nat) (kernelSpace : Nat → Bool)
    (s : Machine) (n : Nat) :
    (copyEntries off next source table kernelSpace s n).frames = s.frames := by
  induction n with
  | zero => rfl
  | succ n ih =>
    obtain ⟨v, hv⟩ := copyEntries_succ off hnext source table kernelSpace s n
    rw [hv]
    exact ih

/-- The address at which `clone_page_table` gets its frame. -/
def newTable (off : Nat) (s : Machine) : Nat := physToVirt off (allocFrames s.frames 1).1

theorem physToVirt_virtToPhys {v : Nat} (hv : v < 2 ^ 64) :
    physToVirt off (virtToPhys off v) = v := by
  unfold physToVirt virtToPhys addW subW
  omega

/-- `clone_page_table`, without `CLONE_VM`. -/
theorem clonePageTable_eq (off : Nat) (s : Machine) (old : MmContext)
    (hflags : flags &&& 0x00000100 = 0) (h0 : old.pageTablePhys ≠ 0) :
    ∃ c, c = copyEntries off (copyPageTableRecursive off false 3) old.pageTablePhys (newTable off s)
        (fun i => 256 ≤ i) { s with frames := (allocFrames s.frames 1).2 } 256 ∧
      clonePageTable off s old flags = (some ⟨virtToPhys off (newTable off s), 1⟩, old,
        ⟨memcpy c.mem (entryAddr (newTable off s) 256)
          (entryAddr (physToVirt off old.pageTablePhys) 256) (pageSize / 2), c.frames⟩) := by
  refine ⟨_, rfl, ?_⟩
  unfold clonePageTable
  rw [if_neg (by simpa using hflags), copyPageTableRecursive.eq_2, if_neg h0]
  have hlt : newTable off s < 2 ^ 64 := addW_lt _ _
  unfold newTable at hlt ⊢
  simp [hflags, physToVirt_virtToPhys hlt, addW]

/-- `clone_page_table` writes in that frame, or, without a table to copy, in the first page. -/
theorem clonePageTable_other {s : Machine} {old : MmContext}
    (hlt : newTable off s + pageSize ≤ 2 ^ 64) (hlow : old.pageTablePhys = 0 → pageSize ≤ x)
    (hx : x < newTable off s ∨ newTable off s + pageSize ≤ x) :
    (clonePageTable off s old flags).2.2.mem x = s.mem x := by
  by_cases hflags : flags &&& 0x00000100 = 0
  · by_cases h0 : old.pageTablePhys = 0
    · unfold clonePageTable
      rw [if_neg (by simpa using hflags), copyPageTableRecursive.eq_2, if_pos h0]
      dsimp only
      rw [physToVirt_virtToPhys (by decide)]
      exact memcpy_other (.inr (hlow h0))
    · unfold pageSize at hlt hx
      obtain ⟨c, hc, he⟩ := clonePageTable_eq off s old hflags h0
      have hupper : entryAddr (newTable off s) 256 = newTable off s + 2048 := addW_of_lt (by omega)
      rw [he, hupper]
      refine (memcpy_other (by unfold pageSize; omega)).trans ?_
      rw [hc]
      exact copyEntries_other (fun s b => copy_null off _ 3 s b) _ _ _ _ (by omega) (by omega)
  · unfold clonePageTable
    rw [if_pos hflags]

/-- What a fork makes: a table that was free, with the entries of the old one. -/
structure TableForked (s : Machine) (root root' : Frame) (s' : Machine) : Prop where
  fresh : FreeFrame s.frames root'.num
  used : s'.frames.get root'.num = false
  taking : Taking s.frames s'.frames
  same : ∀ g, g ≠ root' → SameFrame g s.mem s'.mem
  entries : ∀ i, entry hhdmOffset s'.mem root' i =
    if i.val < 256 then childEntry hhdmOffset (entry hhdmOffset s.mem root i)
    else entry hhdmOffset s.mem root i

theorem clonePageTable_forked (hsize : s.frames.size ≤ hhdmFrames)
    (hflags : flags &&& 0x00000100 = 0) (hroot : root.addr ≠ 0)
    (htaken : ¬ FreeFrame s.frames root.num) (hfound : (allocFrames s.frames 1).1 ≠ 0) :
    ∃ child root', (clonePageTable hhdmOffset s ⟨root.addr, refs⟩ flags).1 = some child ∧
      child.pageTablePhys = root'.addr ∧
      TableForked s root root' (clonePageTable hhdmOffset s ⟨root.addr, refs⟩ flags).2.2 := by
  obtain ⟨f, hf, hlt⟩ := allocFrames_frame hsize
  have h0 : f.num ≠ 0 := by
    intro h
    refine hfound ?_
    rw [hf, Frame.addr, h, Nat.zero_mul]
  obtain ⟨hfree, hused⟩ := allocFrames_handed hsize hf h0
  have hne : root ≠ f := by
    rintro rfl
    exact htaken hfree
  have htable : newTable hhdmOffset s = physToVirt hhdmOffset f.addr := by rw [newTable, hf]
  have hbase : ∀ g : Frame, physToVirt hhdmOffset g.addr = (g.addr + hhdmOffset) % 2 ^ 64 :=
    fun _ => rfl
  have hend : physToVirt hhdmOffset f.addr + pageSize ≤ 2 ^ 64 := by
    rw [hbase]
    unfold Frame.addr hhdmOffset pageSize at *
    omega
  have hother : ∀ g, g ≠ f → ∀ j < pageSize,
      physToVirt hhdmOffset (g.addr + j) < physToVirt hhdmOffset f.addr ∨
        physToVirt hhdmOffset f.addr + pageSize ≤ physToVirt hhdmOffset (g.addr + j) := by
    intro g hg j hj
    have hnum : g.num ≠ f.num := fun h => hg (Frame.ext' h)
    have hglt := g.lt
    have hflt := f.lt
    rw [frameByte_eq g hj, hbase]
    unfold Frame.addr hhdmOffset pageSize at *
    omega
  have hsame : ∀ g, g ≠ f → SameFrame g s.mem
      (clonePageTable hhdmOffset s ⟨root.addr, refs⟩ flags).2.2.mem := by
    intro g hg j hj
    exact clonePageTable_other (by rw [htable]; exact hend) (fun h => absurd h hroot)
      (by rw [htable]; exact hother g hg j hj)
  obtain ⟨c, hc, he⟩ := clonePageTable_eq hhdmOffset s ⟨root.addr, refs⟩ hflags hroot
  dsimp only at hc he
  rw [htable] at hc he
  have hnext := fun s b => copy_null hhdmOffset false 3 s b
  have hcopy := copyEntries_edge hhdmOffset_aligned (by decide) hne hnext (fun i => 256 ≤ i)
    { s with frames := (allocFrames s.frames 1).2 } (by decide : 256 ≤ 512)
  have hframes : c.frames = (allocFrames s.frames 1).2 := by
    rw [hc]
    exact copyEntries_frames hnext _ _ _ _ _
  have hrest : ∀ j < pageSize, c.mem (physToVirt hhdmOffset (root.addr + j)) =
      s.mem (physToVirt hhdmOffset (root.addr + j)) := by
    intro j hj
    have hoff := hother root hne j hj
    unfold pageSize at hend hoff
    rw [hc]
    exact copyEntries_other hnext _ _ _ _ (by omega) (by omega)
  rw [← hc] at hcopy
  rw [he] at hsame ⊢
  refine ⟨_, f, rfl, virtToPhys_physToVirt f _, hfree, ?_, ?_, hsame, fun i => ?_⟩
  · dsimp only
    rw [hframes]
    exact hused
  · dsimp only
    rw [hframes]
    exact (allocFrames_taking (Nat.le_trans hsize (by decide))).1
  · split
    · rename_i hi
      have hedge := edge_memcpy_upper hhdmOffset_aligned c.mem f f
        (entryAddr (physToVirt hhdmOffset root.addr) 256) hi
      rw [hcopy, if_pos ⟨rfl, hi⟩] at hedge
      exact (edge_eq_some.mp hedge).1
    · -- the upper half is copied byte by byte
      rename_i hi
      have hhalf : ∀ g : Frame, entryAddr (physToVirt hhdmOffset g.addr) 256 =
          (g.addr + hhdmOffset) % 2 ^ 64 + 8 * 256 :=
        fun g => entryAddr_eq hhdmOffset_aligned g (256 : Fin 512)
      have hplace : ∀ (g : Frame) j, entryAddr (physToVirt hhdmOffset g.addr) i + j =
          entryAddr (physToVirt hhdmOffset g.addr) 256 + (8 * i.val + j - 2048) := by
        intro g j
        rw [hhalf, entryAddr_eq hhdmOffset_aligned]
        omega
      have hapart : entryAddr (physToVirt hhdmOffset f.addr) 256 + pageSize / 2 ≤
          entryAddr (physToVirt hhdmOffset root.addr) 256 ∨
          entryAddr (physToVirt hhdmOffset root.addr) 256 + pageSize / 2 ≤
            entryAddr (physToVirt hhdmOffset f.addr) 256 := by
        have hnum : root.num ≠ f.num := fun h => hne (Frame.ext' h)
        have hrootlt := root.lt
        have hflt := f.lt
        rw [hhalf, hhalf]
        unfold Frame.addr hhdmOffset pageSize at *
        omega
      unfold entry
      refine Mem.read64_copied fun j hj => ?_
      obtain ⟨hin, hbyte⟩ := entryByte root i hj
      have hlast : 8 * i.val + j - 2048 < pageSize / 2 := by
        unfold pageSize at hin ⊢
        omega
      rw [hbyte, ← hrest _ hin, ← hbyte, hplace, hplace]
      dsimp only
      rw [memcpy_inside hapart hlast]

/-! ## One tree with two roots -/

/-- **The invariant.** The entries of the two roots are those that the parent's had at the fork,
`top`; only where it had none it may have one now. -/
structure Twins (user : Bool) (root root' : Frame) (top : Fin 512 → Nat) (k : Space) : Prop where
  space : SpaceInv user root k
  withheld : Withheld root k.machine root'
  /-- The child's table is behind no page. -/
  apart : ∀ w f, page w ∈ k.pages → Backs user root k.machine w f → f ≠ root'
  child : ∀ i, entry hhdmOffset k.machine.mem root' i =
    if i.val < 256 then childEntry hhdmOffset (top i) else top i
  parent : ∀ i, top i ≠ 0 → entry hhdmOffset k.machine.mem root i = top i

/-- A call of `map_range` or a store in the parent, or a store in the child. -/
inductive ForkDoes (user : Bool) (root root' : Frame) : Space → SpaceEvent → Space → Prop where
  | parent {k k' : Space} {d : SpaceEvent} (h : SpaceDoes user root k d k') :
      ForkDoes user root root' k d k'
  | child {k : Space} {w : Nat} {b : UInt8} {m : Mem} (hw : page w ∈ k.pages)
      (hm : storeBy (translate user root') k.machine.mem w b = some m) :
      ForkDoes user root root' k (.store w b) ⟨{ k.machine with mem := m }, k.pages⟩

variable {top : Fin 512 → Nat}

/-- Below entries that are the same everything is the same. -/
theorem pageWalk_root (h : edge hhdmOffset m root' (l4 w) = edge hhdmOffset m root (l4 w)) :
    pageWalk hhdmOffset m root' w = pageWalk hhdmOffset m root w := by
  unfold pageWalk tableRoute pagePath
  rw [route, route, h]

/-- **In a slot that was in use the child sees what the parent sees.** -/
theorem Twins.shared (hi : Twins user root root' top k) (htop : top (l4 w) ≠ 0) :
    translate user root' k.machine.mem w = translate user root k.machine.mem w := by
  have hchild := hi.child (l4 w)
  rw [childEntry, if_neg htop, ite_self] at hchild
  have hparent := hi.parent (l4 w) htop
  unfold translate
  rw [pageWalk_root]
  unfold edge
  rw [hchild, hparent]

/-- **In an empty one it sees nothing**: what the entry names is not present. -/
theorem Twins.hidden (hi : Twins user root root' top k) (htop : top (l4 w) = 0) :
    translate user root' k.machine.mem w = none := by
  have hchild := hi.child (l4 w)
  rw [htop] at hchild
  unfold translate
  cases hwalk : pageWalk hhdmOffset k.machine.mem root' w with
  | none => rfl
  | some x =>
      obtain ⟨v4, v3, v2, v1, h4, -, -, -, rfl⟩ := pageWalk_eq_some.mp hwalk
      have hnot : ¬ Grants (needed user) v4 := by
        obtain ⟨rfl, h0⟩ := edge_eq_some.mp h4
        rw [hchild] at h0 ⊢
        split at h0
        · rw [if_pos ‹_›]
          cases user <;> decide
        · exact absurd rfl h0
      rw [Option.bind_some, if_neg fun h => hnot (h v4 List.mem_cons_self)]

/-- The entries of a table whose bytes are the same. -/
theorem SameFrame.entry {m' : Mem} (h : SameFrame f m m') (i : Fin 512) :
    entry hhdmOffset m' f i = entry hhdmOffset m f i := by
  refine Mem.read64_copied fun j hj => ?_
  obtain ⟨hin, hbyte⟩ := entryByte f i hj
  rw [hbyte]
  exact h _ hin

/-- The parent's table, once there is an entry. -/
theorem TopStays.entry {m' : Mem} {v : Nat} (h : TopStays root m m') (hv : v ≠ 0)
    (he : entry hhdmOffset m root i = v) : Arch.entry hhdmOffset m' root i = v :=
  (edge_eq_some.mp (h i v (edge_eq_some.mpr ⟨he, hv⟩))).1

/-! ## The fork -/

/-- **A fork makes twins**, and the pages have what they had. -/
theorem TableForked.twins (hi : SpaceInv user root k) (h : TableForked k.machine root root' s) :
    Twins user root root' (fun i => entry hhdmOffset k.machine.mem root i) ⟨s, k.pages⟩ ∧
      (pageContents user root k).Extends (pageContents user root ⟨s, k.pages⟩) := by
  have hno : ¬ InTree (edge hhdmOffset k.machine.mem) entryFrame root 3 root' :=
    hi.ready.fresh root' h.fresh
  have hedge : ∀ t, InTree (edge hhdmOffset k.machine.mem) entryFrame root 3 t → ∀ i,
      edge hhdmOffset s.mem t i = edge hhdmOffset k.machine.mem t i := by
    intro t ht i
    have hne : t ≠ root' := by
      rintro rfl
      exact hno ht
    unfold edge
    rw [(h.same t hne).entry]
  obtain ⟨hi', hwalk⟩ := hi.agree h.taking hedge
  have hpage : ∀ w g, page w ∈ k.pages → Backs user root s w g → g ≠ root' := by
    intro w g hw hg
    rintro rfl
    have hused := (hi.backs_before hw (hwalk w) hg).withheld.1
    rw [h.fresh.2] at hused
    exact nomatch hused
  refine ⟨⟨hi', ⟨h.used, fun hin => hno ((inTree_agree hedge).mp hin)⟩, hpage, h.entries,
    fun i _ => ?_⟩, fun pg j c hc => ?_⟩
  · have hroot : root ≠ root' := by
      rintro rfl
      exact hno ⟨[], Nat.zero_le _, walk_nil⟩
    exact (h.same root hroot).entry i
  · obtain ⟨hpg, hj, hc⟩ := pageContents_eq_some.mp hc
    refine pageContents_eq_some.mpr ⟨hpg, hj, ?_⟩
    obtain ⟨hpage', hoffset⟩ := page_split (hi.low pg hpg) hj
    obtain ⟨g, hg, heq⟩ := hi.translate_eq (w := pg * pageSize + j) (by rwa [hpage'])
    have htr : translate user root s.mem (pg * pageSize + j) =
        translate user root k.machine.mem (pg * pageSize + j) := by
      unfold translate
      rw [hwalk]
    have hne : g ≠ root' := by
      rintro rfl
      have hused := hg.withheld.1
      rw [h.fresh.2] at hused
      exact nomatch hused
    rw [hoffset] at heq
    unfold loadBy at hc ⊢
    rw [heq, Option.map_some] at hc
    rw [htr, heq, Option.map_some, h.same g hne j hj]
    exact hc

/-! ## Runs -/

/-- A store to a page leaves the frames alone that are behind none. -/
theorem store_sameFrame (hi : SpaceInv user root k) (hw : page w ∈ k.pages)
    (hm : storeBy (translate user root) k.machine.mem w b = some m)
    (hf : ∀ g, Backs user root k.machine w g → g ≠ f) : SameFrame f k.machine.mem m := by
  obtain ⟨a, ha, rfl⟩ := storeBy_eq_some.mp hm
  obtain ⟨g, hg, heq⟩ := hi.translate_eq hw
  intro j hj
  refine Function.update_of_ne (fun he => hf g hg ?_) _ _
  rw [← Option.some.inj (heq.symm.trans ha)] at he
  exact (frameByte_inj hj (Nat.mod_lt _ (by decide)) he).1.symm

/-- **What the parent does keeps them twins.** -/
theorem Twins.parent_does (hi : Twins user root root' top k) (hd : SpaceDoes user root k d k') :
    Twins user root root' top k' := by
  cases hd with
  | @mapRange virt flags n hflags hsup =>
      obtain ⟨hspace, hwalks, hspares, hfree, htop⟩ := inv_range hi.space hflags hsup rfl
      obtain ⟨hwithheld, hsame⟩ := hspares root' hi.withheld
      refine ⟨hspace, hwithheld, ?_, fun i => (hsame.entry i).trans (hi.child i),
        fun i h0 => htop.entry h0 (hi.parent i h0)⟩
      intro w f hw hb
      by_cases hnew : page w ∈ addPages virt [] n
      · -- its frame was free, and the child's table was not
        rintro rfl
        have hfresh := (hfree w f hnew hb).2
        rw [hi.withheld.1] at hfresh
        exact nomatch hfresh
      · have hold : page w ∈ k.pages := (mem_addPages.mp hw).resolve_left hnew
        exact hi.apart w f hold (hi.space.backs_before hold (hwalks w hnew) hb)
  | @store w b m hw hm =>
      obtain ⟨hspace, hwalk⟩ := inv_store hi.space hw hm
      have hframe := store_frame hw hm
      have hedge : ∀ t, InTree (edge hhdmOffset k.machine.mem) entryFrame root 3 t → ∀ i,
          edge hhdmOffset m t i = edge hhdmOffset k.machine.mem t i :=
        fun t ht i => hi.space.edge_same hframe ht i
      have hsame := store_sameFrame hi.space hw hm fun g hg => hi.apart w g hw hg
      have htop : TopStays root k.machine.mem m := fun i v hv =>
        (hedge root ⟨[], Nat.zero_le _, walk_nil⟩ i).trans hv
      refine ⟨hspace, ⟨hi.withheld.1, fun hin => hi.withheld.2 ((inTree_agree hedge).mp hin)⟩, ?_,
        fun i => (hsame.entry i).trans (hi.child i), fun i h0 => htop.entry h0 (hi.parent i h0)⟩
      intro w' f hw' hb
      exact hi.apart w' f hw' (hi.space.backs_before hw' (hwalk w') hb)

/-- **The child can do nothing that its parent cannot**: a store of its own is one of the
parent's. -/
theorem Twins.as_parent (hi : Twins user root root' top k) (hd : ForkDoes user root root' k d k') :
    SpaceDoes user root k d k' := by
  cases hd with
  | parent h => exact h
  | @child w b m hw hm =>
      refine .store hw ?_
      by_cases htop : top (l4 w) = 0
      · unfold storeBy at hm
        rw [hi.hidden htop] at hm
        exact nomatch hm
      · unfold storeBy at hm ⊢
        rw [← hi.shared htop]
        exact hm

theorem Twins.trace {ds : List SpaceEvent} (hi : Twins user root root' top k)
    (h : Trace (ForkDoes user root root') k ds k') :
    Twins user root root' top k' ∧ Trace (SpaceDoes user root) k ds k' := by
  induction h with
  | nil => exact ⟨hi, .nil⟩
  | cons _ hd ih =>
      obtain ⟨htwins, htrace⟩ := ih
      have hdoes := htwins.as_parent hd
      exact ⟨htwins.parent_does hdoes, htrace.cons hdoes⟩

/--
**A fork shares everything there is.**

After any run of calls of `map_range` and stores, `clone_page_table` without `CLONE_VM` makes a
table. Over every run from then on, of what the parent maps and of what the two of them store: an
address in a slot of the level-4 table that was in use at the fork leads to the same byte in both,
also where the parent maps it later; any other address leads nowhere in the child; and each byte
that either of them has stored, before or after the fork, is in the page as stored last.
-/
theorem fork_shares {ds : List SpaceEvent} {k₀ : Space} (hstart : SpaceStart user root k₀)
    (h : Trace (SpaceDoes user root) k₀ ds k) (hflags : flags &&& 0x00000100 = 0)
    (hroot : root.addr ≠ 0) (hfound : (allocFrames k.machine.frames 1).1 ≠ 0) :
    ∃ child root', (clonePageTable hhdmOffset k.machine ⟨root.addr, refs⟩ flags).1 = some child ∧
      child.pageTablePhys = root'.addr ∧
      ∀ es k', Trace (ForkDoes user root root')
          ⟨(clonePageTable hhdmOffset k.machine ⟨root.addr, refs⟩ flags).2.2, k.pages⟩ es k' →
        (∀ w, translate user root' k'.machine.mem w =
          if entry hhdmOffset k.machine.mem root (l4 w) = 0 then none
          else translate user root k'.machine.mem w) ∧
        ((es ++ ds).foldr SpaceEvent.effect .empty).Extends (pageContents user root k') := by
  have hi := h.invariant (fun _ _ _ => inv_does) hstart.inv
  have hknown := h.extends (fun _ _ _ => inv_does) hstart.inv SpaceEvent.effect_mono
    (fun _ _ _ => extends_does) (Contents.empty_extends (pageContents user root k₀))
  have htaken : ¬ FreeFrame k.machine.frames root.num := fun hfree =>
    hi.ready.fresh root hfree ⟨[], Nat.zero_le _, walk_nil⟩
  obtain ⟨child, root', hsome, hphys, hforked⟩ :=
    clonePageTable_forked hi.size hflags hroot htaken hfound
  refine ⟨child, root', hsome, hphys, fun es k' hrun => ?_⟩
  obtain ⟨htwins, hpages⟩ := hforked.twins hi
  obtain ⟨htwins', htrace⟩ := htwins.trace hrun
  refine ⟨fun w => ?_, ?_⟩
  · split
    · exact htwins'.hidden ‹_›
    · exact htwins'.shared ‹_›
  · rw [List.foldr_append]
    exact htrace.extends (fun _ _ _ => inv_does) htwins.space SpaceEvent.effect_mono
      (fun _ _ _ => extends_does) (hknown.trans hpages)

/-- The bare machine with a page. -/
def onePage : Space :=
  ⟨mapRange hhdmOffset bareRoot.addr bareMachine 0x400000 0 7 1, addPages 0x400000 [] 1⟩

theorem fork_shares_bare : ∃ child root',
    (clonePageTable hhdmOffset onePage.machine ⟨bareRoot.addr, 1⟩ 0).1 = some child ∧
      child.pageTablePhys = root'.addr ∧
      ∀ es k', Trace (ForkDoes true bareRoot root')
          ⟨(clonePageTable hhdmOffset onePage.machine ⟨bareRoot.addr, 1⟩ 0).2.2, onePage.pages⟩
          es k' →
        (∀ w, translate true root' k'.machine.mem w =
          if entry hhdmOffset onePage.machine.mem bareRoot (l4 w) = 0 then none
          else translate true bareRoot k'.machine.mem w) ∧
        ((es ++ [SpaceEvent.mapRange 0x400000 7 1]).foldr SpaceEvent.effect .empty).Extends
          (pageContents true bareRoot k') := by
  have hmap : Trace (SpaceDoes true bareRoot) ⟨bareMachine, []⟩ [.mapRange 0x400000 7 1] onePage :=
    Trace.nil.cons (.mapRange (by decide) bareMachine_supplied)
  exact fork_shares bareMachine_start hmap (by decide) (by decide) (by decide +kernel)

end IonOS.Arch
