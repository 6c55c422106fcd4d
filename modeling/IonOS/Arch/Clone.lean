import IonOS.Arch.Unmap

/-!
# Cloning an address space

`copy_page_table_recursive` copies an entry that is not zero and goes down a level
where the entry is zero, which is the wrong way round. Where it goes down there is
no table, so the copy of an empty slot becomes `virt_to_phys(NULL)`; where it
copies, parent and child share a table. No user half is without both.
-/

namespace IonOS.Arch

open IonOS.Lib IonOS.Libs IonOS.Mm

variable {off : Nat} {root root' f : Frame} {s : Machine} {m m' : Mem}

/-! ## What a fork is for -/

/-- A path into the user half: level-4 entries 0 to 255. -/
def UserPath (p : List (Fin 512)) : Prop := ∃ i q, p = i :: q ∧ i.val < 256

/-- The bits of an entry that are not the frame. -/
def permissions (v : Nat) : Nat := v % 2 ^ 12 + v / 2 ^ 52 * 2 ^ 52

/-- What a fork owes parent and child: `root` is the parent's table in memory `m` before, `root'`
the child's in memory `m'` after. -/
structure ForkIsolated (off : Nat) (m : Mem) (root : Frame) (m' : Mem) (root' : Frame) : Prop where
  /-- The same user pages are mapped. -/
  mapped : ∀ v < 2 ^ 47, Mapped off m root v ↔ Mapped off m' root' v
  /-- With the same permissions. -/
  allowed : ∀ v < 2 ^ 47, ∀ es es' a a' f f', pageWalk off m root v = some (es ++ [a], f) →
    pageWalk off m' root' v = some (es' ++ [a'], f') → permissions a = permissions a'
  /-- And the same contents. -/
  contents : ∀ v < 2 ^ 47, ∀ es es' f f', pageWalk off m root v = some (es, f) →
    pageWalk off m' root' v = some (es', f') → ∀ x < pageSize,
      m (addW (physToVirt off f.addr) x) = m' (addW (physToVirt off f'.addr) x)
  /-- No table and no page is reachable from both user halves. -/
  apart : ∀ p q f, UserPath p → UserPath q → p.length ≤ 4 → q.length ≤ 4 →
    tableWalk off m' root p = some f → tableWalk off m' root' q ≠ some f
  /-- What is unmapped is unmapped in the child, at every level. -/
  unmapped : ∀ p, UserPath p → p.length ≤ 4 → tableWalk off m root p = none →
    tableWalk off m' root' p = none
  /-- The kernel half is shared. -/
  kernel : ∀ i : Fin 512, 256 ≤ i.val → entry off m' root' i = entry off m root i
  /-- The parent's tables do not change. -/
  parent : ∀ p t i, p.length ≤ 3 → tableWalk off m root p = some t →
    entry off m' t i = entry off m t i

/-! ## What the copy does -/

/-- The entry of the copy. -/
def childEntry (off v : Nat) : Nat := if v = 0 then virtToPhys off 0 else v

theorem virtToPhys_null (hoff0 : off % 2 ^ 64 ≠ 0) : virtToPhys off 0 ≠ 0 := by
  unfold virtToPhys subW
  omega

theorem virtToPhys_physToVirt (f : Frame) (off : Nat) :
    virtToPhys off (physToVirt off f.addr) = f.addr := by
  have hlt := f.lt
  unfold virtToPhys physToVirt subW addW Frame.addr pageSize
  omega

/-- The recursion on the table of an empty slot. -/
theorem copy_null (off : Nat) (allCopy : Bool) (level : Nat) (s : Machine) (kernelSpace : Bool) :
    copyPageTableRecursive off allCopy level s 0 kernelSpace = (0, s) := by
  cases level <;> simp [copyPageTableRecursive]

/-- **The loop over the entries** fills the new table and touches nothing else. -/
theorem copyEntries_edge (hoff : off % pageSize = 0) (hoff0 : off % 2 ^ 64 ≠ 0) (hne : root ≠ f)
    {next : Machine → Nat → Bool → Nat × Machine} (hnext : ∀ s b, next s 0 b = (0, s))
    (kernelSpace : Nat → Bool) (s : Machine) {n : Nat} (hn : n ≤ 512) (t : Frame) (i : Fin 512) :
    edge off (copyEntries off next root.addr (physToVirt off f.addr) kernelSpace s n).mem t i =
      if t = f ∧ i.val < n then some (childEntry off (entry off s.mem root i))
      else edge off s.mem t i := by
  induction n generalizing t i with
  | zero => simp [copyEntries]
  | succ n ih =>
    have ih' := ih (by omega)
    let j : Fin 512 := ⟨n, by omega⟩
    rw [copyEntries]
    generalize copyEntries off next root.addr (physToVirt off f.addr) kernelSpace s n = c at ih' ⊢
    -- the source is another table, so it still reads as it did
    have hread : c.mem.read64 (entryAddr (physToVirt off root.addr) n) = entry off s.mem root j := by
      have he : edge off c.mem root j = edge off s.mem root j := by
        rw [ih' root j, if_neg fun h => hne h.1]
      unfold edge at he
      change entry off c.mem root j = _
      split at he <;> split at he
      · rw [‹entry off c.mem root j = 0›, ‹entry off s.mem root j = 0›]
      · exact absurd he (by simp)
      · exact absurd he (by simp)
      · exact Option.some.inj he
    have hwrite : ∀ v, v < 2 ^ 64 → v ≠ 0 → v = childEntry off (entry off s.mem root j) →
        edge off (c.mem.write64 (entryAddr (physToVirt off f.addr) n) v) t i =
          if t = f ∧ i.val < n + 1 then some (childEntry off (entry off s.mem root i))
          else edge off s.mem t i := by
      intro v hv hv0 hvj
      have hedge := edge_write hoff c.mem f j hv
      rw [show entryAddr (physToVirt off f.addr) n = entryAddr (physToVirt off f.addr) j.val from rfl,
        hedge, setEdge, if_neg hv0, ih']
      by_cases ht : t = f
      · by_cases hi : i = j
        · have hlt : j.val < n + 1 := Nat.lt_succ_self n
          rw [if_pos ⟨ht, hi⟩, if_pos ⟨ht, hi ▸ hlt⟩, hvj, hi]
        · have hiff : i.val < n + 1 ↔ i.val < n := by
            have : i.val ≠ n := fun h => hi (Fin.ext h)
            omega
          simp only [ht, hi, and_false, if_false, true_and, hiff]
      · simp [ht]
    dsimp only
    rw [hread]
    by_cases h0 : entry off s.mem root j = 0
    · have hzero : copyMask 0 = 0 := Nat.zero_and _
      rw [if_neg (by simpa using h0), h0, hzero, hnext]
      dsimp only
      rw [hread, h0, Nat.zero_and, Nat.or_zero]
      exact hwrite _ (subW_lt _ _) (virtToPhys_null hoff0) (by rw [h0, childEntry, if_pos rfl])
    · rw [if_pos h0]
      exact hwrite _ (Mem.read64_lt _ _) h0 (by rw [childEntry, if_neg h0])

/-- Copying into the upper half of a table leaves the lower half of every table alone. -/
theorem edge_memcpy_upper (hoff : off % pageSize = 0) (m : Mem) (f t : Frame) (src : Nat)
    {i : Fin 512} (hi : i.val < 256) :
    edge off (memcpy m (entryAddr (physToVirt off f.addr) 256) src (pageSize / 2)) t i =
      edge off m t i := by
  have hread : entry off (memcpy m (entryAddr (physToVirt off f.addr) 256) src (pageSize / 2)) t i =
      entry off m t i := by
    have hupper : entryAddr (physToVirt off f.addr) 256 = (f.addr + off) % 2 ^ 64 + 8 * 256 :=
      entryAddr_eq hoff f (256 : Fin 512)
    have hlower := entryAddr_eq hoff t i
    have hf := f.lt
    have ht := t.lt
    unfold entry
    rw [hupper, hlower]
    refine Mem.read64_congr fun x h1 h2 => memcpy_other ?_
    by_cases htf : t = f
    · rw [htf] at h1 h2
      omega
    · have hnum : t.num ≠ f.num := fun h => htf (Frame.ext' h)
      unfold Frame.addr pageSize at *
      omega
  unfold edge
  rw [hread]

/-- What the top-level table of the child has in its user half, whatever the parent has in its. -/
theorem clonePageTable_entry (hoff : off % pageSize = 0) (hoff0 : off % 2 ^ 64 ≠ 0)
    {refs flags : Nat} (hflags : flags &&& 0x00000100 = 0) (hroot : root.addr ≠ 0)
    (hsize : s.frames.size ≤ 2 ^ 52) (htaken : ¬ FreeFrame s.frames root.num)
    (hfree : (freeBelow s.frames (2 ^ 40)).Nonempty) :
    ∃ child root', (clonePageTable off s ⟨root.addr, refs⟩ flags).1 = some child ∧
      child.pageTablePhys = root'.addr ∧ root' ≠ root ∧
      ∀ t (i : Fin 512), i.val < 256 →
        edge off (clonePageTable off s ⟨root.addr, refs⟩ flags).2.2.mem t i =
          if t = root' then some (childEntry off (entry off s.mem root i))
          else edge off s.mem t i := by
  obtain ⟨r, b, hr, halloc, -, -⟩ := allocFrames_one hsize hfree
  obtain ⟨hr1, hr2, hr3⟩ := mem_freeBelow.mp hr
  obtain ⟨f, rfl⟩ : ∃ f : Frame, f.num = r := ⟨⟨r, hr2⟩, rfl⟩
  have hne : root ≠ f := by
    rintro rfl
    exact htaken ⟨by omega, hr3⟩
  have hnext := fun s b => copy_null off false 3 s b
  have hcopy := copyEntries_edge hoff hoff0 hne hnext (fun i => 256 ≤ i) { s with frames := b }
    (by decide : 256 ≤ 512)
  have hclone : clonePageTable off s ⟨root.addr, refs⟩ flags =
      (some ⟨f.addr, addW 0 1⟩, ⟨root.addr, refs⟩,
        ⟨memcpy (copyEntries off (copyPageTableRecursive off false 3) root.addr
            (physToVirt off f.addr) (fun i => 256 ≤ i) { s with frames := b } 256).mem
            (entryAddr (physToVirt off f.addr) 256) (entryAddr (physToVirt off root.addr) 256)
            (pageSize / 2),
          (copyEntries off (copyPageTableRecursive off false 3) root.addr
            (physToVirt off f.addr) (fun i => 256 ≤ i) { s with frames := b } 256).frames⟩) := by
    unfold clonePageTable
    rw [if_neg (by simpa using hflags), copyPageTableRecursive.eq_2, if_neg hroot, halloc]
    simp [hflags, show f.num * pageSize = f.addr from rfl, virtToPhys_physToVirt]
  rw [hclone]
  refine ⟨_, f, rfl, rfl, hne.symm, fun t i hi => ?_⟩
  dsimp only
  rw [edge_memcpy_upper hoff _ f t _ hi, hcopy]
  simp [hi]

/-! ## The fork -/

/-- **Both ways of going wrong**: an empty slot that is not empty in the child, or a shared table. -/
theorem not_isolated (hne : root' ≠ root)
    (hedge : ∀ t (i : Fin 512), i.val < 256 → edge off m' t i =
      if t = root' then some (childEntry off (entry off m root i)) else edge off m t i) :
    ¬ ForkIsolated off m root m' root' := by
  intro h
  have hchild : tableWalk off m' root' [0] =
      some (entryFrame (childEntry off (entry off m root 0))) := by
    simp [tableWalk, walk, route, hedge root' 0 (by decide)]
  by_cases h0 : entry off m root 0 = 0
  · have hparent : tableWalk off m root [0] = none := by
      simp [tableWalk, walk, route, edge_eq_none.mpr h0]
    have := h.unmapped [0] ⟨0, [], rfl, by decide⟩ (by decide) hparent
    rw [hchild] at this
    exact absurd this (by simp)
  · have hsame : edge off m' root 0 = some (entry off m root 0) := by
      rw [hedge root 0 (by decide), if_neg hne.symm]
      exact edge_eq_some.mpr ⟨rfl, h0⟩
    have hparent : tableWalk off m' root [0] = some (entryFrame (entry off m root 0)) := by
      simp [tableWalk, walk, route, hsame]
    rw [childEntry, if_neg h0] at hchild
    exact h.apart [0] [0] _ ⟨0, [], rfl, by decide⟩ ⟨0, [], rfl, by decide⟩ (by decide) (by decide)
      hparent hchild

/--
**A fork is never isolated.**

For every parent, whatever its user half maps, and every frame content: a child is
made, and it is not isolated from the parent.
-/
theorem clone_not_isolated (hoff : off % pageSize = 0) (hoff0 : off % 2 ^ 64 ≠ 0)
    {refs flags : Nat} (hflags : flags &&& 0x00000100 = 0) (hroot : root.addr ≠ 0)
    (hsize : s.frames.size ≤ 2 ^ 52) (htaken : ¬ FreeFrame s.frames root.num)
    (hfree : (freeBelow s.frames (2 ^ 40)).Nonempty) :
    ∃ child root', (clonePageTable off s ⟨root.addr, refs⟩ flags).1 = some child ∧
      child.pageTablePhys = root'.addr ∧
      ¬ ForkIsolated off s.mem root (clonePageTable off s ⟨root.addr, refs⟩ flags).2.2.mem
        root' := by
  obtain ⟨child, root', hsome, hphys, hne, hedge⟩ :=
    clonePageTable_entry hoff hoff0 hflags hroot hsize htaken hfree
  exact ⟨child, root', hsome, hphys, not_isolated hne hedge⟩

/-- The fork of an empty user half. -/
theorem clone_not_isolated_bare : ∃ child root',
    (clonePageTable hhdmOffset bareMachine ⟨bareRoot.addr, 1⟩ 0).1 = some child ∧
      child.pageTablePhys = root'.addr ∧
      ¬ ForkIsolated hhdmOffset bareMachine.mem bareRoot
        (clonePageTable hhdmOffset bareMachine ⟨bareRoot.addr, 1⟩ 0).2.2.mem root' :=
  clone_not_isolated (by decide) (by decide) (by decide) (by decide) (by decide)
    (fun h => absurd h.2 (by decide)) ⟨2, by decide +kernel⟩

/-- **An empty slot turns into an entry** that names physical address `2 ^ 47`. -/
theorem clone_fills_slot : ∃ child root',
    (clonePageTable hhdmOffset bareMachine ⟨bareRoot.addr, 1⟩ 0).1 = some child ∧
      child.pageTablePhys = root'.addr ∧
      tableWalk hhdmOffset bareMachine.mem bareRoot [0] = none ∧
      tableWalk hhdmOffset (clonePageTable hhdmOffset bareMachine ⟨bareRoot.addr, 1⟩ 0).2.2.mem
        root' [0] = some ⟨2 ^ 35, by decide⟩ ∧
      ¬ ForkIsolated hhdmOffset bareMachine.mem bareRoot
        (clonePageTable hhdmOffset bareMachine ⟨bareRoot.addr, 1⟩ 0).2.2.mem root' := by
  obtain ⟨child, root', hsome, hphys, hne, hedge⟩ := clonePageTable_entry
    (s := bareMachine) hhdmOffset_aligned (by decide) (by decide : 0 &&& 0x00000100 = 0)
    (by decide : bareRoot.addr ≠ 0) (by decide) (fun h => absurd h.2 (by decide))
    ⟨2, by decide +kernel⟩
  have hzero : entry hhdmOffset bareMachine.mem bareRoot 0 = 0 := Mem.read64_zero _
  refine ⟨child, root', hsome, hphys, ?_, ?_, not_isolated hne hedge⟩
  · simp [tableWalk, walk, route, edge_eq_none.mpr hzero]
  · have hentry : entryFrame (childEntry hhdmOffset 0) = ⟨2 ^ 35, by decide⟩ := by decide
    simp [tableWalk, walk, route, hedge root' 0 (by decide), hzero, hentry]

end IonOS.Arch
