import IonOS.Arch.Map

/-!
# Unmapping

`unmap` clears the entries of a page at all four levels, the highest first. With
the level-4 entry goes everything under it, so the page has to be alone there for
the others to stay (`unmap_exact_iff`). A second page under the same entry is then
looked for in whatever frame 0 holds.
-/

namespace IonOS.Arch

open IonOS.Lib IonOS.Libs IonOS.Mm

variable {off : Nat} {root : Frame} {s : Machine} {m : Mem} {v w : Nat}

/-- The walk of the address ends in a page. -/
def Mapped (off : Nat) (m : Mem) (root : Frame) (v : Nat) : Prop := pageWalk off m root v ≠ none

/-- What `unmap` is for: the page goes, and no other page is affected. -/
def UnmapExact (off : Nat) (root : Frame) (s : Machine) (v : Nat) : Prop :=
  pageWalk off (unmap off root.addr s v).mem root v = none ∧
    ∀ w, page w ≠ page v →
      pageWalk off (unmap off root.addr s v).mem root w = pageWalk off s.mem root w

/-- No other page is mapped under the same level-4 entry. -/
def Alone (off : Nat) (m : Mem) (root : Frame) (v : Nat) : Prop :=
  ∀ w, Mapped off m root w → l4 w = l4 v → page w = page v

theorem mapped_iff : Mapped off m root v ↔ ∃ x, pageWalk off m root v = some x :=
  Option.ne_none_iff_exists'

theorem pageWalk_congr (h : page w = page v) : pageWalk off m root w = pageWalk off m root v := by
  unfold pageWalk
  rw [pagePath_inj.mpr h]

/-! ## One page -/

/-- **`unmap` on a mapped page** clears the four edges on its way. -/
theorem edge_unmap (hoff : off % pageSize = 0) (ht : PageTables off s.mem root) {v4 v3 v2 : Nat}
    (h4 : edge off s.mem root (l4 v) = some v4)
    (h3 : edge off s.mem (entryFrame v4) (l3 v) = some v3)
    (h2 : edge off s.mem (entryFrame v3) (l2 v) = some v2) :
    edge off (unmap off root.addr s v).mem =
      setEdge (setEdge (setEdge (setEdge (edge off s.mem) root (l4 v) none)
        (entryFrame v4) (l3 v) none) (entryFrame v3) (l2 v) none) (entryFrame v2) (l1 v) none := by
  obtain ⟨w3, w2, w1⟩ := PageTables.walks h4 h3 h2
  have e4 : s.mem.read64 (entryAddr (physToVirt off root.addr) (l4Index v)) = v4 :=
    (edge_eq_some.mp h4).1
  have e3 : s.mem.read64 (entryAddr (physToVirt off (entryFrame v4).addr) (l3Index v)) = v3 :=
    (edge_eq_some.mp h3).1
  have e2 : s.mem.read64 (entryAddr (physToVirt off (entryFrame v3).addr) (l2Index v)) = v2 :=
    (edge_eq_some.mp h2).1
  have hzero : ∀ (m : Mem) (t : Frame) (i : Fin 512),
      edge off (m.write64 (entryAddr (physToVirt off t.addr) i) 0) = setEdge (edge off m) t i none :=
    fun m t i => edge_write hoff m t i (by decide)
  unfold unmap clearEntry
  dsimp only
  rw [e4, walkMask_entry (ht.low (by simp) w3), e3, walkMask_entry (ht.low (by simp) w2), e2,
    walkMask_entry (ht.low (by simp) w1)]
  rw [← hzero, ← hzero, ← hzero, ← hzero]
  rfl

/-- **After `unmap`** there is nothing under the level-4 entry, and everything else is as before. -/
theorem unmap_route (hoff : off % pageSize = 0) (ht : PageTables off s.mem root)
    (hm : Mapped off s.mem root v) (q : List (Fin 512)) (hq : q.length ≤ 4) :
    tableRoute off (unmap off root.addr s v).mem root q =
      if [l4 v] <+: q then none else tableRoute off s.mem root q := by
  obtain ⟨x, hx⟩ := mapped_iff.mp hm
  obtain ⟨v4, v3, v2, v1, h4, h3, h2, -, -⟩ := pageWalk_eq_some.mp hx
  obtain ⟨w3, w2, w1⟩ := PageTables.walks h4 h3 h2
  have hedge := edge_unmap hoff ht h4 h3 h2
  unfold tableRoute
  by_cases hunder : [l4 v] <+: q
  · rw [if_pos hunder]
    obtain ⟨p, rfl⟩ := hunder
    have hgone : edge off (unmap off root.addr s v).mem root (l4 v) = none := by
      rw [hedge]
      simp [setEdge]
    rw [List.singleton_append, route, hgone]
    rfl
  · rw [if_neg hunder]
    refine route_congr fun p i t hpre hw => ?_
    have hlen := hpre.length_le
    rw [List.length_append, List.length_singleton] at hlen
    -- a table reached here by another path than the page's own is another table
    have hother : ∀ p' t', tableWalk off s.mem root p' = some t' → p'.length ≤ 3 →
        ∀ j, [l4 v] <+: p' ++ [j] → ¬ (t = t' ∧ i = j) := by
      rintro p' _ hw' hp' j hunder' ⟨rfl, rfl⟩
      rw [ht.tree p p' t (by omega) hp' hw hw'] at hpre
      exact hunder (hunder'.trans hpre)
    rw [hedge]
    unfold setEdge
    rw [if_neg (hother _ _ w1 (by simp) _ (by simp)), if_neg (hother _ _ w2 (by simp) _ (by simp)),
      if_neg (hother _ _ w3 (by simp) _ (by simp)), if_neg (hother [] _ rfl (by simp) _ (by simp))]

theorem unmap_pageWalk (hoff : off % pageSize = 0) (ht : PageTables off s.mem root)
    (hm : Mapped off s.mem root v) (w : Nat) :
    pageWalk off (unmap off root.addr s v).mem root w =
      if l4 w = l4 v then none else pageWalk off s.mem root w := by
  unfold pageWalk
  rw [unmap_route hoff ht hm _ (Nat.le_refl _)]
  by_cases h : l4 w = l4 v
  · rw [if_pos h, if_pos]
    simp [pagePath, h]
  · rw [if_neg h, if_neg]
    simpa [pagePath] using Ne.symm h

/-- What is left is a well-formed tree. -/
theorem unmap_tables (hoff : off % pageSize = 0) (ht : PageTables off s.mem root)
    (hm : Mapped off s.mem root v) : PageTables off (unmap off root.addr s v).mem root := by
  obtain ⟨x, hx⟩ := mapped_iff.mp hm
  obtain ⟨v4, v3, v2, v1, h4, h3, h2, -, -⟩ := pageWalk_eq_some.mp hx
  have hfewer : ∀ t i u, edge off (unmap off root.addr s v).mem t i = some u →
      edge off s.mem t i = some u := by
    intro t i u hu
    rw [edge_unmap hoff ht h4 h3 h2] at hu
    unfold setEdge at hu
    split_ifs at hu
    exact hu
  refine ⟨ht.root_low, fun p q f hp hq hwp hwq => ?_, fun p t i u hp hw hu => ?_⟩
  · exact ht.tree p q f hp hq (walk_mono hfewer hwp) (walk_mono hfewer hwq)
  · exact ht.upper p t i u hp (walk_mono hfewer hw) (hfewer t i u hu)

/-- **One unmap is exact if and only if the page is alone.** -/
theorem unmap_exact (hoff : off % pageSize = 0) (ht : PageTables off s.mem root)
    (hm : Mapped off s.mem root v) : UnmapExact off root s v ↔ Alone off s.mem root v := by
  have hwalk := unmap_pageWalk hoff ht hm
  constructor
  · rintro ⟨-, hkeep⟩ w hw hl4
    by_contra hne
    have := hkeep w hne
    rw [hwalk, if_pos hl4] at this
    exact hw this.symm
  · intro halone
    refine ⟨by rw [hwalk, if_pos rfl], fun w hne => ?_⟩
    rw [hwalk]
    by_cases hl4 : l4 w = l4 v
    · rw [if_pos hl4]
      by_contra h
      exact hne (halone w (Ne.symm h) hl4)
    · exact if_neg hl4

/-- An exact unmap leaves every other page alone that was. -/
theorem unmap_of_alone (hoff : off % pageSize = 0) (ht : PageTables off s.mem root)
    (hm : Mapped off s.mem root v) (ha : Alone off s.mem root v) (w : Nat) :
    pageWalk off (unmap off root.addr s v).mem root w =
      if page w = page v then none else pageWalk off s.mem root w := by
  obtain ⟨hgone, hkeep⟩ := (unmap_exact hoff ht hm).mpr ha
  by_cases h : page w = page v
  · rw [if_pos h, pageWalk_congr h, hgone]
  · rw [if_neg h, hkeep w h]

/-! ## A range -/

/-- Page `i` of the range at `virt`. -/
def rangePage (virt i : Nat) : Nat := addW virt (i * pageSize)

/-- What `unmap_range` is for: each unmap is exact, and together they remove the pages of the
range. -/
def UnmapRangeExact (off : Nat) (root : Frame) (s : Machine) (virt n : Nat) : Prop :=
  (∀ i < n, UnmapExact off root (unmapRange off root.addr s virt i) (rangePage virt i)) ∧
    ∀ w, pageWalk off (unmapRange off root.addr s virt n).mem root w =
      if ∃ i < n, page w = page (rangePage virt i) then none else pageWalk off s.mem root w

variable {virt n : Nat}

/-- Of three pages in a row two are under the same level-4 entry, and are not the same page. -/
theorem alone_le_two (hm : ∀ i < n, Mapped off s.mem root (rangePage virt i))
    (ha : ∀ i < n, Alone off s.mem root (rangePage virt i)) : n ≤ 2 := by
  by_contra h
  have h01 := ha 0 (by omega) _ (hm 1 (by omega))
  have h12 := ha 1 (by omega) _ (hm 2 (by omega))
  simp only [l4, l4Index, nineBits, Fin.mk.injEq, rangePage, page, addW, pageSize] at h01 h12
  omega

/-- **While the pages are alone**, unmapping a range removes them one after the other. -/
theorem unmapRange_of_alone (hoff : off % pageSize = 0) (ht : PageTables off s.mem root)
    (hm : ∀ i < n, Mapped off s.mem root (rangePage virt i))
    (ha : ∀ i < n, Alone off s.mem root (rangePage virt i)) :
    PageTables off (unmapRange off root.addr s virt n).mem root ∧ UnmapRangeExact off root s virt n := by
  have htwo := alone_le_two hm ha
  induction n with
  | zero => exact ⟨ht, fun i hi => absurd hi (by omega), fun w => by simp [unmapRange]⟩
  | succ n ih =>
    obtain ⟨htn, hexact, hwalk⟩ := ih (fun i hi => hm i (by omega)) (fun i hi => ha i (by omega))
      (by omega)
    have hnew : ¬ ∃ i < n, page (rangePage virt n) = page (rangePage virt i) := by
      rintro ⟨i, hi, h⟩
      simp only [page, rangePage, addW, pageSize] at h
      omega
    have hmn : Mapped off (unmapRange off root.addr s virt n).mem root (rangePage virt n) := by
      unfold Mapped
      rw [hwalk, if_neg hnew]
      exact hm n (by omega)
    have han : Alone off (unmapRange off root.addr s virt n).mem root (rangePage virt n) := by
      intro w hw hl4
      unfold Mapped at hw
      rw [hwalk] at hw
      split_ifs at hw
      · exact absurd rfl hw
      · exact ha n (by omega) w hw hl4
    refine ⟨unmap_tables hoff htn hmn, fun i hi => ?_, fun w => ?_⟩
    · rcases Nat.lt_succ_iff_lt_or_eq.mp hi with hi | rfl
      · exact hexact i hi
      · exact (unmap_exact hoff htn hmn).mpr han
    · rw [show unmapRange off root.addr s virt (n + 1) =
        unmap off root.addr (unmapRange off root.addr s virt n) (rangePage virt n) from rfl,
        unmap_of_alone hoff htn hmn han, hwalk]
      simp only [Nat.lt_succ_iff_lt_or_eq, or_and_right, exists_or, exists_eq_left]
      by_cases h : page w = page (rangePage virt n) <;> simp [h]

/--
**Unmapping is local exactly when the pages are alone.**

For a range of mapped pages of a well-formed tree: every unmap of the range
removes its page and no other, and `unmap_range` the pages of the range and no
others, if and only if no page of the range shares its level-4 entry with another
mapped page.
-/
theorem unmapRange_exact_iff (hoff : off % pageSize = 0) (ht : PageTables off s.mem root)
    (hm : ∀ i < n, Mapped off s.mem root (rangePage virt i)) :
    UnmapRangeExact off root s virt n ↔ ∀ i < n, Alone off s.mem root (rangePage virt i) := by
  constructor
  · rintro ⟨hexact, -⟩
    -- the pages before page `k` are alone, so what is left when its turn comes is known
    have hprefix : ∀ k ≤ n, ∀ i < k, Alone off s.mem root (rangePage virt i) := by
      intro k hk
      induction k with
      | zero => exact fun i hi => absurd hi (by omega)
      | succ k ih =>
        have ha := ih (by omega)
        have hmk : ∀ i < k, Mapped off s.mem root (rangePage virt i) := fun i hi => hm i (by omega)
        have htwo := alone_le_two hmk ha
        obtain ⟨htk, -, hwalk⟩ := unmapRange_of_alone hoff ht hmk ha
        have hnew : ¬ ∃ i < k, page (rangePage virt k) = page (rangePage virt i) := by
          rintro ⟨i, hi, h⟩
          simp only [page, rangePage, addW, pageSize] at h
          omega
        have hmapped : Mapped off (unmapRange off root.addr s virt k).mem root
            (rangePage virt k) := by
          unfold Mapped
          rw [hwalk, if_neg hnew]
          exact hm k (by omega)
        have hak := (unmap_exact hoff htk hmapped).mp (hexact k (by omega))
        intro i hi w hw hl4
        rcases Nat.lt_succ_iff_lt_or_eq.mp hi with hi | rfl
        · exact ha i hi w hw hl4
        · by_cases h : ∃ j < i, page w = page (rangePage virt j)
          · -- a page already removed was alone, also from page `i`
            obtain ⟨j, hj, h⟩ := h
            have hl4' : l4 (rangePage virt i) = l4 (rangePage virt j) := by
              rw [← hl4]
              have := pagePath_inj.mpr h
              simp only [pagePath, List.cons.injEq] at this
              exact this.1
            exact absurd ⟨j, hj, ha j hj _ (hm i (by omega)) hl4'⟩ hnew
          · refine hak w ?_ hl4
            unfold Mapped
            rw [hwalk, if_neg h]
            exact hw
    exact hprefix n (Nat.le_refl _)
  · exact fun ha => (unmapRange_of_alone hoff ht hm ha).2

/-! ## One page, and two -/

/-- The bare machine with the first `count` of two neighbouring pages mapped. -/
def barePages (count : Nat) : Machine :=
  mapRange hhdmOffset bareRoot.addr bareMachine 0x400000 0x100000 7 count

theorem barePages_spec (count : Nat) (hc : count ≤ 2) :
    PageTables hhdmOffset (barePages count).mem bareRoot ∧
      (∀ i < count, Mapped hhdmOffset (barePages count).mem bareRoot (0x400000 + i * pageSize)) ∧
      ∀ w, Mapped hhdmOffset (barePages count).mem bareRoot w →
        ∃ i < count, page w = page (0x400000 + i * pageSize) := by
  have hshort : ∀ p ∈ rangePaths 0x400000 2, p.length ≤ 3 := by decide +kernel
  have hr : Ready bareRoot (rangePaths 0x400000 2) bareMachine :=
    ⟨bareMachine_tables, by decide, bareMachine_fresh, bareMachine_enough _, hshort⟩
  have hsub : rangePaths 0x400000 count ⊆ rangePaths 0x400000 2 :=
    Finset.biUnion_subset_biUnion_of_subset_left _ (Finset.range_subset_range.mpr hc)
  obtain ⟨hr', hmapped, hother⟩ := mapRange_ready 7 hr hsub (by decide)
    (by decide : 0x100000 % pageSize = 0) (by decide) (by unfold pageSize; omega)
    (by unfold pageSize; omega)
  refine ⟨hr'.tables, fun i hi => ?_, fun w hw => ?_⟩
  · obtain ⟨es, hes⟩ := hmapped i hi
    exact mapped_iff.mpr ⟨_, hes⟩
  · by_contra h
    have hnone := hother w fun i hi he => h ⟨i, hi, he⟩
    have hbare : pageWalk hhdmOffset bareMachine.mem bareRoot w = none := by
      have hedge := edge_zero hhdmOffset bareRoot (l4 w)
      simp only [pageWalk, tableRoute, pagePath, route, bareMachine, hedge, Option.bind_none]
    exact hw (hnone.trans hbare)

/-- A page alone in its address space is unmapped, and nothing else is. -/
theorem unmapRange_exact_single :
    UnmapRangeExact hhdmOffset bareRoot (barePages 1) 0x400000 1 := by
  obtain ⟨ht, hmapped, honly⟩ := barePages_spec 1 (by decide)
  refine (unmapRange_exact_iff hhdmOffset_aligned ht fun i hi => ?_).mpr fun i hi w hw _ => ?_
  · obtain rfl : i = 0 := by omega
    exact hmapped 0 hi
  · obtain rfl : i = 0 := by omega
    obtain ⟨j, hj, h⟩ := honly w hw
    obtain rfl : j = 0 := by omega
    exact h

/-- **`unmap` takes the neighbour along.** -/
theorem unmap_neighbour :
    Mapped hhdmOffset (barePages 2).mem bareRoot 0x400000 ∧
      Mapped hhdmOffset (barePages 2).mem bareRoot 0x401000 ∧
      ¬ UnmapExact hhdmOffset bareRoot (barePages 2) 0x400000 := by
  obtain ⟨ht, hmapped, -⟩ := barePages_spec 2 (by decide)
  have h0 := hmapped 0 (by decide)
  have h1 := hmapped 1 (by decide)
  refine ⟨h0, h1, fun hexact => ?_⟩
  have halone := (unmap_exact hhdmOffset_aligned ht h0).mp hexact
  exact absurd (halone _ h1 (by decide)) (by decide)

end IonOS.Arch
