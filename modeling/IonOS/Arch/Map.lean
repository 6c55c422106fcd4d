import IonOS.Arch.Tree
import Mathlib.Algebra.Order.BigOperators.Group.Finset
import Mathlib.Data.Finset.Union

/-!
# Mapping

`map_range` writes one last-level entry for each page, after `page_table_create`
has made whatever tables are missing on the way. `Ready` is what carries the loop:
the tables are a tree, no free frame is part of it, and there is a free frame for
each table still missing. Creating a table uses up one of either kind.
-/

namespace IonOS.Arch

open IonOS.Lib IonOS.Libs IonOS.Mm

/-! ## What mapping needs -/

/-- The paths to the tables on the way to a page. -/
def tablePaths (v : Nat) : Finset (List (Fin 512)) :=
  {[l4 v], [l4 v, l3 v], [l4 v, l3 v, l2 v]}

/-- The paths to the tables on the way to any of `count` pages. -/
def rangePaths (virt count : Nat) : Finset (List (Fin 512)) :=
  (Finset.range count).biUnion fun i => tablePaths (virt + i * pageSize)

/-- The tables among `P` that do not exist yet. -/
def missing (off : Nat) (m : Mem) (root : Frame) (P : Finset (List (Fin 512))) :
    Finset (List (Fin 512)) :=
  P.filter fun p => tableWalk off m root p = none

/-- The frames the direct map shows. -/
def hhdmFrames : Nat := 2 ^ 35

/-- Mapping pages whose tables are `P` will succeed. -/
structure Ready (root : Frame) (P : Finset (List (Fin 512))) (s : Machine) : Prop where
  tables : PageTables hhdmOffset s.mem root
  /-- Frame numbers fit an address. -/
  size : s.frames.size ≤ 2 ^ 52
  /-- Free frames are not part of the tree. -/
  fresh : ∀ f : Frame, FreeFrame s.frames f.num →
    ¬ InTree (edge hhdmOffset s.mem) entryFrame root 3 f
  /-- There are frames for the tables that are missing. -/
  enough : (missing hhdmOffset s.mem root P).card ≤ (freeBelow s.frames hhdmFrames).card
  /-- `P` is about tables, not pages. -/
  short : ∀ p ∈ P, p.length ≤ 3

variable {root t : Frame} {P : Finset (List (Fin 512))} {s : Machine} {p : List (Fin 512)}
  {i : Fin 512} {es : List Nat} {virt phys count : Nat}

/-! ## Making a table -/

/-- The entry that `page_table_create` writes: present, writable, user. -/
theorem tableEntry {f : Frame} (hf : f.addr < 2 ^ 47) :
    f.addr ||| 1 ||| 2 ||| 4 = f.addr + 7 ∧ entryFrame (f.addr + 7) = f ∧
      (f.addr + 7) / 2 ^ 7 % 2 = 0 ∧ f.addr + 7 < 2 ^ 64 := by
  have hflags : f.addr ||| 1 ||| 2 ||| 4 = f.addr ||| 7 := by
    rw [Nat.or_assoc, Nat.or_assoc]
    rfl
  have haddr : f.addr = f.num * 4096 := rfl
  have hlt := f.lt
  refine ⟨?_, Frame.ext' ?_, by omega, by omega⟩
  · rw [hflags, or_low (k := 12) (by omega) (by decide)]
  · show (f.addr + 7) / 2 ^ 12 % 2 ^ 40 = f.num
    omega

/-- **Linking a fresh table keeps everything ready.** -/
theorem ready_link {s' : Machine} {f : Frame} (hr : Ready root P s)
    (ht : tableRoute hhdmOffset s.mem root p = some (es, t)) (hp : p.length < 3)
    (hnone : edge hhdmOffset s.mem t i = none) (hP : p ++ [i] ∈ P)
    (hf : f.num ∈ freeBelow s.frames hhdmFrames)
    (hedge : edge hhdmOffset s'.mem =
      link (edge hhdmOffset s.mem) entryFrame t i (f.addr + 7))
    (hsize : s'.frames.size = s.frames.size)
    (hget : ∀ g, s'.frames.get g = if g = f.num then false else s.frames.get g) :
    Ready root P s' ∧ tableWalk hhdmOffset s'.mem root (p ++ [i]) = some f ∧
      ∀ q : List (Fin 512), q.length = 4 →
        tableRoute hhdmOffset s'.mem root q = tableRoute hhdmOffset s.mem root q := by
  obtain ⟨hfs, hfd, hfg⟩ := mem_freeBelow.mp hf
  have haddr : f.addr < 2 ^ 47 := by
    unfold Frame.addr pageSize
    unfold hhdmFrames at hfd
    omega
  obtain ⟨-, hframe, hbit, -⟩ := tableEntry haddr
  have htree := hr.tables.tree
  have hfresh : ¬ InTree (edge hhdmOffset s.mem) entryFrame root 3 (entryFrame (f.addr + 7)) := by
    rw [hframe]
    exact hr.fresh f ⟨by omega, hfg⟩
  have hwalk : ∀ q : List (Fin 512), q.length ≤ 4 → tableWalk hhdmOffset s'.mem root q =
      if q = p ++ [i] then some f else tableWalk hhdmOffset s.mem root q := by
    intro q hq
    unfold tableWalk
    rw [hedge, walk_link htree ht hp hnone hfresh hq, hframe]
  have hnew : tableWalk hhdmOffset s.mem root (p ++ [i]) = none := by
    have hw : walk (edge hhdmOffset s.mem) entryFrame root p = some t := walk_eq_some.mpr ⟨es, ht⟩
    unfold tableWalk
    rw [walk_concat, hw, Option.bind_some, hnone]
    rfl
  have hlen : (p ++ [i]).length ≤ 3 := hr.short _ hP
  refine ⟨⟨⟨hr.tables.root_low, ?_, ?_⟩, ?_, ?_, ?_, hr.short⟩, ?_, ?_⟩
  · rw [hedge]
    exact isTree_link htree ht hp hnone hfresh
  · intro q x j w hq hx hw
    rw [hwalk q (by omega)] at hx
    rw [hedge, link, setEdge, hframe] at hw
    by_cases hxt : x = t ∧ j = i
    · rw [if_pos hxt] at hw
      obtain rfl := Option.some.inj hw
      rw [hframe]
      exact ⟨haddr, hbit⟩
    · rw [if_neg hxt] at hw
      split at hw
      · exact absurd hw (by simp)
      · rename_i hxf
        split at hx
        · exact absurd (Option.some.inj hx).symm hxf
        · exact hr.tables.upper q x j w hq hx hw
  · rw [hsize]
    exact hr.size
  · rintro g ⟨hgs, hg⟩ hin
    rw [hget] at hg
    split at hg
    · exact absurd hg (by simp)
    · rename_i hne
      rw [hedge] at hin
      rcases inTree_link htree ht hp hnone hfresh hin with rfl | hin
      · rw [hframe] at hne
        exact hne rfl
      · exact hr.fresh g ⟨by omega, hg⟩ hin
  · have hmissing : missing hhdmOffset s'.mem root P =
        (missing hhdmOffset s.mem root P).erase (p ++ [i]) := by
      unfold missing
      ext q
      rw [Finset.mem_erase, Finset.mem_filter, Finset.mem_filter]
      by_cases hq : q ∈ P
      · rw [hwalk q (by have := hr.short q hq; omega)]
        by_cases h : q = p ++ [i] <;> simp [h]
      · simp [hq]
    have hmem : p ++ [i] ∈ missing hhdmOffset s.mem root P := Finset.mem_filter.mpr ⟨hP, hnew⟩
    rw [hmissing, freeBelow_erase hsize hget, Finset.card_erase_of_mem hmem,
      Finset.card_erase_of_mem hf]
    exact Nat.sub_le_sub_right hr.enough 1
  · rw [hwalk _ (by omega), if_pos rfl]
  · intro q hq
    unfold tableRoute
    rw [hedge, route_link htree ht hp hnone hfresh (by omega), if_neg]
    rintro rfl
    omega

/-- **The new table**: where `page_table_create` finds the entry empty and gets frame `f`, it links
`f` there, cleared. -/
theorem pageTableCreate_link {f : Frame} {b' : Bitmap} (haddr : f.addr < 2 ^ 47) (htf : t ≠ f)
    (hnone : edge hhdmOffset s.mem t i = none) (halloc : allocFrames s.frames 1 = (f.addr, b')) :
    ∃ m, pageTableCreate hhdmOffset s (entryAddr (physToVirt hhdmOffset t.addr) i) =
        (physToVirt hhdmOffset f.addr, ⟨m, b'⟩) ∧
      edge hhdmOffset m = link (edge hhdmOffset s.mem) entryFrame t i (f.addr + 7) := by
  have h0 : s.mem.read64 (entryAddr (physToVirt hhdmOffset t.addr) i) = 0 := edge_eq_none.mp hnone
  obtain ⟨hvalue, hframe, -, hlt⟩ := tableEntry haddr
  have hread : offMask hhdmOffset (f.addr + 7) = f.addr := by
    rw [offMask_entry (by rw [hframe]; exact haddr), hframe]
  unfold pageTableCreate
  rw [if_pos h0, halloc]
  dsimp only
  rw [hvalue, Mem.read64_write64_same _ _ hlt, hread]
  refine ⟨_, rfl, ?_⟩
  rw [edge_clear hhdmOffset_aligned, edge_write hhdmOffset_aligned _ t i hlt, if_neg (by omega),
    link, hframe]
  funext x j
  unfold setEdge
  by_cases hx : x = f
  · simp [hx, htf.symm]
  · simp [hx]

/-- Where the entry is not empty, `page_table_create` follows it. -/
theorem pageTableCreate_follow (ht : PageTables hhdmOffset s.mem root)
    (hw : tableWalk hhdmOffset s.mem root p = some t) (hp : p.length < 3)
    (h0 : s.mem.read64 (entryAddr (physToVirt hhdmOffset t.addr) i) ≠ 0) :
    ∃ f, pageTableCreate hhdmOffset s (entryAddr (physToVirt hhdmOffset t.addr) i) =
        (physToVirt hhdmOffset f.addr, s) ∧
      tableWalk hhdmOffset s.mem root (p ++ [i]) = some f := by
  have hsome : edge hhdmOffset s.mem t i = some (entry hhdmOffset s.mem t i) :=
    edge_eq_some.mpr ⟨rfl, h0⟩
  have hlow := (ht.upper p t i _ hp hw hsome).1
  refine ⟨entryFrame (entry hhdmOffset s.mem t i), ?_, ?_⟩
  · unfold pageTableCreate
    rw [if_neg h0, ← offMask_entry hlow]
    rfl
  · unfold tableWalk at hw ⊢
    rw [walk_concat, hw, Option.bind_some, hsome]
    rfl

/-- **`page_table_create`** makes the table if there is none, and says where it is. -/
theorem pageTableCreate_ready (hr : Ready root P s)
    (ht : tableWalk hhdmOffset s.mem root p = some t) (hp : p.length < 3) (hP : p ++ [i] ∈ P) :
    ∃ f s', pageTableCreate hhdmOffset s (entryAddr (physToVirt hhdmOffset t.addr) i) =
        (physToVirt hhdmOffset f.addr, s') ∧
      Ready root P s' ∧ tableWalk hhdmOffset s'.mem root (p ++ [i]) = some f ∧
      ∀ q : List (Fin 512), q.length = 4 →
        tableRoute hhdmOffset s'.mem root q = tableRoute hhdmOffset s.mem root q := by
  obtain ⟨es, hes⟩ := walk_eq_some.mp ht
  by_cases h0 : s.mem.read64 (entryAddr (physToVirt hhdmOffset t.addr) i) = 0
  · have hnone : edge hhdmOffset s.mem t i = none := edge_eq_none.mpr h0
    have hnew : p ++ [i] ∈ missing hhdmOffset s.mem root P := by
      refine Finset.mem_filter.mpr ⟨hP, ?_⟩
      unfold tableWalk at ht ⊢
      rw [walk_concat, ht, Option.bind_some, hnone]
      rfl
    have hpos : 0 < (freeBelow s.frames hhdmFrames).card :=
      Nat.lt_of_lt_of_le (Finset.card_pos.mpr ⟨_, hnew⟩) hr.enough
    obtain ⟨r, b', hmem, halloc, hsize, hget⟩ :=
      allocFrames_one hr.size (Finset.card_pos.mp hpos)
    have hrlt : r < 2 ^ 35 := (mem_freeBelow.mp hmem).2.1
    obtain ⟨f, rfl⟩ : ∃ f : Frame, f.num = r := ⟨⟨r, by omega⟩, rfl⟩
    have haddr : f.addr < 2 ^ 47 := by
      unfold Frame.addr pageSize
      omega
    have hfresh := hr.fresh f ⟨by have := (mem_freeBelow.mp hmem).1; omega,
      (mem_freeBelow.mp hmem).2.2⟩
    have htf : t ≠ f := fun he => hfresh ⟨p, by omega, he ▸ ht⟩
    obtain ⟨m, hcreate, hedge⟩ := pageTableCreate_link haddr htf hnone halloc
    exact ⟨f, _, hcreate, ready_link hr hes hp hnone hP hmem hedge hsize hget⟩
  · obtain ⟨f, hcreate, hf⟩ := pageTableCreate_follow hr.tables ht hp h0
    exact ⟨f, s, hcreate, hr, hf, fun _ _ => rfl⟩

/-! ## Mapping one page -/

/-- **Writing a last-level entry changes the walk of one page**, and no table. -/
theorem ready_leaf {v : Nat} (hr : Ready root P s) (ht : tableRoute hhdmOffset s.mem root p = some (es, t))
    (hp : p.length = 3) (hv : v < 2 ^ 64) {s' : Machine}
    (hs' : s' = { s with mem := s.mem.write64 (entryAddr (physToVirt hhdmOffset t.addr) i) v }) :
    Ready root P s' ∧
      (∀ q : List (Fin 512), q.length ≤ 3 →
        tableWalk hhdmOffset s'.mem root q = tableWalk hhdmOffset s.mem root q) ∧
      tableRoute hhdmOffset s'.mem root (p ++ [i]) =
        (if v = 0 then none else some (es ++ [v], entryFrame v)) ∧
      ∀ q : List (Fin 512), q.length = 4 → q ≠ p ++ [i] →
        tableRoute hhdmOffset s'.mem root q = tableRoute hhdmOffset s.mem root q := by
  have hw : walk (edge hhdmOffset s.mem) entryFrame root p = some t := walk_eq_some.mpr ⟨es, ht⟩
  have hedge : edge hhdmOffset s'.mem =
      setEdge (edge hhdmOffset s.mem) t i (if v = 0 then none else some v) := by
    rw [hs', edge_write hhdmOffset_aligned _ t i hv]
  have htree := hr.tables.tree
  have hroute : ∀ q : List (Fin 512), q.length ≤ 4 → ¬ p ++ [i] <+: q →
      route (edge hhdmOffset s'.mem) entryFrame root q =
        route (edge hhdmOffset s.mem) entryFrame root q := by
    intro q hq havoid
    rw [hedge, route_setEdge htree hw (by omega) hq havoid]
  have hwalk : ∀ q : List (Fin 512), q.length ≤ 3 →
      walk (edge hhdmOffset s'.mem) entryFrame root q =
        walk (edge hhdmOffset s.mem) entryFrame root q := by
    intro q hq
    have havoid : ¬ p ++ [i] <+: q := fun h => by
      have := h.length_le
      rw [List.length_append, List.length_singleton] at this
      omega
    rw [walk, walk, hroute q (by omega) havoid]
  have hframes : s'.frames = s.frames := by rw [hs']
  refine ⟨⟨⟨hr.tables.root_low, htree.congr hwalk, ?_⟩, ?_, ?_, ?_, hr.short⟩, hwalk, ?_, ?_⟩
  · intro q x j w hq hx hw'
    rw [tableWalk, hwalk q (by omega)] at hx
    have hxt : x ≠ t := by
      rintro rfl
      obtain rfl := htree q p x (by omega) (by omega) hx hw
      omega
    rw [hedge, setEdge, if_neg fun h => hxt h.1] at hw'
    exact hr.tables.upper q x j w hq hx hw'
  · rw [hframes]
    exact hr.size
  · intro f hf
    rw [hframes] at hf
    rintro ⟨q, hq, hwq⟩
    rw [hwalk q hq] at hwq
    exact hr.fresh f hf ⟨q, hq, hwq⟩
  · have hmissing : missing hhdmOffset s'.mem root P = missing hhdmOffset s.mem root P :=
      Finset.filter_congr fun q hq => by rw [tableWalk, tableWalk, hwalk q (hr.short q hq)]
    rw [hmissing, hframes]
    exact hr.enough
  · rw [tableRoute, hedge, route_setEdge_self htree ht (by omega)]
    split <;> rfl
  · intro q hq hne
    refine hroute q (by omega) fun hpre => hne (hpre.eq_of_length ?_).symm
    rw [List.length_append, List.length_singleton]
    omega

/-- The flags lie outside the address bits. -/
theorem offMask_flags (flags : Nat) : offMask hhdmOffset (archFlags flags) = 0 := by
  unfold archFlags
  split <;> split <;> split <;> split <;> decide

theorem archFlags_lt (flags : Nat) : archFlags flags < 2 ^ 64 := by
  unfold archFlags
  split <;> split <;> split <;> split <;> decide

/-- The entry that `map` writes names the frame it is given. -/
theorem leafEntry (flags : Nat) (hphys : phys % pageSize = 0) (hlt : phys < 2 ^ 47) :
    offMask hhdmOffset phys = phys ∧ phys ||| archFlags flags < 2 ^ 64 ∧
      offMask hhdmOffset (phys ||| archFlags flags) = phys := by
  have hself : offMask hhdmOffset phys = phys := by
    rw [offMask_eq]
    unfold pageSize at hphys
    omega
  have hor : offMask hhdmOffset (phys ||| archFlags flags) =
      offMask hhdmOffset phys ||| offMask hhdmOffset (archFlags flags) := by
    unfold offMask
    rw [Nat.and_or_distrib_right, Nat.and_or_distrib_right]
  refine ⟨hself, Nat.or_lt_two_pow (by omega) (archFlags_lt flags), ?_⟩
  rw [hor, hself, offMask_flags, Nat.or_zero]

/-- The write at the end of `map`, below three tables. -/
theorem map_write {f3 f2 f1 : Frame} {s3 s2 s1 : Machine} (phys flags : Nat)
    (e3 : pageTableCreate hhdmOffset s (entryAddr (physToVirt hhdmOffset root.addr) (l4 virt)) =
      (physToVirt hhdmOffset f3.addr, s3))
    (e2 : pageTableCreate hhdmOffset s3 (entryAddr (physToVirt hhdmOffset f3.addr) (l3 virt)) =
      (physToVirt hhdmOffset f2.addr, s2))
    (e1 : pageTableCreate hhdmOffset s2 (entryAddr (physToVirt hhdmOffset f2.addr) (l2 virt)) =
      (physToVirt hhdmOffset f1.addr, s1)) :
    map hhdmOffset root.addr s virt phys flags =
      ⟨s1.mem.write64 (entryAddr (physToVirt hhdmOffset f1.addr) (l1 virt))
        (offMask hhdmOffset phys ||| archFlags flags), s1.frames⟩ := by
  have e3' : pageTableCreate hhdmOffset s
      (entryAddr (physToVirt hhdmOffset root.addr) (l4Index virt)) = _ := e3
  have e2' : pageTableCreate hhdmOffset s3
      (entryAddr (physToVirt hhdmOffset f3.addr) (l3Index virt)) = _ := e2
  have e1' : pageTableCreate hhdmOffset s2
      (entryAddr (physToVirt hhdmOffset f2.addr) (l2Index virt)) = _ := e1
  unfold map
  dsimp only
  rw [e3']
  dsimp only
  rw [e2']
  dsimp only
  rw [e1']
  rfl

/-- **`map`**: the page's walk ends in the frame and flags given, other walks stay. -/
theorem map_ready (flags : Nat) (hr : Ready root P s) (hP : tablePaths virt ⊆ P) (hphys : phys % pageSize = 0)
    (h0 : phys ≠ 0) (hlt : phys < 2 ^ 47) :
    Ready root P (map hhdmOffset root.addr s virt phys flags) ∧
      (∃ es, pageWalk hhdmOffset (map hhdmOffset root.addr s virt phys flags).mem root virt =
        some (es ++ [phys ||| archFlags flags], entryFrame (phys ||| archFlags flags))) ∧
      ∀ w, page w ≠ page virt →
        pageWalk hhdmOffset (map hhdmOffset root.addr s virt phys flags).mem root w =
          pageWalk hhdmOffset s.mem root w := by
  obtain ⟨hself, hvlt, hmask⟩ := leafEntry flags hphys hlt
  have hv0 : phys ||| archFlags flags ≠ 0 := fun h => by
    rw [h] at hmask
    exact h0 hmask.symm
  -- three tables, one below the other
  obtain ⟨f3, s3, e3, hr3, w3, k3⟩ := pageTableCreate_ready (i := l4 virt) hr walk_nil
    (by decide) (hP (by simp [tablePaths]))
  obtain ⟨f2, s2, e2, hr2, w2, k2⟩ := pageTableCreate_ready (i := l3 virt) hr3 w3
    (by simp) (hP (by simp [tablePaths]))
  obtain ⟨f1, s1, e1, hr1, w1, k1⟩ := pageTableCreate_ready (i := l2 virt) hr2 w2
    (by simp) (hP (by simp [tablePaths]))
  obtain ⟨es, hes⟩ := walk_eq_some.mp w1
  have hmap := map_write phys flags e3 e2 e1
  rw [hself] at hmap
  obtain ⟨hr', -, hroute, hother⟩ := ready_leaf (i := l1 virt) hr1 hes rfl hvlt hmap
  rw [if_neg hv0] at hroute
  refine ⟨hr', ⟨es, hroute⟩, fun w hw => ?_⟩
  have hne : pagePath w ≠ pagePath virt := fun h => hw (pagePath_inj.mp h)
  unfold pageWalk
  rw [hother (pagePath w) rfl hne, k1 _ rfl, k2 _ rfl, k3 _ rfl]

/-! ## Mapping a range -/

/-- Pages of a range that is not too long are different pages. -/
theorem page_range {a b : Nat} (hvirt : virt % pageSize = 0) (ha : a < 2 ^ 36) (hb : b < 2 ^ 36)
    (h : page (virt + a * pageSize) = page (virt + b * pageSize)) : a = b := by
  unfold page pageSize at *
  omega

/-- **The loop of `map_range`.** -/
theorem mapRange_ready (flags : Nat) (hr : Ready root P s) (hP : rangePaths virt count ⊆ P)
    (hvirt : virt % pageSize = 0) (hphys : phys % pageSize = 0) (h0 : phys ≠ 0)
    (hvr : virt + count * pageSize ≤ 2 ^ 64) (hpr : phys + count * pageSize ≤ 2 ^ 47) :
    Ready root P (mapRange hhdmOffset root.addr s virt phys flags count) ∧
      (∀ i < count, ∃ es, pageWalk hhdmOffset
        (mapRange hhdmOffset root.addr s virt phys flags count).mem root (virt + i * pageSize) =
          some (es ++ [(phys + i * pageSize) ||| archFlags flags],
            entryFrame ((phys + i * pageSize) ||| archFlags flags))) ∧
      ∀ w, (∀ i < count, page w ≠ page (virt + i * pageSize)) →
        pageWalk hhdmOffset (mapRange hhdmOffset root.addr s virt phys flags count).mem root w =
          pageWalk hhdmOffset s.mem root w := by
  induction count with
  | zero => exact ⟨hr, fun i hi => absurd hi (by omega), fun w _ => rfl⟩
  | succ n ih =>
    have hn : n < 2 ^ 36 := by unfold pageSize at hpr; omega
    have hstep : (n + 1) * pageSize = n * pageSize + pageSize := Nat.succ_mul n pageSize
    have hpage : pageSize = 4096 := rfl
    have hsub : rangePaths virt n ⊆ rangePaths virt (n + 1) :=
      Finset.biUnion_subset_biUnion_of_subset_left _
        (Finset.range_subset_range.mpr (Nat.le_succ n))
    have hlast : tablePaths (virt + n * pageSize) ⊆ rangePaths virt (n + 1) :=
      Finset.subset_biUnion_of_mem (fun i => tablePaths (virt + i * pageSize))
        (Finset.mem_range.mpr (Nat.lt_succ_self n))
    obtain ⟨hrn, hmapped, hother⟩ := ih (hsub.trans hP) (by omega) (by omega)
    have haligned : (phys + n * pageSize) % pageSize = 0 := by
      rw [Nat.add_mul_mod_self_right]
      exact hphys
    obtain ⟨hr', ⟨es, hnew⟩, hkeep⟩ := map_ready flags hrn (hlast.trans hP) haligned
      (by omega) (by omega)
    have hmap : mapRange hhdmOffset root.addr s virt phys flags (n + 1) =
        map hhdmOffset root.addr (mapRange hhdmOffset root.addr s virt phys flags n)
          (virt + n * pageSize) (phys + n * pageSize) flags := by
      rw [mapRange]
      dsimp only
      rw [if_neg h0, addW_of_lt (by omega), addW_of_lt (by omega)]
    rw [hmap]
    refine ⟨hr', fun i hi => ?_, fun w hw => ?_⟩
    · rcases Nat.lt_succ_iff_lt_or_eq.mp hi with hi | rfl
      · rw [hkeep _ fun h => absurd (page_range hvirt (by omega) hn h) (by omega)]
        exact hmapped i hi
      · exact ⟨es, hnew⟩
    · rw [hkeep w (hw n (Nat.lt_succ_self n)), hother w fun i hi => hw i (by omega)]

/--
**Mapping is correct.**

From a well-formed tree, with a free frame outside the tree for each table that
is missing: every page of the range translates to its frame, every other page
keeps its walk, mapped or not, and the tables are a well-formed tree again.
-/
theorem mapRange_correct (virt phys flags count : Nat) (ht : PageTables hhdmOffset s.mem root)
    (hsize : s.frames.size ≤ 2 ^ 52)
    (hfresh : ∀ f : Frame, FreeFrame s.frames f.num →
      ¬ InTree (edge hhdmOffset s.mem) entryFrame root 3 f)
    (henough : (missing hhdmOffset s.mem root (rangePaths virt count)).card ≤
      (freeBelow s.frames hhdmFrames).card)
    (hvirt : virt % pageSize = 0) (hphys : phys % pageSize = 0) (h0 : phys ≠ 0)
    (hvr : virt + count * pageSize ≤ 2 ^ 64) (hpr : phys + count * pageSize ≤ 2 ^ 47) :
    (∀ i < count, translateAddr hhdmOffset root.addr
      (mapRange hhdmOffset root.addr s virt phys flags count).mem (virt + i * pageSize) =
        phys + i * pageSize) ∧
    (∀ w, (∀ i < count, page w ≠ page (virt + i * pageSize)) →
      pageWalk hhdmOffset (mapRange hhdmOffset root.addr s virt phys flags count).mem root w =
        pageWalk hhdmOffset s.mem root w) ∧
    PageTables hhdmOffset (mapRange hhdmOffset root.addr s virt phys flags count).mem root := by
  have hshort : ∀ p ∈ rangePaths virt count, p.length ≤ 3 := by
    intro p hp
    obtain ⟨i, -, hp⟩ := Finset.mem_biUnion.mp hp
    simp only [tablePaths, Finset.mem_insert, Finset.mem_singleton] at hp
    rcases hp with rfl | rfl | rfl <;> simp
  have hr : Ready root (rangePaths virt count) s := ⟨ht, hsize, hfresh, henough, hshort⟩
  obtain ⟨hr', hmapped, hother⟩ := mapRange_ready flags hr (Finset.Subset.refl _) hvirt
    hphys h0 hvr hpr
  refine ⟨fun i hi => ?_, hother, hr'.tables⟩
  obtain ⟨es, hes⟩ := hmapped i hi
  obtain ⟨v4, v3, v2, v1, h4, h3, h2, h1, heq⟩ := pageWalk_eq_some.mp hes
  have hlast : (phys + i * pageSize) ||| archFlags flags = v1 := by
    have := congrArg (fun x => x.1.getLast?) heq
    simpa using this
  have hlt : phys + i * pageSize < 2 ^ 47 := by
    have : (i + 1) * pageSize ≤ count * pageSize := Nat.mul_le_mul_right _ hi
    unfold pageSize at *
    omega
  rw [hr'.tables.translateAddr_eq h4 h3 h2 h1, ← hlast]
  exact (leafEntry flags (by rw [Nat.add_mul_mod_self_right]; exact hphys) hlt).2.2

/-! ## A fresh address space -/

/-- Cleared memory holds empty tables. -/
theorem edge_zero (off : Nat) (t : Frame) (i : Fin 512) : edge off (fun _ => 0) t i = none :=
  edge_eq_none.mpr (Mem.read64_zero _)

theorem inTree_zero {off n : Nat} {f : Frame} :
    InTree (edge off fun _ => 0) entryFrame root n f ↔ f = root := by
  constructor
  · rintro ⟨p, -, hw⟩
    cases p with
    | nil => exact (Option.some.inj hw).symm
    | cons i p => simp [walk, route, edge_zero] at hw
  · rintro rfl
    exact ⟨[], Nat.zero_le _, rfl⟩

theorem pageTables_zero {off : Nat} (hroot : root.addr < 2 ^ 47) :
    PageTables off (fun _ => 0) root := by
  refine ⟨hroot, fun p q f hp hq hwp hwq => ?_, fun p t i v hp hw hv => ?_⟩
  · cases p with
    | nil =>
        cases q with
        | nil => rfl
        | cons i q => simp [walk, route, edge_zero] at hwq
    | cons i p => simp [walk, route, edge_zero] at hwp
  · rw [edge_zero] at hv
    exact absurd hv (by simp)

/-- A machine with eight frames, two in use, the second of them for an empty top-level table. -/
def bareMachine : Machine := ⟨fun _ => 0, ⟨fun i => if i = 0 then 252 else 0, 8⟩⟩

def bareRoot : Frame := ⟨1, by decide⟩

theorem bareMachine_tables : PageTables hhdmOffset bareMachine.mem bareRoot :=
  pageTables_zero (by decide)

theorem bareMachine_fresh (f : Frame) (hf : FreeFrame bareMachine.frames f.num) :
    ¬ InTree (edge hhdmOffset bareMachine.mem) entryFrame bareRoot 3 f := by
  intro hin
  obtain rfl := inTree_zero.mp hin
  exact absurd hf.2 (by decide)

/-- Two pages fit. -/
theorem bareMachine_enough (virt : Nat) :
    (missing hhdmOffset bareMachine.mem bareRoot (rangePaths virt 2)).card ≤
      (freeBelow bareMachine.frames hhdmFrames).card :=
  calc (missing hhdmOffset bareMachine.mem bareRoot (rangePaths virt 2)).card
    _ ≤ (rangePaths virt 2).card := Finset.card_filter_le _ _
    _ ≤ (Finset.range 2).card * 3 := Finset.card_biUnion_le_card_mul _ _ 3 fun _ _ =>
        Finset.card_le_three
    _ = (freeBelow bareMachine.frames hhdmFrames).card := by decide +kernel

/-- Two pages mapped on the bare machine. -/
theorem mapRange_correct_bare :
    translateAddr hhdmOffset bareRoot.addr
      (mapRange hhdmOffset bareRoot.addr bareMachine 0x400000 0x100000 7 2).mem 0x401000 =
        0x101000 := by
  have h := (mapRange_correct 0x400000 0x100000 7 2 bareMachine_tables (by decide)
    bareMachine_fresh (bareMachine_enough _) (by decide) (by decide) (by decide) (by decide)
    (by decide)).1 1 (by decide)
  simpa [pageSize] using h

end IonOS.Arch
