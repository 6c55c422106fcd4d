import IonOS.Arch.Table
import IonOS.Lib.PathTree

/-!
# Page tables as trees

A table is a node, a nonzero entry an edge to the frame in its bits 12 to 51. The
four indices of an address are a path from the root, and what the path passes,
entry by entry, is the *walk* of the address: three entries that name tables and
the one that names the page.

Three masks take the frame out of an entry in the source. On entries of a
well-formed tree they agree (`walkMask_entry`, `offMask_entry`).
-/

namespace IonOS.Arch

open IonOS.Lib IonOS.Libs IonOS.Mm

/-! ## Frames and entries -/

/-- A physical frame that an entry can name. -/
structure Frame where
  num : Nat
  lt : num < 2 ^ 40
deriving DecidableEq

namespace Frame

def addr (t : Frame) : Nat := t.num * pageSize

theorem ext' {t t' : Frame} (h : t.num = t'.num) : t = t' := by
  cases t
  cases t'
  cases h
  rfl

end Frame

/-- The frame in bits 12 to 51 of an entry. -/
def entryFrame (v : Nat) : Frame := ⟨v / 2 ^ 12 % 2 ^ 40, Nat.mod_lt _ (by decide)⟩

/-- `table->entries[i]` of the table in frame `t`. -/
def entry (off : Nat) (m : Mem) (t : Frame) (i : Fin 512) : Nat :=
  m.read64 (entryAddr (physToVirt off t.addr) i)

/-- An entry is an edge if it is not zero. -/
def edge (off : Nat) (m : Mem) (t : Frame) (i : Fin 512) : Option Nat :=
  if entry off m t i = 0 then none else some (entry off m t i)

/-- The entries on the way of a path, and the frame it leads to. -/
def tableRoute (off : Nat) (m : Mem) (root : Frame) (p : List (Fin 512)) :
    Option (List Nat × Frame) := route (edge off m) entryFrame root p

/-- The frame that a path leads to. -/
def tableWalk (off : Nat) (m : Mem) (root : Frame) (p : List (Fin 512)) : Option Frame :=
  walk (edge off m) entryFrame root p

variable {off : Nat} {m : Mem} {t t' root : Frame} {i j : Fin 512} {v w : Nat}

theorem entryAddr_eq (hoff : off % pageSize = 0) (t : Frame) (i : Fin 512) :
    entryAddr (physToVirt off t.addr) i = (t.addr + off) % 2 ^ 64 + 8 * i := by
  have hi := i.isLt
  unfold entryAddr physToVirt addW Frame.addr pageSize at *
  omega

/-- The image of physical address 0 is that of no other address. -/
theorem physToVirt_zero_iff {a : Nat} (ha : a < 2 ^ 64) :
    physToVirt off a = physToVirt off 0 ↔ a = 0 := by
  unfold physToVirt addW
  omega

/-- Entries do not overlap. -/
theorem entryAddr_inj (hoff : off % pageSize = 0)
    (h : entryAddr (physToVirt off t'.addr) j = entryAddr (physToVirt off t.addr) i) :
    t' = t ∧ j = i := by
  have hi := i.isLt
  have hj := j.isLt
  have ht := t.lt
  have ht' := t'.lt
  rw [entryAddr_eq hoff, entryAddr_eq hoff] at h
  unfold Frame.addr pageSize at *
  exact ⟨Frame.ext' (by omega), Fin.ext (by omega)⟩

theorem entryAddr_aligned (hoff : off % pageSize = 0) (t : Frame) (i : Fin 512) :
    entryAddr (physToVirt off t.addr) i % 8 = 0 := by
  rw [entryAddr_eq hoff]
  unfold Frame.addr pageSize at *
  omega

theorem edge_eq_some : edge off m t i = some v ↔ entry off m t i = v ∧ v ≠ 0 := by
  unfold edge
  split
  · rename_i h
    constructor
    · intro h'
      exact absurd h' (by simp)
    · rintro ⟨rfl, h'⟩
      exact absurd h h'
  · rename_i h
    constructor
    · intro h'
      obtain rfl := Option.some.inj h'
      exact ⟨rfl, h⟩
    · rintro ⟨rfl, -⟩
      rfl

theorem edge_eq_none : edge off m t i = none ↔ entry off m t i = 0 := by
  unfold edge
  split <;> simp [*]

/-- **Writing one entry changes one edge.** -/
theorem edge_write (hoff : off % pageSize = 0) (m : Mem) (t : Frame) (i : Fin 512)
    (hv : v < 2 ^ 64) :
    edge off (m.write64 (entryAddr (physToVirt off t.addr) i) v) =
      setEdge (edge off m) t i (if v = 0 then none else some v) := by
  funext t' j
  have hread : entry off (m.write64 (entryAddr (physToVirt off t.addr) i) v) t' j =
      if t' = t ∧ j = i then v else entry off m t' j := by
    unfold entry
    rw [Mem.read64_write64_aligned m (entryAddr_aligned hoff t i) (entryAddr_aligned hoff t' j) hv]
    by_cases h : t' = t ∧ j = i
    · rw [if_pos h, if_pos (by rw [h.1, h.2])]
    · rw [if_neg h, if_neg fun he => h (entryAddr_inj hoff he)]
  unfold setEdge
  rw [edge, hread]
  by_cases h : t' = t ∧ j = i
  · rw [if_pos h, if_pos h]
  · rw [if_neg h, if_neg h]
    rfl

/-- **Clearing a table takes its edges away.** -/
theorem edge_clear (hoff : off % pageSize = 0) (m : Mem) (f : Frame) :
    edge off (pageTableClear m (physToVirt off f.addr) 512) =
      fun t i => if t = f then none else edge off m t i := by
  have hstep : ∀ n ≤ 512, edge off (pageTableClear m (physToVirt off f.addr) n) =
      fun t i => if t = f ∧ i.val < n then none else edge off m t i := by
    intro n hn
    induction n with
    | zero => simp [pageTableClear]
    | succ n ih =>
      rw [pageTableClear, edge_write hoff _ f ⟨n, by omega⟩ (by decide), ih (by omega)]
      funext t i
      unfold setEdge
      by_cases ht : t = f
      · by_cases hi : i.val = n
        · simp [ht, Fin.ext_iff, hi]
        · have hlt : i.val < n + 1 ↔ i.val < n := by omega
          simp [ht, Fin.ext_iff, hi, hlt]
      · simp [ht]
  rw [hstep 512 (Nat.le_refl _)]
  funext t i
  simp [i.isLt]

/-! ## Masks -/

/-- `physical_memory_offset` of this kernel. -/
def hhdmOffset : Nat := 0xffff800000000000

theorem hhdmOffset_aligned : hhdmOffset % pageSize = 0 := by decide

theorem entryFrame_addr (v : Nat) : (entryFrame v).addr = v / 2 ^ 12 % 2 ^ 40 * 2 ^ 12 := rfl

theorem walkMask_eq (v : Nat) : walkMask v = v / 2 ^ 12 % 2 ^ 36 * 2 ^ 12 := and_field v 12 36

theorem copyMask_eq (v : Nat) : copyMask v = v / 2 ^ 12 % 2 ^ 35 * 2 ^ 12 := and_field v 12 35

theorem offMask_eq (v : Nat) : offMask hhdmOffset v = v / 2 ^ 12 % 2 ^ 35 * 2 ^ 12 := by
  have hmask : notW hhdmOffset &&& notW (pageSize - 1) = 2 ^ 12 * (2 ^ 35 - 1) := by decide
  rw [offMask, Nat.and_assoc, hmask, and_field]

theorem walkMask_entry (h : (entryFrame v).addr < 2 ^ 47) : walkMask v = (entryFrame v).addr := by
  rw [entryFrame_addr] at *
  rw [walkMask_eq]
  omega

theorem offMask_entry (h : (entryFrame v).addr < 2 ^ 47) :
    offMask hhdmOffset v = (entryFrame v).addr := by
  rw [entryFrame_addr] at *
  rw [offMask_eq]
  omega

/-! ## Addresses as paths -/

theorem nineBits (v k : Nat) : v >>> k &&& 0x1FF = v / 2 ^ k % 512 := by
  rw [Nat.shiftRight_eq_div_pow]
  exact Nat.and_two_pow_sub_one_eq_mod (v / 2 ^ k) 9

theorem nineBits_lt (v k : Nat) : v >>> k &&& 0x1FF < 512 := by
  rw [nineBits]
  exact Nat.mod_lt _ (by decide)

def l4 (v : Nat) : Fin 512 := ⟨l4Index v, nineBits_lt v 39⟩
def l3 (v : Nat) : Fin 512 := ⟨l3Index v, nineBits_lt v 30⟩
def l2 (v : Nat) : Fin 512 := ⟨l2Index v, nineBits_lt v 21⟩
def l1 (v : Nat) : Fin 512 := ⟨l1Index v, nineBits_lt v 12⟩

/-- The path of an address. -/
def pagePath (v : Nat) : List (Fin 512) := [l4 v, l3 v, l2 v, l1 v]

/-- The page of an address: bits 12 to 47. -/
def page (v : Nat) : Nat := v / pageSize % 2 ^ 36

theorem pagePath_inj : pagePath v = pagePath w ↔ page v = page w := by
  simp only [pagePath, l4, l3, l2, l1, l4Index, l3Index, l2Index, l1Index, nineBits, page, pageSize,
    List.cons.injEq, Fin.mk.injEq, and_true]
  omega

/-- The entries on the way to the page of an address, if it has one. -/
def pageWalk (off : Nat) (m : Mem) (root : Frame) (v : Nat) : Option (List Nat × Frame) :=
  tableRoute off m root (pagePath v)

theorem pageWalk_eq_some {x : List Nat × Frame} :
    pageWalk off m root v = some x ↔ ∃ v4 v3 v2 v1,
      edge off m root (l4 v) = some v4 ∧ edge off m (entryFrame v4) (l3 v) = some v3 ∧
      edge off m (entryFrame v3) (l2 v) = some v2 ∧ edge off m (entryFrame v2) (l1 v) = some v1 ∧
      x = ([v4, v3, v2, v1], entryFrame v1) := by
  unfold pageWalk tableRoute pagePath
  simp only [route, Option.bind_eq_some_iff, Option.map_eq_some_iff, Option.some.injEq]
  constructor
  · rintro ⟨v4, h4, _, ⟨v3, h3, _, ⟨v2, h2, _, ⟨v1, h1, _, rfl, rfl⟩, rfl⟩, rfl⟩, rfl⟩
    exact ⟨v4, v3, v2, v1, h4, h3, h2, h1, rfl⟩
  · rintro ⟨v4, v3, v2, v1, h4, h3, h2, h1, rfl⟩
    exact ⟨v4, h4, _, ⟨v3, h3, _, ⟨v2, h2, _, ⟨v1, h1, _, rfl, rfl⟩, rfl⟩, rfl⟩, rfl⟩

/-! ## Well-formed trees -/

/-- A well-formed tree of four levels. -/
structure PageTables (off : Nat) (m : Mem) (root : Frame) : Prop where
  /-- The direct map shows the root. -/
  root_low : root.addr < 2 ^ 47
  /-- No frame is used for two tables. -/
  tree : IsTree (edge off m) entryFrame root 3
  /-- The entries of the upper three levels name frames the direct map shows, and no huge pages. -/
  upper : ∀ p t i v, p.length < 3 → tableWalk off m root p = some t → edge off m t i = some v →
    (entryFrame v).addr < 2 ^ 47 ∧ v / 2 ^ 7 % 2 = 0

namespace PageTables

theorem low (ht : PageTables off m root) {p : List (Fin 512)} (hp : p.length ≤ 3)
    (hw : tableWalk off m root p = some t) : t.addr < 2 ^ 47 := by
  rcases List.eq_nil_or_concat' p with rfl | ⟨q, i, rfl⟩
  · obtain rfl := Option.some.inj hw
    exact ht.root_low
  · rw [List.length_append, List.length_singleton] at hp
    unfold tableWalk at hw
    rw [walk_concat] at hw
    obtain ⟨x, hx, hw⟩ := Option.bind_eq_some_iff.mp hw
    obtain ⟨v, hv, rfl⟩ := Option.map_eq_some_iff.mp hw
    exact (ht.upper q x i v (by omega) hx hv).1

/-- The three tables on the way to a page. -/
theorem walks {v4 v3 v2 : Nat} (h4 : edge off m root (l4 v) = some v4)
    (h3 : edge off m (entryFrame v4) (l3 v) = some v3)
    (h2 : edge off m (entryFrame v3) (l2 v) = some v2) :
    tableWalk off m root [l4 v] = some (entryFrame v4) ∧
      tableWalk off m root [l4 v, l3 v] = some (entryFrame v3) ∧
      tableWalk off m root [l4 v, l3 v, l2 v] = some (entryFrame v2) := by
  simp [tableWalk, walk, route, h4, h3, h2]

/-- **`translate_addr` finds the last entry of the walk.** -/
theorem translateAddr_eq (ht : PageTables off m root) {v4 v3 v2 v1 : Nat}
    (h4 : edge off m root (l4 v) = some v4) (h3 : edge off m (entryFrame v4) (l3 v) = some v3)
    (h2 : edge off m (entryFrame v3) (l2 v) = some v2)
    (h1 : edge off m (entryFrame v2) (l1 v) = some v1) :
    translateAddr off root.addr m v = offMask off v1 := by
  obtain ⟨w3, w2, w1⟩ := walks h4 h3 h2
  have e4 : m.read64 (entryAddr (physToVirt off root.addr) (l4Index v)) = v4 :=
    (edge_eq_some.mp h4).1
  have e3 : m.read64 (entryAddr (physToVirt off (entryFrame v4).addr) (l3Index v)) = v3 :=
    (edge_eq_some.mp h3).1
  have e2 : m.read64 (entryAddr (physToVirt off (entryFrame v3).addr) (l2Index v)) = v2 :=
    (edge_eq_some.mp h2).1
  have e1 : m.read64 (entryAddr (physToVirt off (entryFrame v2).addr) (l1Index v)) = v1 :=
    (edge_eq_some.mp h1).1
  unfold translateAddr
  dsimp only
  rw [e4, walkMask_entry (ht.low (by simp) w3), e3, walkMask_entry (ht.low (by simp) w2), e2,
    walkMask_entry (ht.low (by simp) w1), e1]

end PageTables

end IonOS.Arch
