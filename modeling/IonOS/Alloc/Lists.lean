import IonOS.Alloc.Layout
import IonOS.Alloc.Nodes

/-!
# Free lists inside the layout

The lists of a layout are well-formed, since its blocks are aligned and apart.
So list operations store to link words only, and taking a free block into the
hand and putting a block in hand back on its list both keep the layout.
-/

namespace IonOS.Alloc

open IonOS.Lib

namespace Layout

variable {a e : Nat} {m m' : Mem} {hd : Nat → Nat} {bs pre post : List Block}
  {L : Nat → List Nat} {x s : Nat}

/-- Each list of a layout is well-formed. -/
theorem wellFormed (hl : Layout a e m hd bs L) (i : Nat) : WellFormed m (hd i) (L i) := by
  refine ⟨hl.lists i, spaced_of_aligned fun y hy => hl.node_align hy, fun y hy => ?_⟩
  obtain ⟨b, hb, rfl, -⟩ := hl.node hy
  have := (hl.fitsOf hb).high
  omega

theorem head_lt (hl : Layout a e m hd bs L) (i : Nat) : hd i < 2 ^ 64 := (hl.wellFormed i).head_lt

/-- Stores confined to link words leave every tag and both markers in place. -/
theorem tags_of_links (hl : Layout a e m hd bs L)
    (hm : ∀ w, (∀ b ∈ bs, w < b.ptr ∨ b.ptr + 16 ≤ w) → m' w = m w) :
    (∀ b ∈ bs, ∀ st, Tagged m ⟨b.ptr, b.size, st⟩ → Tagged m' ⟨b.ptr, b.size, st⟩) ∧
      m'.read64 a = m.read64 a ∧ m'.read64 (e - 8) = m.read64 (e - 8) := by
  refine ⟨fun b hb st ht => ht.congr ?_ ?_, ?_, ?_⟩
  · refine Mem.read64_congr fun w h1 h2 => hm w fun c hc => ?_
    have := (hl.sizes c hc).2
    have := (hl.fitsOf hb).low
    rcases hl.apart hb hc with rfl | h | h <;> dsimp only at h1 h2 <;> omega
  · refine Mem.read64_congr fun w h1 h2 => hm w fun c hc => ?_
    have := (hl.sizes c hc).2
    rcases hl.apart hb hc with rfl | h | h <;> dsimp only at h1 h2 <;> omega
  · refine Mem.read64_congr fun w h1 h2 => hm w fun c hc => ?_
    have := (hl.bounds hc).1
    omega
  · refine Mem.read64_congr fun w h1 h2 => hm w fun c hc => ?_
    have := (hl.bounds hc).2
    have := (hl.sizes c hc).2
    omega

/-- Changing one block's state does not move anything. -/
theorem tiling_state {st : BlkState} (hl : Layout a e m hd (pre ++ ⟨x, s, st⟩ :: post) L)
    (st' : BlkState) :
    Tiling Block.ptr Block.len (a + 16) (pre ++ ⟨x, s, st'⟩ :: post) e := by
  obtain ⟨q, h1, h2, h3⟩ := Tiling.append_iff.mp hl.tiling
  exact Tiling.append_iff.mpr ⟨q, h1, h2, h3⟩

/-- No other block starts where this one does. -/
theorem ptr_ne {b : Block} (hl : Layout a e m hd (pre ++ b :: post) L) {c : Block}
    (hc : c ∈ pre ++ post) : c.ptr ≠ b.ptr := by
  rcases List.mem_append.mp hc with hc | hc
  · have h : c.ptr + (c.size + 16) ≤ b.ptr := hl.tiling.before hc
    omega
  · have h : b.ptr + (b.size + 16) ≤ c.ptr := hl.tiling.after hc
    omega

/--
**Moving one block between the hand and its list.**

Both directions store link words only, so the tags stay; the block's own list is
given by the caller, and every other list is kept because its nodes are not
written.
-/
theorem relist {st st' : BlkState} {hd' : Nat} {l' : List Nat}
    (hl : Layout a e m hd (pre ++ ⟨x, s, st⟩ :: post) L)
    (htag : Tagged m ⟨x, s, st'⟩)
    (hm : ∀ w, (∀ b ∈ pre ++ ⟨x, s, st⟩ :: post, w < b.ptr ∨ b.ptr + 16 ≤ w) → m' w = m w)
    (hkeep : ∀ j, j ≠ listOf s → ∀ y ∈ L j, ∀ w, y ≤ w → w < y + 16 → m' w = m w)
    (hlist : (linksOf m').IsList 0 hd' l')
    (hmem : ∀ y, y ∈ l' ↔ (y = x ∧ st' = .free) ∨ (y ≠ x ∧ y ∈ L (listOf s))) :
    Layout a e m' (Function.update hd (listOf s) hd') (pre ++ ⟨x, s, st'⟩ :: post)
      (Function.update L (listOf s) l') := by
  obtain ⟨htags, hfirst, hlast⟩ := hl.tags_of_links hm
  have hold : ∀ b ∈ pre ++ post, b ∈ pre ++ ⟨x, s, st⟩ :: post := by
    intro b hb
    rcases List.mem_append.mp hb with hb | hb <;> simp [hb]
  have hnew : ∀ b, b ∈ pre ++ ⟨x, s, st'⟩ :: post ↔ b = ⟨x, s, st'⟩ ∨ b ∈ pre ++ post := by
    intro b
    simp only [List.mem_append, List.mem_cons]
    tauto
  refine ⟨hl.area, hl.tiling_state st', ?_, ?_, ?_, ?_, ?_, ?_⟩
  · intro b hb
    rcases (hnew b).mp hb with rfl | hb
    · exact hl.sizes ⟨x, s, st⟩ (by simp)
    · exact hl.sizes b (hold b hb)
  · intro b hb
    rcases (hnew b).mp hb with rfl | hb
    · exact htags ⟨x, s, st⟩ (by simp) st' htag
    · exact htags b (hold b hb) b.st (hl.tags b (hold b hb))
  · rw [hfirst]; exact hl.first
  · rw [hlast]; exact hl.last
  · intro j
    by_cases hj : j = listOf s
    · subst hj; simpa using hlist
    · rw [Function.update_of_ne hj, Function.update_of_ne hj]
      have hword : ∀ y ∈ L j, ∀ k, k ≤ 8 → m'.read64 (y + k) = m.read64 (y + k) := fun y hy k hk =>
        Mem.read64_congr fun w h1 h2 => hkeep j hj y hy w (by omega) (by omega)
      exact (hl.lists j).congr (fun y hy => hword y hy 0 (by omega))
        (fun y hy => hword y (List.mem_of_mem_tail hy) 8 (by omega))
  · intro j y
    have hne : ∀ b ∈ pre ++ post, b.ptr ≠ x := fun b hb => hl.ptr_ne hb
    have hsame : ∀ st'', (∃ b ∈ pre ++ ⟨x, s, st''⟩ :: post,
        b.ptr = y ∧ b.st = .free ∧ listOf b.size = j) ↔
        (y = x ∧ st'' = .free ∧ listOf s = j) ∨
          ∃ b ∈ pre ++ post, b.ptr = y ∧ b.st = .free ∧ listOf b.size = j := by
      intro st''
      constructor
      · rintro ⟨b, hb, hby, hbf, hbj⟩
        simp only [List.mem_append, List.mem_cons] at hb
        rcases hb with hb | rfl | hb
        · exact .inr ⟨b, by simp [hb], hby, hbf, hbj⟩
        · exact .inl ⟨hby.symm, hbf, hbj⟩
        · exact .inr ⟨b, by simp [hb], hby, hbf, hbj⟩
      · rintro (⟨rfl, hf, hj⟩ | ⟨b, hb, hby, hbf, hbj⟩)
        · exact ⟨⟨y, s, st''⟩, by simp, rfl, hf, hj⟩
        · refine ⟨b, ?_, hby, hbf, hbj⟩
          rcases List.mem_append.mp hb with hb | hb <;> simp [hb]
    rw [hsame]
    have hLj := hl.listed j y
    rw [hsame] at hLj
    by_cases hyx : y = x
    · subst hyx
      have hno : ¬ ∃ b ∈ pre ++ post, b.ptr = y ∧ b.st = .free ∧ listOf b.size = j :=
        fun ⟨b, hb, hby, _⟩ => hne b hb hby
      rw [iff_false_intro hno] at hLj ⊢
      by_cases hj : j = listOf s
      · subst hj; simp [hmem]
      · simp [Function.update_of_ne hj, hLj, Ne.symm hj]
    · by_cases hj : j = listOf s
      · subst hj; simp [hmem, hLj, hyx]
      · simp [Function.update_of_ne hj, hLj, hyx]

/-- **Taking a free block into the hand.** -/
theorem detach (hl : Layout a e m hd (pre ++ ⟨x, s, .free⟩ :: post) L) :
    Layout a e (freelistDetach m (hd (listOf s)) x).2
      (Function.update hd (listOf s) (freelistDetach m (hd (listOf s)) x).1)
      (pre ++ ⟨x, s, .hand⟩ :: post)
      (Function.update L (listOf s) ((L (listOf s)).erase x)) := by
  have hx : x ∈ L (listOf s) := (hl.listed _ _).mpr ⟨⟨x, s, .free⟩, by simp, rfl, rfl, rfl⟩
  have hlist := hl.wellFormed (listOf s)
  have hnode : ∀ y ∈ (L (listOf s)).erase x, y ∈ L (listOf s) := fun y => List.mem_of_mem_erase
  refine hl.relist (hl.tags ⟨x, s, .free⟩ (by simp)).hand ?_ ?_ (hlist.detach hx).isList ?_
  · intro w hw
    refine hlist.detach_writes hx w fun y hy => ?_
    obtain ⟨b, hb, rfl, _⟩ := hl.node (hnode y hy)
    exact hw b hb
  · intro j hj y hy w h1 h2
    refine hlist.detach_writes hx w fun z hz => ?_
    have hzy : z ≠ y := fun he => hj (hl.lists_disjoint hy (he ▸ hnode z hz))
    have := hl.node_align hy
    have := hl.node_align (hnode z hz)
    omega
  · intro y
    rw [hlist.isList.nodup.mem_erase_iff]
    simp

/-- **Putting a block in hand back on its list**, once its tags say it is free. -/
theorem put (hl : Layout a e m hd (pre ++ ⟨x, s, .hand⟩ :: post) L)
    (htag : Tagged m ⟨x, s, .free⟩) :
    Layout a e (freelistPut m (hd (listOf s)) x).2
      (Function.update hd (listOf s) (freelistPut m (hd (listOf s)) x).1)
      (pre ++ ⟨x, s, .free⟩ :: post)
      (Function.update L (listOf s) (x :: L (listOf s))) := by
  have hf : Fits x s := hl.fitsOf (b := ⟨x, s, .hand⟩) (by simp)
  obtain ⟨hxal, -, hxlow, hxhigh⟩ := hf
  have hlist := hl.wellFormed (listOf s)
  have hself : ∀ i, x ∉ L i := by
    intro i hx
    obtain ⟨b, hb, hbx, hbf, _⟩ := hl.node hx
    have := hl.eq_of_ptr hb (c := ⟨x, s, .hand⟩) (by simp) hbx
    subst this
    exact absurd hbf (by simp)
  have hnew : Newcomer x (L (listOf s)) := by
    refine ⟨by omega, by omega, fun y hy => ?_⟩
    have := hl.node_align hy
    have hyx : y ≠ x := fun he => hself _ (he ▸ hy)
    omega
  refine hl.relist htag ?_ ?_ (hlist.put hnew).isList ?_
  · intro w hw
    refine hlist.put_writes w fun y hy => ?_
    rcases List.mem_cons.mp hy with rfl | hy
    · exact hw ⟨y, s, .hand⟩ (by simp)
    · obtain ⟨b, hb, rfl, _⟩ := hl.node hy
      exact hw b hb
  · intro j hj y hy w h1 h2
    have hyal := hl.node_align hy
    have hyx : y ≠ x := fun he => hself j (he ▸ hy)
    refine hlist.put_writes w fun z hz => ?_
    rcases List.mem_cons.mp hz with rfl | hz
    · omega
    · have hzy : z ≠ y := fun he => hj (hl.lists_disjoint hy (he ▸ hz))
      have := hl.node_align hz
      omega
  · intro y
    simp only [List.mem_cons, and_true]
    constructor
    · rintro (h | h)
      · exact .inl h
      · exact .inr ⟨fun he => hself _ (he ▸ h), h⟩
    · rintro (h | ⟨_, h⟩)
      · exact .inl h
      · exact .inr h

end Layout

end IonOS.Alloc
