import IonOS.Alloc.Match

/-!
# The free lists by themselves

A pool's lists stay inside one area and `Layout` describes both together. The
lists of a manager run through all its areas, so they are described on their own
here: which nodes hang on which head, what insertion and removal do, and that the
stores for it go to the nodes of the list at hand only.
-/

namespace IonOS.Alloc

open IonOS.Lib

/-- **The lists threaded through memory**: `L i` hangs on head `i`. -/
structure FreeLists (m : Mem) (hd : Nat → Nat) (L : Nat → List Nat) : Prop where
  lists : ∀ i, (linksOf m).IsList 0 (hd i) (L i)
  /-- No node is on two lists. -/
  sole : ∀ i j x, x ∈ L i → x ∈ L j → i = j
  align : ∀ i, ∀ x ∈ L i, x % 16 = 0
  head_lt : ∀ i, hd i < 2 ^ 64

namespace FreeLists

variable {m m' : Mem} {hd lists : Nat → Nat} {L : Nat → List Nat} {i j x y w : Nat}
  {f : Mem → Nat → Bool}

theorem node_lt (h : FreeLists m hd L) (hx : x ∈ L i) : x < 2 ^ 64 :=
  Alloc.node_lt (h.lists i) (h.head_lt i) x hx

theorem wellFormed (h : FreeLists m hd L) (i : Nat) : WellFormed m (hd i) (L i) := by
  refine ⟨h.lists i, spaced_of_aligned (h.align i), fun x hx => ?_⟩
  have := h.align i x hx
  have := h.node_lt hx
  omega

theorem node_ne (h : FreeLists m hd L) (hx : x ∈ L i) : x ≠ 0 := (h.wellFormed i).ne_zero hx

theorem threads (h : FreeLists m hd L) : Threads (fun _ => True) m hd L := by
  refine ⟨fun i _ => h.wellFormed i, fun i j _ _ hne x hx y hy => ?_⟩
  have hxy : x ≠ y := fun he => hne (h.sole i j x hx (he ▸ hy))
  have := h.align i x hx
  have := h.align j y hy
  omega

/-- Only the link words of the nodes matter. -/
theorem congr (h : FreeLists m hd L)
    (hm : ∀ i, ∀ x ∈ L i, ∀ w, x ≤ w → w < x + 16 → m' w = m w) : FreeLists m' hd L := by
  refine ⟨fun i => ?_, h.sole, h.align, h.head_lt⟩
  have hword : ∀ x ∈ L i, ∀ k, k ≤ 8 → m'.read64 (x + k) = m.read64 (x + k) := by
    intro x hx k hk
    exact Mem.read64_congr fun w h1 h2 => hm i x hx w (by omega) (by omega)
  exact (h.lists i).congr (fun x hx => hword x hx 0 (by omega))
    (fun x hx => hword x (List.mem_of_mem_tail hx) 8 (by omega))

/-! ## Insertion and removal -/

theorem mem_erase (h : FreeLists m hd L) (hx : x ∈ L i) :
    y ∈ Function.update L i ((L i).erase x) j ↔ y ≠ x ∧ y ∈ L j := by
  by_cases hj : j = i
  · subst hj
    rw [Function.update_self, (h.lists j).nodup.mem_erase_iff]
  · rw [Function.update_of_ne hj]
    exact ⟨fun hy => ⟨fun he => hj (h.sole j i x (he ▸ hy) hx), hy⟩, fun hy => hy.2⟩

theorem mem_push : y ∈ Function.update L i (x :: L i) j ↔ (j = i ∧ y = x) ∨ y ∈ L j := by
  by_cases hj : j = i
  · subst hj
    rw [Function.update_self, List.mem_cons]
    simp
  · rw [Function.update_of_ne hj]
    simp [hj]

/-- Removal stores to other nodes of the list only. -/
theorem detach_other (h : FreeLists m hd L) (hx : x ∈ L i)
    (hw : ∀ y ∈ L i, y ≠ x → w < y ∨ y + 16 ≤ w) : (freelistDetach m (hd i) x).2 w = m w := by
  refine (h.wellFormed i).detach_writes hx w fun y hy => ?_
  obtain ⟨hne, hy⟩ := (h.lists i).nodup.mem_erase_iff.mp hy
  exact hw y hy hne

/-- **Removal.** -/
theorem detach (h : FreeLists m hd L) (hx : x ∈ L i) :
    FreeLists (freelistDetach m (hd i) x).2 (Function.update hd i (freelistDetach m (hd i) x).1)
      (Function.update L i ((L i).erase x)) := by
  have hnew := h.threads.detach trivial hx
  refine ⟨fun j => (hnew.list j trivial).isList, ?_, ?_, fun j => (hnew.list j trivial).head_lt⟩
  · intro j k y hj hk
    exact h.sole j k y ((h.mem_erase hx).mp hj).2 ((h.mem_erase hx).mp hk).2
  · intro j y hy
    exact h.align j y ((h.mem_erase hx).mp hy).2

/-- Insertion stores to the new node and to the list's nodes only. -/
theorem put_other (h : FreeLists m hd L) (hwx : w < x ∨ x + 16 ≤ w)
    (hw : ∀ y ∈ L i, w < y ∨ y + 16 ≤ w) : (freelistPut m (hd i) x).2 w = m w :=
  freelistPut_other (h.lists i) (h.head_lt i) hwx hw

/-- **Insertion.** -/
theorem put (h : FreeLists m hd L) (hal : x % 16 = 0) (hx0 : x ≠ 0) (hlt : x < 2 ^ 64)
    (hno : ∀ j, x ∉ L j) (i : Nat) :
    FreeLists (freelistPut m (hd i) x).2 (Function.update hd i (freelistPut m (hd i) x).1)
      (Function.update L i (x :: L i)) := by
  have hnewcomer : ∀ j, True → Newcomer x (L j) := by
    refine fun j _ => ⟨hx0, by omega, fun y hy => ?_⟩
    have hyx : y ≠ x := fun he => hno j (he ▸ hy)
    have := h.align j y hy
    omega
  have hnew := h.threads.put (i := i) trivial hnewcomer
  refine ⟨fun j => (hnew.list j trivial).isList, ?_, ?_, fun j => (hnew.list j trivial).head_lt⟩
  · intro j k y hj hk
    rcases mem_push.mp hj with ⟨hji, hyx⟩ | hyj
    · rcases mem_push.mp hk with ⟨hki, -⟩ | hyk
      · exact hji.trans hki.symm
      · exact absurd (hyx ▸ hyk) (hno k)
    · rcases mem_push.mp hk with ⟨-, hyx⟩ | hyk
      · exact absurd (hyx ▸ hyj) (hno j)
      · exact h.sole j k y hyj hyk
  · intro j y hy
    rcases mem_push.mp hy with ⟨-, rfl⟩ | hy
    · exact hal
    · exact h.align j y hy

/-! ## Searching -/

/-- **One list**: a fitting node is taken off, or there is none. -/
theorem freelistMatchBy_spec (h : FreeLists m hd L) (i : Nat) :
    ((∀ x ∈ L i, ¬ f m x) ∧ freelistMatchBy f m (hd i) = some (0, hd i, m)) ∨
      ∃ x ∈ L i, f m x ∧ freelistMatchBy f m (hd i) = some (x, freelistDetach m (hd i) x) := by
  rw [(h.wellFormed i).matchBy]
  cases hf : (L i).find? (f m) with
  | none => exact .inl ⟨List.find?_eq_none.mp hf, rfl⟩
  | some x => exact .inr ⟨x, List.mem_of_find?_eq_some hf, List.find?_some hf, rfl⟩

/-- **The class lists**: a fitting node is taken off one of them, or none is. -/
theorem freelistsMatchLoop_spec (h : FreeLists m hd L) (hlists : ∀ i < 8, lists i = hd i)
    (n id : Nat) (hid : id + n ≤ 8) :
    (freelistsMatchLoop f m lists n id = some (0, lists, m)) ∨
      ∃ i < 8, ∃ x ∈ L i, f m x ∧
        freelistsMatchLoop f m lists n id = some (x, freelistsDetach m lists i x) := by
  have ht : Threads (· < 8) m lists L := by
    refine ⟨fun i hi => ?_, fun i j _ _ => h.threads.apart i j trivial trivial⟩
    rw [hlists i hi]
    exact h.wellFormed i
  rw [ht.matchLoop n id fun j _ _ => by omega]
  cases hf : firstFit (f m) L (List.range' id n) with
  | none => exact .inl rfl
  | some r =>
      obtain ⟨i, x⟩ := r
      obtain ⟨hi, hx, hfit⟩ := firstFit_mem hf
      rw [List.mem_range'_1] at hi
      exact .inr ⟨i, by omega, x, hx, hfit, rfl⟩

theorem freelistsMatchBy_spec (h : FreeLists m hd L) (hlists : ∀ i < 8, lists i = hd i)
    (size : Nat) :
    (freelistsMatchBy f m lists size = some (0, lists, m)) ∨
      ∃ i < 8, ∃ x ∈ L i, f m x ∧
        freelistsMatchBy f m lists size = some (x, freelistsDetach m lists i x) := by
  have hlt := freelistsSize2id_lt size
  have hnum : freelistNum = 8 := rfl
  rw [freelistsMatchBy]
  split
  · exact .inl rfl
  · exact h.freelistsMatchLoop_spec hlists _ _ (by omega)

end FreeLists

end IonOS.Alloc
