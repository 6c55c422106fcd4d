import IonOS.Alloc.Coalesce
import IonOS.Alloc.Release

/-!
# A manager and the pointers its user holds

Which areas the manager has is read off the logs of the callbacks: those that have
been handed out more often than they have been given back. `Tracked` says that a
picture has just these, and `Charted` that it has just the pointers held as well.

Nothing is said about counts. What every operation does to the blocks of one area
keeps a state charted, be the counts right or not.
-/

namespace IonOS.Alloc

open IonOS.Lib

variable {h h' : Heap Mman} {m m' : Mem} {hd : Nat → Nat} {P P' : Pic} {f : Nat → Nat}
  {reqmem : Nat → Nat} {man a size c d k n p q r : Nat} {bs bs₀ : List Block}
  {L L₀ : Nat → List Nat} {b : Block} {live : List Nat}

/-- A manager and the pointers its user holds. -/
structure MmanState where
  heap : Heap Mman
  live : List Nat

/-! ## Which areas there are -/

/-- The area has been handed out more often than it has been given back. -/
def Outstanding (h : Heap Mman) (e : Nat × Nat) : Prop :=
  h.delmem.count e < h.pool.reqmem.count e

/-- The areas of a manager whose main area is the one at `a`. -/
def Holds (a size : Nat) (h : Heap Mman) (c n : Nat) : Prop :=
  (c = a ∧ n = size) ∨ Outstanding h (c, n)

/-- What `cb_reqmem` promises. -/
def Answers (a size : Nat) (h : Heap Mman) (reqmem : Nat → Nat) : Prop :=
  ∀ n, n = size4k ∨ n = size2M → reqmem n = 0 ∨
    (Place (reqmem n) n ∧
      (∀ c k, Holds a size h c k → reqmem n + n ≤ c ∨ c + k ≤ reqmem n) ∧
      (h.pool.self + sizeofMman ≤ reqmem n ∨ reqmem n + n ≤ h.pool.self))

/-- The byte at `w` is the manager's own: in its structure or an area, and in no live payload. -/
def Reserved (a size : Nat) (s : MmanState) (w : Nat) : Prop :=
  ((s.heap.pool.self ≤ w ∧ w < s.heap.pool.self + sizeofMman) ∨
    ∃ c k, Holds a size s.heap c k ∧ c ≤ w ∧ w < c + k) ∧
  ∀ p ∈ s.live, w < p ∨ p + mmanMsize s.heap p ≤ w

/-- The areas of the picture, and how big they are. -/
def Pic.extents (P : Pic) : List (Nat × Nat) := P.secs.map fun c => (c, P.size c)

/-- **The logs tell the areas** of the picture. -/
structure Tracked (a size : Nat) (h : Heap Mman) (P : Pic) : Prop where
  main : P.main = a
  main_size : P.size a = size
  nodup : P.bases.Nodup
  log : h.pool.reqmem.Perm (h.delmem ++ P.extents)

namespace Tracked

theorem main_mem (ht : Tracked a size h P) : a ∈ P.bases := by
  rw [← ht.main]
  exact List.mem_cons_self

theorem outstanding_iff (ht : Tracked a size h P) :
    Outstanding h (c, n) ↔ c ∈ P.secs ∧ P.size c = n := by
  have hcount := ht.log.count_eq (c, n)
  rw [List.count_append] at hcount
  have hpos : Outstanding h (c, n) ↔ (c, n) ∈ P.extents := by
    unfold Outstanding
    rw [← List.count_pos_iff]
    omega
  rw [hpos, Pic.extents, List.mem_map]
  constructor
  · rintro ⟨d, hd, he⟩
    obtain ⟨rfl, rfl⟩ := Prod.mk.inj he
    exact ⟨hd, rfl⟩
  · rintro ⟨hc, rfl⟩
    exact ⟨c, hc, rfl⟩

theorem holds_iff (ht : Tracked a size h P) : Holds a size h c n ↔ c ∈ P.bases ∧ P.size c = n := by
  unfold Holds
  rw [ht.outstanding_iff]
  constructor
  · rintro (⟨rfl, rfl⟩ | ⟨hc, hn⟩)
    · exact ⟨ht.main_mem, ht.main_size⟩
    · exact ⟨List.mem_cons_of_mem _ hc, hn⟩
  · rintro ⟨hc, rfl⟩
    rcases List.mem_cons.mp hc with rfl | hc
    · rw [ht.main]
      exact .inl ⟨rfl, ht.main_size⟩
    · exact .inr ⟨hc, rfl⟩

/-- No area is outstanding twice. -/
theorem count_le (ht : Tracked a size h P) (e : Nat × Nat) :
    h.delmem.count e ≤ h.pool.reqmem.count e ∧
      h.pool.reqmem.count e ≤ h.delmem.count e + 1 := by
  have hcount := ht.log.count_eq e
  have hnd : P.extents.Nodup :=
    (List.nodup_cons.mp ht.nodup).2.map fun x y he => congrArg Prod.fst he
  have hone := List.nodup_iff_count_le_one.mp hnd e
  rw [List.count_append] at hcount
  omega

/-- Other blocks in an area. -/
theorem edit (ht : Tracked a size h P) (hreq : h'.pool.reqmem = h.pool.reqmem)
    (hdel : h'.delmem = h.delmem) : Tracked a size h' (P.edit c bs L) := by
  refine ⟨ht.main, ht.main_size, ht.nodup, ?_⟩
  rw [hreq, hdel]
  exact ht.log

/-- An area more. -/
theorem entered (ht : Tracked a size h P) (hne : ∀ d ∈ P.bases, d ≠ c)
    (hreq : h'.pool.reqmem = h.pool.reqmem ++ [(c, n)]) (hdel : h'.delmem = h.delmem) :
    Tracked a size h' (P.entered c n) := by
  have hsize : ∀ d ∈ P.bases, (P.entered c n).size d = P.size d := fun d hd =>
    Function.update_of_ne (hne d hd) ..
  have hsame : (P.entered c n).extents = (c, n) :: P.extents := by
    show (c, (P.entered c n).size c) :: P.secs.map (fun d => (d, (P.entered c n).size d)) = _
    rw [show (P.entered c n).size c = n from Function.update_self ..]
    refine congrArg _ (List.map_congr_left fun d hd => ?_)
    rw [hsize d (List.mem_cons_of_mem _ hd)]
  refine ⟨ht.main, (hsize a ht.main_mem).trans ht.main_size, ?_, ?_⟩
  · have hnot : c ∉ P.bases := fun hc => hne c hc rfl
    obtain ⟨hmain, hsecs⟩ := List.nodup_cons.mp ht.nodup
    have hcm : P.main ≠ c := hne _ List.mem_cons_self
    refine List.nodup_cons.mpr ⟨fun hm => ?_, List.nodup_cons.mpr ⟨fun hc =>
      hnot (List.mem_cons_of_mem _ hc), hsecs⟩⟩
    exact (List.mem_cons.mp hm).elim hcm hmain
  · rw [hreq, hdel, hsame]
    exact (List.perm_append_singleton _ _).trans ((ht.log.cons _).trans List.perm_middle.symm)

/-- An area less. -/
theorem drop (ht : Tracked a size h P) (hc : c ∈ P.secs) (hreq : h'.pool.reqmem = h.pool.reqmem)
    (hdel : h'.delmem = h.delmem ++ [(c, P.size c)]) : Tracked a size h' (P.drop c) := by
  obtain ⟨hmain, hsecs⟩ := List.nodup_cons.mp ht.nodup
  refine ⟨ht.main, ht.main_size,
    List.nodup_cons.mpr ⟨fun hm => hmain (List.mem_of_mem_erase hm), hsecs.erase c⟩, ?_⟩
  rw [hreq, hdel, List.append_assoc]
  have hperm := (List.perm_cons_erase hc).map fun d => (d, P.size d)
  exact ht.log.trans (hperm.append_left _)

/-- What `cb_reqmem` promises is what a request relies on. -/
theorem conforming (ht : Tracked a size h P) (hans : Answers a size h reqmem) :
    Conforming reqmem P h.pool.self := by
  intro n hn
  refine (hans n hn).imp id fun hnew => ⟨hnew.1, fun c hc => ?_, hnew.2.2⟩
  exact hnew.2.1 c (P.size c) (ht.holds_iff.mpr ⟨hc, rfl⟩)

end Tracked

/-! ## The blocks of the pools -/

/-- The pools of the secondary areas have their own blocks. -/
def OwnBlocks (m : Mem) (P : Pic) : Prop := ∀ c ∈ P.secs, PoolBlock m c (P.size c = size2M)

/-- Operations on the blocks of one area leave them alone. -/
theorem OwnBlocks.tallied (ho : OwnBlocks h.mem P) (hl : Spread m hd (P.edit c bs₀ L₀))
    (hp : Pooled h.mem h.pool.self P) (hc : c ∈ P.bases)
    (ht : Tallied f h (P.edit c bs₀ L₀) c h' (P.edit c bs L)) : OwnBlocks h'.mem P := by
  intro d hd
  refine (ho d hd).kept (hp.edit c bs₀ L₀) hl hd fun w _ _ haway hpool => (ht.kept w haway ?_).1
  by_contra hin
  have hin' : P.poolOf h.pool.self c + 8 ≤ w ∧ w < P.poolOf h.pool.self c + 16 := by
    rwa [not_or, Nat.not_lt, Nat.not_le] at hin
  exact hpool ⟨c, hc, by omega, by omega⟩

/-- A new area comes with one. -/
theorem OwnBlocks.entered (ho : OwnBlocks h.mem P) (hl : Spans h P)
    (hp : Pooled h.mem h.pool.self P) (hf : Fresh P h.pool.self c n) (he : Entered h P c n h') :
    OwnBlocks h'.mem (P.entered c n) := by
  intro d hd
  rcases List.mem_cons.mp hd with rfl | hd
  · rw [show (P.entered d n).size d = n from Function.update_self ..]
    exact he.own
  · have hdb : d ∈ P.bases := List.mem_cons_of_mem _ hd
    have hplace := (hl.place d hdb).bounds
    have hstop : P.stop d = d + P.size d := rfl
    have hap := hf.apart d hdb
    rw [show (P.entered c n).size d = P.size d from Function.update_of_ne (hf.ne hdb hl) ..]
    refine (ho d hd).kept hp hl hd fun w hlo hhi haway hpool => he.kept w haway (by omega) ?_
    by_contra hin
    have hman : P.poolOf h.pool.self P.main = h.pool.self := if_pos rfl
    exact hpool ⟨P.main, List.mem_cons_self, by omega, by omega⟩

/-- The others keep theirs when an area is given back. -/
theorem OwnBlocks.dropped (ho : OwnBlocks h.mem P) (hl : Spans h P)
    (hp : Pooled h.mem h.pool.self P) (hd : Dropped h P c h') : OwnBlocks h'.mem (P.drop c) := by
  intro d hdm
  have hdm : d ∈ P.secs := List.mem_of_mem_erase hdm
  exact (ho d hdm).kept hp hl hdm fun w _ _ _ hpool => hd.kept w hpool

/-- Stores of the user do not concern them. -/
theorem OwnBlocks.userStore (ho : OwnBlocks m P) (hl : Spread m hd P) (hp : Pooled m man P)
    (hm : ∀ w, Internal P w → m' w = m w) : OwnBlocks m' P := by
  intro d hdm
  have hdb : d ∈ P.bases := List.mem_cons_of_mem _ hdm
  have hplace := (hl.place d hdb).bounds
  have hstop : P.stop d = d + P.size d := rfl
  refine (ho d hdm).kept hp hl hdm fun w hlo hhi _ _ =>
    hm w ⟨⟨d, hdb, hlo, by omega⟩, fun c hc b hb _ => ?_⟩
  have hoff := hl.off_own hdb (hp.sec_ne hdm) hlo hhi hc hb
  omega

/-- The blocks of an area with that of its pool. -/
def Pic.whole (P : Pic) (c : Nat) : List Block :=
  if c = P.main then P.blocks c else ⟨c + 16, 32, .live⟩ :: P.blocks c

theorem Pic.mem_whole : b ∈ P.whole c ↔ b ∈ P.blocks c ∨ (c ≠ P.main ∧ b = ⟨c + 16, 32, .live⟩) := by
  unfold Pic.whole
  split
  · simp [*]
  · simp [*, or_comm]

/-- Blocks of areas, those of the pools included, have both tags in order. -/
theorem Spread.whole (hl : Spread m hd P) (ho : OwnBlocks m P) (hc : c ∈ P.bases)
    (hb : b ∈ P.whole c) :
    Fits b.ptr b.size ∧ Tagged m b ∧
      (b.st ≠ .hand → Flagged m b.ptr b.size (P.size c = size2M)) ∧ 16 ≤ b.size ∧
      c + 16 ≤ b.ptr ∧ b.ptr + b.size + 16 ≤ P.stop c := by
  rcases Pic.mem_whole.mp hb with hb | ⟨hmain, rfl⟩
  · have hbd := hl.bounds hc hb
    have hfirst := P.first_le c
    exact ⟨hl.fitsOf hc hb, hl.tags c hc b hb, hl.flags c hc b hb, (hl.sizes c hc b hb).2,
      by omega, by omega⟩
  · have hsec : c ∈ P.secs := (List.mem_cons.mp hc).resolve_left hmain
    have hown := ho c hsec
    have hplace := (hl.place c hc).bounds
    have hfit := (hl.place c hc).fits
    have hstop : P.stop c = c + P.size c := rfl
    refine ⟨⟨?_, ?_, ?_, ?_⟩, hown.tags, fun _ => hown.flags, ?_, ?_, ?_⟩ <;> dsimp only <;> omega

theorem Spread.tiling_whole (hl : Spread m hd P) (hc : c ∈ P.bases) :
    Tiling Block.ptr Block.len (c + 16) (P.whole c) (P.stop c) := by
  have htil := hl.tiling c hc
  unfold Pic.first at htil
  unfold Pic.whole
  by_cases hmain : c = P.main
  · rw [if_pos hmain] at htil ⊢
    exact htil
  · rw [if_neg hmain] at htil ⊢
    exact ⟨rfl, htil⟩

theorem Spread.blkSize_whole (hl : Spread m hd P) (ho : OwnBlocks m P) (hc : c ∈ P.bases)
    (hb : b ∈ P.whole c) : blkSize m b.ptr = b.size := by
  obtain ⟨hf, htag, -⟩ := hl.whole ho hc hb
  have hlow := hf.low
  have hhigh := hf.high
  exact htag.blkSize (by omega) (by omega)

/-! ## The picture of a state -/

/-- **The blocks of a state**: the manager is at rest, and the pointers held are the live blocks. -/
structure Sited (s : MmanState) (P : Pic) : Prop where
  managed : Managed s.heap P
  own : OwnBlocks s.heap.mem P
  live_iff : ∀ p, p ∈ s.live ↔ ∃ c ∈ P.bases, LiveAt (P.blocks c) p
  nodup : s.live.Nodup

/-- **The picture of a state**: what the user and the logs say agrees with it. -/
structure Charted (man a size : Nat) (s : MmanState) (P : Pic) : Prop extends Sited s P where
  self : s.heap.pool.self = man
  tracked : Tracked a size s.heap P

/-- What is live when an area has other blocks. -/
theorem Pic.liveAt_edit (hc : c ∈ P.bases) :
    (∃ d ∈ P.bases, LiveAt ((P.edit c bs L).blocks d) q) ↔
      LiveAt bs q ∨ ∃ d ∈ P.bases, d ≠ c ∧ LiveAt (P.blocks d) q := by
  constructor
  · rintro ⟨d, hd, hq⟩
    by_cases hdc : d = c
    · subst hdc
      rw [Pic.edit_blocks] at hq
      exact .inl hq
    · rw [Pic.edit_blocks_ne hdc] at hq
      exact .inr ⟨d, hd, hdc, hq⟩
  · rintro (hq | ⟨d, hd, hdc, hq⟩)
    · exact ⟨c, hc, by rwa [Pic.edit_blocks]⟩
    · exact ⟨d, hd, by rwa [Pic.edit_blocks_ne hdc]⟩

namespace Sited

variable {s : MmanState} {pre post : List Block}

theorem live_split (ho : Sited s P) (hc : c ∈ P.bases) (q : Nat) :
    q ∈ s.live ↔ LiveAt (P.blocks c) q ∨ ∃ d ∈ P.bases, d ≠ c ∧ LiveAt (P.blocks d) q := by
  have hsplit : (∃ d ∈ P.bases, LiveAt ((P.edit c (P.blocks c) P.lists).blocks d) q) ↔ _ :=
    Pic.liveAt_edit hc
  rw [Pic.edit_self] at hsplit
  rw [ho.live_iff, hsplit]

/-- **A pointer held is a block.** -/
theorem block (ho : Sited s P) (hp : p ∈ s.live) :
    ∃ c ∈ P.bases, ∃ pre k post, P.blocks c = pre ++ ⟨p, k, .live⟩ :: post := by
  obtain ⟨c, hc, ⟨y, k, st⟩, hb, rfl, rfl⟩ := (ho.live_iff p).mp hp
  obtain ⟨pre, post, hbs⟩ := List.append_of_mem hb
  exact ⟨c, hc, pre, k, post, hbs⟩

theorem msize_eq (ho : Sited s P) (hc : c ∈ P.bases) (hb : b ∈ P.blocks c) :
    mmanMsize s.heap b.ptr = b.size := by
  have := (ho.managed.spans.fitsOf hc hb).low
  rw [mmanMsize, if_neg (by omega), ho.managed.spans.blkSize_eq hc hb]

/-- **Other blocks in one area.** -/
theorem tallied (ho : Sited s P) (hc : c ∈ P.bases) (hl : Spread m hd (P.edit c bs₀ L₀))
    (ht : Tallied f s.heap (P.edit c bs₀ L₀) c h' (P.edit c bs L)) (hset : Settled bs)
    (hnd : live.Nodup)
    (hlive : ∀ q, q ∈ live ↔ LiveAt bs q ∨ ∃ d ∈ P.bases, d ≠ c ∧ LiveAt (P.blocks d) q) :
    Sited ⟨h', live⟩ (P.edit c bs L) := by
  refine ⟨⟨ht.spans, ?_, Pic.edit_all L ho.managed.settled hset⟩,
    ho.own.tallied hl ho.managed.pooled hc ht, fun q => (hlive q).trans (Pic.liveAt_edit hc).symm,
    hnd⟩
  rw [ht.self]
  exact ht.pooled

/-- A block that was taken is a new one. -/
theorem not_held (ho : Sited s P) (hs : Supplied r s.heap P p k c h' P') : p ∉ s.live := by
  intro hp
  obtain ⟨d, hd, y, hy, hyp, hyl⟩ := (ho.live_iff p).mp hp
  obtain ⟨bs, L, rfl, htake⟩ := hs.edit
  have hnew : (⟨p, k, .live⟩ : Block) ∈ (P.edit c bs L).blocks c := by
    rw [Pic.edit_blocks]
    exact htake.mem
  by_cases hdc : d = c
  · subst hdc
    have hbs : (P.edit d bs L).blocks d = bs := Pic.edit_blocks _ _
    generalize hold : P.blocks d = old at htake hy
    cases htake with
    | intro pre post x s p t hr =>
        refine Spread.ptr_ne hs.tallied.spans hs.base hbs (b := y) ?_ hyp
        simp only [List.mem_append, List.mem_cons] at hy ⊢
        rcases hy with hy | rfl | hy
        · exact .inl (.inl hy)
        · exact absurd hyl (by simp)
        · exact .inr (.inr hy)
  · have hy' : y ∈ (P.edit c bs L).blocks d := by rwa [Pic.edit_blocks_ne hdc]
    exact hdc (hs.tallied.spans.eq_of_ptr hd hy' hs.base hnew hyp).1

/-- **A block taken.** -/
theorem supplied (ho : Sited s P) (hs : Supplied r s.heap P p k c h' P') :
    Sited ⟨h', p :: s.live⟩ P' := by
  have hnew := ho.not_held hs
  obtain ⟨bs, L, rfl, htake⟩ := hs.edit
  have hl : Spread s.heap.mem s.heap.pool.heads (P.edit c (P.blocks c) P.lists) := by
    rw [Pic.edit_self]
    exact ho.managed.spans
  have ht : Tallied (addW · k) s.heap (P.edit c (P.blocks c) P.lists) c h' (P.edit c bs L) := by
    rw [Pic.edit_self]
    exact hs.tallied
  refine ho.tallied hs.base hl ht (htake.settled (ho.managed.settled c hs.base))
    (List.nodup_cons.mpr ⟨hnew, ho.nodup⟩) fun q => ?_
  rw [List.mem_cons, ho.live_split hs.base, htake.liveAt_iff, or_assoc]

/-- **An area more.** -/
theorem stocked {g : Heap Mman} {Q : Pic} (ho : Sited s P) (hs : Stocked s.heap P c g Q) :
    Sited ⟨g, s.live⟩ Q := by
  cases hs with
  | same => exact ho
  | grown n g hf he =>
      have hl := ho.managed.spans
      have hp := ho.managed.pooled
      have hne : ∀ d ∈ P.bases, d ≠ c := fun d hd => hf.ne hd hl
      refine ⟨⟨he.spans, ?_, fun d hd => ?_⟩, ho.own.entered (h := logged s.heap c n) hl hp hf he,
        fun q => ?_, ho.nodup⟩
      · rw [he.self]
        exact he.pooled
      · rcases Pic.mem_entered.mp hd with rfl | hd
        · rw [Pic.entered_blocks]
          simp [Settled]
        · rw [Pic.entered_blocks_ne (hne d hd)]
          exact ho.managed.settled d hd
      · rw [ho.live_iff q]
        constructor
        · rintro ⟨d, hd, hq⟩
          refine ⟨d, Pic.mem_entered.mpr (.inr hd), ?_⟩
          rwa [Pic.entered_blocks_ne (hne d hd)]
        · rintro ⟨d, hd, hq⟩
          rcases Pic.mem_entered.mp hd with rfl | hd
          · rw [Pic.entered_blocks] at hq
            obtain ⟨b, hb, -, hlive⟩ := hq
            rw [List.mem_singleton.mp hb] at hlive
            exact absurd hlive (by simp)
          · rw [Pic.entered_blocks_ne (hne d hd)] at hq
            exact ⟨d, hd, hq⟩

/-- **What the user stores.** -/
theorem userStore (ho : Sited s P) (hint : ∀ w, Internal P w → m w = s.heap.mem w)
    (hman : ∀ w, s.heap.pool.self ≤ w → w < s.heap.pool.self + sizeofMman →
      m w = s.heap.mem w) : Sited ⟨{ s.heap with mem := m }, s.live⟩ P := by
  have hl := ho.managed.spans
  have hp := ho.managed.pooled
  exact ⟨⟨hl.userStore hint, (hp.userStore hl hint hman).1, ho.managed.settled⟩,
    ho.own.userStore hl hp hint, ho.live_iff, ho.nodup⟩

/-- In which order the pointers are named does not matter. -/
theorem perm (ho : Sited s P) (hperm : live.Perm s.live) : Sited ⟨s.heap, live⟩ P := by
  refine ⟨ho.managed, ho.own, fun p => ?_, hperm.nodup_iff.mpr ho.nodup⟩
  rw [hperm.mem_iff]
  exact ho.live_iff p

/-- A pointer held is in one area. -/
theorem area_eq (ho : Sited s P) {d : Nat} (hc : c ∈ P.bases)
    (hbs : P.blocks c = pre ++ ⟨p, k, .live⟩ :: post) (hd : d ∈ P.bases)
    (hp : LiveAt (P.blocks d) p) : d = c := by
  have hmem : (⟨p, k, .live⟩ : Block) ∈ P.blocks c := by rw [hbs]; simp
  obtain ⟨y, hy, hyp, -⟩ := hp
  exact (ho.managed.spans.eq_of_ptr hd hy hc hmem hyp).1

/-- What is held once a block is not live any more. -/
theorem live_erase (ho : Sited s P) (hc : c ∈ P.bases)
    (hbs : P.blocks c = pre ++ ⟨p, k, .live⟩ :: post)
    (hrest : ∀ q, LiveAt bs q ↔ q ≠ p ∧ LiveAt (P.blocks c) q) (q : Nat) :
    q ∈ s.live.erase p ↔ LiveAt bs q ∨ ∃ d ∈ P.bases, d ≠ c ∧ LiveAt (P.blocks d) q := by
  rw [ho.nodup.mem_erase_iff, ho.live_split hc, hrest, and_or_left]
  refine or_congr_right ⟨And.right, fun hq => ⟨?_, hq⟩⟩
  rintro rfl
  obtain ⟨d, hd, hdc, hq⟩ := hq
  exact hdc (ho.area_eq hc hbs hd hq)

end Sited

/-! ## Releases -/

/-- Nothing is live where the block was. -/
theorem Releases.not_live {x t : Nat} {pre post : List Block} (hrel : Releases (P.blocks c) x t bs)
    (hl : Spans h P) (hc : c ∈ P.bases) (hbs : P.blocks c = pre ++ ⟨x, t, .live⟩ :: post) :
    ¬ LiveAt bs x := by
  rintro ⟨y, hy, hyx, hyl⟩
  have hx : (⟨x, t, .live⟩ : Block) ∈ P.blocks c := by rw [hbs]; simp
  have hmem : y ∈ P.blocks c := (hrel.live_iff hyl).mpr (.inr hy)
  obtain ⟨-, rfl⟩ := hl.eq_of_ptr hc hmem hc hx hyx
  generalize hold : P.blocks c = old at hrel
  cases hrel with
  | intro pre₁ post₁ pre' post' x t z u hpre hpost =>
      have h1 := hpre.mem_iff (b := ⟨x, t, .live⟩) (by simp)
      have h2 := hpost.mem_iff (b := ⟨x, t, .live⟩) (by simp)
      simp only [List.mem_reverse] at h1
      simp only [List.mem_append, List.mem_cons, h1, h2, Block.mk.injEq, reduceCtorEq, and_false,
        false_or] at hy
      exact hl.ptr_ne hc hold (List.mem_append.mpr hy) rfl

/-- **A block given back** and listed. -/
theorem Sited.listed {s : MmanState} {pre post : List Block} (ho : Sited s P) (hc : c ∈ P.bases)
    (hbs : P.blocks c = pre ++ ⟨p, k, .live⟩ :: post) (hrel : Releases (P.blocks c) p k bs)
    (ht : Tallied f s.heap (P.taken c p k pre post) c h' (P.edit c bs L)) :
    Sited ⟨h', s.live.erase p⟩ (P.edit c bs L) := by
  have hgone := hrel.not_live ho.managed.spans hc hbs
  refine ho.tallied hc (ho.managed.spans.takeLive hc hbs).1 ht
    (hrel.settled (ho.managed.settled c hc)) (ho.nodup.erase p) (ho.live_erase hc hbs fun q => ?_)
  rw [hrel.liveAt_iff]
  constructor
  · intro hq
    exact ⟨fun he => hgone (he ▸ hq), .inr hq⟩
  · rintro ⟨hne, hq⟩
    exact hq.resolve_left hne

/-! ## The logs along with the blocks -/

namespace Charted

variable {s : MmanState}

/-- What keeps the logs keeps a charted state that is sited. -/
theorem tallied (ho : Charted man a size s P) (hs : Sited ⟨h', live⟩ (P.edit c bs L))
    (ht : Tallied f s.heap (P.edit c bs₀ L₀) c h' (P.edit c bs L)) :
    Charted man a size ⟨h', live⟩ (P.edit c bs L) :=
  ⟨hs, ht.self.trans ho.self,
    ho.tracked.edit (congrArg (fun r => r.2.2.2.2.2.2) ht.rest) ht.delmem⟩

/-- **A block taken.** -/
theorem supplied (ho : Charted man a size s P) (hs : Supplied r s.heap P p k c h' P') :
    Charted man a size ⟨h', p :: s.live⟩ P' := by
  have hsited := ho.toSited.supplied hs
  obtain ⟨bs, L, rfl, -⟩ := hs.edit
  exact ⟨hsited, hs.tallied.self.trans ho.self,
    ho.tracked.edit (congrArg (fun r => r.2.2.2.2.2.2) hs.tallied.rest) hs.tallied.delmem⟩

/-- **An area more.** -/
theorem stocked {g : Heap Mman} {Q : Pic} (ho : Charted man a size s P)
    (hs : Stocked s.heap P c g Q) : Charted man a size ⟨g, s.live⟩ Q := by
  have hsited := ho.toSited.stocked hs
  cases hs with
  | same => exact ho
  | grown n g hf he =>
      have hne : ∀ d ∈ P.bases, d ≠ c := fun d hd => hf.ne hd ho.managed.spans
      have hreq : g.pool.reqmem = s.heap.pool.reqmem ++ [(c, n)] :=
        congrArg (fun r => r.2.2.2.2.2.2) he.rest
      exact ⟨hsited, he.self.trans ho.self, ho.tracked.entered hne hreq he.delmem⟩

/-- What is internal to the picture is the manager's own. -/
theorem reserved (ho : Charted man a size s P) {w : Nat} (hw : Internal P w) :
    Reserved a size s w := by
  obtain ⟨⟨c, hc, hlo, hhi⟩, hout⟩ := hw
  refine ⟨.inr ⟨c, P.size c, ho.tracked.holds_iff.mpr ⟨hc, rfl⟩, hlo, hhi⟩, fun p hp => ?_⟩
  obtain ⟨d, hd, y, hy, rfl, hlive⟩ := (ho.live_iff p).mp hp
  rw [ho.msize_eq hd hy]
  exact hout d hd y hy hlive

/-- So is the structure of the manager. -/
theorem reserved_own (ho : Charted man a size s P) {w : Nat} (hlo : man ≤ w)
    (hhi : w < man + sizeofMman) : Reserved a size s w := by
  have hl := ho.managed.spans
  refine ⟨.inl ⟨by rwa [ho.self], by rwa [ho.self]⟩, fun p hp => ?_⟩
  obtain ⟨d, hd, y, hy, rfl, hlive⟩ := (ho.live_iff p).mp hp
  rw [ho.msize_eq hd hy]
  have hbd := hl.bounds hd hy
  have hfirst := P.first_le d
  have hap := ho.managed.pooled.apart d hd
  rw [ho.self] at hap
  omega

/-- **What the user stores.** -/
theorem userStore (ho : Charted man a size s P) (hint : ∀ w, Internal P w → m w = s.heap.mem w)
    (hman : ∀ w, man ≤ w → w < man + sizeofMman → m w = s.heap.mem w) :
    Charted man a size ⟨{ s.heap with mem := m }, s.live⟩ P := by
  have ht := ho.tracked
  rw [← ho.self] at hman
  exact ⟨ho.toSited.userStore hint hman, ho.self, ⟨ht.main, ht.main_size, ht.nodup, ht.log⟩⟩

/-- In which order the pointers are named does not matter. -/
theorem perm (ho : Charted man a size s P) (hperm : live.Perm s.live) :
    Charted man a size ⟨s.heap, live⟩ P := ⟨ho.toSited.perm hperm, ho.self, ho.tracked⟩

/-- **A block given back** and listed. -/
theorem listed {pre post : List Block} (ho : Charted man a size s P) (hc : c ∈ P.bases)
    (hbs : P.blocks c = pre ++ ⟨p, k, .live⟩ :: post) (hrel : Releases (P.blocks c) p k bs)
    (ht : Tallied f s.heap (P.taken c p k pre post) c h' (P.edit c bs L)) :
    Charted man a size ⟨h', s.live.erase p⟩ (P.edit c bs L) :=
  ho.tallied (ho.toSited.listed hc hbs hrel ht) ht

end Charted

end IonOS.Alloc
