import IonOS.Alloc.Heap
import IonOS.Lib.Blocks

/-!
# The heap as a store of blocks

What the heap is for: a byte that is written to a block is there until it is written again or
the block is given back, whatever else is asked for in between and wherever the block is moved.
`contents` is what the blocks held have in them. Each call says what its effect should be, and
it has at least that, so that what is written in a run is known at its end.
-/

namespace IonOS.Alloc

open IonOS.Lib IonOS.Libs

variable {a e size pool n k p q i x align : Nat} {s t : PoolState} {h : Heap Mpool} {v : UInt8}
  {bs bs' : List Block} {L L' : Nat → List Nat} {xs : List Nat}

/-! ## Blocks and their bytes -/

/-- What is in the blocks that are held. -/
def contents (s : PoolState) : Contents Nat UInt8 := fun p i =>
  if p ∈ s.live ∧ i < mallocUsableSize s.heap p then some (s.heap.mem (p + i)) else none

theorem contents_eq_some : contents s p i = some v ↔
    p ∈ s.live ∧ i < mallocUsableSize s.heap p ∧ s.heap.mem (p + i) = v := by
  unfold contents
  split
  · rename_i hp
    rw [Option.some_inj, ← and_assoc]
    exact (and_iff_right hp).symm
  · rename_i hp
    refine iff_of_false nofun ?_
    intro hv
    exact hp ⟨hv.1, hv.2.1⟩

/-- The blocks at `xs` have the sizes and bytes that they had. -/
def Intact (s : PoolState) (h : Heap Mpool) (xs : List Nat) : Prop :=
  ∀ x ∈ xs, mpoolMsize h x = mpoolMsize s.heap x ∧
    ∀ i < mpoolMsize s.heap x, h.mem (x + i) = s.heap.mem (x + i)

/-- A byte of a block that is still held. -/
theorem Intact.contents {live : List Nat} (hi : Intact s h xs) (hx : x ∈ xs) (hlive : x ∈ live)
    (hv : contents s x i = some v) : IonOS.Alloc.contents ⟨h, live⟩ x i = some v := by
  obtain ⟨-, hlt, hv⟩ := contents_eq_some.mp hv
  obtain ⟨hsize, hsame⟩ := hi x hx
  refine contents_eq_some.mpr ⟨hlive, ?_, (hsame i hlt).trans hv⟩
  show i < mpoolMsize h x
  rw [hsize]
  exact hlt

theorem Allocated.intact (hs : Shows a e s bs L) (ha : Allocated a e s.heap bs n p h k bs' L') :
    Intact s h s.live := by
  intro x hx
  obtain ⟨b, hb, rfl, hst⟩ := (hs.live_iff x).mp hx
  have hb' : b ∈ bs' := (ha.takes.live_iff hst).mpr (.inr hb)
  have hsize := hs.msize_eq hb
  have hsize' := (hs.allocated ha).msize_eq hb'
  refine ⟨hsize'.trans hsize.symm, ?_⟩
  intro i hi
  rw [hsize] at hi
  exact ha.payload hs.laid hb hst (Nat.le_add_right _ _) (Nat.add_lt_add_left hi _)

theorem Freed.intact (hs : Shows a e s bs L) (hnd : s.live.Nodup)
    (hf : Freed a e s.heap bs p k h bs' L') : Intact s h (s.live.erase p) := by
  intro x hx
  obtain ⟨hne, hx⟩ := hnd.mem_erase_iff.mp hx
  obtain ⟨b, hb, rfl, hst⟩ := (hs.live_iff x).mp hx
  have hb' : b ∈ bs' := by
    rcases (hf.releases.live_iff hst).mp hb with he | hb'
    · exact absurd (congrArg Block.ptr he) hne
    · exact hb'
  have hsize := hs.msize_eq hb
  have hsize' := (hs.freed hnd hf).msize_eq hb'
  refine ⟨hsize'.trans hsize.symm, ?_⟩
  intro i hi
  rw [hsize] at hi
  exact hf.payload hs.laid hb hst hne (Nat.le_add_right _ _) (Nat.add_lt_add_left hi _)

/-- **Stores into one block** leave the others and all sizes as they are. -/
theorem store_intact {m : Mem} (hi : Inv a e s) (hp : p ∈ s.live)
    (hm : ∀ w, w < p ∨ p + mpoolMsize s.heap p ≤ w → m w = s.heap.mem w) :
    Intact s { s.heap with mem := m } (s.live.erase p) ∧
      mpoolMsize { s.heap with mem := m } p = mpoolMsize s.heap p := by
  obtain ⟨bs, L, hs⟩ := hi.shows
  have hs' := hs.stored fun w hw => hm w (hw p hp)
  have hsizes : ∀ b ∈ bs, mpoolMsize { s.heap with mem := m } b.ptr = mpoolMsize s.heap b.ptr :=
    fun b hb => (hs'.msize_eq hb).trans (hs.msize_eq hb).symm
  obtain ⟨c, hc, rfl, -⟩ := (hs.live_iff p).mp hp
  refine ⟨?_, hsizes c hc⟩
  intro x hx
  obtain ⟨hne, hx⟩ := hi.nodup.mem_erase_iff.mp hx
  obtain ⟨b, hb, rfl, -⟩ := (hs.live_iff x).mp hx
  refine ⟨hsizes b hb, ?_⟩
  intro i hlt
  rw [hs.msize_eq hb] at hlt
  have hclear := hs.laid.clear_of hb hc hne (Nat.le_add_right _ i) (Nat.add_lt_add_left hlt _)
  rw [hs.msize_eq hc] at hm
  exact hm _ (by omega)

theorem Preserved.intact (hnd : s.live.Nodup) (hp : Preserved s p n q h) :
    Intact s h (s.live.erase p) := by
  intro x hx
  obtain ⟨hne, hx⟩ := hnd.mem_erase_iff.mp hx
  exact hp.others x hx hne

/-! ## Calls -/

/-- What the kernel does with its heap: a request and its answer, a release, or one byte written. -/
inductive HeapEvent where
  | request (c : Request) (q : Nat)
  | free (p : Nat)
  | write (p i : Nat) (v : UInt8)

/-- The harmless ones. -/
inductive HeapDoes : PoolState → HeapEvent → PoolState → Prop where
  | request {s : PoolState} {c : Request} {q : Nat} {h : Heap Mpool} (hc : c.Legal s.live)
      (hclean : c.Clean s.heap) (hr : c.run s.heap = some (q, h)) :
      HeapDoes s (.request c q) ⟨h, c.held s.live q⟩
  | free {s : PoolState} {p : Nat} (hp : p ∈ s.live) :
      HeapDoes s (.free p) ⟨free s.heap p, s.live.erase p⟩
  | write {s : PoolState} {p i : Nat} {v : UInt8} (hp : p ∈ s.live)
      (hi : i < mallocUsableSize s.heap p) :
      HeapDoes s (.write p i v)
        ⟨{ s.heap with mem := store8 s.heap.mem (p + i) v }, s.live⟩

/-- What a request that is answered with `q` is for. -/
def Request.effect (c : Request) (q : Nat) (k : Contents Nat UInt8) : Contents Nat UInt8 :=
  match c with
  | .malloc _ => k.create q fun _ => none
  | .calloc n m => k.create q fun i => if i < n * m then some 0 else none
  | .realloc p n => k.resize p q n
  | .reallocarray p n m => k.resize p q (n * m)
  | .alignedAlloc _ _ => k.create q fun _ => none

/-- What an event should do; an answer of null does nothing. -/
def HeapEvent.effect : HeapEvent → Contents Nat UInt8 → Contents Nat UInt8
  | .request c q, k => if q = 0 then k else c.effect q k
  | .free p, k => k.discard p
  | .write p i v, k => k.write p i v

theorem Request.effect_mono (r : Request) (q : Nat) {c c' : Contents Nat UInt8}
    (h : c.Extends c') : (r.effect q c).Extends (r.effect q c') := by
  cases r with
  | malloc n => exact h.create q _
  | calloc n m => exact h.create q _
  | realloc p n => exact h.resize p q n
  | reallocarray p n m => exact h.resize p q (n * m)
  | alignedAlloc align n => exact h.create q _

theorem HeapEvent.effect_mono (d : HeapEvent) (c c' : Contents Nat UInt8) (h : c.Extends c') :
    (d.effect c).Extends (d.effect c') := by
  cases d with
  | request r q =>
    show (if q = 0 then c else r.effect q c).Extends (if q = 0 then c' else r.effect q c')
    by_cases hq : q = 0
    · rwa [if_pos hq, if_pos hq]
    · rw [if_neg hq, if_neg hq]
      exact r.effect_mono q h
  | free p => exact h.discard p
  | write p i v => exact h.write p i v

/-- What is written to a block is in it. -/
theorem write_other {w : Nat} (hi : i < k) (hw : w < p ∨ p + k ≤ w) :
    store8 s.heap.mem (p + i) v w = s.heap.mem w := by
  have hne : w ≠ p + i := by omega
  exact if_neg hne

theorem inv_does {d : HeapEvent} (hi : Inv a e s) (hd : HeapDoes s d t) : Inv a e t := by
  cases hd with
  | request hc hclean hr => exact inv_request hi hc hclean hr
  | free hp => exact inv_free hi hp
  | write hp hlt => exact inv_store hi fun w hw => write_other hlt (hw _ hp)

/-! ## What each call does -/

/-- A new block that leaves the others alone, or null and nothing done. -/
def Gives (s : PoolState) (q : Nat) (h : Heap Mpool) : Prop :=
  if q = 0 then h = s.heap else Intact s h s.live ∧ q ∉ s.live

theorem gives_null (s : PoolState) : Gives s 0 s.heap := by
  unfold Gives
  rw [if_pos rfl]

theorem Gives.extends {fill : Nat → Option UInt8} (hg : Gives s q h)
    (hfill : q ≠ 0 → ∀ i v, fill i = some v → contents ⟨h, q :: s.live⟩ q i = some v) :
    (if q = 0 then contents s else (contents s).create q fill).Extends
      (contents ⟨h, if q = 0 then s.live else q :: s.live⟩) := by
  unfold Gives at hg
  split at hg
  · rename_i hq
    rw [if_pos hq, if_pos hq, hg]
    exact .refl _
  · rename_i hq
    obtain ⟨hintact, hfresh⟩ := hg
    rw [if_neg hq, if_neg hq]
    refine Contents.Extends.update (fun x _ i v hv => ?_) (hfill hq)
    have hlive := (contents_eq_some.mp hv).1
    exact hintact.contents hlive (List.mem_cons_of_mem q hlive) hv

theorem Allocated.gives (hs : Shows a e s bs L) (ha : Allocated a e s.heap bs n p h k bs' L') :
    Gives s p h := by
  unfold Gives
  rw [if_neg ha.nonnull]
  exact ⟨ha.intact hs, hs.not_held ha⟩

theorem alloc_gives (hi : Inv a e s) (hn : n ≤ 2 ^ 64 - 16)
    (hr : mpoolAlloc s.heap n = some (q, h)) : Gives s q h := by
  obtain ⟨bs, L, hs⟩ := hi.shows
  rcases mpoolAlloc_laid hs.laid hi.quiet hn with ⟨-, hr'⟩ | ⟨p', h', k, bs', L', hr', hall⟩
  · obtain ⟨rfl, rfl⟩ := Prod.mk.inj (Option.some.inj (hr'.symm.trans hr))
    exact gives_null s
  · obtain ⟨rfl, rfl⟩ := Prod.mk.inj (Option.some.inj (hr'.symm.trans hr))
    exact hall.gives hs

theorem malloc_gives (hi : Inv a e s) (hm : Mallocs s.heap n)
    (hr : malloc s.heap n = some (q, h)) : Gives s q h := by
  by_cases hn : n ≤ 2 ^ 64 - 16
  · exact alloc_gives hi hn hr
  · obtain ⟨q', h', hr', hnull, hsame⟩ := mpoolAlloc_null_iff hi n
    obtain ⟨rfl, rfl⟩ := Prod.mk.inj (Option.some.inj (hr'.symm.trans hr))
    have hq := hnull.mpr (hm.resolve_left hn)
    unfold Gives
    rw [if_pos hq]
    exact hsame hq

theorem aligned_gives (hi : Inv a e s) (ha : AlignPow align) (hc : AlignedClean s.heap n align)
    (hr : mpoolAlignedAlloc s.heap n align = some (q, h)) : Gives s q h := by
  unfold AlignedClean at hc
  split at hc
  · rename_i hn
    obtain ⟨bs, L, hs⟩ := hi.shows
    rcases mpoolAlignedAlloc_laid hs.laid hi.quiet hn ha hc with
      ⟨-, hr'⟩ | ⟨p', h', k, bs', L', hr', -, hall⟩
    · obtain ⟨rfl, rfl⟩ := Prod.mk.inj (Option.some.inj (hr'.symm.trans hr))
      exact gives_null s
    · obtain ⟨rfl, rfl⟩ := Prod.mk.inj (Option.some.inj (hr'.symm.trans hr))
      exact hall.gives hs
  · rcases mpoolAlignedAlloc_ptr hi ha n with ⟨x, h', hx, -⟩ | ⟨-, hr'⟩
    · exact absurd hx (hc x)
    · obtain ⟨rfl, rfl⟩ := Prod.mk.inj (Option.some.inj (hr'.symm.trans hr))
      exact gives_null s

/-- `calloc` clears the block. -/
theorem calloc_gives (hi : Inv a e s) (hm : 2 ^ 64 ≤ n * k ∨ Mallocs s.heap (n * k))
    (hr : calloc s.heap n k = some (q, h)) :
    Gives s q h ∧ (q ≠ 0 → ∀ i < n * k, contents ⟨h, q :: s.live⟩ q i = some 0) := by
  unfold calloc at hr
  split at hr
  · obtain ⟨rfl, rfl⟩ := Prod.mk.inj (Option.some.inj hr)
    exact ⟨gives_null s, fun hq => absurd rfl hq⟩
  rename_i hover
  have hm := hm.resolve_left hover
  obtain ⟨q', h', hr', hroom, hi'⟩ := inv_malloc hi hm
  have hg := malloc_gives hi hm hr'
  rw [hr', Option.bind_eq_bind, Option.bind_some] at hr
  dsimp only at hr
  by_cases hq : q' = 0
  · rw [if_pos hq] at hr
    obtain ⟨rfl, rfl⟩ := Prod.mk.inj (Option.some.inj hr)
    rw [hq] at hg
    exact ⟨hg, fun hq => absurd rfl hq⟩
  have hroom := hroom hq
  unfold Gives at hg
  rw [if_neg hq] at hr hi' hg
  obtain ⟨hintact, hfresh⟩ := hg
  obtain ⟨hend, -⟩ := inv_clear hi' List.mem_cons_self hroom
  rw [if_neg (Nat.not_lt.mpr hend)] at hr
  obtain ⟨rfl, rfl⟩ := Prod.mk.inj (Option.some.inj hr)
  -- what is cleared is in the new block
  have hclear : ∀ w, w < q' ∨ q' + mpoolMsize h' q' ≤ w →
      memset h'.mem q' 0 (n * k) w = h'.mem w := fun w hw => memset_other (by omega)
  obtain ⟨hothers, hsize⟩ := store_intact hi' List.mem_cons_self hclear
  rw [List.erase_cons_head] at hothers
  unfold Gives
  rw [if_neg hq]
  refine ⟨⟨fun x hx => ?_, hfresh⟩, fun _ i hlt => ?_⟩
  · obtain ⟨hx1, hx2⟩ := hintact x hx
    obtain ⟨hy1, hy2⟩ := hothers x hx
    refine ⟨hy1.trans hx1, fun i hlt => ?_⟩
    exact (hy2 i (by rw [hx1]; exact hlt)).trans (hx2 i hlt)
  · have hin := Nat.lt_of_lt_of_le hlt hroom
    rw [← hsize] at hin
    exact contents_eq_some.mpr ⟨List.mem_cons_self, hin, memset_inside hlt⟩

/-- Reallocation takes the bytes along. -/
theorem realloc_extends (hi : Inv a e s) (hp : p ∈ s.live) (hn : n ≤ 2 ^ 64 - 16)
    (hr : realloc s.heap p n = some (q, h)) :
    ((contents s).resize p q n).Extends (contents ⟨h, q :: s.live.erase p⟩) := by
  have hpres := preserved_realloc hi hp hn hr
  have hintact := hpres.intact hi.nodup
  refine Contents.Extends.update (fun x hx i v hv => ?_) fun i v hv => ?_
  · unfold Contents.discard at hv
    by_cases hxp : x = p
    · rw [hxp, Function.update_self] at hv
      exact nomatch hv
    · rw [Function.update_of_ne hxp] at hv
      have hlive := hi.nodup.mem_erase_iff.mpr ⟨hxp, (contents_eq_some.mp hv).1⟩
      exact hintact.contents hlive (List.mem_cons_of_mem q hlive) hv
  · split at hv
    · rename_i hlt
      obtain ⟨-, hold, hv⟩ := contents_eq_some.mp hv
      obtain ⟨-, -, hreq, -⟩ := requestSize_spec hn
      have hsame := hpres.contents i (lt_min hold (Nat.lt_of_lt_of_le hlt hreq))
      have hroom := Nat.lt_of_lt_of_le hlt hpres.room
      exact contents_eq_some.mpr ⟨List.mem_cons_self, hroom, hsame.trans hv⟩
    · exact nomatch hv

/-- **A request** does what it should. -/
theorem request_extends (hi : Inv a e s) {c : Request} (hc : c.Legal s.live)
    (hclean : c.Clean s.heap) (hr : c.run s.heap = some (q, h)) :
    (if q = 0 then contents s else c.effect q (contents s)).Extends
      (contents ⟨h, c.held s.live q⟩) := by
  cases c with
  | malloc n => exact (malloc_gives hi hclean hr).extends fun _ i v hv => nomatch hv
  | calloc n m =>
    obtain ⟨hg, hzero⟩ := calloc_gives hi hclean hr
    refine hg.extends fun hq i v hv => ?_
    split at hv
    · rename_i hlt
      exact (hzero hq i hlt).trans hv
    · exact nomatch hv
  | realloc p n =>
    have hq := (inv_realloc hi hc.1 hclean.1 hr).nonnull List.mem_cons_self
    rw [if_neg hq]
    exact realloc_extends hi hc.1 hclean.1 hr
  | reallocarray p n m =>
    have hlt : n * m < 2 ^ 64 := Nat.lt_of_le_of_lt hclean.1 (by decide)
    have hr' : realloc s.heap p (n * m % 2 ^ 64) = some (q, h) := hr
    rw [Nat.mod_eq_of_lt hlt] at hr'
    have hq := (inv_realloc hi hc.1 hclean.1 hr').nonnull List.mem_cons_self
    rw [if_neg hq]
    exact realloc_extends hi hc.1 hclean.1 hr'
  | alignedAlloc align n =>
    refine Gives.extends ?_ fun _ i v hv => nomatch hv
    have hr' : mpoolAlignedAlloc s.heap n align = some (q, h) := hr
    by_cases href : Refused align
    · rw [mpoolAlignedAlloc_refused href] at hr'
      obtain ⟨rfl, rfl⟩ := Prod.mk.inj (Option.some.inj hr')
      exact gives_null s
    obtain ⟨-, hm⟩ := hclean.resolve_left href
    split at hm
    · rename_i hbig
      rw [mpoolAlignedAlloc_small href hbig] at hr'
      exact malloc_gives hi hm hr'
    · exact aligned_gives hi (AlignPow.of_test (not_not.mp href) (by omega) hc.1) hm hr'

/-- A release does nothing to the other blocks. -/
theorem free_extends (hi : Inv a e s) (hp : p ∈ s.live) :
    ((contents s).discard p).Extends (contents ⟨free s.heap p, s.live.erase p⟩) := by
  obtain ⟨bs, L, hs⟩ := hi.shows
  obtain ⟨pre, k, post, rfl⟩ := hs.block hp
  obtain ⟨bs', L', hf⟩ := mpoolFree_laid hs.laid hs.settled
  have hintact := hf.intact hs hi.nodup
  refine Contents.Extends.update (fun x hx i v hv => ?_) fun i v hv => nomatch hv
  have hlive := hi.nodup.mem_erase_iff.mpr ⟨hx, (contents_eq_some.mp hv).1⟩
  exact hintact.contents hlive hlive hv

/-- A byte that is written is there, and the others are as they were. -/
theorem write_extends (hi : Inv a e s) (hp : p ∈ s.live) (hlt : i < mallocUsableSize s.heap p) :
    ((contents s).write p i v).Extends
      (contents ⟨{ s.heap with mem := store8 s.heap.mem (p + i) v }, s.live⟩) := by
  obtain ⟨hintact, hsize⟩ := store_intact hi hp fun w hw => write_other hlt hw
  refine Contents.Extends.update (fun x hx j w hw => ?_) fun j w hw => ?_
  · have hlive := (contents_eq_some.mp hw).1
    exact hintact.contents (hi.nodup.mem_erase_iff.mpr ⟨hx, hlive⟩) hlive hw
  · have hbyte : ∀ j, j < mallocUsableSize s.heap p →
        store8 s.heap.mem (p + i) v (p + j) = w →
        contents ⟨{ s.heap with mem := store8 s.heap.mem (p + i) v }, s.live⟩ p j = some w := by
      intro j hj hv
      unfold mallocUsableSize at hj
      rw [← hsize] at hj
      exact contents_eq_some.mpr ⟨hp, hj, hv⟩
    by_cases hj : j = i
    · rw [hj, Function.update_self] at hw
      rw [hj]
      exact hbyte i hlt ((if_pos rfl).trans (Option.some.inj hw))
    · rw [Function.update_of_ne hj] at hw
      obtain ⟨-, hj', hv⟩ := contents_eq_some.mp hw
      have hne : p + j ≠ p + i := by omega
      exact hbyte j hj' ((if_neg hne).trans hv)

/-! ## The heap remembers -/

/-- **One step** does what it should. -/
theorem extends_does {d : HeapEvent} (hi : Inv a e s) (hd : HeapDoes s d t) :
    (d.effect (contents s)).Extends (contents t) := by
  cases hd with
  | request hc hclean hr => exact request_extends hi hc hclean hr
  | free hp => exact free_extends hi hp
  | write hp hlt => exact write_extends hi hp hlt

/--
**The heap is a memory.**

Take any run of harmless requests, releases and writes, from a fresh heap: each byte that was
written, or cleared by `calloc`, and that nothing has been written over, is in its block at the
end, in the place it has there, however often the block was moved and whatever else was asked
for or given back.
-/
theorem heap_remembers {ds : List HeapEvent} (hplace : PoolPlace pool a size)
    (hstart : PoolStart a size s) (h : Trace HeapDoes s ds t) :
    (ds.foldr HeapEvent.effect .empty).Extends (contents t) := by
  have hi := inv_reachable hplace (.init hstart)
  exact h.extends (fun _ _ _ hi hd => inv_does hi hd) hi HeapEvent.effect_mono
    (fun _ _ _ hi hd => extends_does hi hd) (Contents.empty_extends _)

/-- A byte written to a block that is then made bigger. -/
def grownEvents : List HeapEvent :=
  [.request (.realloc 65552 100) 65552, .write 65552 5 7, .request (.malloc 24) 65552]

/-- The only block of the smallest pool, from 32 bytes to 112. -/
theorem heap_remembers_grown : ∃ s t, PoolStart 65536 16416 s ∧
    Trace HeapDoes s grownEvents t ∧ contents t 65552 5 = some 7 := by
  have hplace : PoolPlace 4096 65536 16416 := by constructor <;> decide
  have hinit : (mpoolInit emptyHeap 65536 16416).1 = true := by decide +kernel
  have hrun : ((mpoolAlloc (mpoolInit emptyHeap 65536 16416).2 24).bind fun r =>
      (mpoolRealloc { r.2 with mem := store8 r.2.mem (65552 + 5) 7 } 65552 100).map
        fun r' => (r.1, r'.1)) = some (65552, 65552) := by decide +kernel
  obtain ⟨⟨p, h⟩, hr, hrun⟩ := Option.bind_eq_some_iff.mp hrun
  obtain ⟨⟨q, h'⟩, hr', heq⟩ := Option.map_eq_some_iff.mp hrun
  obtain ⟨rfl, rfl⟩ := Prod.mk.inj heq
  have hstart : PoolStart 65536 16416 ⟨(mpoolInit emptyHeap 65536 16416).2, []⟩ :=
    ⟨⟨emptyHeap, Prod.ext hinit rfl⟩, rfl⟩
  have hi := inv_reachable hplace (.init hstart)
  have hroom : 5 < mallocUsableSize h 65552 :=
    Nat.lt_of_lt_of_le (by decide) (alloc_msize hi (by decide) hr (by decide))
  have hlive : 65552 ∈ [65552] := List.mem_cons_self
  have hmalloc : HeapDoes ⟨(mpoolInit emptyHeap 65536 16416).2, []⟩
      (.request (.malloc 24) 65552) ⟨h, [65552]⟩ :=
    .request (show 24 < 2 ^ 64 by decide) (.inl (by decide)) hr
  have hwrite : HeapDoes ⟨h, [65552]⟩ (.write 65552 5 7) _ := .write hlive hroom
  have hwritten := inv_does (inv_does hi hmalloc) hwrite
  have hclean := (realloc_some_iff hwritten hlive (by decide : 100 ≤ 2 ^ 64 - 16)).mp ⟨_, _, hr'⟩
  have hrealloc : HeapDoes _ (.request (.realloc 65552 100) 65552) _ :=
    .request ⟨hlive, by decide⟩ ⟨by decide, hclean⟩ hr'
  have htrace := ((Trace.nil.cons hmalloc).cons hwrite).cons hrealloc
  exact ⟨_, _, hstart, htrace, heap_remembers hplace hstart htrace 65552 5 7 rfl⟩

end IonOS.Alloc
