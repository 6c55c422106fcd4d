import IonOS.Alloc.Heap
import IonOS.Arch.Spinlock

/-!
# The heap on several CPUs

`alloc_enter` and `alloc_exit` take one lock around every call into the pool. What
the pool's functions are compiled to is left open: any sequence of steps will do that
comes to the same when it is run by itself. `calloc` clears its block after the lock
is free again, when the block is already its own, so its section is that of `malloc`.
-/

namespace IonOS.Alloc

open IonOS.Lib IonOS.Libs IonOS.Arch

variable {ι : Type} {a size pool : Nat} {x x₀ : PoolState}

/-- A call that takes the lock: its request, or what it gives back. -/
inductive Call where
  | request (c : Request)
  | free (p : Nat)

/-- The state after the call, if it does no harm. -/
inductive Call.Gives (x : PoolState) : Call → PoolState → Prop where
  | request {c : Request} {q : Nat} {h : Heap Mpool} (hc : c.Legal x.live) (hclean : c.Clean x.heap)
      (hlock : ∀ n m, c ≠ .calloc n m) (hr : c.run x.heap = some (q, h)) :
      Gives x (.request c) ⟨h, c.held x.live q⟩
  | free {p : Nat} (hp : p ∈ x.live) :
      Gives x (.free p) ⟨Alloc.free x.heap p, x.live.erase p⟩

/-- The section is a call. -/
def Calls (x : PoolState) (_ : ι) (ops : List (PoolState → PoolState)) : Prop :=
  ∃ c : Call, c.Gives x (perform ops x)

theorem Call.Gives.step {c : Call} {y : PoolState} (h : c.Gives x y) : HeapStep x y := by
  cases h with
  | request hc hclean hlock hr => exact .request hc hclean hr
  | free hp => exact .free hp

/-- Whole calls are a run of the heap. -/
theorem serial_heapReachable {log : List (ι × List (PoolState → PoolState))}
    (hstart : PoolStart a size x₀) (h : Serial Calls x₀ log x) :
    Reachable (PoolStart a size) HeapStep x := by
  induction h with
  | nil => exact .init hstart
  | cons hser hok ih =>
    obtain ⟨c, hc⟩ := hok
    exact ih.tail hc.step

variable [DecidableEq ι] {s : LockState ι PoolState}

/--
**One heap for every CPU.**

However many CPUs call, and in whatever order their instructions come: with nobody in
a call, the heap is consistent, as after a run of calls one after another, and answers
every harmless request. Whoever is in a call comes out of it with what the call gives
when it is run by itself, in such a state.
-/
theorem heap_concurrent (hplace : PoolPlace pool a size) (hsmall : size < 2 ^ 63)
    (hstart : PoolStart a size x₀) (h : Reachable (LockStart x₀) (AnyLockStep Calls) s) :
    ((∀ i, ¬ (s.pc i).Holds) →
      Reachable (PoolStart a size) HeapStep s.data ∧
      (∃ ps L, HeapSafe a (a + size) s.data.heap s.data.live ps L) ∧
      ∀ c : Request, c.Legal s.data.live → c.Clean s.data.heap →
        Served a size (c.run s.data.heap) c.bytes) ∧
    ∀ i rest, (s.pc i).left = some rest →
      ∃ x c, Reachable (PoolStart a size) HeapStep x ∧ Call.Gives x c (perform rest s.data) := by
  have hs := lockOk_reachable h
  refine ⟨?_, ?_⟩
  · intro hfree
    have hr := serial_heapReachable hstart (hs.free hfree)
    have hi := inv_heapReachable hplace hr
    have halign := hplace.sizeAlign
    refine ⟨hr, heapSafe_of_inv hi, ?_⟩
    intro c hc hclean
    exact (served_iff hi (by omega : size ≤ 2 ^ 63 - 16) hc).mpr hclean.answers
  · intro i rest hleft
    obtain ⟨done, log, x, -, hser, ⟨c, hc⟩, hdata⟩ := hs.busy i rest hleft
    refine ⟨x, c, serial_heapReachable hstart hser, ?_⟩
    rw [hdata, ← perform_append]
    exact hc

/-- Two CPUs and the kernel heap. -/
def quietHeap : LockState Bool PoolState :=
  ⟨0, 0, ⟨(initHeap emptyHeap).2, []⟩, fun _ => 0x202, fun _ => .outside, []⟩

/-- One of them is in `malloc(100)` and has done nothing there yet. -/
theorem heap_concurrent_malloc : ∃ s : LockState Bool PoolState, (s.pc true).Holds ∧
    ∀ i rest, (s.pc i).left = some rest → ∃ x c,
      Reachable (PoolStart kernelHeapStart kernelHeapSize) HeapStep x ∧
        Call.Gives x c (perform rest s.data) := by
  have hstart : PoolStart kernelHeapStart kernelHeapSize quietHeap.data :=
    ⟨⟨emptyHeap, Prod.ext (by decide +kernel) rfl⟩, rfl⟩
  have hlegal : (Request.malloc 100).Legal quietHeap.data.live := (by decide : 100 < 2 ^ 64)
  have hclean : (Request.malloc 100).Clean quietHeap.data.heap := .inl (by decide)
  have hr0 : Reachable (PoolStart kernelHeapStart kernelHeapSize) HeapStep quietHeap.data :=
    .init hstart
  have hi := inv_heapReachable kernelHeap_place hr0
  obtain ⟨q, h, hr⟩ := alloc_returns hi (by decide : 100 ≤ 2 ^ 64 - 16)
  obtain ⟨ops, hcalls⟩ : ∃ ops, Calls quietHeap.data true ops :=
    ⟨[fun _ => ⟨h, (Request.malloc 100).held [] q⟩], .request (.malloc 100),
      .request hlegal hclean (fun n m => Request.noConfusion) hr⟩
  have h0 : Reachable (LockStart quietHeap.data) (AnyLockStep Calls) quietHeap :=
    .init ⟨Nat.zero_testBit 0, rfl, fun _ => rfl, rfl⟩
  obtain ⟨s, hrun, hpc⟩ := enter_free (j := true) rfl (Nat.zero_testBit 0) hcalls
  have hs := h0.follow (fun _ _ hst => hst) hrun
  refine ⟨s, ?_, (heap_concurrent kernelHeap_place (by decide) hstart hs).2⟩
  rw [hpc]
  exact Option.some_ne_none _

end IonOS.Alloc
