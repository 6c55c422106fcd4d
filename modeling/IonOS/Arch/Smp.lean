import Mathlib.Data.Finset.Card
import Mathlib.Data.Finset.Range
import Mathlib.Logic.Function.Basic

/-!
# Which CPU this is

`smp_init` of `apic.cpp` notes for each CPU its local APIC under the number that the
firmware gave the processor. `get_cpuid_by_lapic_id` looks among the first
`cpu_count` places and answers 0 when it finds nothing. The two agree when the
processors are numbered from 0 on without a gap. `Numbered` says when else it works
out.
-/

namespace IonOS.Arch

/-- `MAX_CPU_NUM`. -/
def maxCpus : Nat := 64

/-- `limine_mp_info`. -/
structure LimineMpInfo where
  processorId : Nat
  lapicId : Nat
  gotoAddress : Nat
deriving DecidableEq

/-- `limine_mp_response`; `cpu_count` is the length of `cpus`. -/
structure LimineMpResponse where
  bspLapicId : Nat
  cpus : List LimineMpInfo

/-- The variables of `apic_table`. An array is a function, so that an index past its end has a
meaning. -/
structure ApicTable where
  cpuCount : Nat
  cpuidToLapicid : Nat → Nat
  apInitialized : Bool

/-- Before `smp_init`: the loader clears them. -/
def ApicTable.boot : ApicTable := ⟨0, fun _ => 0, false⟩

/-- One step of the loop: the table, and the entry of the response. -/
def smpStep (apEntry bspLapicId : Nat) (table : Nat → Nat) (cpu : LimineMpInfo) :
    (Nat → Nat) × LimineMpInfo :=
  (Function.update table cpu.processorId cpu.lapicId,
    if cpu.lapicId = bspLapicId then cpu else { cpu with gotoAddress := apEntry })

/-- The loop over the CPUs. -/
def smpLoop (apEntry bspLapicId : Nat) (table : Nat → Nat) :
    List LimineMpInfo → (Nat → Nat) × List LimineMpInfo
  | [] => (table, [])
  | cpu :: cpus =>
      let (table, cpu) := smpStep apEntry bspLapicId table cpu
      let (table, cpus) := smpLoop apEntry bspLapicId table cpus
      (table, cpu :: cpus)

def smpInit (apEntry : Nat) (response : LimineMpResponse) (t : ApicTable) :
    ApicTable × LimineMpResponse :=
  let (table, cpus) := smpLoop apEntry response.bspLapicId t.cpuidToLapicid response.cpus
  (⟨response.cpus.length, table, true⟩, { response with cpus := cpus })

/-- The loop of `get_cpuid_by_lapic_id`, and 0 behind it. -/
def getCpuidByLapicId (t : ApicTable) (lapicId : Nat) : Nat :=
  ((List.range t.cpuCount).find? fun cpuId => t.cpuidToLapicid cpuId == lapicId).getD 0

/-- The indices that `smp_init` writes to. -/
def smpWrites (response : LimineMpResponse) : List Nat := response.cpus.map (·.processorId)

/-! ## What is owed -/

/-- A response as the loader may give it: at most `MAX_CPU_NUM` CPUs, with different ids. -/
structure MpDistinct (response : LimineMpResponse) : Prop where
  few : response.cpus.length ≤ maxCpus
  lapics : (response.cpus.map (·.lapicId)).Nodup
  processors : (response.cpus.map (·.processorId)).Nodup

/-- Each CPU has an index of its own. -/
structure CpuIdentity (response : LimineMpResponse) (t : ApicTable) : Prop where
  inside : ∀ i ∈ smpWrites response, i < maxCpus
  below : ∀ cpu ∈ response.cpus, getCpuidByLapicId t cpu.lapicId < response.cpus.length
  distinct : (response.cpus.map fun cpu => getCpuidByLapicId t cpu.lapicId).Nodup

/-- The processors are numbered so that it works out: within the table, and at most one beyond
the CPUs counted, which then is local APIC 0, or there are no processor 0 and no local APIC 0. -/
def Numbered (response : LimineMpResponse) : Prop :=
  (∀ cpu ∈ response.cpus, cpu.processorId < maxCpus) ∧
    ∀ c ∈ response.cpus, response.cpus.length ≤ c.processorId →
      (∀ d ∈ response.cpus, response.cpus.length ≤ d.processorId → d = c) ∧
        (c.lapicId = 0 ∨ ∀ d ∈ response.cpus, d.processorId ≠ 0 ∧ d.lapicId ≠ 0)

variable {apEntry bsp l i j n : Nat} {table : Nat → Nat} {cpus : List LimineMpInfo}
  {c d : LimineMpInfo} {t : ApicTable} {response : LimineMpResponse}

/-! ## The table -/

theorem smpLoop_other (h : ∀ c ∈ cpus, c.processorId ≠ i) :
    (smpLoop apEntry bsp table cpus).1 i = table i := by
  induction cpus generalizing table with
  | nil => rfl
  | cons c cpus ih =>
    obtain ⟨hc, hcpus⟩ := List.forall_mem_cons.mp h
    rw [smpLoop]
    dsimp only
    rw [ih hcpus, smpStep]
    exact Function.update_of_ne hc.symm ..

/-- **The table has each CPU at its processor's number.** -/
theorem smpLoop_mem (hnd : (cpus.map (·.processorId)).Nodup) (hc : c ∈ cpus) :
    (smpLoop apEntry bsp table cpus).1 c.processorId = c.lapicId := by
  induction cpus generalizing table with
  | nil => exact absurd hc (by simp)
  | cons d cpus ih =>
    rw [List.map_cons, List.nodup_cons] at hnd
    rw [smpLoop]
    dsimp only
    rcases List.mem_cons.mp hc with rfl | hc
    · rw [smpLoop_other, smpStep]
      · exact Function.update_self ..
      · intro e he heq
        exact hnd.1 (List.mem_map.mpr ⟨e, he, heq⟩)
    · exact ih hnd.2 hc

/-! ## The search -/

/-- The first place where the table has it, or 0. -/
theorem getCpuid_cases (t : ApicTable) (l : Nat) :
    (∃ i < t.cpuCount, getCpuidByLapicId t l = i ∧ t.cpuidToLapicid i = l ∧
        ∀ j < i, t.cpuidToLapicid j ≠ l) ∨
      getCpuidByLapicId t l = 0 ∧ ∀ i < t.cpuCount, t.cpuidToLapicid i ≠ l := by
  unfold getCpuidByLapicId
  cases hfind : (List.range t.cpuCount).find? fun i => t.cpuidToLapicid i == l with
  | none =>
    refine .inr ⟨rfl, fun i hi => ?_⟩
    simpa using List.find?_eq_none.mp hfind i (List.mem_range.mpr hi)
  | some i =>
    obtain ⟨hi, hmem, hbefore⟩ := List.find?_range_eq_some.mp hfind
    refine .inl ⟨i, List.mem_range.mp hmem, rfl, by simpa using hi, fun j hj => ?_⟩
    simpa using hbefore j hj

/-- What the searches after `smp_init` go by: the table says whose processor number an index is,
and nothing at the indices that are nobody's. -/
structure Recorded (cpus : List LimineMpInfo) (t : ApicTable) : Prop where
  count : t.cpuCount = cpus.length
  own : ∀ c ∈ cpus, t.cpuidToLapicid c.processorId = c.lapicId
  other : ∀ i, (∀ c ∈ cpus, c.processorId ≠ i) → t.cpuidToLapicid i = 0
  lapics : ∀ c ∈ cpus, ∀ d ∈ cpus, c.lapicId = d.lapicId → c = d

theorem smpInit_recorded (apEntry : Nat) (hr : MpDistinct response) :
    Recorded response.cpus (smpInit apEntry response .boot).1 := by
  refine ⟨rfl, fun c hc => smpLoop_mem hr.processors hc, fun i hi => smpLoop_other hi, ?_⟩
  exact fun c hc d hd h => List.inj_on_of_nodup_map hr.lapics hc hd h

namespace Recorded

/-- **A CPU counted is found at its processor's number**, unless its local APIC is 0. -/
theorem counted (hr : Recorded cpus t) (hc : c ∈ cpus) (hlt : c.processorId < cpus.length)
    (h0 : c.lapicId ≠ 0) : getCpuidByLapicId t c.lapicId = c.processorId := by
  have hown := hr.own c hc
  rcases getCpuid_cases t c.lapicId with ⟨i, -, he, hi, hbefore⟩ | ⟨-, hnone⟩
  · -- the entry is that of one CPU
    obtain ⟨d, hd, hdi⟩ : ∃ d ∈ cpus, d.processorId = i := by
      by_contra hno
      have hzero := hr.other i fun d hd h => hno ⟨d, hd, h⟩
      exact h0 (hi.symm.trans hzero)
    have hdc : d = c := hr.lapics d hd c hc (by rw [← hr.own d hd, hdi, hi])
    rw [he, ← hdi, hdc]
  · exact absurd hown (hnone _ (by rw [hr.count]; exact hlt))

/-- One beyond them is not found, which makes it CPU 0. -/
theorem beyond (hr : Recorded cpus t) (hc : c ∈ cpus) (hle : cpus.length ≤ c.processorId)
    (h0 : c.lapicId ≠ 0) : getCpuidByLapicId t c.lapicId = 0 := by
  rcases getCpuid_cases t c.lapicId with ⟨i, hlt, -, hi, -⟩ | ⟨he, -⟩
  · exfalso
    obtain ⟨d, hd, hdi⟩ : ∃ d ∈ cpus, d.processorId = i := by
      by_contra hno
      have hzero := hr.other i fun d hd h => hno ⟨d, hd, h⟩
      exact h0 (hi.symm.trans hzero)
    have hdc : d = c := hr.lapics d hd c hc (by rw [← hr.own d hd, hdi, hi])
    rw [hdc] at hdi
    rw [hr.count] at hlt
    omega
  · exact he

/-- Local APIC 0 is found at the first place that is empty or its own. -/
theorem zero_first (hr : Recorded cpus t) (hi : i < cpus.length) (hz : t.cpuidToLapicid i = 0) :
    t.cpuidToLapicid (getCpuidByLapicId t 0) = 0 ∧ getCpuidByLapicId t 0 ≤ i := by
  rcases getCpuid_cases t 0 with ⟨j, -, he, hj, hbefore⟩ | ⟨-, hnone⟩
  · rw [he]
    refine ⟨hj, ?_⟩
    by_contra hlt
    exact hbefore i (by omega) hz
  · exact absurd hz (hnone i (by rw [hr.count]; exact hi))

/-- Whatever is asked for, the answer is an index below the count. -/
theorem below (hr : Recorded cpus t) (hpos : 0 < cpus.length) (l : Nat) :
    getCpuidByLapicId t l < cpus.length := by
  rcases getCpuid_cases t l with ⟨i, hlt, he, -⟩ | ⟨he, -⟩
  · rw [he, ← hr.count]
    exact hlt
  · rwa [he]

end Recorded

/-! ## Counting the places -/

/-- With a number beyond them, the CPUs leave one of the first places empty. -/
theorem exists_empty (hnd : (cpus.map (·.processorId)).Nodup) (hc : c ∈ cpus)
    (hle : cpus.length ≤ c.processorId) :
    ∃ i < cpus.length, ∀ d ∈ cpus, d.processorId ≠ i := by
  by_contra hno
  -- else the numbers without that one would still cover all the places
  have hsub : Finset.range cpus.length ⊆
      (cpus.map (·.processorId)).toFinset.erase c.processorId := by
    intro i hi
    have hlt := Finset.mem_range.mp hi
    obtain ⟨d, hd, hdi⟩ : ∃ d ∈ cpus, d.processorId = i := by
      by_contra hnone
      exact hno ⟨i, hlt, fun d hd h => hnone ⟨d, hd, h⟩⟩
    refine Finset.mem_erase.mpr ⟨by omega, List.mem_toFinset.mpr ?_⟩
    exact List.mem_map.mpr ⟨d, hd, hdi⟩
  have hcard := Finset.card_le_card hsub
  have hmem : c.processorId ∈ (cpus.map (·.processorId)).toFinset :=
    List.mem_toFinset.mpr (List.mem_map.mpr ⟨c, hc, rfl⟩)
  rw [Finset.card_range, Finset.card_erase_of_mem hmem, List.toFinset_card_of_nodup hnd,
    List.length_map] at hcard
  have hpos := List.length_pos_of_mem hc
  omega

/-- Without one, they fill the places. -/
theorem all_filled (hnd : (cpus.map (·.processorId)).Nodup)
    (hlt : ∀ c ∈ cpus, c.processorId < cpus.length) (hi : i < cpus.length) :
    ∃ d ∈ cpus, d.processorId = i := by
  have hsub : (cpus.map (·.processorId)).toFinset ⊆ Finset.range cpus.length := by
    intro j hj
    obtain ⟨d, hd, rfl⟩ := List.mem_map.mp (List.mem_toFinset.mp hj)
    exact Finset.mem_range.mpr (hlt d hd)
  have hall := Finset.eq_of_subset_of_card_le hsub (by
    rw [Finset.card_range, List.toFinset_card_of_nodup hnd, List.length_map])
  have hmem : i ∈ (cpus.map (·.processorId)).toFinset := by
    rw [hall]
    exact Finset.mem_range.mpr hi
  obtain ⟨d, hd, hdi⟩ := List.mem_map.mp (List.mem_toFinset.mp hmem)
  exact ⟨d, hd, hdi⟩

/-! ## The condition -/

/-- If the CPUs have different indices, a CPU beyond the count that is not local APIC 0 takes
index 0, and leaves it to nobody else. -/
theorem beyond_alone (hr : Recorded cpus t)
    (hinj : ∀ c ∈ cpus, ∀ d ∈ cpus, getCpuidByLapicId t c.lapicId = getCpuidByLapicId t d.lapicId →
      c = d) (hc : c ∈ cpus) (hle : cpus.length ≤ c.processorId) (h0 : c.lapicId ≠ 0) :
    (∀ d ∈ cpus, cpus.length ≤ d.processorId → d = c) ∧
      ∀ d ∈ cpus, d.processorId ≠ 0 ∧ d.lapicId ≠ 0 := by
  have hpos : 0 < cpus.length := List.length_pos_of_mem hc
  have hzero := hr.beyond hc hle h0
  -- whoever else is answered 0 is this CPU
  have hsame : ∀ d ∈ cpus, getCpuidByLapicId t d.lapicId = 0 → d = c :=
    fun d hd he => hinj d hd c hc (he.trans hzero.symm)
  have hfirst : ∀ d ∈ cpus, d.processorId ≠ 0 := by
    intro d hd hdz
    have hdc : d = c := by
      by_cases hl : d.lapicId = 0
      · have hown := hr.own d hd
        rw [hdz, hl] at hown
        have := (hr.zero_first hpos hown).2
        exact hsame d hd (by rw [hl]; omega)
      · exact hsame d hd ((hr.counted hd (by omega) hl).trans hdz)
    rw [hdc] at hdz
    omega
  have hlapic : ∀ d ∈ cpus, d.lapicId ≠ 0 := by
    intro d hd hl
    have hempty := (hr.zero_first hpos (hr.other 0 hfirst)).2
    have hdc := hsame d hd (by rw [hl]; omega)
    exact h0 (hdc ▸ hl)
  refine ⟨fun d hd hdle => hsame d hd (hr.beyond hd hdle (hlapic d hd)), fun d hd => ?_⟩
  exact ⟨hfirst d hd, hlapic d hd⟩

/-- **Numbered CPUs have different indices.** -/
theorem numbered_inj (hr : Recorded cpus t) (hnd : (cpus.map (·.processorId)).Nodup)
    (hnum : ∀ c ∈ cpus, cpus.length ≤ c.processorId →
      (∀ d ∈ cpus, cpus.length ≤ d.processorId → d = c) ∧
        (c.lapicId = 0 ∨ ∀ d ∈ cpus, d.processorId ≠ 0 ∧ d.lapicId ≠ 0))
    (hc : c ∈ cpus) (hd : d ∈ cpus)
    (heq : getCpuidByLapicId t c.lapicId = getCpuidByLapicId t d.lapicId) : c = d := by
  have hproc : ∀ c ∈ cpus, ∀ d ∈ cpus, c.processorId = d.processorId → c = d :=
    fun c hc d hd h => List.inj_on_of_nodup_map hnd hc hd h
  by_cases hbeyond : ∃ b ∈ cpus, cpus.length ≤ b.processorId
  · obtain ⟨b, hb, hble⟩ := hbeyond
    obtain ⟨honly, hcase⟩ := hnum b hb hble
    have hpos : 0 < cpus.length := List.length_pos_of_mem hb
    -- every other CPU is found at its number, and `b` is found elsewhere
    have hother : ∀ e ∈ cpus, e ≠ b → getCpuidByLapicId t e.lapicId = e.processorId ∧
        getCpuidByLapicId t b.lapicId ≠ e.processorId := by
      intro e he hne
      have hlt : e.processorId < cpus.length := by
        by_contra hle
        exact hne (honly e he (by omega))
      rcases hcase with hbz | hall
      · have hl : e.lapicId ≠ 0 := fun h => hne (hr.lapics e he b hb (h.trans hbz.symm))
        refine ⟨hr.counted he hlt hl, fun h => ?_⟩
        obtain ⟨i, hi, hempty⟩ := exists_empty hnd hb hble
        have hz := (hr.zero_first hi (hr.other i hempty)).1
        rw [← hbz, h, hr.own e he] at hz
        exact hl (hz.trans hbz)
      · refine ⟨hr.counted he hlt (hall e he).2, ?_⟩
        rw [hr.beyond hb hble (hall b hb).2]
        exact (hall e he).1.symm
    by_cases hcb : c = b
    · by_cases hdb : d = b
      · rw [hcb, hdb]
      · obtain ⟨h1, h2⟩ := hother d hd hdb
        rw [hcb, h1] at heq
        exact absurd heq h2
    · obtain ⟨h1, h2⟩ := hother c hc hcb
      by_cases hdb : d = b
      · rw [hdb, h1] at heq
        exact absurd heq.symm h2
      · rw [h1, (hother d hd hdb).1] at heq
        exact hproc c hc d hd heq
  · have hlt : ∀ e ∈ cpus, e.processorId < cpus.length := by
      intro e he
      by_contra hle
      exact hbeyond ⟨e, he, by omega⟩
    -- no place is empty, so local APIC 0 is found at its number as well
    have hfound : ∀ e ∈ cpus, getCpuidByLapicId t e.lapicId = e.processorId := by
      intro e he
      by_cases hl : e.lapicId = 0
      · have hpos := List.length_pos_of_mem he
        have hown := hr.own e he
        rw [hl] at hown ⊢
        obtain ⟨f, hf, hfi⟩ := all_filled hnd hlt (hr.below hpos 0)
        have hz := (hr.zero_first (hlt e he) hown).1
        rw [← hfi, hr.own f hf] at hz
        rw [← hfi, hr.lapics f hf e he (hz.trans hl.symm)]
      · exact hr.counted he (hlt e he) hl
    rw [hfound c hc, hfound d hd] at heq
    exact hproc c hc d hd heq

/--
**Each CPU has an index of its own exactly when the processors are numbered so.**

For every response with at most 64 CPUs, different local APICs and different
processor numbers: nothing is written outside the table and no two CPUs are given one
index if and only if the numbers are below 64 and at most one is not below the number
of CPUs, that being local APIC 0's, or nobody being processor 0 or local APIC 0.
-/
theorem cpuIdentity_iff (apEntry : Nat) (hr : MpDistinct response) :
    CpuIdentity response (smpInit apEntry response .boot).1 ↔ Numbered response := by
  have hrec := smpInit_recorded apEntry hr
  generalize (smpInit apEntry response .boot).1 = t at hrec ⊢
  constructor
  · intro hid
    have hinj : ∀ c ∈ response.cpus, ∀ d ∈ response.cpus,
        getCpuidByLapicId t c.lapicId = getCpuidByLapicId t d.lapicId → c = d :=
      fun c hc d hd h => List.inj_on_of_nodup_map hid.distinct hc hd h
    refine ⟨fun c hc => hid.inside _ (List.mem_map.mpr ⟨c, hc, rfl⟩), fun c hc hle => ?_⟩
    by_cases h0 : c.lapicId = 0
    · refine ⟨fun d hd hdle => ?_, .inl h0⟩
      by_contra hne
      have hd0 : d.lapicId ≠ 0 := fun h => hne (hrec.lapics d hd c hc (h.trans h0.symm))
      exact ((beyond_alone hrec hinj hd hdle hd0).2 c hc).2 h0
    · obtain ⟨honly, hall⟩ := beyond_alone hrec hinj hc hle h0
      exact ⟨honly, .inr hall⟩
  · rintro ⟨hin, hnum⟩
    refine ⟨fun i hi => ?_, fun c hc => hrec.below (List.length_pos_of_mem hc) _, ?_⟩
    · obtain ⟨c, hc, rfl⟩ := List.mem_map.mp hi
      exact hin c hc
    · refine List.Nodup.map_on (fun c hc d hd h => ?_) (List.Nodup.of_map _ hr.processors)
      exact numbered_inj hrec hr.processors hnum hc hd h

/-- Two CPUs, numbered from 0. -/
theorem cpuIdentity_two :
    CpuIdentity ⟨0, [⟨0, 0, 0⟩, ⟨1, 2, 0⟩]⟩ (smpInit 0 ⟨0, [⟨0, 0, 0⟩, ⟨1, 2, 0⟩]⟩ .boot).1 := by
  refine (cpuIdentity_iff 0 ⟨by decide, by decide, by decide⟩).mpr ⟨by decide, ?_⟩
  intro c hc hle
  have : c.processorId < 2 := by
    rcases List.mem_cons.mp hc with rfl | hc
    · decide
    · obtain rfl := List.mem_singleton.mp hc
      decide
  exact absurd hle (by simpa using this)

/-- **Two CPUs with one index**: processors 0 and 2, both are CPU 0. -/
theorem cpu_shared :
    let t := (smpInit 0 ⟨0, [⟨0, 0, 0⟩, ⟨2, 1, 0⟩]⟩ .boot).1
    MpDistinct ⟨0, [⟨0, 0, 0⟩, ⟨2, 1, 0⟩]⟩ ∧ getCpuidByLapicId t 0 = 0 ∧ getCpuidByLapicId t 1 = 0 ∧
      ¬ CpuIdentity ⟨0, [⟨0, 0, 0⟩, ⟨2, 1, 0⟩]⟩ t := by
  refine ⟨⟨by decide, by decide, by decide⟩, by decide, by decide, fun hid => ?_⟩
  exact absurd hid.distinct (by decide)

end IonOS.Arch
