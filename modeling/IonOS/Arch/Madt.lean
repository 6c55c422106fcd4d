import IonOS.Lib.Memory
import IonOS.Lib.Word

/-!
# The search for the I/O APIC

The loop of `apic_table::init` goes through the entries of the MADT, whose lengths
the firmware gives, and stops at the first of type 1. It goes on as long as eight
bytes of the table are left: `sizeof(madt)` counts the pointer that stands where the
entries begin. That is enough for what it reads of an entry. An entry of length 0
stops it from getting anywhere.
-/

namespace IonOS.Arch

open IonOS.Lib

/-! ## The loop -/

/-- `madt->h.length`. -/
def madtLength (m : Mem) (madt : Nat) : Nat := m.readLE (madt + 4) 4

/-- `&madt->entries`, and so many bytes on. -/
def madtEntry (madt current : Nat) : Nat := madt + 44 + current

/-- `header->entry_type`. -/
def entryType (m : Mem) (madt current : Nat) : UInt8 := m (madtEntry madt current)

/-- `header->length`. -/
def entryLength (m : Mem) (madt current : Nat) : Nat := (m (madtEntry madt current + 1)).toNat

/-- `MADT_APIC_IO`. -/
def madtApicIo : UInt8 := 1

/-- `current + ((uint32_t)sizeof(acpi::madt) - 1) >= madt->h.length`; the structure has 52 bytes. -/
def madtAtEnd (m : Mem) (madt current : Nat) : Bool := madtLength m madt ≤ addW current (52 - 1)

/-- The loop from `current` on: the entry it stops at, if it is not the end of the table. -/
def madtLoop (m : Mem) (madt : Nat) : Nat → Nat → Option (Option Nat)
  | 0, _ => none
  | fuel + 1, current =>
      if madtAtEnd m madt current then some none
      else if entryType m madt current = madtApicIo then some (some current)
      else madtLoop m madt fuel (addW current (entryLength m madt current))

/-- `ioapic->address` of the entry found, or what the variable held. -/
def ioapicAddress (m : Mem) (madt old : Nat) : Option Nat → Nat
  | none => old
  | some current => m.readLE (madtEntry madt current + 4) 4

/-- `ioapic_address` after the loop, which found `old` in it. -/
def madtStore (m : Mem) (madt fuel old : Nat) : Option Nat :=
  (madtLoop m madt fuel 0).map (ioapicAddress m madt old)

/-- The bytes that the loop reads: the length of the table at each test, and of an entry its type
and its length or its address. -/
def madtReads (m : Mem) (madt : Nat) : Nat → Nat → List Nat
  | 0, _ => []
  | fuel + 1, current =>
      let entry := madtEntry madt current
      List.range' (madt + 4) 4 ++
        if madtAtEnd m madt current then []
        else if entryType m madt current = madtApicIo then entry :: List.range' (entry + 4) 4
        else entry :: (entry + 1) ::
          madtReads m madt fuel (addW current (entryLength m madt current))

/-! ## What is owed -/

/-- The entries from an offset on, each with the next behind it, and the last ending with the
table. -/
inductive EntryChain (m : Mem) (madt : Nat) : Nat → List Nat → Prop where
  | nil {o : Nat} (h : 44 + o = madtLength m madt) : EntryChain m madt o []
  | cons {o : Nat} {l : List Nat} (h : 2 ≤ entryLength m madt o)
      (hl : EntryChain m madt (o + entryLength m madt o) l) : EntryChain m madt o (o :: l)

/-- An entry for an I/O APIC, as long as one is. -/
def isIoApic (m : Mem) (madt o : Nat) : Bool :=
  entryType m madt o == madtApicIo && 12 ≤ entryLength m madt o

/-- Bytes 4 to 7 of a `madt_io_apic`. -/
def addressField (m : Mem) (madt o : Nat) : Nat := m.readLE (madtEntry madt o + 4) 4

/-- The loop ends, reads the table only, and in a table that is a chain of entries finds the first
I/O APIC and stores its address, or leaves the variable alone if there is none. -/
structure MadtScanOk (m : Mem) (madt : Nat) : Prop where
  terminates : ∃ fuel r, madtLoop m madt fuel 0 = some r
  inside : ∀ fuel, ∀ a ∈ madtReads m madt fuel 0, madt ≤ a ∧ a < madt + madtLength m madt
  finds : ∀ l, EntryChain m madt 0 l → ∀ fuel r, madtLoop m madt fuel 0 = some r →
    r = l.find? (isIoApic m madt)
  stores : ∀ l, EntryChain m madt 0 l → ∀ old fuel v, madtStore m madt fuel old = some v →
    v = ((l.find? (isIoApic m madt)).map (addressField m madt)).getD old

/-- Eight bytes of the table are left. -/
def EntryFits (m : Mem) (madt o : Nat) : Prop := o + 52 ≤ madtLength m madt

/-- The entries that the loop comes to. -/
inductive Comes (m : Mem) (madt : Nat) : Nat → Prop where
  | first (h : EntryFits m madt 0) : Comes m madt 0
  | next {o : Nat} (h : Comes m madt o) (ht : entryType m madt o ≠ madtApicIo)
      (hf : EntryFits m madt (o + entryLength m madt o)) : Comes m madt (o + entryLength m madt o)

/-- A table that the loop copes with. -/
structure Scannable (m : Mem) (madt : Nat) : Prop where
  /-- The field for the length is inside the table. -/
  length : 8 ≤ madtLength m madt
  /-- Entries that are passed over have a length. -/
  progress : ∀ o, Comes m madt o → entryType m madt o ≠ madtApicIo → entryLength m madt o ≠ 0
  /-- What has the type of an I/O APIC has the length of one, if the table is a chain at all. -/
  whole : ∀ o, Comes m madt o → entryType m madt o = madtApicIo →
    (∃ l, EntryChain m madt 0 l) → 12 ≤ entryLength m madt o

variable {m : Mem} {madt o fuel fuel' : Nat} {r r' : Option Nat} {l : List Nat}

/-! ## Steps of the loop -/

theorem madtLength_lt (m : Mem) (madt : Nat) : madtLength m madt < 2 ^ 32 :=
  Mem.readLE_lt m (madt + 4) 4

theorem entryLength_lt (m : Mem) (madt o : Nat) : entryLength m madt o < 256 :=
  (m (madtEntry madt o + 1)).toNat_lt

theorem madtAtEnd_iff (ho : o < 2 ^ 33) : madtAtEnd m madt o = true ↔ ¬ EntryFits m madt o := by
  unfold madtAtEnd EntryFits
  rw [addW_of_lt (by omega), decide_eq_true_iff]
  omega

/-- Offsets stay small: an entry that fits starts inside the table. -/
theorem EntryFits.lt (h : EntryFits m madt o) : o < 2 ^ 32 := by
  have := madtLength_lt m madt
  unfold EntryFits at h
  omega

theorem EntryFits.next (h : EntryFits m madt o) :
    addW o (entryLength m madt o) = o + entryLength m madt o ∧
      o + entryLength m madt o < 2 ^ 33 := by
  have hlt := h.lt
  have hlen := entryLength_lt m madt o
  exact ⟨addW_of_lt (by omega), by omega⟩

/-- **At the end** of the table the loop stops. -/
theorem madtLoop_end (ho : o < 2 ^ 33) (hf : ¬ EntryFits m madt o) :
    madtLoop m madt (fuel + 1) o = some none := by
  rw [madtLoop, if_pos ((madtAtEnd_iff ho).mpr hf)]

/-- **At an entry of type 1** it stops as well. -/
theorem madtLoop_found (hf : EntryFits m madt o) (ht : entryType m madt o = madtApicIo) :
    madtLoop m madt (fuel + 1) o = some (some o) := by
  have hnot : ¬ madtAtEnd m madt o = true := fun h =>
    (madtAtEnd_iff (Nat.lt_trans hf.lt (by decide))).mp h hf
  rw [madtLoop, if_neg hnot, if_pos ht]

/-- **Else** it goes on behind the entry. -/
theorem madtLoop_next (hf : EntryFits m madt o) (ht : entryType m madt o ≠ madtApicIo) :
    madtLoop m madt (fuel + 1) o = madtLoop m madt fuel (o + entryLength m madt o) := by
  have hnot : ¬ madtAtEnd m madt o = true := fun h =>
    (madtAtEnd_iff (Nat.lt_trans hf.lt (by decide))).mp h hf
  rw [madtLoop, if_neg hnot, if_neg ht, hf.next.1]

theorem Comes.fits (h : Comes m madt o) : EntryFits m madt o := by
  cases h with
  | first h => exact h
  | next _ _ hf => exact hf

/-- A loop that ends has come past every entry it comes to. -/
theorem Comes.passed (h : Comes m madt o) (hr : madtLoop m madt fuel 0 = some r) :
    ∃ fuel', madtLoop m madt fuel' o = some r := by
  induction h with
  | first h => exact ⟨fuel, hr⟩
  | @next o hc ht hf ih =>
    obtain ⟨fuel', hr'⟩ := ih
    cases fuel' with
    | zero => exact nomatch hr'
    | succ fuel' =>
      rw [madtLoop_next hc.fits ht] at hr'
      exact ⟨fuel', hr'⟩

/-- At an entry without length it goes on forever. -/
theorem madtLoop_stuck (hf : EntryFits m madt o) (ht : entryType m madt o ≠ madtApicIo)
    (h0 : entryLength m madt o = 0) : madtLoop m madt fuel o = none := by
  induction fuel with
  | zero => rfl
  | succ fuel ih => rw [madtLoop_next hf ht, h0, Nat.add_zero, ih]

/-! ## What a table the loop copes with gives -/

/-- The next offset, which is that of an entry that the loop comes to or lies too near the end. -/
theorem Comes.step (h : Comes m madt o) (ht : entryType m madt o ≠ madtApicIo) :
    Comes m madt (o + entryLength m madt o) ∨ ¬ EntryFits m madt (o + entryLength m madt o) := by
  by_cases hf : EntryFits m madt (o + entryLength m madt o)
  · exact .inl (.next h ht hf)
  · exact .inr hf

/-- **Termination**: each entry passed over brings the end nearer. -/
theorem madtLoop_terminates (hs : Scannable m madt) (ho : o < 2 ^ 33)
    (hc : Comes m madt o ∨ ¬ EntryFits m madt o) : ∃ fuel r, madtLoop m madt fuel o = some r := by
  induction hk : madtLength m madt - o using Nat.strong_induction_on generalizing o with
  | _ k ih =>
    rcases hc with hc | hf
    · by_cases ht : entryType m madt o = madtApicIo
      · exact ⟨1, _, madtLoop_found hc.fits ht⟩
      · have hlen := hs.progress o hc ht
        have hfits := hc.fits
        unfold EntryFits at hfits
        obtain ⟨fuel, r, hr⟩ := ih (madtLength m madt - (o + entryLength m madt o)) (by omega)
          hc.fits.next.2 (hc.step ht) rfl
        exact ⟨fuel + 1, r, by rw [madtLoop_next hc.fits ht, hr]⟩
    · exact ⟨1, _, madtLoop_end ho hf⟩

/-- **What is read** lies inside the table. -/
theorem madtReads_inside (hlen : 8 ≤ madtLength m madt) (ho : o < 2 ^ 33) (fuel : Nat) :
    ∀ a ∈ madtReads m madt fuel o, madt ≤ a ∧ a < madt + madtLength m madt := by
  induction fuel generalizing o with
  | zero => exact fun a ha => absurd ha (by simp [madtReads])
  | succ fuel ih =>
    intro a ha
    rw [madtReads] at ha
    rcases List.mem_append.mp ha with ha | ha
    · rw [List.mem_range'_1] at ha
      omega
    · split at ha
      · exact absurd ha (by simp)
      · rename_i hend
        have hf : EntryFits m madt o := by
          by_contra hf
          exact hend ((madtAtEnd_iff ho).mpr hf)
        have hle := hf
        unfold EntryFits at hle
        unfold madtEntry at ha
        split at ha
        · rcases List.mem_cons.mp ha with rfl | ha
          · omega
          · rw [List.mem_range'_1] at ha
            omega
        · rcases List.mem_cons.mp ha with rfl | ha
          · omega
          · rcases List.mem_cons.mp ha with rfl | ha
            · omega
            · rw [hf.next.1] at ha
              exact ih hf.next.2 a ha

/-- In a chain nothing as long as an I/O APIC starts where eight bytes do not fit. -/
theorem EntryChain.short (hl : EntryChain m madt o l) (hf : ¬ EntryFits m madt o) :
    l.find? (isIoApic m madt) = none := by
  have hend : ∀ {o l}, EntryChain m madt o l → 44 + o ≤ madtLength m madt ∧
      ∀ p ∈ l, o ≤ p ∧ p + entryLength m madt p + 44 ≤ madtLength m madt := by
    intro o l hl
    induction hl with
    | nil h => exact ⟨by omega, by simp⟩
    | cons h _ ih =>
      refine ⟨by omega, fun p hp => ?_⟩
      rcases List.mem_cons.mp hp with rfl | hp
      · omega
      · have := ih.2 p hp
        omega
  rw [List.find?_eq_none]
  intro p hp hio
  have hlong : 12 ≤ entryLength m madt p := by
    have := (Bool.and_eq_true_iff.mp hio).2
    simpa using this
  have := (hend hl).2 p hp
  unfold EntryFits at hf
  omega

/-- **In a chain the loop finds the first I/O APIC**, by induction over the chain. -/
theorem madtLoop_finds (hs : Scannable m madt) (hwhole : ∃ l, EntryChain m madt 0 l)
    (ho : o < 2 ^ 33) (hl : EntryChain m madt o l) (hc : Comes m madt o ∨ ¬ EntryFits m madt o)
    (hr : madtLoop m madt fuel o = some r) : r = l.find? (isIoApic m madt) := by
  induction hl generalizing fuel with
  | @nil o h =>
    cases fuel with
    | zero => exact nomatch hr
    | succ fuel =>
      have hf : ¬ EntryFits m madt o := by
        unfold EntryFits
        omega
      rw [madtLoop_end ho hf] at hr
      exact (Option.some.inj hr).symm
  | @cons o l h hl ih =>
    cases fuel with
    | zero => exact nomatch hr
    | succ fuel =>
      rcases hc with hc | hf
      · by_cases ht : entryType m madt o = madtApicIo
        · have hio : isIoApic m madt o = true := by
            unfold isIoApic
            rw [ht]
            simpa using hs.whole o hc ht hwhole
          rw [madtLoop_found hc.fits ht] at hr
          rw [List.find?_cons_of_pos hio]
          exact (Option.some.inj hr).symm
        · have hio : ¬ isIoApic m madt o = true := by
            unfold isIoApic
            simp [ht]
          rw [madtLoop_next hc.fits ht] at hr
          rw [List.find?_cons_of_neg hio]
          exact ih hc.fits.next.2 (hc.step ht) hr
      · rw [madtLoop_end ho hf] at hr
        rw [(EntryChain.cons h hl).short hf]
        exact (Option.some.inj hr).symm

/-- **The variable** holds the address of the entry found after the loop. -/
theorem ioapicAddress_eq (m : Mem) (madt old : Nat) (r : Option Nat) :
    ioapicAddress m madt old r = (r.map (addressField m madt)).getD old := by
  cases r with
  | none => rfl
  | some o => rfl

/-- So after a loop that ends it is told by where the loop ended. -/
theorem madtStore_of_loop {old v : Nat} (hv : madtStore m madt fuel old = some v) :
    ∃ r, madtLoop m madt fuel 0 = some r ∧ v = (r.map (addressField m madt)).getD old := by
  obtain ⟨r, hr, rfl⟩ := Option.map_eq_some_iff.mp hv
  exact ⟨r, hr, ioapicAddress_eq m madt old r⟩

/--
**The scan does its work exactly on the tables it copes with.**

For every content of the table and every length: the loop ends, reads inside the
table only, and in a chain of entries finds the first I/O APIC and stores its address,
if and only if the length field is inside the table, no entry passed over has length 0,
and what has the type of an I/O APIC has the length of one in a chain.
-/
theorem madtScan_iff (m : Mem) (madt : Nat) : MadtScanOk m madt ↔ Scannable m madt := by
  constructor
  · intro hok
    obtain ⟨fuel, r, hr⟩ := hok.terminates
    refine ⟨?_, fun o hc ht h0 => ?_, fun o hc ht hwhole => ?_⟩
    · -- the last byte of the length field is read in any case
      have := hok.inside 1 (madt + 7) (List.mem_append_left _ (by rw [List.mem_range'_1]; omega))
      omega
    · obtain ⟨fuel', hr'⟩ := hc.passed hr
      rw [madtLoop_stuck hc.fits ht h0] at hr'
      exact nomatch hr'
    · obtain ⟨l, hl⟩ := hwhole
      obtain ⟨fuel', hr'⟩ := hc.passed hr
      cases fuel' with
      | zero => exact nomatch hr'
      | succ fuel' =>
        rw [madtLoop_found hc.fits ht] at hr'
        have hfirst := hok.finds l hl fuel r hr
        rw [← Option.some.inj hr'] at hfirst
        have hio := List.find?_some hfirst.symm
        simpa using (Bool.and_eq_true_iff.mp hio).2
  · intro hs
    have hstart : Comes m madt 0 ∨ ¬ EntryFits m madt 0 := by
      by_cases hf : EntryFits m madt 0
      · exact .inl (.first hf)
      · exact .inr hf
    have hfinds : ∀ l, EntryChain m madt 0 l → ∀ fuel r, madtLoop m madt fuel 0 = some r →
        r = l.find? (isIoApic m madt) := by
      intro l hl fuel r hr
      exact madtLoop_finds hs ⟨l, hl⟩ (by decide) hl hstart hr
    refine ⟨madtLoop_terminates hs (by decide) hstart, ?_, hfinds, ?_⟩
    · exact fun fuel => madtReads_inside hs.length (by decide) fuel
    · intro l hl old fuel v hv
      obtain ⟨r, hr, rfl⟩ := madtStore_of_loop hv
      rw [hfinds l hl fuel r hr]

/-- A table of 64 bytes with a local APIC of 8 bytes and an I/O APIC of 12. -/
def goodMadt : Mem := fun a => if a = 4 then 64 else if a = 45 then 8 else if a = 52 then 1
  else if a = 53 then 12 else if a = 59 then 0xfe else 0

example : madtStore goodMadt 0 2 7 = some 0xfe000000 := by
  decide +kernel

/-- A table of 60 bytes, all of them 0 but for the length. -/
def blankMadt : Mem := fun a => if a = 4 then 60 else 0

/-- **An entry of length 0** keeps the loop where it is. -/
theorem madt_hangs :
    (∀ fuel, madtLoop blankMadt 0 fuel 0 = none) ∧ ¬ MadtScanOk blankMadt 0 := by
  have hf : EntryFits blankMadt 0 0 := by
    show 0 + 52 ≤ madtLength blankMadt 0
    decide +kernel
  have hstuck : ∀ fuel, madtLoop blankMadt 0 fuel 0 = none :=
    fun fuel => madtLoop_stuck hf (by decide) (by decide)
  refine ⟨hstuck, fun hok => ?_⟩
  obtain ⟨fuel, r, hr⟩ := hok.terminates
  exact nomatch (hstuck fuel).symm.trans hr

end IonOS.Arch
