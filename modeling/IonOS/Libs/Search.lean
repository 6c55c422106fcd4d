import IonOS.Lib.Stretch
import IonOS.Libs.Bitmap

/-!
# Searching the bitmap

`find_range` counts equal bits through the bytes in order, whole bytes at a time
where it can. What it counts are the bits it *sees*: for set bits that is what is
there, but a byte in which only bit 0 is set is passed over in the search for
clear bits, because the source compares with `!byte_match` where it means
`~byte_match`.

It gives the first stretch it sees, except that a short one that runs into a whole
byte is moved up to the start of that byte.
-/

namespace IonOS.Libs

open IonOS.Lib

namespace Bitmap

variable {b b' : Bitmap} {p : Nat → Bool} {value : Bool} {length byteIdx n r x : Nat}

/-- What the search takes for a bit of the value it looks for. -/
def seen (b : Bitmap) (value : Bool) (i : Nat) : Bool :=
  if value then b.get i else !b.get i && b.data (i / 8) != 1

/-- All bits of a byte are good. -/
def WholeByte (p : Nat → Bool) (k : Nat) : Prop := ∀ j < 8, p (k * 8 + j) = true

instance (p : Nat → Bool) (k : Nat) : Decidable (WholeByte p k) :=
  inferInstanceAs (Decidable (∀ j < 8, _))

/-- The answer when the first stretch is at `r`. -/
def answer (p : Nat → Bool) (length r : Nat) : Nat :=
  if length < 8 ∧ WholeByte p ((r + length - 1) / 8) then (r + length - 1) / 8 * 8 else r

/-! ## Bytes -/

theorem seen_true (b : Bitmap) : b.seen true = b.get := rfl

/-- A byte is its bits. -/
theorem data_eq_of_get (h : ∀ j < 8, b.get (byteIdx * 8 + j) = b'.get (byteIdx * 8 + j)) :
    b.data byteIdx = b'.data byteIdx := by
  apply UInt8.toNat_inj.mp
  apply Nat.eq_of_testBit_eq
  intro j
  by_cases hj : j < 8
  · rw [← get_of_byte rfl hj, ← get_of_byte rfl hj]
    exact h j hj
  · have hout : ∀ u : UInt8, u.toNat.testBit j = false := fun u =>
      Nat.testBit_lt_two_pow (Nat.lt_of_lt_of_le u.toNat_lt
        (Nat.pow_le_pow_right (by decide) (Nat.le_of_not_lt hj)))
    rw [hout, hout]

/-- What is seen of a byte whose value is known. -/
theorem seen_of_byte {byte : Nat} (hb : (b.data byteIdx).toNat = byte) {j : Nat} (hj : j < 8) :
    b.seen value (byteIdx * 8 + j) =
      if value then byte.testBit j else !byte.testBit j && byte != 1 := by
  have hone : (b.data byteIdx != 1) = (byte != 1) := by
    rw [← hb, Bool.eq_iff_iff, bne_iff_ne, bne_iff_ne, ne_eq, ne_eq, ← UInt8.toNat_inj]
    rfl
  rw [seen, get_of_byte hb hj, show (byteIdx * 8 + j) / 8 = byteIdx by omega, hone]

/-- The two shortcuts of the byte loop in terms of what is seen. -/
theorem byte_cases (b : Bitmap) (value : Bool) (byteIdx : Nat) :
    ((b.data byteIdx).toNat = (if value then 0 else 1) ∧
      ∀ j < 8, b.seen value (byteIdx * 8 + j) = false) ∨
    ((b.data byteIdx).toNat = (if value then 255 else 0) ∧ WholeByte (b.seen value) byteIdx) ∨
    ((b.data byteIdx).toNat ≠ (if value then 0 else 1) ∧
      (b.data byteIdx).toNat ≠ (if value then 255 else 0) ∧
      ¬ WholeByte (b.seen value) byteIdx ∧ ∀ j < 8, b.seen value (byteIdx * 8 + j) =
        ((b.data byteIdx).toNat.testBit j == value)) := by
  have hseen : ∀ j < 8, b.seen value (byteIdx * 8 + j) = _ := fun j hj => seen_of_byte rfl hj
  have hlt := (b.data byteIdx).toNat_lt
  unfold WholeByte
  generalize (b.data byteIdx).toNat = byte at hseen hlt ⊢
  by_cases hno : byte = if value then 0 else 1
  · refine .inl ⟨hno, fun j hj => ?_⟩
    rw [hseen j hj, hno]
    cases value <;> simp
  by_cases hall : byte = if value then 255 else 0
  · refine .inr (.inl ⟨hall, fun j hj => ?_⟩)
    rw [hseen j hj, hall]
    cases value with
    | false => simp
    | true =>
        have hbits : ∀ j < 8, (255 : Nat).testBit j = true := by decide
        exact hbits j hj
  · refine .inr (.inr ⟨hno, hall, fun hwhole => hall ?_, fun j hj => ?_⟩)
    · -- eight good bits make the byte that was looked for
      apply Nat.eq_of_testBit_eq
      intro j
      by_cases hj : j < 8
      · have h1 := (hseen j hj).symm.trans (hwhole j hj)
        cases value with
        | false => simpa using (Bool.and_eq_true_iff.mp h1).1
        | true =>
            have hbits : ∀ j < 8, (255 : Nat).testBit j = true := by decide
            exact h1.trans (hbits j hj).symm
      · have hpow : 2 ^ 8 ≤ 2 ^ j := Nat.pow_le_pow_right (by decide) (Nat.le_of_not_lt hj)
        rw [Nat.testBit_lt_two_pow (by omega), Nat.testBit_lt_two_pow]
        split <;> omega
    · rw [hseen j hj]
      cases value with
      | false =>
          have hne : byte ≠ 1 := hno
          simp [hne]
      | true => simp

/-! ## The loops -/

/-- **The bit loop** goes on counting, or ends with the first stretch. -/
theorem scanBits_spec {byte bit count start : Nat} (hn : bit + n = 8)
    (hbyte : ∀ j < 8, p (byteIdx * 8 + j) = (byte.testBit j == value))
    (h : Scanned p length (byteIdx * 8 + bit) count start) :
    (∃ r, scanBits value length byteIdx byte n bit count start = .inl r ∧
      FirstStretch p length r ∧ byteIdx * 8 < r + length ∧ r + length ≤ byteIdx * 8 + 8) ∨
    ∃ count' start', scanBits value length byteIdx byte n bit count start = .inr (count', start') ∧
      Scanned p length (byteIdx * 8 + 8) count' start' := by
  induction n generalizing bit count start with
  | zero =>
      obtain rfl : bit = 8 := hn
      exact .inr ⟨count, start, rfl, h⟩
  | succ n ih =>
    have hbit := hbyte bit (by omega)
    have hone : ∀ {v}, p (byteIdx * 8 + bit) = v →
        ∀ i, byteIdx * 8 + bit ≤ i → i < byteIdx * 8 + bit + 1 → p i = v := by
      intro v hv i h1 h2
      rwa [show i = byteIdx * 8 + bit by omega]
    rw [scanBits]
    by_cases hval : (byte.testBit bit == value) = true
    · have hgood : Stretch p (byteIdx * 8 + bit) 1 := hone (hbit.trans hval)
      rw [if_pos hval]
      dsimp only
      by_cases hfull : count + 1 = length
      · -- the count is full
        have hfirst := h.first hgood (Nat.le_of_eq hfull.symm)
        have hle := h.le
        have hstart : (if count = 0 then byteIdx * 8 + bit else start) =
            byteIdx * 8 + bit - count := by
          by_cases h0 : count = 0
          · rw [if_pos h0, h0, Nat.sub_zero]
          · rw [if_neg h0, h.start_eq h0]
        rw [if_pos hfull, hstart]
        exact .inl ⟨_, rfl, hfirst, by omega, by omega⟩
      · rw [if_neg hfull]
        have hshort := h.short
        exact ih (by omega) (h.hits hgood (by omega))
    · have hbad : p (byteIdx * 8 + bit) = false := by
        rw [hbit]
        simpa using hval
      rw [if_neg hval]
      exact ih (by omega) (h.miss hbad start)

/-- What the byte loop answers for the first stretch below `lim`, or if there is none. -/
def Found (p : Nat → Bool) (length lim result : Nat) : Prop :=
  (∃ r, FirstStretch p length r ∧ r + length ≤ lim ∧ result = answer p length r) ∨
    ((∀ r, r + length ≤ lim → ¬ Stretch p r length) ∧ result = notFound)

/-- A stretch that ends in a byte that is not whole is answered as it is. -/
theorem answer_of_not_whole (h : ¬ WholeByte p byteIdx) (h1 : byteIdx * 8 < r + length)
    (h2 : r + length ≤ byteIdx * 8 + 8) : answer p length r = r := by
  have hend : (r + length - 1) / 8 = byteIdx := by omega
  rw [answer, hend, if_neg fun hc => h hc.2]

/-- **The byte loop.** -/
theorem scanBytes_spec {count start : Nat} (h : Scanned (b.seen value) length (byteIdx * 8) count start) :
    Found (b.seen value) length ((byteIdx + n) * 8)
      (scanBytes b value length n byteIdx count start) := by
  induction n generalizing byteIdx count start with
  | zero => exact .inr ⟨h.none, rfl⟩
  | succ n ih =>
    have hlim : (byteIdx + 1 + n) * 8 = (byteIdx + (n + 1)) * 8 := by omega
    have hno : ∀ v : Bool, (if (if v then 255 else 0) = 0 then 1 else 0) = if v then 0 else 1 := by
      decide
    have hback : byteIdx * 8 - count + count = byteIdx * 8 := by
      have := h.le
      omega
    rw [scanBytes]
    dsimp only
    rw [hno]
    rcases byte_cases b value byteIdx with ⟨hb, hnone⟩ | ⟨hb, hwhole⟩ | ⟨hb0, hb1, hmixed, hbits⟩
    · -- nothing to see
      have hskip := h.misses (k := 8) (by decide) (fun i h1 h2 => by
        have := hnone (i - byteIdx * 8) (by omega)
        rwa [Nat.add_sub_cancel' h1] at this) start
      rw [if_pos hb, ← hlim]
      exact ih (by rwa [Nat.add_mul, Nat.one_mul])
    · have hgood : Stretch (b.seen value) (byteIdx * 8) 8 := by
        intro i h1 h2
        have := hwhole (i - byteIdx * 8) (by omega)
        rwa [Nat.add_sub_cancel' h1] at this
      have hne : ¬ (b.data byteIdx).toNat = if value then 0 else 1 := by
        rw [hb]
        cases value <;> simp
      have hshort := h.short
      rw [if_neg hne, if_pos hb]
      by_cases hsmall : length < 8
      · -- a short stretch is moved up to this byte
        have hfirst := h.first hgood (by omega)
        have hend : (byteIdx * 8 - count + length - 1) / 8 = byteIdx := by omega
        rw [if_pos hsmall]
        refine .inl ⟨_, hfirst, by omega, ?_⟩
        rw [answer, hend, if_pos ⟨hsmall, hwhole⟩]
      · rw [if_neg hsmall]
        by_cases hfull : length ≤ count + 8
        · have hfirst := h.first hgood hfull
          have hstart : (if count = 0 then byteIdx * 8 else start) = byteIdx * 8 - count := by
            by_cases h0 : count = 0
            · rw [if_pos h0, h0, Nat.sub_zero]
            · rw [if_neg h0, h.start_eq h0]
          rw [if_pos hfull, hstart]
          refine .inl ⟨_, hfirst, by omega, ?_⟩
          rw [answer, if_neg fun hc => hsmall hc.1]
        · have hon := h.hits hgood (by omega)
          rw [if_neg hfull, ← hlim]
          exact ih (by rwa [Nat.add_mul, Nat.one_mul])
    · rw [if_neg hb0, if_neg hb1]
      rcases scanBits_spec (Nat.zero_add 8) hbits h with ⟨r, hr, hfirst, h1, h2⟩ |
        ⟨count', start', hr, hon⟩
      · rw [hr]
        exact .inl ⟨r, hfirst, by omega, (answer_of_not_whole hmixed h1 h2).symm⟩
      · rw [hr, ← hlim]
        exact ih (by rwa [Nat.add_mul, Nat.one_mul])

/-- **What `find_range` answers.** -/
theorem findRange_spec (b : Bitmap) (value : Bool) (hl : 1 ≤ length) :
    Found (b.seen value) length (b.size / 8 * 8) (b.findRange value length) := by
  have hstart : Scanned (b.seen value) length (0 * 8) 0 0 := .init hl
  have h := scanBytes_spec (n := b.size / 8) hstart
  rwa [Nat.zero_add] at h

/-- The answer is a place where a stretch begins. -/
theorem stretch_answer (h : FirstStretch p length r) (hl : 1 ≤ length) :
    Stretch p (answer p length r) length ∧
      answer p length r + length ≤ (r + length + 7) / 8 * 8 := by
  unfold answer
  split
  · rename_i hshort
    obtain ⟨hsmall, hwhole⟩ := hshort
    refine ⟨fun i h1 h2 => ?_, by omega⟩
    have := hwhole (i - (r + length - 1) / 8 * 8) (by omega)
    rwa [Nat.add_sub_cancel' h1] at this
  · exact ⟨h.here, by omega⟩

/-! ## The search for set bits -/

/-- **The search for one set bit finds the lowest**, among the bits of the whole bytes. -/
theorem findRange_one (b : Bitmap) :
    (∃ r, r < b.size / 8 * 8 ∧ IsFirst b.get 0 r ∧ findRange b true 1 = r) ∨
    ((∀ i, i < b.size / 8 * 8 → b.get i = false) ∧ findRange b true 1 = notFound) := by
  have hone : ∀ r, Stretch b.get r 1 ↔ b.get r = true := by
    intro r
    constructor
    · intro h
      exact h r (Nat.le_refl r) (Nat.lt_succ_self r)
    · intro h i h1 h2
      rwa [show i = r by omega]
  rcases findRange_spec b true (Nat.le_refl 1) with ⟨r, hfirst, hlt, hr⟩ | ⟨hnone, hr⟩
  · have hset := (hone r).mp hfirst.here
    have hmin : ∀ i < r, b.get i = false := by
      intro i hi
      simpa [hone, seen_true] using hfirst.first i hi
    refine .inl ⟨r, hlt, ⟨Nat.zero_le r, hset, fun i _ hi => hmin i hi⟩, hr.trans ?_⟩
    unfold answer
    split
    · -- all of the byte is set, and the first set bit is its first
      rename_i hwhole
      have hbit := hwhole.2 0 (by decide)
      by_contra hne
      have := hmin (r / 8 * 8) (by omega)
      rw [Nat.add_zero, Nat.add_sub_cancel, seen_true, this] at hbit
      exact absurd hbit (by simp)
    · rfl
  · refine .inr ⟨fun i hi => ?_, hr⟩
    simpa [hone, seen_true] using hnone i hi

/--
**The search for set bits is exact.**

For every bitmap and every length it says that there is no stretch of so many set
bits within the whole bytes just if there is none, and otherwise gives the start
of one.
-/
theorem findRange_exact (b : Bitmap) (hsize : b.size < 2 ^ 64) (hl : 1 ≤ length) :
    (b.findRange true length = notFound ↔
      ∀ r, r + length ≤ 8 * (b.size / 8) → ¬ Stretch b.get r length) ∧
    (b.findRange true length ≠ notFound →
      b.findRange true length + length ≤ 8 * (b.size / 8) ∧
        Stretch b.get (b.findRange true length) length) := by
  have hnf : notFound = 2 ^ 64 - 1 := rfl
  rw [Nat.mul_comm 8]
  rcases findRange_spec b true hl with ⟨r, hfirst, hlt, hr⟩ | ⟨hnone, hr⟩
  · obtain ⟨hs, hend⟩ := stretch_answer hfirst hl
    rw [seen_true] at hfirst hs hend hr
    rw [hr]
    refine ⟨iff_of_false (by omega) fun hnone => hnone r hlt hfirst.here, fun _ => ⟨by omega, hs⟩⟩
  · rw [hr]
    exact ⟨iff_of_true rfl hnone, fun h => absurd rfl h⟩

/-- Two bytes, the middle eight bits set. -/
def middle : Bitmap := { data := fun i => if i = 0 then 0xf0 else 0x0f, size := 16 }

/-- The stretch across the two bytes is found. -/
theorem findRange_exact_middle : middle.findRange true 8 = 4 ∧ Stretch middle.get 4 8 := by
  have hrun : middle.findRange true 8 = 4 := by decide
  have h := (findRange_exact middle (by decide) (by decide : 1 ≤ 8)).2 (by rw [hrun]; decide)
  rw [hrun] at h
  exact ⟨hrun, h.2⟩

/-! ## The search for clear bits -/

/-- **What is seen decides the answer.** -/
theorem findRange_congr {value value' : Bool} (hl : 1 ≤ length) (hsize : b.size = b'.size)
    (h : ∀ i < b.size / 8 * 8, b.seen value i = b'.seen value' i) :
    b.findRange value length = b'.findRange value' length := by
  have hfirst : ∀ {r}, FirstStretch (b.seen value) length r → r + length ≤ b.size / 8 * 8 →
      FirstStretch (b'.seen value') length r := by
    intro r hf hlt
    refine ⟨hf.here.congr fun i h1 h2 => h i (by omega), fun r' hr' hs => hf.first r' hr' ?_⟩
    exact hs.congr fun i h1 h2 => (h i (by omega)).symm
  rcases findRange_spec b value hl with ⟨r, hf, hlt, hr⟩ | ⟨hnone, hr⟩
  · have hf' := hfirst hf hlt
    rcases findRange_spec b' value' hl with ⟨r', hg, -, hr'⟩ | ⟨hnone', -⟩
    · obtain rfl := hf'.unique hg
      have hwhole : WholeByte (b.seen value) ((r + length - 1) / 8) ↔
          WholeByte (b'.seen value') ((r + length - 1) / 8) := by
        refine forall_congr' fun j => forall_congr' fun hj => ?_
        rw [h _ (by omega)]
      rw [hr, hr', answer, answer]
      simp only [hwhole]
    · exact absurd hf'.here (hnone' r (by rwa [← hsize]))
  · rcases findRange_spec b' value' hl with ⟨r', hg, hlt', -⟩ | ⟨-, hr'⟩
    · rw [← hsize] at hlt'
      exact absurd (hg.here.congr fun i h1 h2 => (h i (by omega)).symm) (hnone r' hlt')
    · rw [hr, hr']

/-- Bits that agree are seen alike. -/
theorem seen_eq_of_get (h : ∀ i < n * 8, b.get i = b'.get i) (value : Bool) :
    ∀ i < n * 8, b.seen value i = b'.seen value i := by
  intro i hi
  have hbyte : b.data (i / 8) = b'.data (i / 8) := data_eq_of_get fun j hj => h _ (by omega)
  rw [seen, seen, h i hi, hbyte]

/-- The bitmap with every bit turned over. -/
def compl (b : Bitmap) : Bitmap := { b with data := fun i => ~~~ b.data i }

theorem get_compl (b : Bitmap) (i : Nat) : b.compl.get i = !b.get i := by
  have hlt := (b.data (i / 8)).toNat_lt
  have hnot : (~~~ b.data (i / 8)).toNat = 2 ^ 8 - ((b.data (i / 8)).toNat + 1) := by
    have hsize : UInt8.size = 256 := rfl
    rw [UInt8.toNat_not, hsize]
    omega
  rw [get_eq, get_eq, compl]
  dsimp only
  rw [hnot, Nat.testBit_two_pow_sub_succ hlt]
  simp [Nat.mod_lt i (by decide : 0 < 8)]

/-- What the search for clear bits should see. -/
theorem seen_compl (b : Bitmap) : b.compl.seen true = fun i => !b.get i := by
  funext i
  exact get_compl b i

/-- **The first stretch of clear bits** touches no byte in which only bit 0 is set. -/
def Passes (b : Bitmap) (length : Nat) : Prop :=
  ∀ r, FirstStretch (fun i => !b.get i) length r → r + length ≤ b.size / 8 * 8 →
    ∀ i, r ≤ i → i < r + length → b.data (i / 8) ≠ 1

/-- In such a byte all bits but the first are clear. -/
theorem get_of_data_one {k i : Nat} (h : b.data k = 1) (h1 : k * 8 < i) (h2 : i < k * 8 + 8) :
    b.get i = false := by
  have hbits : ∀ j < 8, j ≠ 0 → (1 : Nat).testBit j = false := by decide
  have hb : (b.data k).toNat = 1 := by rw [h]; rfl
  have := get_of_byte hb (k := i - k * 8) (by omega)
  rw [Nat.add_sub_cancel' (Nat.le_of_lt h1)] at this
  rw [this]
  exact hbits _ (by omega) (by omega)

/-- A stretch of clear bits is seen just if it touches no such byte. -/
theorem stretch_seen_false : Stretch (b.seen false) r length ↔
    Stretch (fun i => !b.get i) r length ∧
      ∀ i, r ≤ i → i < r + length → b.data (i / 8) ≠ 1 := by
  have hseen : ∀ i, b.seen false i = true ↔ (!b.get i) = true ∧ b.data (i / 8) ≠ 1 := by
    intro i
    rw [seen, if_neg (by simp), Bool.and_eq_true_iff, bne_iff_ne]
  constructor
  · intro h
    exact ⟨fun i h1 h2 => ((hseen i).mp (h i h1 h2)).1, fun i h1 h2 => ((hseen i).mp (h i h1 h2)).2⟩
  · intro h i h1 h2
    exact (hseen i).mpr ⟨h.1 i h1 h2, h.2 i h1 h2⟩

/-- Where the search moved a stretch up to, its first stretch touches no such byte either: a byte
of that kind has room for a short stretch of its own. -/
theorem passes_of_answer (hl : 1 ≤ length) (hf : FirstStretch (fun i => !b.get i) length r)
    (hs : Stretch (b.seen false) (answer (fun i => !b.get i) length r) length) :
    ∀ i, r ≤ i → i < r + length → b.data (i / 8) ≠ 1 := by
  unfold answer at hs
  split at hs
  · rename_i hshort
    obtain ⟨hsmall, hwhole⟩ := hshort
    intro i h1 h2 hone
    by_cases hbyte : i / 8 = (r + length - 1) / 8
    · exact (stretch_seen_false.mp hs).2 _ (Nat.le_refl _) (by omega)
        (by rwa [Nat.mul_div_cancel _ (by decide), ← hbyte])
    · -- the byte before the one that is whole
      have hearly : Stretch (fun i => !b.get i) (i / 8 * 8 + 1) length := by
        intro j h3 h4
        show (!b.get j) = true
        by_cases hj : j < i / 8 * 8 + 8
        · rw [get_of_data_one hone (by omega) hj]
          rfl
        · omega
      exact hf.first _ (by omega) hearly
  · exact (stretch_seen_false.mp hs).2

/--
**The two searches mirror each other** exactly when the first stretch of clear
bits touches no byte in which only bit 0 is set.
-/
theorem findRange_symm_iff (b : Bitmap) (hsize : b.size < 2 ^ 64) (hl : 1 ≤ length) :
    b.findRange false length = b.compl.findRange true length ↔ Passes b length := by
  have hnf : notFound = 2 ^ 64 - 1 := rfl
  have hle : ∀ i, b.seen false i = true → (!b.get i) = true := by
    intro i h
    rw [seen, if_neg (by simp), Bool.and_eq_true_iff] at h
    exact h.1
  have hcompl := findRange_spec b.compl true hl
  rw [seen_compl] at hcompl
  rcases hcompl with ⟨r, hf, hlt, hr⟩ | ⟨hnone, hr⟩
  · have hlt' : r + length ≤ b.size / 8 * 8 := hlt
    have hend := (stretch_answer hf hl).2
    rw [hr]
    rcases findRange_spec b false hl with ⟨r', hg, hlt'', hr'⟩ | ⟨hnone', hr'⟩
    · constructor
      · intro heq r'' hf'' _
        obtain rfl := hf.unique hf''
        refine passes_of_answer hl hf ?_
        rw [← heq, hr']
        exact (stretch_answer hg hl).1
      · intro hpass
        have hs := stretch_seen_false.mpr ⟨hf.here, hpass r hf hlt'⟩
        obtain rfl := (hf.of_le hle hs).unique hg
        rw [hr', answer, answer]
        have hwhole : WholeByte (b.seen false) ((r + length - 1) / 8) ↔
            WholeByte (fun i => !b.get i) ((r + length - 1) / 8) := by
          have hne := hpass r hf hlt' (r + length - 1) (by omega) (by omega)
          refine forall_congr' fun j => forall_congr' fun hj => ?_
          have hdiv : ((r + length - 1) / 8 * 8 + j) / 8 = (r + length - 1) / 8 := by omega
          rw [seen, if_neg (by simp), hdiv, bne_iff_ne.mpr hne, Bool.and_true]
        simp only [hwhole]
    · rw [hr']
      refine iff_of_false (by omega) fun hpass => ?_
      exact hnone' r hlt' (stretch_seen_false.mpr ⟨hf.here, hpass r hf hlt'⟩)
  · have hnone' : ∀ r, r + length ≤ b.size / 8 * 8 → ¬ Stretch (fun i => !b.get i) r length :=
      hnone
    refine iff_of_true ?_ fun r hf hlt => absurd hf.here (hnone' r hlt)
    rw [hr]
    rcases findRange_spec b false hl with ⟨r', hg, hlt', -⟩ | ⟨-, hr'⟩
    · exact absurd (fun i h1 h2 => hle i (hg.here i h1 h2)) (hnone' r' hlt')
    · exact hr'

/-- Two bytes, neither of them that kind. -/
theorem findRange_symm_middle : middle.findRange false 4 = middle.compl.findRange true 4 := by
  refine (findRange_symm_iff middle (by decide) (by decide)).mpr fun r _ _ i _ _ => ?_
  unfold middle
  dsimp only
  split <;> decide

/-- One byte, bit 0 set. -/
def lowBit : Bitmap := { data := fun _ => 1, size := 8 }

/-- **Seven clear bits are not seen**: in a byte where only bit 0 is set. -/
theorem findRange_asymmetric : lowBit.findRange false 1 = notFound ∧
    lowBit.compl.findRange true 1 = 1 ∧
    lowBit.findRange false 1 ≠ lowBit.compl.findRange true 1 := by
  decide

end Bitmap

end IonOS.Libs
