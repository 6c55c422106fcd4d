import IonOS.Libs.Number

/-!
# Reading a number back

What `number` writes, seen from the other side: the digits are those that its loop
has put into `tmp`, the last one first; read in the base they are the number again,
and all that is around them is known by its length.
-/

namespace IonOS.Libs

open IonOS.Lib

variable {type : Flags} {num width precision : Int} {base n d : Nat} {cs ds : List UInt8}

/-! ## Reading -/

/-- What a digit stands for, in capitals or not. -/
def digitValue (c : UInt8) : Option Nat :=
  if ch '0' ≤ c ∧ c ≤ ch '9' then some (c.toNat - (ch '0').toNat)
  else if ch 'A' ≤ c ∧ c ≤ ch 'F' then some (c.toNat - (ch 'A').toNat + 10)
  else if ch 'a' ≤ c ∧ c ≤ ch 'f' then some (c.toNat - (ch 'a').toNat + 10)
  else none

/-- What digits stand for when those before them stand for `n`. -/
def readFrom (base : Nat) : Nat → List UInt8 → Option Nat
  | n, [] => some n
  | n, c :: cs => (digitValue c).bind fun d =>
      if d < base then readFrom base (n * base + d) cs else none

/-- What digits stand for, the first one being the most significant. -/
def readDigits (base : Nat) (cs : List UInt8) : Option Nat := readFrom base 0 cs

theorem readFrom_append (base n : Nat) (cs ds : List UInt8) :
    readFrom base n (cs ++ ds) = (readFrom base n cs).bind fun v => readFrom base v ds := by
  induction cs generalizing n with
  | nil => rfl
  | cons c cs ih =>
    rw [List.cons_append, readFrom, readFrom]
    cases digitValue c with
    | none => rfl
    | some d =>
        rw [Option.bind_some, Option.bind_some]
        split
        · exact ih _
        · rfl

/-- A digit that is written stands for itself. -/
theorem digitValue_digitChar (small : Bool) (hd : d < 16) :
    digitValue (digitChar (if small then 32 else 0) d) = some d := by
  have hall : ∀ small : Bool, ∀ d < 16,
      digitValue (digitChar (if small then 32 else 0) d) = some d := by decide
  exact hall small d hd

/-- Digits written from the last one on are read from the first one on. -/
theorem readDigits_reverse (small : Bool) (hbase : base ≤ 16) {ds : List Nat}
    (hds : ∀ d ∈ ds, d < base) :
    readDigits base (ds.map (digitChar (if small then 32 else 0))).reverse =
      some (Nat.ofDigits base ds) := by
  induction ds with
  | nil => rfl
  | cons d ds ih =>
    have hd : d < base := hds d List.mem_cons_self
    have hrest := ih fun d hd => hds d (List.mem_cons_of_mem _ hd)
    unfold readDigits at hrest ⊢
    rw [List.map_cons, List.reverse_cons, readFrom_append, hrest, Option.bind_some, readFrom,
      digitValue_digitChar small (by omega), Option.bind_some, if_pos hd, readFrom,
      Nat.ofDigits_cons, Nat.mul_comm, Nat.add_comm]

/-- **The digits of a number** are read as that number. -/
theorem readDigits_digitText (type : Flags) (h2 : 2 ≤ base) (hbase : base ≤ 16) (n : Nat) :
    readDigits base (digitText type base n) = some n := by
  unfold digitText
  by_cases hn : n = 0
  · rw [if_pos hn, hn]
    have hzero : digitValue (ch '0') = some 0 := by decide
    rw [readDigits, readFrom, hzero, Option.bind_some, if_pos (by omega), readFrom, Nat.zero_mul]
  · rw [if_neg hn, readDigits_reverse type.small hbase fun d hd => Nat.digits_lt_base h2 hd,
      Nat.ofDigits_digits]

/-! ## `tmp` -/

/-- What `number` has put into `tmp` when its digits are done, entry by entry. -/
def numberTmp (type : Flags) (num : Int) (base : Nat) : List UInt8 :=
  let (_, num, _) := takeSign type num 0
  if num = 0 then [ch '0'] else doDiv (if type.small then 32 else 0) base (num % 2 ^ 64).toNat

theorem takeSign_num (type : Flags) (z : Bool) (num size : Int) :
    (takeSign { type with zeropad := z } num size).2.1 = (takeSign type num 0).2.1 := by
  unfold takeSign
  split_ifs <;> rfl

/-- It is what `number` writes its digits from. -/
theorem number_tmp (str : List UInt8) (num : Int) (h2 : 2 ≤ base) (hbase : base ≤ 16)
    (size precision : Int) (type : Flags) :
    ∃ sign c locase size' precision' type', number str num base size precision type = some
      (writeNumber str (numberTmp type num base) sign c locase base size' precision' type') := by
  have hb : ¬ (base < 2 ∨ 16 < base) := by omega
  have htype : ∃ z, (if type.left then { type with zeropad := false } else type) =
      { type with zeropad := z } := by
    by_cases hl : type.left
    · exact ⟨false, if_pos hl⟩
    · exact ⟨type.zeropad, if_neg hl⟩
  obtain ⟨z, htype⟩ := htype
  dsimp only [number, numberTmp]
  rw [if_neg hb, htype, takeSign_num]
  exact ⟨_, _, _, _, _, _, rfl⟩

theorem numberTmp_eq (type : Flags) (hlow : -2 ^ 63 ≤ num) (hhigh : num < 2 ^ 63) (h2 : 2 ≤ base) :
    numberTmp type num base = (digitText type base (magnitude type num)).reverse :=
  tmp_eq hlow hhigh h2 0

theorem magnitude_lt (type : Flags) (hlow : -2 ^ 63 ≤ num) (hhigh : num < 2 ^ 63) :
    magnitude type num < 2 ^ 64 := by
  unfold magnitude
  split <;> omega

/-- A digit for each bit is enough. -/
theorem length_digitText_le (type : Flags) (h2 : 2 ≤ base) (hn : n < 2 ^ 64) :
    (digitText type base n).length ≤ 64 := by
  unfold digitText
  split
  · decide
  · rw [List.length_reverse, List.length_map, Nat.digits_length_le_iff (by omega)]
    exact Nat.lt_of_lt_of_le hn (Nat.pow_le_pow_left h2 64)

/-! ## The parts of the text -/

/-- The sign that is shown for negative numbers only. -/
theorem minus_shown_iff (type : Flags) (num : Int) :
    ch '-' ∈ signText type num ↔ type.sign ∧ num < 0 := by
  have hplus : ch '-' ≠ ch '+' := by decide
  have hspace : ch '-' ≠ ch ' ' := by decide
  unfold signText
  split_ifs with hsign hneg hp hs
  · simp [hsign, hneg]
  · simp [hneg, hplus]
  · simp [hneg, hspace]
  · simp [hneg]
  · simp [hsign]

theorem length_signText_le (type : Flags) (num : Int) : (signText type num).length ≤ 1 := by
  unfold signText
  split_ifs <;> decide

theorem length_baseText_le (type : Flags) (base : Nat) : (baseText type base).length ≤ 2 := by
  unfold baseText
  split_ifs <;> decide

/-- **The parts of what `number` writes**: spaces, the sign, what is shown of the base, zeros, the
digits, and spaces again. -/
def numberParts (type : Flags) (num : Int) (base lead zeros trail : Nat) : List UInt8 :=
  List.replicate lead (ch ' ') ++ signText type num ++ baseText type base ++
    List.replicate zeros (ch '0') ++ (numberTmp type num base).reverse ++
    List.replicate trail (ch ' ')

/-- How many characters there are without a field. -/
def numberSpan (type : Flags) (num : Int) (base : Nat) (precision : Int) : Int :=
  (signText type num).length + (baseText type base).length +
    max precision (numberTmp type num base).length

/-- **How long the parts are.** -/
structure Rendered (type : Flags) (num : Int) (base : Nat) (width precision : Int)
    (lead zeros trail : Nat) : Prop where
  /-- All of them fill the field, or are as long as they have to be. -/
  length : ((numberParts type num base lead zeros trail).length : Int) =
    max width (numberSpan type num base precision)
  lead : type.left ∨ type.zeropad → lead = 0
  trail : ¬ type.left → trail = 0
  /-- Unless zeros fill the field there are as many of them as the precision asks for. -/
  zeros : type.left ∨ ¬ type.zeropad →
    (zeros + (numberTmp type num base).length : Int) =
      max precision (numberTmp type num base).length

/-- The zeros of the precision are counted with the digits. -/
theorem length_bodyText (type : Flags) (num : Int) (base : Nat) (precision : Int) :
    ((bodyText type num base precision).length : Int) =
      max precision (digitText type base (magnitude type num)).length := by
  rw [bodyText, List.length_append, List.length_replicate]
  omega

/-- What is written around the digits, in parts. -/
theorem numberText_parts (hlow : -2 ^ 63 ≤ num) (hhigh : num < 2 ^ 63) (h2 : 2 ≤ base)
    (precision : Int) {lead fill trail : Nat} (hzero : type.zeropad ∨ fill = 0) :
    numberText type num base precision (lead, fill, trail) = numberParts type num base lead
      (fill + (precision.toNat - (numberTmp type num base).length)) trail := by
  have hfill : List.replicate fill (if type.zeropad then ch '0' else ch ' ') =
      List.replicate fill (ch '0') := by
    rcases hzero with hz | hz
    · rw [if_pos hz]
    · rw [hz, List.replicate_zero, List.replicate_zero]
  rw [numberText, numberParts, hfill, bodyText, numberTmp_eq type hlow hhigh h2,
    List.length_reverse, List.reverse_reverse, List.replicate_add]
  simp only [List.append_assoc]

theorem length_numberParts (type : Flags) (num : Int) (base lead zeros trail : Nat) :
    (numberParts type num base lead zeros trail).length =
      lead + (signText type num).length + (baseText type base).length + zeros +
        (numberTmp type num base).length + trail := by
  simp only [numberParts, List.length_append, List.length_replicate, List.length_reverse]

/-- Widths and precisions up to `2 ^ 30` leave room for the counting. -/
theorem numberRest_fit (type : Flags) (hlow : -2 ^ 63 ≤ num) (hhigh : num < 2 ^ 63) (h2 : 2 ≤ base)
    (hw : -1 ≤ width) (hw' : width ≤ 2 ^ 30) (hp' : precision ≤ 2 ^ 30) :
    toInt (numberRest type num base width precision) = numberRest type num base width precision ∧
      -2 ^ 31 + idleLoops type ≤ numberRest type num base width precision := by
  have hsign := length_signText_le type num
  have hmark := length_baseText_le type base
  have hbody := length_bodyText type num base precision
  have hdigits := length_digitText_le type h2 (magnitude_lt type hlow hhigh)
  have hidle : idleLoops type ≤ 2 := by
    unfold idleLoops
    split_ifs <;> decide
  unfold numberRest
  refine ⟨toInt_eq ?_ ?_, ?_⟩
  · omega
  · omega
  · omega

/-- What is left of the field is what the parts do not take. -/
theorem numberRest_span (type : Flags) (hlow : -2 ^ 63 ≤ num) (hhigh : num < 2 ^ 63)
    (h2 : 2 ≤ base) (width precision : Int) : numberRest type num base width precision =
      width - numberSpan type num base precision := by
  have hbody := length_bodyText type num base precision
  have hlen : (numberTmp type num base).length =
      (digitText type base (magnitude type num)).length := by
    rw [numberTmp_eq type hlow hhigh h2, List.length_reverse]
  rw [numberRest, numberSpan, hlen]
  omega

/--
**What `number` writes, and that it can be read back.**

The number is cut into its digits, at most 66 of them. They are written behind the
sign and what is shown of the base, with as many zeros and spaces around them as fill
the field, and read in the base they give the number: its absolute value where it has
a sign, and what it is as an unsigned number where not.
-/
theorem number_renders (str : List UInt8) (type : Flags) (width precision : Int)
    (hlow : -2 ^ 63 ≤ num) (hhigh : num < 2 ^ 63) (hbase : base = 8 ∨ base = 10 ∨ base = 16)
    (hw : -1 ≤ width) (hw' : width ≤ 2 ^ 30) (hp : precision ≤ 2 ^ 30) :
    (∃ lead zeros trail, Rendered type num base width precision lead zeros trail ∧
      number str num base width precision type =
        some (str ++ numberParts type num base lead zeros trail)) ∧
      (numberTmp type num base).length ≤ 66 ∧
      readDigits base (numberTmp type num base).reverse =
        some (if type.sign then num.natAbs else (num % 2 ^ 64).toNat) ∧
      (ch '-' ∈ signText type num ↔ type.sign ∧ num < 0) := by
  have h2 : 2 ≤ base := by omega
  have h16 : base ≤ 16 := by omega
  obtain ⟨hself, hfit⟩ := numberRest_fit type hlow hhigh h2 hw hw' hp
  have hspan := numberRest_span type hlow hhigh h2 width precision
  have htmp := numberTmp_eq type hlow hhigh h2
  refine ⟨?_, ?_, ?_, minus_shown_iff type num⟩
  · have hwritten := number_eq str hlow hhigh h2 h16 width precision type
    rw [hself, numberPads_fit hfit] at hwritten
    -- only one of the three loops fills the field
    by_cases hl : type.left
    · rw [if_pos hl, numberText_parts hlow hhigh h2 precision (.inr rfl)] at hwritten
      refine ⟨_, _, _, ⟨?_, fun _ => rfl, fun h => absurd hl h, fun _ => ?_⟩, hwritten⟩
      · rw [length_numberParts, hspan, numberSpan]
        omega
      · omega
    · rw [if_neg hl] at hwritten
      by_cases hz : type.zeropad
      · rw [if_pos hz, numberText_parts hlow hhigh h2 precision (.inl hz)] at hwritten
        refine ⟨_, _, _, ⟨?_, fun _ => rfl, fun _ => rfl, fun h => ?_⟩, hwritten⟩
        · rw [length_numberParts, hspan, numberSpan]
          omega
        · exact absurd h (not_or.mpr ⟨hl, not_not.mpr hz⟩)
      · rw [if_neg hz, numberText_parts hlow hhigh h2 precision (.inr rfl)] at hwritten
        refine ⟨_, _, _, ⟨?_, fun h => absurd h (not_or.mpr ⟨hl, hz⟩), fun _ => rfl, fun _ => ?_⟩,
          hwritten⟩
        · rw [length_numberParts, hspan, numberSpan]
          omega
        · omega
  · have hlen := length_digitText_le type h2 (magnitude_lt type hlow hhigh)
    rw [htmp, List.length_reverse]
    omega
  · rw [htmp, List.reverse_reverse]
    exact readDigits_digitText type h2 h16 _

/-- The least number of 64 bits, with a sign, in a field of 24 characters. -/
theorem number_renders_least :
    readDigits 10 (numberTmp ⟨true, true, false, false, false, false, false⟩ (-2 ^ 63) 10).reverse =
      some (2 ^ 63) :=
  (number_renders [] ⟨true, true, false, false, false, false, false⟩ 24 (-1)
    (by decide) (by decide) (.inr (.inl rfl)) (by decide) (by decide) (by decide)).2.2.1

end IonOS.Libs
