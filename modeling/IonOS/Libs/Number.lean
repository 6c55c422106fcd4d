import IonOS.Lib.Word
import Mathlib.Data.Nat.Digits.Lemmas

/-!
# `number`

The part of `vsprintf` that writes an integer. Its loops count an `int` down and step
once more when they stop, so `size` may run over its lower end, which makes a field of
a negative size a very long one: `padding` says when.
-/

namespace IonOS.Libs

open IonOS.Lib

/-- The code of a character. -/
def ch (c : Char) : UInt8 := UInt8.ofNat c.toNat

/-- An `int` after an operation that may overflow. -/
def toInt (i : Int) : Int := Int.bmod i (2 ^ 32)

/-- A `long` after an operation that may overflow. -/
def toLong (i : Int) : Int := Int.bmod i (2 ^ 64)

theorem toInt_eq {i : Int} (h : -2 ^ 31 ≤ i) (h' : i < 2 ^ 31) : toInt i = i := by
  unfold toInt
  rw [Int.bmod_def]
  omega

theorem toInt_range (i : Int) : -2 ^ 31 ≤ toInt i ∧ toInt i < 2 ^ 31 := by
  unfold toInt
  rw [Int.bmod_def]
  omega

/-- The flags of a conversion, a bit each in the source. -/
structure Flags where
  zeropad : Bool
  sign : Bool
  plus : Bool
  space : Bool
  left : Bool
  small : Bool
  special : Bool
deriving DecidableEq, Repr

/-! ## The code -/

/-- `digits`, "0123456789ABCDEF". -/
def digitChars : List UInt8 :=
  [ch '0', ch '1', ch '2', ch '3', ch '4', ch '5', ch '6', ch '7', ch '8', ch '9', ch 'A', ch 'B',
    ch 'C', ch 'D', ch 'E', ch 'F']

def digitChar (locase : UInt8) (d : Nat) : UInt8 := digitChars.getD d 0 ||| locase

/-- `while (num != 0) tmp[i++] = digits[num % base] | locase, num /= base;`, with `num` as the
unsigned number that `__do_div` takes it for. `base` is at least 2. -/
def doDiv (locase : UInt8) (base num : Nat) : List UInt8 :=
  if num = 0 ∨ base < 2 then []
  else digitChar locase (num % base) :: doDiv locase base (num / base)
termination_by num
decreasing_by exact Nat.div_lt_self (by omega) (by omega)

/-- `while (lo < w--) *str++ = c;`: what is written, and `w` when the loop is done. -/
def whileAbove (c : UInt8) (lo w : Int) : List UInt8 × Int :=
  if lo < w then
    let rest := whileAbove c lo (w - 1)
    (c :: rest.1, rest.2)
  else ([], toInt (w - 1))
termination_by (w - lo).toNat

/-- The character for the sign, or 0, and what becomes of `num` and `size`. -/
def takeSign (type : Flags) (num size : Int) : UInt8 × Int × Int :=
  if type.sign then
    if num < 0 then (ch '-', toLong (-num), toInt (size - 1))
    else if type.plus then (ch '+', num, toInt (size - 1))
    else if type.space then (ch ' ', num, toInt (size - 1))
    else (0, num, size)
  else (0, num, size)

/-- The second half of `number`, which writes. `size` is what is left for the padding. -/
def writeNumber (str tmp : List UInt8) (sign c locase : UInt8) (base : Nat) (size precision : Int)
    (type : Flags) : List UInt8 :=
  let (pad, size) :=
    if ¬ (type.zeropad ∨ type.left) then whileAbove (ch ' ') 0 size else ([], size)
  let str := str ++ pad
  let str := if sign ≠ 0 then str ++ [sign] else str
  let str :=
    if type.special then
      if base = 8 then str ++ [ch '0']
      else if base = 16 then str ++ [ch '0', ch 'X' ||| locase]
      else str
    else str
  let (pad, size) := if ¬ type.left then whileAbove c 0 size else ([], size)
  let str := str ++ pad
  let str := str ++ (whileAbove (ch '0') tmp.length precision).1
  let str := str ++ tmp.reverse
  str ++ (whileAbove (ch ' ') 0 size).1

/-- `number`. `str` is what has been written so far. -/
def number (str : List UInt8) (num : Int) (base : Nat) (size precision : Int) (type : Flags) :
    Option (List UInt8) :=
  let locase : UInt8 := if type.small then 32 else 0
  let type := if type.left then { type with zeropad := false } else type
  if base < 2 ∨ 16 < base then none
  else
    let c := if type.zeropad then ch '0' else ch ' '
    let (sign, num, size) := takeSign type num size
    let size :=
      if type.special then
        if base = 16 then toInt (size - 2)
        else if base = 8 then toInt (size - 1)
        else size
      else size
    let tmp := if num = 0 then [ch '0'] else doDiv locase base (num % 2 ^ 64).toNat
    let i : Int := tmp.length
    let precision := if precision < i then i else precision
    let size := toInt (size - precision)
    some (writeNumber str tmp sign c locase base size precision type)

/-! ## The text of a number -/

/-- The sign that is shown. -/
def signText (type : Flags) (num : Int) : List UInt8 :=
  if type.sign then
    if num < 0 then [ch '-']
    else if type.plus then [ch '+']
    else if type.space then [ch ' ']
    else []
  else []

/-- What is shown of the base. -/
def baseText (type : Flags) (base : Nat) : List UInt8 :=
  if type.special then
    if base = 8 then [ch '0']
    else if base = 16 then [ch '0', ch 'X' ||| if type.small then 32 else 0]
    else []
  else []

/-- The number whose digits are shown. -/
def magnitude (type : Flags) (num : Int) : Nat :=
  if type.sign then num.natAbs else (num % 2 ^ 64).toNat

/-- The digits, the first one first. -/
def digitText (type : Flags) (base n : Nat) : List UInt8 :=
  if n = 0 then [ch '0']
  else ((Nat.digits base n).map (digitChar (if type.small then 32 else 0))).reverse

/-- The digits, with as many zeros before them as the precision asks for. -/
def bodyText (type : Flags) (num : Int) (base : Nat) (precision : Int) : List UInt8 :=
  List.replicate (precision.toNat - (digitText type base (magnitude type num)).length) (ch '0') ++
    digitText type base (magnitude type num)

/-- What is left of a field of `size` characters. -/
def numberRest (type : Flags) (num : Int) (base : Nat) (size precision : Int) : Int :=
  size - ((signText type num).length + (baseText type base).length +
    (bodyText type num base precision).length : Nat)

/-- How often `size` is counted down in vain, at most, before it is used for the last time. -/
def idleLoops (type : Flags) : Nat := if type.left then 0 else if type.zeropad then 1 else 2

/-- How many characters fill up a field with `rest` left, after `n` loops that may not be the one
to do it: as an `int` is counted down below its least value, it becomes the greatest. -/
def padding (n : Nat) (rest : Int) : Nat :=
  if rest < -2 ^ 31 + n then 2 ^ 31 - 1 else rest.toNat

/-- The characters put before the sign, before the digits and behind them. -/
def numberPads (type : Flags) (rest : Int) : Nat × Nat × Nat :=
  if type.left then (0, 0, rest.toNat)
  else if type.zeropad then (0, rest.toNat, (toInt (min 0 rest - 1)).toNat)
  else (rest.toNat, (toInt (min 0 rest - 1)).toNat,
    (toInt (min 0 (toInt (min 0 rest - 1)) - 1)).toNat)

/-! ## The loops -/

theorem whileAbove_eq (c : UInt8) (lo w : Int) :
    whileAbove c lo w = (List.replicate (w - lo).toNat c, toInt (min lo w - 1)) := by
  induction hn : (w - lo).toNat generalizing w with
  | zero =>
    have hle : ¬ lo < w := by omega
    rw [whileAbove, if_neg hle, List.replicate_zero, min_eq_right (Int.not_lt.mp hle)]
  | succ n ih =>
    have hlt : lo < w := by omega
    rw [whileAbove, if_pos hlt]
    dsimp only
    rw [ih (w - 1) (by omega), List.replicate_succ, min_eq_left (Int.le_of_lt hlt),
      min_eq_left (by omega)]

/-- The loop gives the digits of the number. -/
theorem doDiv_eq (locase : UInt8) {base : Nat} (hbase : 2 ≤ base) (num : Nat) :
    doDiv locase base num = (Nat.digits base num).map (digitChar locase) := by
  induction num using Nat.strong_induction_on with
  | _ num ih =>
    rw [doDiv]
    by_cases hnum : num = 0
    · rw [if_pos (.inl hnum), hnum, Nat.digits_zero]
      rfl
    · have hlt : num / base < num := Nat.div_lt_self (by omega) hbase
      have hdigits : Nat.digits base num = num % base :: Nat.digits base (num / base) :=
        Nat.digits_def' hbase (Nat.pos_of_ne_zero hnum)
      rw [if_neg (by omega), ih _ hlt, hdigits, List.map_cons]

theorem toInt_sub (i j : Int) : toInt (toInt i - j) = toInt (i - j) := by
  unfold toInt
  rw [Int.bmod_def, Int.bmod_def, Int.bmod_def]
  omega

variable {type : Flags} {num size precision : Int} {base : Nat} {str : List UInt8}

/-- What `takeSign` leaves. -/
theorem takeSign_spec (type : Flags) (size : Int) (hlow : -2 ^ 63 ≤ num) (hhigh : num < 2 ^ 63)
    (str : List UInt8) :
    (if (takeSign type num size).1 ≠ 0 then str ++ [(takeSign type num size).1] else str) =
        str ++ signText type num ∧
      toInt (takeSign type num size).2.2 = toInt (size - (signText type num).length) ∧
      ((takeSign type num size).2.1 = 0 ↔ magnitude type num = 0) ∧
      ((takeSign type num size).2.1 % 2 ^ 64).toNat = magnitude type num := by
  have hone : toInt (toInt (size - 1)) = toInt (size - 1) := by
    simpa using toInt_sub (size - 1) 0
  unfold takeSign signText magnitude
  by_cases hsign : type.sign
  · simp only [hsign, if_true]
    by_cases hneg : num < 0
    · have hmod : (toLong (-num) % 2 ^ 64).toNat = num.natAbs := by
        unfold toLong
        rw [Int.bmod_def]
        omega
      simp only [hneg, if_true]
      refine ⟨rfl, hone, ?_, hmod⟩
      constructor
      · intro hzero
        rw [hzero] at hmod
        omega
      · omega
    · have hmod : (num % 2 ^ 64).toNat = num.natAbs := by omega
      simp only [hneg, if_false]
      by_cases hplus : type.plus
      · simp only [hplus, if_true]
        exact ⟨rfl, hone, Int.natAbs_eq_zero.symm, hmod⟩
      · by_cases hspace : type.space
        · simp only [hplus, hspace, if_true]
          exact ⟨rfl, hone, Int.natAbs_eq_zero.symm, hmod⟩
        · simp only [hplus, hspace]
          exact ⟨by simp, by simp, by simp, hmod⟩
  · simp only [hsign]
    refine ⟨by simp, by simp, ?_, by simp⟩
    simp only [Bool.false_eq_true, if_false]
    omega

/-- Counting down once. -/
theorem toInt_pred {i : Int} (hlow : -2 ^ 31 ≤ i) (hhigh : i ≤ 2 ^ 31) :
    toInt (i - 1) = if i = -2 ^ 31 then 2 ^ 31 - 1 else i - 1 := by
  split
  · rename_i heq
    rw [heq]
    rfl
  · exact toInt_eq (by omega) (by omega)

/-- A loop that is done steps once more. -/
theorem toInt_done {rest : Int} (hlow : -2 ^ 31 ≤ rest) :
    toInt (min 0 rest - 1) = if rest = -2 ^ 31 then 2 ^ 31 - 1 else min 0 rest - 1 := by
  rw [toInt_pred (by omega) (by omega)]
  split <;> split <;> omega

/-- The loops that are not the one to fill up the field write nothing, unless `rest` is so low that
they take it over the lower end. -/
theorem numberPads_sum (type : Flags) {rest : Int} (hlow : -2 ^ 31 ≤ rest) :
    (numberPads type rest).1 + (numberPads type rest).2.1 + (numberPads type rest).2.2 =
      padding (idleLoops type) rest := by
  have hrange := toInt_range (min 0 rest - 1)
  have hdone := toInt_done hlow
  have hdone' := toInt_done hrange.1
  unfold numberPads padding idleLoops
  by_cases hleft : type.left
  · rw [if_pos hleft, if_pos hleft, if_neg (by omega)]
    dsimp only
    omega
  · rw [if_neg hleft, if_neg hleft]
    by_cases hzero : type.zeropad
    · rw [if_pos hzero, if_pos hzero]
      dsimp only
      split at hdone <;> split <;> omega
    · rw [if_neg hzero, if_neg hzero]
      dsimp only
      split at hdone <;> split at hdone' <;> split <;> omega

/-- What `number` writes for a number whose field has `pads` around and inside it. -/
def numberText (type : Flags) (num : Int) (base : Nat) (precision : Int) (pads : Nat × Nat × Nat) :
    List UInt8 :=
  List.replicate pads.1 (ch ' ') ++ signText type num ++ baseText type base ++
    List.replicate pads.2.1 (if type.zeropad then ch '0' else ch ' ') ++
    bodyText type num base precision ++ List.replicate pads.2.2 (ch ' ')

/-- What `writeNumber` writes, and where. -/
theorem writeNumber_eq (str tmp : List UInt8) (sign c locase : UInt8) (base : Nat)
    (size precision : Int) (type : Flags)
    (hleft : type.left → type.zeropad = false) :
    writeNumber str tmp sign c locase base size precision type =
      (if sign ≠ 0 then str ++ List.replicate (numberPads type size).1 (ch ' ') ++ [sign]
        else str ++ List.replicate (numberPads type size).1 (ch ' ')) ++
      (if type.special then
        if base = 8 then [ch '0'] else if base = 16 then [ch '0', ch 'X' ||| locase] else []
       else []) ++
      List.replicate (numberPads type size).2.1 c ++
      List.replicate (precision - tmp.length).toNat (ch '0') ++ tmp.reverse ++
      List.replicate (numberPads type size).2.2 (ch ' ') := by
  have hmark : ∀ str : List UInt8, (if type.special then
      if base = 8 then str ++ [ch '0']
      else if base = 16 then str ++ [ch '0', ch 'X' ||| locase]
      else str
    else str) = str ++ (if type.special then
        if base = 8 then [ch '0'] else if base = 16 then [ch '0', ch 'X' ||| locase] else []
       else []) := by
    intro str
    split_ifs <;> simp
  unfold writeNumber numberPads
  simp only [whileAbove_eq, hmark]
  by_cases hl : type.left
  · have hz := hleft hl
    simp [hl, hz]
  · by_cases hz : type.zeropad
    · simp [hl, hz]
    · simp [hl, hz]

/-- The digits in `tmp`, the last one first. -/
theorem tmp_eq (hlow : -2 ^ 63 ≤ num) (hhigh : num < 2 ^ 63) (hbase : 2 ≤ base)
    (size : Int) : (if (takeSign type num size).2.1 = 0 then [ch '0']
      else doDiv (if type.small then 32 else 0) base ((takeSign type num size).2.1 % 2 ^ 64).toNat) =
    (digitText type base (magnitude type num)).reverse := by
  obtain ⟨-, -, hzero, hmag⟩ := takeSign_spec type size hlow hhigh []
  unfold digitText
  by_cases h : (takeSign type num size).2.1 = 0
  · rw [if_pos h, if_pos (hzero.mp h)]
    rfl
  · rw [if_neg h, if_neg fun h' => h (hzero.mpr h'), hmag, doDiv_eq _ hbase, List.reverse_reverse]

/-- What is left of the field, counted down with overflows or without. -/
theorem toInt_numberRest (hlow : -2 ^ 63 ≤ num) (hhigh : num < 2 ^ 63) (type : Flags) (base : Nat)
    (size precision : Int) :
    toInt ((if type.special then
          if base = 16 then toInt ((takeSign type num size).2.2 - 2)
          else if base = 8 then toInt ((takeSign type num size).2.2 - 1)
          else (takeSign type num size).2.2
        else (takeSign type num size).2.2) - (bodyText type num base precision).length) =
      toInt (numberRest type num base size precision) := by
  obtain ⟨-, hsize, -, -⟩ := takeSign_spec type size hlow hhigh []
  have hsub : ∀ n : Int, toInt ((takeSign type num size).2.2 - n) =
      toInt (size - (signText type num).length - n) := by
    intro n
    rw [← toInt_sub, hsize, toInt_sub]
  unfold numberRest baseText
  by_cases hspecial : type.special
  · rw [if_pos hspecial, if_pos hspecial]
    by_cases h16 : base = 16
    · rw [if_pos h16, if_neg (by omega), if_pos h16, toInt_sub, Int.sub_sub, hsub]
      congr 1
      simp only [List.length_cons, List.length_nil]
      omega
    · rw [if_neg h16]
      by_cases h8 : base = 8
      · rw [if_pos h8, if_pos h8, toInt_sub, Int.sub_sub, hsub]
        congr 1
        simp only [List.length_cons, List.length_nil]
        omega
      · rw [if_neg h8, if_neg h8, if_neg h16, hsub]
        congr 1
        simp only [List.length_nil]
        omega
  · rw [if_neg hspecial, if_neg hspecial, hsub]
    congr 1
    simp only [List.length_nil]
    omega

/-- `number` when the flags do not ask for both zeros and the left. -/
theorem number_of_left (str : List UInt8) (hlow : -2 ^ 63 ≤ num) (hhigh : num < 2 ^ 63)
    (hbase : 2 ≤ base) (hbase' : base ≤ 16) (size precision : Int) {type : Flags}
    (hleft : type.left → type.zeropad = false) :
    number str num base size precision type = some (str ++ numberText type num base precision
      (numberPads type (toInt (numberRest type num base size precision)))) := by
  have hb : ¬ (base < 2 ∨ 16 < base) := by omega
  have htype : (if type.left then { type with zeropad := false } else type) = type := by
    by_cases hl : type.left
    · rw [if_pos hl, ← hleft hl]
    · rw [if_neg hl]
  -- the precision is at least the number of digits
  have hprec : (if precision < (digitText type base (magnitude type num)).length
      then ((digitText type base (magnitude type num)).length : Int) else precision) =
      (bodyText type num base precision).length := by
    rw [bodyText, List.length_append, List.length_replicate]
    split <;> omega
  have hzeros : (((bodyText type num base precision).length : Int) -
      (digitText type base (magnitude type num)).length).toNat =
      precision.toNat - (digitText type base (magnitude type num)).length := by
    rw [bodyText, List.length_append, List.length_replicate]
    omega
  dsimp only [number]
  rw [if_neg hb, htype, tmp_eq hlow hhigh hbase, writeNumber_eq _ _ _ _ _ _ _ _ _ hleft,
    List.length_reverse, hprec, toInt_numberRest hlow hhigh, List.reverse_reverse, hzeros,
    (takeSign_spec type size hlow hhigh _).1]
  simp only [numberText, bodyText, baseText, List.append_assoc]

/-- **What `number` writes.** -/
theorem number_eq (str : List UInt8) (hlow : -2 ^ 63 ≤ num) (hhigh : num < 2 ^ 63)
    (hbase : 2 ≤ base) (hbase' : base ≤ 16) (size precision : Int) (type : Flags) :
    number str num base size precision type = some (str ++ numberText type num base precision
      (numberPads type (toInt (numberRest type num base size precision)))) := by
  by_cases hl : type.left
  · have heq : number str num base size precision type =
        number str num base size precision { type with zeropad := false } := by
      simp only [number, hl, if_true]
    rw [heq, number_of_left str hlow hhigh hbase hbase' size precision (fun _ => rfl)]
    simp only [numberPads, hl, if_true, numberText, List.replicate_zero]
    rfl
  · exact number_of_left str hlow hhigh hbase hbase' size precision fun h => absurd h hl

/-- How long the number is without a field. -/
def naturalLength (type : Flags) (num : Int) (base : Nat) (precision : Int) : Nat :=
  (signText type num).length + (baseText type base).length +
    (bodyText type num base precision).length

/-- **How much `number` writes.** -/
theorem length_numberText (type : Flags) (num : Int) (base : Nat) (size precision : Int) :
    (numberText type num base precision
      (numberPads type (toInt (numberRest type num base size precision)))).length =
      naturalLength type num base precision +
        padding (idleLoops type) (toInt (numberRest type num base size precision)) := by
  rw [← numberPads_sum type (toInt_range _).1, naturalLength, numberText]
  simp only [List.length_append, List.length_replicate]
  omega

/-- With room for the loops that do nothing, one of them fills up the field. -/
theorem numberPads_fit {rest : Int} (hfit : -2 ^ 31 + idleLoops type ≤ rest) :
    numberPads type rest = if type.left then (0, 0, rest.toNat)
      else if type.zeropad then (0, rest.toNat, 0)
      else (rest.toNat, 0, 0) := by
  have hdone : ∀ i : Int, -2 ^ 31 < i → toInt (min 0 i - 1) = min 0 i - 1 := by
    intro i hi
    exact toInt_eq (by omega) (by omega)
  have hnone : ∀ i : Int, (min 0 i - 1).toNat = 0 := fun i => Int.toNat_of_nonpos (by omega)
  unfold idleLoops at hfit
  unfold numberPads
  by_cases hl : type.left
  · rw [if_pos hl, if_pos hl]
  · rw [if_neg hl] at hfit ⊢
    rw [if_neg hl]
    by_cases hz : type.zeropad
    · rw [if_pos hz] at hfit ⊢
      rw [if_pos hz, hdone rest (by omega), hnone]
    · rw [if_neg hz] at hfit ⊢
      rw [if_neg hz, hdone rest (by omega), hdone _ (by omega), hnone, hnone]

end IonOS.Libs
