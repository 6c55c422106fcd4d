import IonOS.Libs.Fields

/-!
# How much `vsprintf` writes

The length of what each piece of a format writes, with every overflow that an `int`
may take. Nothing bounds their sum.
-/

namespace IonOS.Libs

open IonOS.Lib

/-- How many characters fill up the field of a string of length `len`. Without the left, the first
loop may take the width over the lower end. -/
def stringPadding (left : Bool) (w len : Int) : Nat :=
  (w - len).toNat + if left = false ∧ min len w = -2 ^ 31 then (2 ^ 31 - 1 - len).toNat else 0

/-- How long a number is with its field. -/
def numberExtent (flags : Flags) (num : Int) (base : Nat) (size precision : Int) : Nat :=
  naturalLength flags num base precision +
    padding (idleLoops flags) (toInt (numberRest flags num base size precision))

/-- How much a string conversion writes when `strnlen` counts `n` bytes. -/
def stringExtent (left : Bool) (w : Int) (n : Nat) : Nat :=
  (int32 n).toNat + stringPadding left w (int32 n)

/-- How much a conversion writes. -/
def Conversion.extent (m : Mem) (x : Conversion) : Nat :=
  match x.conv with
  | none => 1
  | some c =>
      if c = ch 'c' then 1 + padding (if x.flags.left then 0 else 1) (x.fieldWidth - 1)
      else if c = ch 's' then
        stringExtent x.flags.left x.fieldWidth (strnlen m x.arg (sizeT x.prec))
      else if c = ch 'p' then
        if x.fieldWidth = -1 then
          numberExtent { x.flags with zeropad := true } (toLong x.arg) 16 16 x.prec
        else numberExtent x.flags (toLong x.arg) 16 x.fieldWidth x.prec
      else if c = ch 'n' then 0
      else if c = ch '%' then 1
      else
        match integerFormat x.flags c with
        | some (base, flags) =>
            numberExtent flags (integerArg flags x.qualifier x.arg) base x.fieldWidth x.prec
        | none => 2

def Piece.extent (m : Mem) : Piece → Nat
  | .char _ => 1
  | .conv x => x.extent m

variable {m : Mem} {x : Conversion}

theorem fieldWidth_range (x : Conversion) : -2 ^ 31 ≤ x.fieldWidth ∧ x.fieldWidth < 2 ^ 31 := by
  unfold Conversion.fieldWidth
  cases x.width with
  | none => decide
  | some w => exact toInt_range w

theorem length_charText {w : Int} (hlow : -2 ^ 31 ≤ w) (hhigh : w < 2 ^ 31) (left : Bool)
    (a : Nat) :
    (charText left w a).length = 1 + padding (if left then 0 else 1) (w - 1) := by
  have hpred := toInt_pred hlow (Int.le_of_lt hhigh)
  unfold charText padding
  rw [List.length_append, List.length_append, List.length_replicate, List.length_replicate,
    List.length_singleton]
  cases left with
  | true =>
    simp only [if_true]
    rw [hpred]
    split <;> split <;> omega
  | false =>
    have hdone := toInt_done (toInt_range (w - 1)).1
    simp only [Bool.false_eq_true, if_false]
    rw [hdone, hpred]
    split <;> split <;> split <;> omega

theorem length_stringText {w len : Int} (hlow : -2 ^ 31 ≤ w) (hhigh : w < 2 ^ 31)
    (hlow' : -2 ^ 31 ≤ len) (left : Bool) (t : List UInt8) :
    (stringText left w len t).length = t.length + stringPadding left w len := by
  unfold stringText stringPadding
  rw [List.length_append, List.length_append, List.length_replicate, List.length_replicate]
  cases left with
  | true =>
    simp only [if_true, Bool.true_eq_false, false_and, if_false]
    omega
  | false =>
    have hpred := toInt_pred (i := min len w) (by omega) (by omega)
    simp only [Bool.false_eq_true, if_false, true_and]
    rw [hpred]
    split <;> omega

theorem length_numberField (flags : Flags) (num : Int) (base : Nat) (size precision : Int) :
    (numberField flags num base size precision).length =
      numberExtent flags num base size precision :=
  length_numberText flags num base size precision

/-- **How much a conversion writes.** -/
theorem length_written (m : Mem) (x : Conversion) : (x.written m).length = x.extent m := by
  have hw := fieldWidth_range x
  unfold Conversion.written Conversion.text convText Conversion.extent
  cases x.conv with
  | none => rfl
  | some c =>
    dsimp only
    by_cases h1 : c = ch 'c'
    · rw [if_pos h1, if_pos h1, Option.getD_some, length_charText hw.1 hw.2]
    · by_cases h2 : c = ch 's'
      · have hlen := int32_range (strnlen m x.arg (sizeT x.prec))
        rw [if_neg h1, if_neg h1, if_pos h2, if_pos h2, strnlenAt_readAll, Option.bind_some,
          readBytes_readAll, Option.map_some, Option.getD_some,
          length_stringText hw.1 hw.2 hlen.1, length_bytes, stringExtent]
      · by_cases h3 : c = ch 'p'
        · rw [if_neg h1, if_neg h1, if_neg h2, if_neg h2, if_pos h3, if_pos h3]
          split
          · rw [Option.getD_some, length_numberField]
          · rw [Option.getD_some, length_numberField]
        · rw [if_neg h1, if_neg h1, if_neg h2, if_neg h2, if_neg h3, if_neg h3]
          by_cases h4 : c = ch 'n'
          · rw [if_pos h4, if_pos h4]
            rfl
          · by_cases h5 : c = ch '%'
            · rw [if_neg h4, if_neg h4, if_pos h5, if_pos h5]
              rfl
            · rw [if_neg h4, if_neg h4, if_neg h5, if_neg h5]
              cases integerFormat x.flags c with
              | none => rfl
              | some y => exact length_numberField ..

/-- **How much a format writes.** -/
theorem length_pieces (m : Mem) (ps : List Piece) :
    (ps.flatMap (Piece.written m)).length = (ps.map (Piece.extent m)).sum := by
  induction ps with
  | nil => rfl
  | cons p ps ih =>
    have hp : (p.written m).length = p.extent m := by
      cases p with
      | char c => rfl
      | conv x => exact length_written m x
    rw [List.flatMap_cons, List.length_append, List.map_cons, List.sum_cons, ih, hp]

end IonOS.Libs
