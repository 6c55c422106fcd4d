import IonOS.Libs.Vsprintf

/-!
# What a format string says

A format is cut into items, characters and directives, with the longest run of flags
and of digits each time, and a directive becomes a conversion when the words that its
stars and its character take are known. `vsprintf` does what the items say, one after
the other, and goes by nothing else.
-/

namespace IonOS.Libs

open IonOS.Lib

/-! ## Items -/

/-- How a width or what follows the dot is given. -/
inductive Amount where
  | absent
  | digits (ds : List UInt8)
  | star
deriving DecidableEq, Repr

/-- What follows a `%`. -/
structure Directive where
  flags : List UInt8
  width : Amount
  /-- `none` without a dot. -/
  precision : Option Amount
  qualifier : Option UInt8
  /-- `none` at the end of the string. -/
  conv : Option UInt8
deriving DecidableEq, Repr

inductive Item where
  | char (c : UInt8)
  | directive (d : Directive)
deriving DecidableEq, Repr

/-- How it is written. -/
def Amount.text : Amount → List UInt8
  | .absent => []
  | .digits ds => ds
  | .star => [ch '*']

def Directive.text (d : Directive) : List UInt8 :=
  d.flags ++ d.width.text ++ (match d.precision with
    | none => []
    | some a => ch '.' :: a.text) ++ d.qualifier.toList ++ d.conv.toList

def Item.text : Item → List UInt8
  | .char c => [c]
  | .directive d => ch '%' :: d.text

def isFlag (c : UInt8) : Bool :=
  c == ch '-' || c == ch '+' || c == ch ' ' || c == ch '#' || c == ch '0'

/-- The amount that comes first, and the rest. -/
def Amount.cut : List UInt8 → Amount × List UInt8
  | [] => (.absent, [])
  | c :: cs =>
      if isdigit c then (.digits ((c :: cs).takeWhile isdigit), (c :: cs).dropWhile isdigit)
      else if c = ch '*' then (.star, cs)
      else (.absent, c :: cs)

def cutPrecision : List UInt8 → Option Amount × List UInt8
  | [] => (none, [])
  | c :: cs =>
      if c = ch '.' then (some (Amount.cut cs).1, (Amount.cut cs).2) else (none, c :: cs)

def cutQualifier : List UInt8 → Option UInt8 × List UInt8
  | [] => (none, [])
  | c :: cs =>
      if c = ch 'h' ∨ c = ch 'l' ∨ c = ch 'L' then (some c, cs) else (none, c :: cs)

/-- The directive that comes first, without its `%`, and the rest. -/
def Directive.cut (cs : List UInt8) : Directive × List UInt8 :=
  let width := Amount.cut (cs.dropWhile isFlag)
  let precision := cutPrecision width.2
  let qualifier := cutQualifier precision.2
  (⟨cs.takeWhile isFlag, width.1, precision.1, qualifier.1, qualifier.2.head?⟩, qualifier.2.tail)

/-! ### Nothing is lost -/

theorem Amount.cut_text (cs : List UInt8) : (cut cs).1.text ++ (cut cs).2 = cs := by
  cases cs with
  | nil => rfl
  | cons c cs =>
    rw [cut]
    split
    · exact List.takeWhile_append_dropWhile
    · split
      · rename_i hstar
        rw [hstar]
        rfl
      · rfl

theorem cutPrecision_text (cs : List UInt8) :
    (match (cutPrecision cs).1 with
      | none => []
      | some a => ch '.' :: a.text) ++ (cutPrecision cs).2 = cs := by
  cases cs with
  | nil => rfl
  | cons c cs =>
    rw [cutPrecision]
    by_cases hdot : c = ch '.'
    · rw [if_pos hdot, hdot]
      exact congrArg (ch '.' :: ·) (Amount.cut_text cs)
    · rw [if_neg hdot]
      rfl

theorem cutQualifier_text (cs : List UInt8) :
    (cutQualifier cs).1.toList ++ (cutQualifier cs).2 = cs := by
  cases cs with
  | nil => rfl
  | cons c cs =>
    rw [cutQualifier]
    split <;> rfl

/-- A directive and the rest are what was there. -/
theorem Directive.cut_text (cs : List UInt8) : (cut cs).1.text ++ (cut cs).2 = cs := by
  unfold cut text
  dsimp only
  have hconv : ∀ l : List UInt8, l.head?.toList ++ l.tail = l := by
    intro l
    cases l <;> rfl
  simp only [List.append_assoc]
  rw [hconv, cutQualifier_text, cutPrecision_text, Amount.cut_text,
    List.takeWhile_append_dropWhile]

theorem Directive.length_cut (cs : List UInt8) : (cut cs).2.length ≤ cs.length := by
  have h := congrArg List.length (cut_text cs)
  rw [List.length_append] at h
  omega

/-- The items of a format. -/
def items : List UInt8 → List Item
  | [] => []
  | c :: cs =>
      if c = ch '%' then .directive (Directive.cut cs).1 :: items (Directive.cut cs).2
      else .char c :: items cs
termination_by cs => cs.length
decreasing_by
  · exact Nat.lt_succ_of_le (Directive.length_cut cs)
  · exact Nat.lt_succ_self _

/-- **The items are the whole format**, in order. -/
theorem items_text (cs : List UInt8) : (items cs).flatMap Item.text = cs := by
  induction cs using items.induct with
  | case1 =>
    rw [items]
    rfl
  | case2 cs ih =>
    rw [items, if_pos rfl, List.flatMap_cons, ih, Item.text, List.cons_append,
      Directive.cut_text]
  | case3 c cs hc ih =>
    rw [items, if_neg hc, List.flatMap_cons, ih]
    rfl

/-! ## Conversions -/

/-- A directive with the words it takes. -/
structure Conversion where
  flags : Flags
  width : Option Nat
  precision : Option Nat
  qualifier : Option UInt8
  conv : Option UInt8
  arg : Nat
deriving DecidableEq, Repr

/-- The flags that are among the characters. -/
def flagsOf (l : List UInt8) : Flags :=
  { zeropad := l.contains (ch '0'), sign := false, plus := l.contains (ch '+')
    space := l.contains (ch ' '), left := l.contains (ch '-'), small := false
    special := l.contains (ch '#') }

/-- The number that the digits are. -/
def digitsValue (ds : List UInt8) : Nat := ds.foldl (fun n c => n * 10 + (c.toNat - 48)) 0

def Amount.resolve (args : List Nat) : Amount → Option (Option Int × List Nat)
  | .absent => some (none, args)
  | .digits ds => some (some (digitsValue ds), args)
  | .star => (vaArg args).map fun (a, args) => (some (int32 a), args)

/-- Whether the format's character takes a word. -/
def takesArg (flags : Flags) : Option UInt8 → Bool
  | none => false
  | some c => c == ch 'c' || c == ch 's' || c == ch 'p' || c == ch 'n' ||
      (c != ch '%' && (integerFormat flags c).isSome)

/-- The conversion, and the words that are left. A negative width asks for the left; a negative
precision, or a dot alone, is a precision of 0. -/
def Directive.resolve (d : Directive) (args : List Nat) : Option (Conversion × List Nat) :=
  (d.width.resolve args).bind fun (w, args) =>
  ((d.precision.getD .absent).resolve args).bind fun (p, args) =>
    let flags := flagsOf d.flags
    let flags := if w.any (· < 0) then { flags with left := true } else flags
    let precision := d.precision.map fun _ => (p.getD 0).toNat
    (if takesArg flags d.conv then vaArg args else some (0, args)).map fun (a, args) =>
      (⟨flags, w.map Int.natAbs, precision, d.qualifier, d.conv, a⟩, args)

/-- The width as the `int` it is kept in. -/
def Conversion.fieldWidth (x : Conversion) : Int :=
  match x.width with
  | none => -1
  | some w => toInt w

/-- The precision as the `int` it is kept in. -/
def Conversion.prec (x : Conversion) : Int :=
  match x.precision with
  | none => -1
  | some p => max 0 (toInt p)

/-- What `case 'c'` writes. -/
def charText (left : Bool) (w : Int) (a : Nat) : List UInt8 :=
  List.replicate (if left then 0 else (toInt (w - 1)).toNat) (ch ' ') ++ [UInt8.ofNat a] ++
    List.replicate (toInt ((if left then w else min 0 (toInt (w - 1))) - 1)).toNat (ch ' ')

/-- What `case 's'` writes, for a length `len` and the bytes `t`. -/
def stringText (left : Bool) (w len : Int) (t : List UInt8) : List UInt8 :=
  List.replicate (if left then 0 else (w - len).toNat) (ch ' ') ++ t ++
    List.replicate ((if left then w else toInt (min len w - 1)) - len).toNat (ch ' ')

/-- What `number` writes. -/
def numberField (flags : Flags) (num : Int) (base : Nat) (size precision : Int) : List UInt8 :=
  numberText flags num base precision
    (numberPads flags (toInt (numberRest flags num base size precision)))

/-- What a conversion with the word `a` writes. -/
def convText (r : Readable) (flags : Flags) (w p : Int) (qualifier conv : Option UInt8) (a : Nat) :
    Option (List UInt8) :=
  match conv with
  | none => some [ch '%']
  | some c =>
      if c = ch 'c' then some (charText flags.left w a)
      else if c = ch 's' then
        (strnlenAt r a (sizeT p)).bind fun n =>
        (readBytes r a (int32 n).toNat).map fun t => stringText flags.left w (int32 n) t
      else if c = ch 'p' then
        if w = -1 then some (numberField { flags with zeropad := true } (toLong a) 16 16 p)
        else some (numberField flags (toLong a) 16 w p)
      else if c = ch 'n' then some []
      else if c = ch '%' then some [ch '%']
      else
        match integerFormat flags c with
        | some (base, flags) => some (numberField flags (integerArg flags qualifier a) base w p)
        | none => some [ch '%', c]

/-- What a conversion stores, behind `n` characters. -/
def convStores (qualifier conv : Option UInt8) (a n : Nat) : List Stored :=
  if conv = some (ch 'n') then
    if qualifier = some (ch 'l') then [⟨a, 8, toLong n⟩] else [⟨a, 4, toInt n⟩]
  else []

def Conversion.text (r : Readable) (x : Conversion) : Option (List UInt8) :=
  convText r x.flags x.fieldWidth x.prec x.qualifier x.conv x.arg

def Conversion.stores (x : Conversion) (n : Nat) : List Stored :=
  convStores x.qualifier x.conv x.arg n

/-- What the items say, one after the other. -/
def render (r : Readable) : List Item → Printed → Option Printed
  | [], st => some st
  | .char c :: is, st => render r is { st with str := st.str ++ [c] }
  | .directive d :: is, st =>
      (d.resolve st.args).bind fun (x, args) =>
      (x.text r).bind fun t =>
        render r is ⟨st.str ++ t, args, st.stored ++ x.stores st.str.length⟩

/-! ## The scan -/

/-- More flags. -/
def Flags.add (f : Flags) (l : List UInt8) : Flags :=
  { f with
    zeropad := f.zeropad || l.contains (ch '0')
    plus := f.plus || l.contains (ch '+')
    space := f.space || l.contains (ch ' ')
    left := f.left || l.contains (ch '-')
    special := f.special || l.contains (ch '#') }

theorem scanFlags_eq (f : Flags) (cs : List UInt8) :
    scanFlags f (cs ++ [0]) = some (f.add (cs.takeWhile isFlag), cs.dropWhile isFlag ++ [0]) := by
  induction cs generalizing f with
  | nil =>
    rw [List.nil_append, scanFlags]
    simp [ch, Flags.add]
  | cons c cs ih =>
    rw [List.cons_append, scanFlags]
    by_cases h1 : c = ch '-'
    · rw [if_pos h1, ih, h1]
      simp [isFlag, Flags.add, ch]
    · by_cases h2 : c = ch '+'
      · rw [if_neg h1, if_pos h2, ih, h2]
        simp [isFlag, Flags.add, ch]
      · by_cases h3 : c = ch ' '
        · rw [if_neg h1, if_neg h2, if_pos h3, ih, h3]
          simp [isFlag, Flags.add, ch]
        · by_cases h4 : c = ch '#'
          · rw [if_neg h1, if_neg h2, if_neg h3, if_pos h4, ih, h4]
            simp [isFlag, Flags.add, ch]
          · by_cases h5 : c = ch '0'
            · rw [if_neg h1, if_neg h2, if_neg h3, if_neg h4, if_pos h5, ih, h5]
              simp [isFlag, Flags.add, ch]
            · rw [if_neg h1, if_neg h2, if_neg h3, if_neg h4, if_neg h5]
              simp [isFlag, h1, h2, h3, h4, h5, Flags.add]

theorem isdigit_le {c : UInt8} (h : isdigit c = true) : 48 ≤ c.toNat ∧ c.toNat ≤ 57 := by
  unfold isdigit at h
  rw [Bool.and_eq_true, decide_eq_true_eq, decide_eq_true_eq] at h
  exact ⟨UInt8.le_iff_toNat_le.mp h.1, UInt8.le_iff_toNat_le.mp h.2⟩

theorem toInt_digit (n c : Nat) (hc : 48 ≤ c) :
    toInt (toInt n * 10 + c - 48) = toInt (n * 10 + (c - 48) : Nat) := by
  unfold toInt
  rw [Int.bmod_def, Int.bmod_def, Int.bmod_def]
  omega

/-- `skip_atoi` takes the digits, and what it makes of them is their value as an `int`. -/
theorem skipAtoi_eq (n : Nat) (cs : List UInt8) :
    skipAtoi (toInt n) (cs ++ [0]) =
      some (toInt ((cs.takeWhile isdigit).foldl (fun n c => n * 10 + (c.toNat - 48)) n : Nat),
        cs.dropWhile isdigit ++ [0]) := by
  induction cs generalizing n with
  | nil => rfl
  | cons c cs ih =>
    rw [List.cons_append, skipAtoi]
    by_cases hc : isdigit c = true
    · rw [if_pos hc, show ((ch '0').toNat : Int) = 48 from rfl, toInt_digit n _ (isdigit_le hc).1, ih,
        List.takeWhile_cons_of_pos hc, List.dropWhile_cons_of_pos hc, List.foldl_cons]
    · rw [if_neg hc, List.takeWhile_cons_of_neg hc, List.dropWhile_cons_of_neg hc]
      rfl

theorem skipAtoi_zero (cs : List UInt8) :
    skipAtoi 0 (cs ++ [0]) =
      some (toInt (digitsValue (cs.takeWhile isdigit)), cs.dropWhile isdigit ++ [0]) :=
  skipAtoi_eq 0 cs

/-- An amount as the `int` it is kept in. -/
def amountInt (w : Option Int) : Int :=
  match w with
  | none => -1
  | some i => toInt i.natAbs

theorem int32_range (a : Nat) : -2 ^ 31 ≤ int32 a ∧ int32 a < 2 ^ 31 := toInt_range a

theorem resolve_star (a : Nat) (args : List Nat) :
    Amount.star.resolve (a :: args) = some (some (int32 a), args) := by
  rw [Amount.resolve, vaArg, Option.map_some]

/-- A negative width. -/
theorem amountInt_some {α : Type} (f : Flags) {i : Int} (h : -2 ^ 31 ≤ i) (h' : i < 2 ^ 31)
    (x : α) :
    (if i < 0 then (toInt (-i), { f with left := true }, x) else (i, f, x)) =
      (amountInt (some i), if (some i).any (· < 0) then { f with left := true } else f, x) := by
  simp only [Option.any_some, amountInt]
  by_cases hneg : i < 0
  · simp only [hneg, decide_true, if_true]
    rw [Int.ofNat_natAbs_of_nonpos (Int.le_of_lt hneg)]
  · simp only [hneg, decide_false, Bool.false_eq_true, if_false]
    rw [Int.natAbs_of_nonneg (Int.not_lt.mp hneg), toInt_eq h h']

theorem scanWidth_eq (f : Flags) (args : List Nat) (cs : List UInt8) :
    scanWidth f args (cs ++ [0]) = ((Amount.cut cs).1.resolve args).map fun x =>
      (amountInt x.1, if x.1.any (· < 0) then { f with left := true } else f, x.2,
        (Amount.cut cs).2 ++ [0]) := by
  cases cs with
  | nil => rfl
  | cons c cs =>
    rw [List.cons_append, scanWidth, Amount.cut]
    by_cases hd : isdigit c = true
    · have hpos : ¬ ((digitsValue ((c :: cs).takeWhile isdigit) : Nat) : Int) < 0 :=
        Int.not_lt.mpr (Int.natCast_nonneg _)
      rw [if_pos hd, if_pos hd, ← List.cons_append, skipAtoi_zero]
      simp only [Amount.resolve, Option.map_some, amountInt, Option.any_some, hpos, decide_false,
        Bool.false_eq_true, if_false, Int.natAbs_natCast]
    · rw [if_neg hd, if_neg hd]
      by_cases hs : c = ch '*'
      · rw [if_pos hs, if_pos hs]
        cases args with
        | nil => rfl
        | cons a args =>
          have hrange := int32_range a
          rw [vaArg, Option.map_some, resolve_star, Option.map_some]
          exact congrArg some (amountInt_some f hrange.1 hrange.2 (args, cs ++ [0]))
      · rw [if_neg hs, if_neg hs]
        simp only [Amount.resolve, Option.map_some, amountInt, Option.any_none, Bool.false_eq_true,
          if_false, List.cons_append]

/-- The precision as the `int` it is kept in. -/
def precisionInt (given : Option Amount) (p : Option Int) : Int :=
  match given with
  | none => -1
  | some _ => max 0 (toInt (p.getD 0).toNat)

theorem ite_neg (i : Int) : (if i < 0 then 0 else i) = max 0 i := by
  split <;> omega

/-- A negative precision. -/
theorem precisionInt_some (g : Amount) {i : Int} (h' : i < 2 ^ 31) :
    (if i < 0 then 0 else i) = precisionInt (some g) (some i) := by
  have hself : toInt i.toNat = i.toNat := toInt_eq (by omega) (by omega)
  rw [ite_neg]
  simp only [precisionInt, Option.getD_some]
  rw [hself]
  omega

/-- A dot alone. -/
theorem precisionInt_none (g : Amount) : precisionInt (some g) none = 0 := by
  have hzero : max (0 : Int) (toInt (0 : Nat)) = 0 := by decide
  rw [precisionInt, Option.getD_none, Int.toNat_zero, hzero]

theorem scanPrecision_eq (args : List Nat) (cs : List UInt8) :
    scanPrecision args (cs ++ [0]) =
      (((cutPrecision cs).1.getD .absent).resolve args).map fun x =>
        (precisionInt (cutPrecision cs).1 x.1, x.2, (cutPrecision cs).2 ++ [0]) := by
  have hnone : (if (-1 : Int) < 0 then (0 : Int) else -1) = 0 := if_pos (by decide)
  cases cs with
  | nil => rfl
  | cons c cs =>
    rw [List.cons_append, scanPrecision, cutPrecision]
    by_cases hdot : c = ch '.'
    · rw [if_pos hdot, if_pos hdot]
      dsimp only
      rw [Option.getD_some]
      cases cs with
      | nil =>
        rw [List.nil_append, scanAfterDot, if_neg (by decide), if_neg (by decide), Amount.cut,
          Option.map_some, Amount.resolve, Option.map_some, precisionInt_none, hnone, List.nil_append]
      | cons d cs =>
        rw [List.cons_append, scanAfterDot, Amount.cut]
        by_cases hd : isdigit d = true
        · rw [if_pos hd, if_pos hd, ← List.cons_append, skipAtoi_zero]
          simp only [Amount.resolve, Option.map_some, precisionInt, Option.getD_some,
            Int.toNat_natCast, ite_neg]
        · rw [if_neg hd, if_neg hd]
          by_cases hs : d = ch '*'
          · rw [if_pos hs, if_pos hs]
            cases args with
            | nil => rfl
            | cons a args =>
              have hp := precisionInt_some .star (int32_range a).2
              rw [vaArg, Option.map_some, Option.map_some, resolve_star, Option.map_some]
              dsimp only
              rw [hp]
          · rw [if_neg hs, if_neg hs, Option.map_some, Amount.resolve, Option.map_some,
              precisionInt_none, hnone, List.cons_append]
    · rw [if_neg hdot, if_neg hdot]
      rfl

theorem scanQualifier_eq (cs : List UInt8) :
    scanQualifier (cs ++ [0]) = some ((cutQualifier cs).1, (cutQualifier cs).2 ++ [0]) := by
  cases cs with
  | nil => rfl
  | cons c cs =>
    rw [List.cons_append, scanQualifier, cutQualifier]
    split <;> rfl

/-! ## The conversions -/

theorem countDown_eq (c : UInt8) (w : Int) :
    countDown c w = (List.replicate w.toNat c, min 0 w) := by
  induction hn : w.toNat generalizing w with
  | zero =>
    have hle : ¬ 0 < w := by omega
    rw [countDown, if_neg hle, List.replicate_zero, min_eq_right (Int.not_lt.mp hle)]
  | succ n ih =>
    have hlt : 0 < w := by omega
    rw [countDown, if_pos hlt]
    dsimp only
    rw [ih (w - 1) (by omega), List.replicate_succ, min_eq_left (Int.le_of_lt hlt),
      min_eq_left (by omega)]

theorem convertChar_eq (flags : Flags) (w : Int) (st : Printed) :
    convertChar flags w st = (vaArg st.args).map fun x =>
      { st with str := st.str ++ charText flags.left w x.1, args := x.2 } := by
  unfold convertChar charText whileBefore
  by_cases hl : flags.left
  · simp [hl, countDown_eq]
  · simp [hl, countDown_eq]

theorem convertString_eq (r : Readable) (flags : Flags) (w p : Int) (st : Printed) :
    convertString r flags w p st = (vaArg st.args).bind fun x =>
      (strnlenAt r x.1 (sizeT p)).bind fun n => (readBytes r x.1 (int32 n).toNat).map fun t =>
        { st with str := st.str ++ stringText flags.left w (int32 n) t, args := x.2 } := by
  unfold convertString stringText
  by_cases hl : flags.left
  · simp [hl, whileAbove_eq]
  · simp [hl, whileAbove_eq]

theorem toLong_range (i : Int) : -2 ^ 63 ≤ toLong i ∧ toLong i < 2 ^ 63 := by
  unfold toLong
  rw [Int.bmod_def]
  omega

theorem convertPointer_eq (flags : Flags) (w p : Int) (st : Printed) :
    convertPointer flags w p st = (vaArg st.args).map fun x =>
      { st with
        str := st.str ++
          (if w = -1 then numberField { flags with zeropad := true } (toLong x.1) 16 16 p
            else numberField flags (toLong x.1) 16 w p)
        args := x.2 } := by
  have hnumber : ∀ (a : Nat) (w : Int) (f : Flags), number st.str (toLong a) 16 w p f =
      some (st.str ++ numberField f (toLong a) 16 w p) := fun a w f =>
    number_eq st.str (toLong_range a).1 (toLong_range a).2 (by decide) (by decide) w p f
  unfold convertPointer
  cases st.args with
  | nil => rfl
  | cons a args =>
    by_cases hw : w = -1
    · simp only [hw, if_true, vaArg, Option.bind_some, hnumber, Option.map_some]
    · simp only [hw, if_false, vaArg, Option.bind_some, hnumber, Option.map_some]

theorem integerFormat_base {flags flags' : Flags} {c : UInt8} {base : Nat}
    (h : integerFormat flags c = some (base, flags')) : 2 ≤ base ∧ base ≤ 16 := by
  unfold integerFormat at h
  split_ifs at h <;> obtain ⟨rfl, -⟩ := Prod.mk.inj (Option.some.inj h) <;> decide

theorem integerArg_range (flags : Flags) (qualifier : Option UInt8) (a : Nat) :
    -2 ^ 63 ≤ integerArg flags qualifier a ∧ integerArg flags qualifier a < 2 ^ 63 := by
  have hint := int32_range a
  unfold integerArg
  split_ifs
  · exact toLong_range a
  · rw [Int.bmod_def]
    omega
  · omega
  · omega
  · omega

theorem convertInteger_eq {base : Nat} (hlow : 2 ≤ base) (hhigh : base ≤ 16) (flags : Flags)
    (w p : Int) (qualifier : Option UInt8) (st : Printed) :
    convertInteger base flags w p qualifier st = (vaArg st.args).map fun x =>
      { st with
        str := st.str ++ numberField flags (integerArg flags qualifier x.1) base w p
        args := x.2 } := by
  unfold convertInteger
  cases st.args with
  | nil => rfl
  | cons a args =>
    have hrange := integerArg_range flags qualifier a
    rw [vaArg, Option.bind_some]
    dsimp only
    rw [number_eq st.str hrange.1 hrange.2 hlow hhigh w p flags]
    rfl

theorem convertCount_eq (qualifier : Option UInt8) (st : Printed) :
    convertCount qualifier st = (vaArg st.args).map fun x =>
      { st with
        args := x.2
        stored := st.stored ++ convStores qualifier (some (ch 'n')) x.1 st.str.length } := by
  unfold convertCount convStores
  cases st.args with
  | nil => rfl
  | cons a args =>
    by_cases hl : qualifier = some (ch 'l')
    · simp only [hl, if_true, vaArg, Option.map_some]
    · simp only [hl, if_false, if_true, vaArg, Option.map_some]

/-- A conversion that takes a word, once it is known what it writes. -/
def convWord (r : Readable) (flags : Flags) (w p : Int) (qualifier : Option UInt8) (c : UInt8)
    (st : Printed) : Option Printed :=
  (vaArg st.args).bind fun x => (convText r flags w p qualifier (some c) x.1).map fun t =>
    ⟨st.str ++ t, x.2, st.stored ++ convStores qualifier (some c) x.1 st.str.length⟩

theorem convStores_nil {c : UInt8} (hc : c ≠ ch 'n') (qualifier : Option UInt8) (a n : Nat) :
    convStores qualifier (some c) a n = [] :=
  if_neg fun h => hc (Option.some.inj h)

section Cases

variable (r : Readable) (flags : Flags) (w p : Int) (qualifier : Option UInt8) (st : Printed)

theorem convWord_char : convertChar flags w st = convWord r flags w p qualifier (ch 'c') st := by
  have htext : ∀ a, convText r flags w p qualifier (some (ch 'c')) a =
      some (charText flags.left w a) := fun _ => rfl
  have hno : ch 'c' ≠ ch 'n' := by decide
  rw [convertChar_eq, convWord]
  cases vaArg st.args with
  | none => rfl
  | some x =>
    rw [Option.bind_some, htext, convStores_nil hno, List.append_nil]
    rfl

theorem convWord_string :
    convertString r flags w p st = convWord r flags w p qualifier (ch 's') st := by
  have htext : ∀ a, convText r flags w p qualifier (some (ch 's')) a =
      (strnlenAt r a (sizeT p)).bind fun n =>
      (readBytes r a (int32 n).toNat).map fun t => stringText flags.left w (int32 n) t := by
    intro a
    rw [convText, if_neg (by decide), if_pos rfl]
  have hno : ch 's' ≠ ch 'n' := by decide
  rw [convertString_eq, convWord]
  cases vaArg st.args with
  | none => rfl
  | some x =>
    rw [Option.bind_some, Option.bind_some, htext, convStores_nil hno, List.append_nil]
    cases strnlenAt r x.1 (sizeT p) with
    | none => rfl
    | some n =>
      rw [Option.bind_some, Option.bind_some]
      cases readBytes r x.1 (int32 n).toNat with
      | none => rfl
      | some t => rfl

theorem convWord_pointer :
    convertPointer flags w p st = convWord r flags w p qualifier (ch 'p') st := by
  have htext : ∀ a, convText r flags w p qualifier (some (ch 'p')) a =
      some (if w = -1 then numberField { flags with zeropad := true } (toLong a) 16 16 p
        else numberField flags (toLong a) 16 w p) := by
    intro a
    rw [convText, if_neg (by decide), if_neg (by decide), if_pos rfl]
    split <;> rfl
  have hno : ch 'p' ≠ ch 'n' := by decide
  rw [convertPointer_eq, convWord]
  cases vaArg st.args with
  | none => rfl
  | some x =>
    rw [Option.bind_some, htext, convStores_nil hno, List.append_nil]
    rfl

theorem convWord_count : convertCount qualifier st = convWord r flags w p qualifier (ch 'n') st := by
  have htext : ∀ a, convText r flags w p qualifier (some (ch 'n')) a = some [] := by
    intro a
    rw [convText, if_neg (by decide), if_neg (by decide), if_neg (by decide), if_pos rfl]
  rw [convertCount_eq, convWord]
  cases vaArg st.args with
  | none => rfl
  | some x =>
    rw [Option.bind_some, htext, Option.map_some, Option.map_some, List.append_nil]

/-- The formats of integers are none of the others. -/
theorem integerFormat_other {flags' : Flags} {c : UInt8} {base : Nat}
    (h : integerFormat flags c = some (base, flags')) :
    c ≠ ch 'c' ∧ c ≠ ch 's' ∧ c ≠ ch 'p' ∧ c ≠ ch 'n' ∧ c ≠ ch '%' := by
  unfold integerFormat at h
  split_ifs at h with h1 h2 h3 h4 h5
  · rw [h1]
    decide
  · rw [h2]
    decide
  · rw [h3]
    decide
  · rcases h4 with h4 | h4 <;> rw [h4] <;> decide
  · rw [h5]
    decide

theorem convWord_integer {flags' : Flags} {c : UInt8} {base : Nat}
    (h : integerFormat flags c = some (base, flags')) :
    convertInteger base flags' w p qualifier st = convWord r flags w p qualifier c st := by
  obtain ⟨h1, h2, h3, h4, h5⟩ := integerFormat_other flags h
  have htext : ∀ a, convText r flags w p qualifier (some c) a =
      some (numberField flags' (integerArg flags' qualifier a) base w p) := by
    intro a
    simp only [convText, h1, h2, h3, h4, h5, if_false, h]
  have hbase := integerFormat_base h
  rw [convertInteger_eq hbase.1 hbase.2, convWord]
  cases vaArg st.args with
  | none => rfl
  | some x =>
    rw [Option.bind_some, htext, convStores_nil h4, List.append_nil]
    rfl

/-- **The `switch`**, which goes on behind the character unless there is none. -/
theorem convert_eq {cs : List UInt8} (hcs : 0 ∉ cs) :
    convert r flags w p qualifier st (cs ++ [0]) =
      (if takesArg flags cs.head? then vaArg st.args else some (0, st.args)).bind fun x =>
      (convText r flags w p qualifier cs.head? x.1).map fun t =>
        (⟨st.str ++ t, x.2, st.stored ++ convStores qualifier cs.head? x.1 st.str.length⟩,
          cs.tail ++ [0]) := by
  cases cs with
  | nil =>
    have hnone : integerFormat flags 0 = none := rfl
    rw [List.nil_append, convert, if_neg (by decide), if_neg (by decide), if_neg (by decide),
      if_neg (by decide), if_neg (by decide), hnone]
    dsimp only
    rw [if_neg (not_not.mpr rfl), List.head?_nil, takesArg, if_neg Bool.false_ne_true,
      Option.bind_some, convStores, if_neg (by simp), List.append_nil]
    rfl
  | cons c cs =>
    have hc : c ≠ 0 := fun h => hcs (h ▸ List.mem_cons_self)
    have hword : takesArg flags (some c) = true →
        (convWord r flags w p qualifier c st).map (·, cs ++ [0]) =
          (if takesArg flags (some c) then vaArg st.args else some (0, st.args)).bind fun x =>
          (convText r flags w p qualifier (some c) x.1).map fun t =>
            (⟨st.str ++ t, x.2, st.stored ++ convStores qualifier (some c) x.1 st.str.length⟩,
              cs ++ [0]) := by
      intro htakes
      rw [if_pos htakes, convWord, Option.map_bind]
      refine Option.bind_congr fun x _ => ?_
      rw [Function.comp_apply, Option.map_map]
      rfl
    rw [List.cons_append, convert, List.head?_cons, List.tail_cons]
    by_cases h1 : c = ch 'c'
    · rw [if_pos h1, ← hword (by simp [takesArg, h1]), convWord_char r flags w p qualifier, h1]
    · by_cases h2 : c = ch 's'
      · rw [if_neg h1, if_pos h2, ← hword (by simp [takesArg, h2]),
          convWord_string r flags w p qualifier, h2]
      · by_cases h3 : c = ch 'p'
        · rw [if_neg h1, if_neg h2, if_pos h3, ← hword (by simp [takesArg, h3]),
            convWord_pointer r flags w p qualifier, h3]
        · by_cases h4 : c = ch 'n'
          · rw [if_neg h1, if_neg h2, if_neg h3, if_pos h4, ← hword (by simp [takesArg, h4]),
              convWord_count r flags w p qualifier, h4]
          · -- what is left takes a word only for an integer
            have hstores : ∀ a, convStores qualifier (some c) a st.str.length = [] :=
              fun a => convStores_nil h4 qualifier a _
            rw [if_neg h1, if_neg h2, if_neg h3, if_neg h4]
            by_cases h5 : c = ch '%'
            · have htakes : takesArg flags (some c) = false := by simp [takesArg, h5, ch]
              have htext : convText r flags w p qualifier (some c) 0 = some [ch '%'] := by
                rw [convText, if_neg h1, if_neg h2, if_neg h3, if_neg h4, if_pos h5]
              rw [if_pos h5, if_neg (Bool.eq_false_iff.mp htakes), Option.bind_some]
              dsimp only
              rw [htext, hstores, List.append_nil]
              rfl
            · rw [if_neg h5]
              cases hformat : integerFormat flags c with
              | some x =>
                have htakes : takesArg flags (some c) = true := by simp [takesArg, h5, hformat]
                rw [← hword htakes, ← convWord_integer r flags w p qualifier st hformat]
              | none =>
                have htakes : takesArg flags (some c) = false := by
                  simp [takesArg, h1, h2, h3, h4, hformat]
                have htext : convText r flags w p qualifier (some c) 0 = some [ch '%', c] := by
                  simp only [convText, h1, h2, h3, h4, h5, if_false, hformat]
                dsimp only
                rw [if_pos hc, if_neg (Bool.eq_false_iff.mp htakes), Option.bind_some]
                dsimp only
                rw [htext, hstores, List.append_nil, List.append_assoc]
                rfl

end Cases

/-! ## The loop -/

theorem Flags.add_empty (l : List UInt8) :
    Flags.add ⟨false, false, false, false, false, false, false⟩ l = flagsOf l := by
  simp [Flags.add, flagsOf]

theorem fieldWidth_eq (flags : Flags) (w : Option Int) (p : Option Nat)
    (qualifier conv : Option UInt8) (a : Nat) :
    Conversion.fieldWidth ⟨flags, w.map Int.natAbs, p, qualifier, conv, a⟩ = amountInt w := by
  cases w <;> rfl

theorem prec_eq (flags : Flags) (w : Option Nat) (given : Option Amount) (p : Option Int)
    (qualifier conv : Option UInt8) (a : Nat) :
    Conversion.prec ⟨flags, w, given.map fun _ => (p.getD 0).toNat, qualifier, conv, a⟩ =
      precisionInt given p := by
  cases given <;> rfl

theorem cut_sublist (cs : List UInt8) :
    (Amount.cut cs).2 ⊆ cs ∧ (cutPrecision cs).2 ⊆ cs ∧ (cutQualifier cs).2 ⊆ cs := by
  refine ⟨fun x hx => ?_, fun x hx => ?_, fun x hx => ?_⟩
  · rw [← Amount.cut_text cs]
    exact List.mem_append_right _ hx
  · rw [← cutPrecision_text cs]
    exact List.mem_append_right _ hx
  · rw [← cutQualifier_text cs]
    exact List.mem_append_right _ hx

/-- **A directive is what its conversion says.** -/
theorem directive_eq (r : Readable) (st : Printed) {cs : List UInt8} (hcs : 0 ∉ cs) :
    directive r st (cs ++ [0]) = ((Directive.cut cs).1.resolve st.args).bind fun x =>
      (x.1.text r).map fun t =>
        (⟨st.str ++ t, x.2, st.stored ++ x.1.stores st.str.length⟩, (Directive.cut cs).2 ++ [0]) := by
  let afterFlags := cs.dropWhile isFlag
  let afterWidth := (Amount.cut afterFlags).2
  let afterPrecision := (cutPrecision afterWidth).2
  let afterQualifier := (cutQualifier afterPrecision).2
  have hsub : afterQualifier ⊆ cs := fun x hx => by
    have h1 := (cut_sublist afterPrecision).2.2 hx
    have h2 := (cut_sublist afterWidth).2.1 h1
    have h3 := (cut_sublist afterFlags).1 h2
    exact (List.dropWhile_sublist _).subset h3
  have hzero : 0 ∉ afterQualifier := fun h => hcs (hsub h)
  unfold directive
  rw [scanFlags_eq, Flags.add_empty]
  simp only [Option.bind_eq_bind, Option.bind_some]
  rw [scanWidth_eq, Directive.resolve]
  show _ = Option.bind (Option.bind ((Amount.cut afterFlags).1.resolve st.args) _) _
  cases hw : (Amount.cut afterFlags).1.resolve st.args with
  | none => rfl
  | some x =>
    obtain ⟨w, args⟩ := x
    simp only [Option.map_some, Option.bind_some]
    rw [scanPrecision_eq]
    show _ = Option.bind (Option.bind
      (((cutPrecision afterWidth).1.getD .absent).resolve args) _) _
    show Option.bind (Option.map _ (((cutPrecision afterWidth).1.getD .absent).resolve args)) _ = _
    cases hp : ((cutPrecision afterWidth).1.getD .absent).resolve args with
    | none => rfl
    | some y =>
      obtain ⟨p, args⟩ := y
      simp only [Option.map_some, Option.bind_some]
      rw [scanQualifier_eq, Option.bind_some]
      dsimp only
      rw [convert_eq _ _ _ _ _ _ hzero]
      rw [Option.bind_map]
      refine Option.bind_congr fun a _ => ?_
      rw [Function.comp_apply, Conversion.text, fieldWidth_eq, prec_eq]
      rfl

theorem mem_cut {cs : List UInt8} {x : UInt8} (hx : x ∈ (Directive.cut cs).2) : x ∈ cs := by
  rw [← Directive.cut_text cs]
  exact List.mem_append_right _ hx

theorem vsprintfLoop_eq (r : Readable) {fuel : Nat} {cs : List UInt8} (hcs : 0 ∉ cs)
    (hfuel : cs.length < fuel) (st : Printed) :
    vsprintfLoop r fuel st (cs ++ [0]) = render r (items cs) st := by
  induction cs using items.induct generalizing fuel st with
  | case1 =>
    obtain ⟨n, rfl⟩ : ∃ n, fuel = n + 1 := Nat.exists_eq_add_one.mpr hfuel
    rw [items]
    rfl
  | case2 cs ih =>
    obtain ⟨n, rfl⟩ : ∃ n, fuel = n + 1 := Nat.exists_eq_add_one.mpr (Nat.zero_lt_of_lt hfuel)
    have hrest : 0 ∉ cs := fun h => hcs (List.mem_cons_of_mem _ h)
    rw [items, if_pos rfl, render, List.cons_append, vsprintfLoop, if_neg (by decide),
      if_neg (not_not.mpr rfl), directive_eq r st hrest, Option.bind_assoc]
    refine Option.bind_congr fun x _ => ?_
    rw [Option.bind_map]
    refine Option.bind_congr fun t _ => ?_
    have hlen := Directive.length_cut cs
    rw [List.length_cons] at hfuel
    exact ih (fun h => hrest (mem_cut h)) (by omega) _
  | case3 c cs hc ih =>
    obtain ⟨n, rfl⟩ : ∃ n, fuel = n + 1 := Nat.exists_eq_add_one.mpr (Nat.zero_lt_of_lt hfuel)
    have hne : c ≠ 0 := fun h => hcs (h ▸ List.mem_cons_self)
    rw [items, if_neg hc, render, List.cons_append, vsprintfLoop, if_neg hne, if_pos hc]
    rw [List.length_cons] at hfuel
    exact ih (fun h => hcs (List.mem_cons_of_mem _ h)) (by omega) _

/-- **`vsprintf` does what the items say**, and reads the format up to its NUL. -/
theorem vsprintf_eq (r : Readable) {cs : List UInt8} (hcs : 0 ∉ cs) (args : List Nat) :
    vsprintf r (cs ++ [0]) args = render r (items cs) ⟨[], args, []⟩ :=
  vsprintfLoop_eq r hcs (by rw [List.length_append]; exact Nat.lt_succ_self _) _

end IonOS.Libs
