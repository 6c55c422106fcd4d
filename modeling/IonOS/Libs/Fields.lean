import IonOS.Libs.Format

/-!
# The fields that `vsprintf` writes

Where nothing overflows, a conversion writes its text in a field of the width asked
for, to the left or to the right of it, and no directive writes anything else.
-/

namespace IonOS.Libs

open IonOS.Lib

/-! ## Pieces -/

/-- An item with the words it takes. -/
inductive Piece where
  | char (c : UInt8)
  | conv (x : Conversion)
deriving DecidableEq, Repr

/-- The pieces that the items come to, and the words that are left. -/
def resolveAll : List Item → List Nat → Option (List Piece × List Nat)
  | [], args => some ([], args)
  | .char c :: is, args => (resolveAll is args).map fun y => (.char c :: y.1, y.2)
  | .directive d :: is, args =>
      (d.resolve args).bind fun x => (resolveAll is x.2).map fun y => (.conv x.1 :: y.1, y.2)

/-- What a conversion writes when all memory may be read. -/
def Conversion.written (m : Mem) (x : Conversion) : List UInt8 :=
  (x.text (readAll m)).getD []

def Piece.written (m : Mem) : Piece → List UInt8
  | .char c => [c]
  | .conv x => x.written m

/-- What is stored when the pieces write `f` and `n` characters are there. -/
def storesFrom (f : Piece → List UInt8) : List Piece → Nat → List Stored
  | [], _ => []
  | .char c :: ps, n => storesFrom f ps (n + (f (.char c)).length)
  | .conv x :: ps, n => x.stores n ++ storesFrom f ps (n + (f (.conv x)).length)

variable {m : Mem} {x : Conversion} {flags : Flags} {num : Int} {base : Nat}

theorem strnlenAt_readAll (m : Mem) (s n : Nat) :
    strnlenAt (readAll m) s n = some (strnlen m s n) := by
  induction n generalizing s with
  | zero => rfl
  | succ n ih =>
    rw [strnlenAt, readAll, Option.bind_some, strnlen]
    split
    · exact congrArg (Option.map (· + 1)) (ih (s + 1))
    · rfl

theorem readBytes_readAll (m : Mem) (s n : Nat) :
    readBytes (readAll m) s n = some (bytes m s n) := by
  induction n generalizing s with
  | zero => rfl
  | succ n ih => rw [readBytes, ih, readAll, Option.bind_some, Option.map_some, bytes]

/-- Nothing that is read is missing. -/
theorem text_readAll (m : Mem) (x : Conversion) : x.text (readAll m) = some (x.written m) := by
  have hsome : (x.text (readAll m)).isSome := by
    unfold Conversion.text convText
    cases x.conv with
    | none => rfl
    | some c =>
      simp only [strnlenAt_readAll, readBytes_readAll, Option.bind_some, Option.map_some]
      split_ifs
      · rfl
      · rfl
      · rfl
      · rfl
      · rfl
      · rfl
      · split <;> rfl
  obtain ⟨t, ht⟩ := Option.isSome_iff_exists.mp hsome
  rw [Conversion.written, ht]
  rfl

theorem render_written {is : List Item} {args rest : List Nat} {ps : List Piece}
    (h : resolveAll is args = some (ps, rest)) (str : List UInt8) (stored : List Stored) :
    render (readAll m) is ⟨str, args, stored⟩ =
      some ⟨str ++ ps.flatMap (Piece.written m), rest,
        stored ++ storesFrom (Piece.written m) ps str.length⟩ := by
  induction is generalizing args ps str stored with
  | nil =>
    obtain ⟨rfl, rfl⟩ := Prod.mk.inj (Option.some.inj h)
    simp [render, storesFrom]
  | cons i is ih =>
    cases i with
    | char c =>
      obtain ⟨y, hy, he⟩ := Option.map_eq_some_iff.mp h
      obtain ⟨rfl, rfl⟩ := Prod.mk.inj he
      rw [render, ih hy, List.flatMap_cons, storesFrom, Piece.written, List.append_assoc,
        List.length_append]
    | directive d =>
      obtain ⟨x, hx, h⟩ := Option.bind_eq_some_iff.mp h
      obtain ⟨y, hy, he⟩ := Option.map_eq_some_iff.mp h
      obtain ⟨rfl, rfl⟩ := Prod.mk.inj he
      rw [render, hx, Option.bind_some]
      dsimp only
      rw [text_readAll, Option.bind_some, ih hy, List.flatMap_cons, storesFrom, Piece.written,
        List.append_assoc, List.append_assoc, List.length_append]

/-- **What `vsprintf` writes**, piece by piece. -/
theorem vsprintf_written (m : Mem) {cs : List UInt8} (hcs : 0 ∉ cs) {args rest : List Nat}
    {ps : List Piece} (h : resolveAll (items cs) args = some (ps, rest)) :
    vsprintf (readAll m) (cs ++ [0]) args =
      some ⟨ps.flatMap (Piece.written m), rest, storesFrom (Piece.written m) ps 0⟩ := by
  rw [vsprintf_eq (readAll m) hcs, render_written h]
  rfl

/-! ## Fields -/

/-- A text in a field of `w` characters at least. -/
def justify (left : Bool) (w : Nat) (t : List UInt8) : List UInt8 :=
  if left then t ++ List.replicate (w - t.length) (ch ' ')
  else List.replicate (w - t.length) (ch ' ') ++ t

/-- A number without its field. -/
def naturalText (flags : Flags) (num : Int) (base p : Nat) : List UInt8 :=
  signText flags num ++ baseText flags base ++ bodyText flags num base p

/-- A number in its field, which zeros fill between what comes before the digits and the digits, if
that is asked for and the left is not. -/
def integerField (flags : Flags) (w : Nat) (num : Int) (base p : Nat) : List UInt8 :=
  if flags.zeropad ∧ ¬ flags.left then
    signText flags num ++ baseText flags base ++
      List.replicate (w - (naturalText flags num base p).length) (ch '0') ++
      bodyText flags num base p
  else justify flags.left w (naturalText flags num base p)

/-- The bytes of a string. -/
def Conversion.string (m : Mem) (x : Conversion) : List UInt8 :=
  bytes m x.arg (strnlen m x.arg (x.precision.getD (2 ^ 64 - 1)))

/-- For a format of integers, with pointers: the flags, the width, the number and the base. -/
def Conversion.integer (x : Conversion) : Option (Flags × Option Nat × Int × Nat) :=
  x.conv.bind fun c =>
    if c = ch 'p' then
      match x.width with
      | none => some ({ x.flags with zeropad := true }, some 16, toLong x.arg, 16)
      | some w => some (x.flags, some w, toLong x.arg, 16)
    else (integerFormat x.flags c).map fun y =>
      (y.2, x.width, integerArg y.2 x.qualifier x.arg, y.1)

/-- The text that a conversion puts into a field. -/
def Conversion.natural (m : Mem) (x : Conversion) : Option (List UInt8) :=
  if x.conv = some (ch 'c') then some [UInt8.ofNat x.arg]
  else if x.conv = some (ch 's') then some (x.string m)
  else x.integer.map fun y => naturalText y.1 y.2.2.1 y.2.2.2 (x.precision.getD 0)

/-- How wide the field is at least. -/
def Conversion.minWidth (x : Conversion) : Nat :=
  if x.conv = some (ch 'p') then x.width.getD 16 else x.width.getD 0

/-- The segment of a conversion. -/
def Conversion.segment (m : Mem) (x : Conversion) : List UInt8 :=
  if x.conv = some (ch 'c') then justify x.flags.left x.minWidth [UInt8.ofNat x.arg]
  else if x.conv = some (ch 's') then justify x.flags.left x.minWidth (x.string m)
  else if x.conv = some (ch 'n') then []
  else if x.conv = some (ch '%') then [ch '%']
  else
    match x.integer with
    | some (flags, w, num, base) =>
        integerField flags (w.getD 0) num base (x.precision.getD 0)
    | none => ch '%' :: x.conv.toList

def Piece.segment (m : Mem) : Piece → List UInt8
  | .char c => [c]
  | .conv x => x.segment m

/-- Nothing overflows: widths, precisions and strings are shorter than `2 ^ 31`, and the width less
the text of a number can be counted down as often as `number` does. -/
structure Conversion.Fits (m : Mem) (x : Conversion) : Prop where
  width : ∀ w, x.width = some w → w < 2 ^ 31
  precision : ∀ p, x.precision = some p → p < 2 ^ 31
  string : x.conv = some (ch 's') → (x.string m).length < 2 ^ 31
  integer : ∀ flags w num base, x.integer = some (flags, w, num, base) →
    -2 ^ 31 + idleLoops flags + (naturalText flags num base (x.precision.getD 0)).length ≤
      (w.map Int.ofNat).getD (-1)

/-! ## What fits -/

theorem length_justify (left : Bool) (w : Nat) (t : List UInt8) :
    (justify left w t).length = max w t.length := by
  unfold justify
  split <;> rw [List.length_append, List.length_replicate] <;> omega

theorem length_integerField (flags : Flags) (w : Nat) (num : Int) (base p : Nat) :
    (integerField flags w num base p).length = max w (naturalText flags num base p).length := by
  unfold integerField
  split
  · simp only [naturalText, List.length_append, List.length_replicate]
    omega
  · exact length_justify ..

/-- A width or a precision, as an `int`, when it is one. -/
def given (w : Option Nat) : Int := (w.map Int.ofNat).getD (-1)

theorem given_toNat (w : Option Nat) : (given w).toNat = w.getD 0 := by
  cases w <;> rfl

theorem given_range {w : Option Nat} (h : ∀ n, w = some n → n < 2 ^ 31) :
    -1 ≤ given w ∧ given w < 2 ^ 31 := by
  cases w with
  | none => decide
  | some n =>
    have := h n rfl
    show -1 ≤ (n : Int) ∧ (n : Int) < 2 ^ 31
    omega

theorem fieldWidth_given (hx : x.Fits m) : x.fieldWidth = given x.width := by
  unfold Conversion.fieldWidth
  cases hw : x.width with
  | none => rfl
  | some w =>
    have := hx.width w hw
    exact toInt_eq (by omega) (by omega)

theorem prec_given (hx : x.Fits m) : x.prec = given x.precision := by
  unfold Conversion.prec
  cases hp : x.precision with
  | none => rfl
  | some p =>
    have := hx.precision p hp
    have hself : toInt p = p := toInt_eq (by omega) (by omega)
    show max 0 (toInt p) = (p : Int)
    rw [hself]
    omega

theorem charText_fit {w : Int} (hlow : -1 ≤ w) (hhigh : w < 2 ^ 31) (left : Bool) (a : Nat) :
    charText left w a = justify left w.toNat [UInt8.ofNat a] := by
  have hself : toInt (w - 1) = w - 1 := toInt_eq (by omega) (by omega)
  have hpad : w.toNat - 1 = (w - 1).toNat := by omega
  unfold charText justify
  rw [List.length_singleton, hself]
  cases left with
  | true => simp only [if_true, List.replicate_zero, List.nil_append, hself, hpad]
  | false =>
    have hdone : toInt (min 0 (w - 1) - 1) = min 0 (w - 1) - 1 := toInt_eq (by omega) (by omega)
    have hnone : (min 0 (w - 1) - 1).toNat = 0 := by omega
    simp only [Bool.false_eq_true, if_false, hdone, hnone, List.replicate_zero, List.append_nil,
      hpad]

theorem stringText_fit {w : Int} {t : List UInt8} (hlow : -1 ≤ w) (ht : t.length < 2 ^ 31)
    (left : Bool) : stringText left w t.length t = justify left w.toNat t := by
  have hpad : w.toNat - t.length = (w - t.length).toNat := by omega
  unfold stringText justify
  cases left with
  | true => simp only [if_true, List.replicate_zero, List.nil_append, hpad]
  | false =>
    have hdone : toInt (min (t.length : Int) w - 1) = min (t.length : Int) w - 1 :=
      toInt_eq (by omega) (by omega)
    have hnone : (min (t.length : Int) w - 1 - t.length).toNat = 0 := by omega
    simp only [Bool.false_eq_true, if_false, hdone, hnone, List.replicate_zero, List.append_nil,
      hpad]

theorem numberField_fit {size precision : Int} (hhigh : size < 2 ^ 31)
    (hfit : -2 ^ 31 + idleLoops flags + (naturalText flags num base precision.toNat).length ≤ size) :
    numberField flags num base size precision =
      integerField flags size.toNat num base precision.toNat := by
  have hbody : bodyText flags num base (precision.toNat : Nat) = bodyText flags num base precision :=
    by rw [bodyText, Int.toNat_natCast, ← bodyText]
  have hrest : numberRest flags num base size precision =
      size - (naturalText flags num base precision.toNat).length := by
    simp only [numberRest, naturalText, hbody, List.length_append]
  have hself : toInt (numberRest flags num base size precision) =
      numberRest flags num base size precision := by
    rw [hrest]
    exact toInt_eq (by omega) (by omega)
  have hpad : (numberRest flags num base size precision).toNat =
      size.toNat - (naturalText flags num base precision.toNat).length := by
    rw [hrest]
    omega
  rw [numberField, hself, numberPads_fit (by omega), hpad]
  unfold numberText integerField justify naturalText
  rw [hbody]
  by_cases hl : flags.left
  · simp [hl]
  · by_cases hz : flags.zeropad
    · simp [hl, hz]
    · simp [hl, hz]

/-- The length that `strnlen` is given. -/
theorem sizeT_prec (hx : x.Fits m) : sizeT x.prec = x.precision.getD (2 ^ 64 - 1) := by
  rw [prec_given hx]
  cases hp : x.precision with
  | none => decide
  | some p =>
    have := hx.precision p hp
    exact sizeT_natCast (by omega)

theorem segment_integer {w : Option Nat} (hc : x.conv ≠ some (ch 'c')) (hs : x.conv ≠ some (ch 's'))
    (hn : x.conv ≠ some (ch 'n')) (hp : x.conv ≠ some (ch '%'))
    (hi : x.integer = some (flags, w, num, base)) :
    x.segment m = integerField flags (w.getD 0) num base (x.precision.getD 0) := by
  rw [Conversion.segment, if_neg hc, if_neg hs, if_neg hn, if_neg hp, hi]

theorem numberField_segment {w : Option Nat} (hx : x.Fits m) (hc : x.conv ≠ some (ch 'c'))
    (hs : x.conv ≠ some (ch 's')) (hn : x.conv ≠ some (ch 'n')) (hp : x.conv ≠ some (ch '%'))
    (hi : x.integer = some (flags, w, num, base)) (hlt : given w < 2 ^ 31) :
    numberField flags num base (given w) x.prec = x.segment m := by
  have hprec : x.prec.toNat = x.precision.getD 0 := by rw [prec_given hx, given_toNat]
  have hfit := hx.integer flags w num base hi
  rw [← hprec] at hfit
  rw [numberField_fit hlt hfit, segment_integer hc hs hn hp hi, hprec, given_toNat]

/-- **Where nothing overflows, a conversion writes its segment.** -/
theorem written_fit (hx : x.Fits m) : x.written m = x.segment m := by
  have hw := given_range hx.width
  have hwidth := fieldWidth_given hx
  unfold Conversion.written Conversion.text convText
  cases hconv : x.conv with
  | none =>
    have hi : x.integer = none := by rw [Conversion.integer, hconv]; rfl
    have hno : ∀ c, x.conv ≠ some c := fun c h => nomatch hconv.symm.trans h
    rw [Conversion.segment, if_neg (hno _), if_neg (hno _), if_neg (hno _), if_neg (hno _), hi,
      hconv]
    rfl
  | some c =>
    have hne : ∀ {d : UInt8}, c ≠ d → x.conv ≠ some d := fun h he =>
      h (Option.some.inj (hconv.symm.trans he))
    dsimp only
    by_cases h1 : c = ch 'c'
    · have hmin : x.minWidth = x.width.getD 0 :=
        if_neg (hne (by rw [h1]; decide))
      rw [if_pos h1, Conversion.segment, if_pos (hconv.trans (congrArg some h1)), Option.getD_some,
        hwidth, charText_fit hw.1 hw.2, given_toNat, hmin]
    · by_cases h2 : c = ch 's'
      · have hmin : x.minWidth = x.width.getD 0 :=
          if_neg (hne (by rw [h2]; decide))
        have hlen := hx.string (hconv.trans (congrArg some h2))
        have hlength : (x.string m).length = strnlen m x.arg (sizeT x.prec) := by
          rw [Conversion.string, length_bytes, sizeT_prec hx]
        have hself : int32 (strnlen m x.arg (sizeT x.prec)) = (x.string m).length := by
          rw [← hlength]
          exact int32_of_lt hlen
        have hbytes : bytes m x.arg (x.string m).length = x.string m := by
          rw [hlength, sizeT_prec hx]
          rfl
        rw [if_neg h1, if_pos h2, strnlenAt_readAll, Option.bind_some, hself, Int.toNat_natCast,
          readBytes_readAll, Option.map_some, hbytes, Option.getD_some, Conversion.segment,
          if_neg (hne h1), if_pos (hconv.trans (congrArg some h2)), hwidth,
          stringText_fit hw.1 hlen, given_toNat, hmin]
      · rw [if_neg h1, if_neg h2]
        by_cases h3 : c = ch 'p'
        · have hn : x.conv ≠ some (ch 'n') := hne (by rw [h3]; decide)
          have hp : x.conv ≠ some (ch '%') := hne (by rw [h3]; decide)
          rw [if_pos h3, hwidth]
          cases hx' : x.width with
          | none =>
            have hi : x.integer =
                some ({ x.flags with zeropad := true }, some 16, toLong x.arg, 16) := by
              rw [Conversion.integer, hconv, Option.bind_some, if_pos h3, hx']
            have hseg := numberField_segment hx (hne h1) (hne h2) hn hp hi (by decide)
            rw [if_pos (show given none = -1 from rfl), Option.getD_some, ← hseg]
            rfl
          | some w =>
            have hi : x.integer = some (x.flags, some w, toLong x.arg, 16) := by
              rw [Conversion.integer, hconv, Option.bind_some, if_pos h3, hx']
            rw [hx'] at hw
            have hpos : ¬ given (some w) = -1 := by
              show ¬ (w : Int) = -1
              omega
            rw [if_neg hpos, Option.getD_some]
            exact numberField_segment hx (hne h1) (hne h2) hn hp hi hw.2
        · rw [if_neg h3]
          by_cases h4 : c = ch 'n'
          · rw [if_pos h4, Conversion.segment, if_neg (hne h1), if_neg (hne h2),
              if_pos (hconv.trans (congrArg some h4))]
            rfl
          · rw [if_neg h4]
            by_cases h5 : c = ch '%'
            · rw [if_pos h5, Conversion.segment, if_neg (hne h1), if_neg (hne h2), if_neg (hne h4),
                if_pos (hconv.trans (congrArg some h5))]
              rfl
            · have hi : x.integer = (integerFormat x.flags c).map fun y =>
                  (y.2, x.width, integerArg y.2 x.qualifier x.arg, y.1) := by
                rw [Conversion.integer, hconv, Option.bind_some, if_neg h3]
              rw [if_neg h5]
              cases hformat : integerFormat x.flags c with
              | some y =>
                rw [hformat] at hi
                rw [hwidth]
                exact numberField_segment hx (hne h1) (hne h2) (hne h4) (hne h5) hi hw.2
              | none =>
                rw [hformat] at hi
                rw [Conversion.segment, if_neg (hne h1), if_neg (hne h2), if_neg (hne h4),
                  if_neg (hne h5), hi, hconv]
                rfl

theorem storesFrom_congr {f g : Piece → List UInt8} {ps : List Piece}
    (h : ∀ y ∈ ps, f y = g y) (n : Nat) : storesFrom f ps n = storesFrom g ps n := by
  induction ps generalizing n with
  | nil => rfl
  | cons y ps ih =>
    have hy := h y List.mem_cons_self
    have ih := ih fun z hz => h z (List.mem_cons_of_mem _ hz)
    cases y with
    | char c => rw [storesFrom, storesFrom, hy, ih]
    | conv x => rw [storesFrom, storesFrom, hy, ih]

/-- A field is as wide as it is asked to be, or as its text is long. -/
theorem length_segment {t : List UInt8} (h : x.natural m = some t) :
    (x.segment m).length = max x.minWidth t.length := by
  unfold Conversion.natural at h
  by_cases h1 : x.conv = some (ch 'c')
  · rw [if_pos h1] at h
    obtain rfl := Option.some.inj h
    rw [Conversion.segment, if_pos h1, length_justify]
  · rw [if_neg h1] at h
    by_cases h2 : x.conv = some (ch 's')
    · rw [if_pos h2] at h
      obtain rfl := Option.some.inj h
      rw [Conversion.segment, if_neg h1, if_pos h2, length_justify]
    · rw [if_neg h2] at h
      obtain ⟨⟨flags, w, num, base⟩, hi, rfl⟩ := Option.map_eq_some_iff.mp h
      have hmin : x.minWidth = w.getD 0 ∧ x.conv ≠ some (ch 'n') ∧ x.conv ≠ some (ch '%') := by
        unfold Conversion.integer at hi
        obtain ⟨c, hc, hi⟩ := Option.bind_eq_some_iff.mp hi
        by_cases hp : c = ch 'p'
        · rw [if_pos hp] at hi
          rw [Conversion.minWidth, if_pos (hc.trans (congrArg some hp)), hc, hp]
          refine ⟨?_, by decide, by decide⟩
          cases hw : x.width with
          | none =>
            rw [hw] at hi
            obtain ⟨-, h⟩ := Prod.mk.inj (Option.some.inj hi)
            rw [← (Prod.mk.inj h).1]
            rfl
          | some w' =>
            rw [hw] at hi
            obtain ⟨-, h⟩ := Prod.mk.inj (Option.some.inj hi)
            rw [← (Prod.mk.inj h).1]
            rfl
        · rw [if_neg hp] at hi
          obtain ⟨y, hy, he⟩ := Option.map_eq_some_iff.mp hi
          obtain ⟨-, -, -, hn, h5⟩ := integerFormat_other x.flags hy
          obtain ⟨-, h⟩ := Prod.mk.inj he
          rw [Conversion.minWidth, hc, if_neg fun h => hp (Option.some.inj h), ← (Prod.mk.inj h).1]
          exact ⟨rfl, fun h => hn (Option.some.inj h), fun h => h5 (Option.some.inj h)⟩
      rw [segment_integer h1 h2 hmin.2.1 hmin.2.2 hi, length_integerField, hmin.1]

/--
**What `vsprintf` writes for a format.**

A format without a NUL, cut off wherever it may be, is its items one after the other,
and so is the output the segments of what they come to: the character itself, or a
field for the conversion, or what is owed to `%%`, `%n` and the others. It ends, and
no byte behind the NUL is read.
-/
theorem vsprintf_segments (m : Mem) {cs : List UInt8} (hcs : 0 ∉ cs) {args rest : List Nat}
    {ps : List Piece} (hargs : resolveAll (items cs) args = some (ps, rest))
    (hfits : ∀ x, .conv x ∈ ps → x.Fits m) :
    (items cs).flatMap Item.text = cs ∧
      vsprintf (readAll m) (cs ++ [0]) args =
        some ⟨ps.flatMap (Piece.segment m), rest, storesFrom (Piece.segment m) ps 0⟩ ∧
      ∀ x, .conv x ∈ ps → ∀ t, x.natural m = some t →
        (x.segment m).length = max x.minWidth t.length := by
  have hsame : ∀ y ∈ ps, Piece.written m y = Piece.segment m y := by
    intro y hy
    cases y with
    | char c => rfl
    | conv x => exact written_fit (hfits x hy)
  refine ⟨items_text cs, ?_, fun x _ t ht => length_segment ht⟩
  rw [vsprintf_written m hcs hargs, List.flatMap_congr hsame, storesFrom_congr hsame]

/-! ## Runs -/

theorem items_percent (cs : List UInt8) :
    items (ch '%' :: cs) = .directive (Directive.cut cs).1 :: items (Directive.cut cs).2 := by
  rw [items, if_pos rfl]

theorem items_nil : items [] = [] := by rw [items]

theorem resolveAll_directive {d : Directive} {is : List Item} {ps : List Piece}
    {args args' rest : List Nat} (hx : d.resolve args = some (x, args'))
    (hrest : resolveAll is args' = some (ps, rest)) :
    resolveAll (.directive d :: is) args = some (.conv x :: ps, rest) := by
  rw [resolveAll, hx, Option.bind_some, hrest]
  rfl

/-- A `%c` in a field of `w` characters. -/
def wideChar (w : Nat) : Conversion := ⟨flagsOf [], some w, none, none, some (ch 'c'), 65⟩

/-- A `%n`. -/
def countTo (ip : Nat) : Conversion := ⟨flagsOf [], none, none, none, some (ch 'n'), ip⟩

theorem wideChar_fits {w : Nat} (hw : w < 2 ^ 31) : (wideChar w).Fits m := by
  refine ⟨fun n hn => ?_, fun _ h => (nomatch h), fun h => absurd h ?_, fun _ _ _ _ h => (nomatch h)⟩
  · obtain rfl := Option.some.inj hn
    exact hw
  · show some (ch 'c') ≠ some (ch 's')
    decide

theorem countTo_fits (ip : Nat) : (countTo ip).Fits m := by
  refine ⟨fun _ h => (nomatch h), fun _ h => (nomatch h), fun h => absurd h ?_,
    fun _ _ _ _ h => (nomatch h)⟩
  show some (ch 'n') ≠ some (ch 's')
  decide

theorem wideChar_segment (m : Mem) (w : Nat) :
    (wideChar w).segment m = List.replicate (w - 1) (ch ' ') ++ [ch 'A'] := if_pos rfl

theorem countTo_segment (m : Mem) (ip : Nat) : (countTo ip).segment m = [] := rfl

/-- "%5c%n". -/
theorem segments_five : vsprintf (readAll fun _ => 0)
    ([ch '%', ch '5', ch 'c', ch '%', ch 'n'] ++ [0]) [65, 4096] =
      some ⟨[ch ' ', ch ' ', ch ' ', ch ' ', ch 'A'], [], [⟨4096, 4, 5⟩]⟩ := by
  have hfirst : Directive.cut [ch '5', ch 'c', ch '%', ch 'n'] =
      (⟨[], .digits [ch '5'], none, none, some (ch 'c')⟩, [ch '%', ch 'n']) := by decide
  have hsecond : Directive.cut [ch 'n'] = (⟨[], .absent, none, none, some (ch 'n')⟩, []) := by
    decide
  have hargs : resolveAll (items [ch '%', ch '5', ch 'c', ch '%', ch 'n']) [65, 4096] =
      some ([.conv (wideChar 5), .conv (countTo 4096)], []) := by
    have h5 : Directive.resolve ⟨[], .digits [ch '5'], none, none, some (ch 'c')⟩ [65, 4096] =
        some (wideChar 5, [4096]) := by decide
    have hn : Directive.resolve ⟨[], .absent, none, none, some (ch 'n')⟩ [4096] =
        some (countTo 4096, []) := by decide
    rw [items_percent, hfirst, items_percent, hsecond, items_nil]
    exact resolveAll_directive h5 (resolveAll_directive hn rfl)
  have hfits : ∀ x, .conv x ∈ [Piece.conv (wideChar 5), .conv (countTo 4096)] →
      x.Fits fun _ => 0 := by
    intro x hx
    rcases List.mem_cons.mp hx with h | h
    · obtain rfl := Piece.conv.inj h
      exact wideChar_fits (by decide)
    · obtain rfl := Piece.conv.inj (List.mem_singleton.mp h)
      exact countTo_fits 4096
  rw [(vsprintf_segments (fun _ => 0) (by decide) hargs hfits).2.1]
  simp only [List.flatMap_cons, List.flatMap_nil, Piece.segment, storesFrom, wideChar_segment,
    countTo_segment]
  rfl

/-- The digits of `2 ^ 30`. -/
def digits30 : List UInt8 :=
  [ch '1', ch '0', ch '7', ch '3', ch '7', ch '4', ch '1', ch '8', ch '2', ch '4']

/-- The digits of `2 ^ 31 - 1`. -/
def digits31 : List UInt8 :=
  [ch '2', ch '1', ch '4', ch '7', ch '4', ch '8', ch '3', ch '6', ch '4', ch '7']

/-- "%1073741824c%1073741824c%n". -/
def countFormat : List UInt8 :=
  ch '%' :: (digits30 ++ ch 'c' :: ch '%' :: (digits30 ++ [ch 'c', ch '%', ch 'n']))

/-- "%.2147483647u". -/
def preciseFormat : List UInt8 := ch '%' :: ch '.' :: (digits31 ++ [ch 'u'])

/-- A string of `2 ^ 31` characters. -/
def longString : Mem := fun a => if a < 2 ^ 31 then ch 'A' else 0

/-- What is stored is less than 0. -/
theorem count_overflow : ∃ p : Printed,
    vsprintf (readAll fun _ => 0) (countFormat ++ [0]) [65, 65, 4096] = some p ∧
      p.str.length = 2 ^ 31 ∧ p.stored = [⟨4096, 4, -2 ^ 31⟩] := by
  have hfirst : Directive.cut (digits30 ++ ch 'c' :: ch '%' :: (digits30 ++
      [ch 'c', ch '%', ch 'n'])) = (⟨[], .digits digits30, none, none, some (ch 'c')⟩,
        ch '%' :: (digits30 ++ [ch 'c', ch '%', ch 'n'])) := by decide
  have hsecond : Directive.cut (digits30 ++ [ch 'c', ch '%', ch 'n']) =
      (⟨[], .digits digits30, none, none, some (ch 'c')⟩, [ch '%', ch 'n']) := by decide
  have hthird : Directive.cut [ch 'n'] = (⟨[], .absent, none, none, some (ch 'n')⟩, []) := by
    decide
  have hwide : ∀ args, Directive.resolve ⟨[], .digits digits30, none, none, some (ch 'c')⟩
      (65 :: args) = some (wideChar (2 ^ 30), args) := fun _ => rfl
  have hcount : Directive.resolve ⟨[], .absent, none, none, some (ch 'n')⟩ [4096] =
      some (countTo 4096, []) := by decide
  have hargs : resolveAll (items countFormat) [65, 65, 4096] =
      some ([.conv (wideChar (2 ^ 30)), .conv (wideChar (2 ^ 30)), .conv (countTo 4096)], []) := by
    rw [countFormat, items_percent, hfirst, items_percent, hsecond, items_percent, hthird, items_nil]
    exact resolveAll_directive (hwide _) (resolveAll_directive (hwide _)
      (resolveAll_directive hcount rfl))
  have hwritten : (wideChar (2 ^ 30)).written (fun _ => 0) =
      List.replicate (2 ^ 30 - 1) (ch ' ') ++ [ch 'A'] := by
    rw [written_fit (wideChar_fits (by decide)), wideChar_segment]
  have hnothing : (countTo 4096).written (fun _ => 0) = [] := by
    rw [written_fit (countTo_fits 4096), countTo_segment]
  have hlength : (List.replicate (2 ^ 30 - 1) (ch ' ') ++ [ch 'A']).length = 2 ^ 30 := by
    rw [List.length_append, List.length_replicate]
    rfl
  refine ⟨_, vsprintf_written (fun _ => 0) (by decide) hargs, ?_, ?_⟩
  · simp only [List.flatMap_cons, List.flatMap_nil, Piece.written, hwritten, hnothing,
      List.length_append, List.length_nil, hlength]
    decide
  · have hnone : ∀ n, (wideChar (2 ^ 30)).stores n = [] := fun _ => rfl
    have hone : ∀ n, (countTo 4096).stores n = [⟨4096, 4, toInt n⟩] := fun _ => rfl
    simp only [storesFrom, Piece.written, hwritten, hlength, hnone, hone, List.nil_append,
      List.append_nil]
    decide

/-- The number is as long again as it is asked to be. -/
theorem precision_overflow : ∃ p : Printed,
    vsprintf (readAll fun _ => 0) (preciseFormat ++ [0]) [1] = some p ∧
      p.str.length = 2 * (2 ^ 31 - 1) := by
  have hcut : Directive.cut (ch '.' :: (digits31 ++ [ch 'u'])) =
      (⟨[], .absent, some (.digits digits31), none, some (ch 'u')⟩, []) := by decide
  let x : Conversion := ⟨flagsOf [], none, some (2 ^ 31 - 1), none, some (ch 'u'), 1⟩
  have hx : Directive.resolve ⟨[], .absent, some (.digits digits31), none, some (ch 'u')⟩ [1] =
      some (x, []) := rfl
  have hargs : resolveAll (items preciseFormat) [1] = some ([.conv x], []) := by
    rw [preciseFormat, items_percent, hcut, items_nil]
    exact resolveAll_directive hx rfl
  have hdigits : digitText (flagsOf []) 10 (magnitude (flagsOf []) 1) = [ch '1'] := by
    have hone : magnitude (flagsOf []) 1 = 1 := by decide
    rw [hone, digitText, if_neg (by decide), Nat.digits_of_lt 10 1 (by decide) (by decide)]
    rfl
  have hnatural : naturalLength (flagsOf []) 1 10 (2 ^ 31 - 1) = 2 ^ 31 - 1 := by
    have hsign : signText (flagsOf []) 1 = [] := rfl
    have hmark : baseText (flagsOf []) 10 = [] := rfl
    rw [naturalLength, hsign, hmark, bodyText, hdigits, List.length_append, List.length_replicate]
    decide
  have hrest : toInt (numberRest (flagsOf []) 1 10 (-1) (2 ^ 31 - 1)) = -2 ^ 31 := by
    have heq : numberRest (flagsOf []) 1 10 (-1) (2 ^ 31 - 1) =
        -1 - (naturalLength (flagsOf []) 1 10 (2 ^ 31 - 1) : Nat) := by
      rw [numberRest, naturalLength]
    rw [heq, hnatural]
    decide
  have hwritten : x.written (fun _ => 0) = numberField (flagsOf []) 1 10 (-1) (2 ^ 31 - 1) := by
    have hprec : x.prec = 2 ^ 31 - 1 := by decide
    have hwidth : x.fieldWidth = -1 := rfl
    have hnum : integerArg (flagsOf []) none 1 = 1 := by decide
    have hformat : integerFormat (flagsOf []) (ch 'u') = some (10, flagsOf []) := by decide
    rw [Conversion.written, Conversion.text, hprec, hwidth]
    show (convText _ (flagsOf []) (-1) (2 ^ 31 - 1) none (some (ch 'u')) 1).getD [] = _
    rw [convText, if_neg (by decide), if_neg (by decide), if_neg (by decide), if_neg (by decide),
      if_neg (by decide), hformat]
    dsimp only
    rw [hnum, Option.getD_some]
  refine ⟨_, vsprintf_written (fun _ => 0) (by decide) hargs, ?_⟩
  simp only [List.flatMap_cons, List.flatMap_nil, Piece.written, hwritten, List.append_nil]
  rw [numberField, length_numberText, hnatural, hrest]
  decide

/-- None of the string is written. -/
theorem string_overflow : ∃ p : Printed,
    vsprintf (readAll longString) ([ch '%', ch 's'] ++ [0]) [0] = some p ∧ ch 'A' ∉ p.str := by
  have hcut : Directive.cut [ch 's'] = (⟨[], .absent, none, none, some (ch 's')⟩, []) := by decide
  let x : Conversion := ⟨flagsOf [], none, none, none, some (ch 's'), 0⟩
  have hx : Directive.resolve ⟨[], .absent, none, none, some (ch 's')⟩ [0] = some (x, []) := rfl
  have hargs : resolveAll (items [ch '%', ch 's']) [0] = some ([.conv x], []) := by
    rw [items_percent, hcut, items_nil]
    exact resolveAll_directive hx rfl
  have hlen : strnlen longString 0 (2 ^ 64 - 1) = 2 ^ 31 := by
    refine strnlen_eq (by decide) (if_neg (by decide)) fun i hi => ?_
    have hin : longString (0 + i) = ch 'A' := if_pos (by omega)
    rw [hin]
    decide
  have hwritten : x.written longString = stringText false (-1) (-2 ^ 31) [] := by
    have hsize : sizeT x.prec = 2 ^ 64 - 1 := by decide
    have hneg : int32 (2 ^ 31) = -2 ^ 31 := by decide
    have hnone : (-2 ^ 31 : Int).toNat = 0 := by decide
    rw [Conversion.written, Conversion.text]
    show (convText (readAll longString) (flagsOf []) (-1) x.prec none (some (ch 's')) 0).getD [] = _
    rw [convText, if_neg (by decide), if_pos rfl, hsize, strnlenAt_readAll, hlen, Option.bind_some,
      hneg, hnone, readBytes, Option.map_some, Option.getD_some]
    rfl
  refine ⟨_, vsprintf_written longString (by decide) hargs, ?_⟩
  simp only [List.flatMap_cons, List.flatMap_nil, Piece.written, hwritten, List.append_nil]
  intro hmem
  unfold stringText at hmem
  have hspace : ch 'A' = ch ' ' := by
    rw [List.append_nil, List.mem_append] at hmem
    rcases hmem with h | h
    · exact (List.mem_replicate.mp h).2
    · exact (List.mem_replicate.mp h).2
  exact absurd hspace (by decide)

/-- **Three overflows**: of the count that `%n` stores, of what `number` counts down, and of the
length of a string. -/
theorem segments_overflow :
    (∃ p : Printed, vsprintf (readAll fun _ => 0) (countFormat ++ [0]) [65, 65, 4096] = some p ∧
      p.str.length = 2 ^ 31 ∧ p.stored = [⟨4096, 4, -2 ^ 31⟩]) ∧
    (∃ p : Printed, vsprintf (readAll fun _ => 0) (preciseFormat ++ [0]) [1] = some p ∧
      p.str.length = 2 * (2 ^ 31 - 1)) ∧
    ∃ p : Printed, vsprintf (readAll longString) ([ch '%', ch 's'] ++ [0]) [0] = some p ∧
      ch 'A' ∉ p.str :=
  ⟨count_overflow, precision_overflow, string_overflow⟩

end IonOS.Libs
