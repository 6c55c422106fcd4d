import IonOS.Libs.Klibc
import IonOS.Libs.Number

/-!
# `vsprintf`

`buf` is what has been written so far, `fmt` the bytes from the pointer on, as far as
they may be read, and `args` the words that `va_arg` takes. Strings are read from
memory, of which a part may not be read. Neither that memory nor `fmt` is written, by
the bytes for `buf` or by `%n`.
-/

namespace IonOS.Libs

open IonOS.Lib

/-- Memory as it may be read. -/
abbrev Readable := Nat → Option UInt8

/-- All of it may be. -/
def readAll (m : Mem) : Readable := fun a => some (m a)

/-- What `%n` stores: `size` bytes at `ip`. -/
structure Stored where
  ip : Nat
  size : Nat
  value : Int
deriving DecidableEq, Repr

/-- The bytes from `buf` to `str`, the arguments left, and what has been stored elsewhere. -/
structure Printed where
  str : List UInt8
  args : List Nat
  stored : List Stored
deriving DecidableEq, Repr

def vaArg : List Nat → Option (Nat × List Nat)
  | [] => none
  | a :: args => some (a, args)

def isdigit (c : UInt8) : Bool := ch '0' ≤ c && c ≤ ch '9'

/-! ## The format -/

/-- `skip_atoi`. -/
def skipAtoi (i : Int) : List UInt8 → Option (Int × List UInt8)
  | [] => none
  | c :: fmt =>
      if isdigit c then skipAtoi (toInt (i * 10 + c.toNat - (ch '0').toNat)) fmt
      else some (i, c :: fmt)

/-- What is done between `repeat` and `goto repeat`. -/
def scanFlags (flags : Flags) : List UInt8 → Option (Flags × List UInt8)
  | [] => none
  | c :: fmt =>
      if c = ch '-' then scanFlags { flags with left := true } fmt
      else if c = ch '+' then scanFlags { flags with plus := true } fmt
      else if c = ch ' ' then scanFlags { flags with space := true } fmt
      else if c = ch '#' then scanFlags { flags with special := true } fmt
      else if c = ch '0' then scanFlags { flags with zeropad := true } fmt
      else some (flags, c :: fmt)

/-- "get field width". -/
def scanWidth (flags : Flags) (args : List Nat) :
    List UInt8 → Option (Int × Flags × List Nat × List UInt8)
  | [] => none
  | c :: fmt =>
      if isdigit c then (skipAtoi 0 (c :: fmt)).map fun (w, fmt) => (w, flags, args, fmt)
      else if c = ch '*' then
        (vaArg args).map fun (a, args) =>
          if int32 a < 0 then (toInt (-int32 a), { flags with left := true }, args, fmt)
          else (int32 a, flags, args, fmt)
      else some (-1, flags, args, c :: fmt)

/-- What may follow the dot. -/
def scanAfterDot (args : List Nat) : List UInt8 → Option (Int × List Nat × List UInt8)
  | [] => none
  | c :: fmt =>
      if isdigit c then (skipAtoi 0 (c :: fmt)).map fun (p, fmt) => (p, args, fmt)
      else if c = ch '*' then (vaArg args).map fun (a, args) => (int32 a, args, fmt)
      else some (-1, args, c :: fmt)

/-- "get the precision". -/
def scanPrecision (args : List Nat) : List UInt8 → Option (Int × List Nat × List UInt8)
  | [] => none
  | c :: fmt =>
      if c = ch '.' then
        (scanAfterDot args fmt).map fun (p, args, fmt) => (if p < 0 then 0 else p, args, fmt)
      else some (-1, args, c :: fmt)

/-- "get the conversion qualifier". -/
def scanQualifier : List UInt8 → Option (Option UInt8 × List UInt8)
  | [] => none
  | c :: fmt =>
      if c = ch 'h' ∨ c = ch 'l' ∨ c = ch 'L' then some (some c, fmt) else some (none, c :: fmt)

/-! ## Conversions -/

/-- `while (w > 0) { *str++ = c; --w; }`. -/
def countDown (c : UInt8) (w : Int) : List UInt8 × Int :=
  if 0 < w then
    let rest := countDown c (w - 1)
    (c :: rest.1, rest.2)
  else ([], w)
termination_by w.toNat

/-- `while (--w > 0) *str++ = c;`. -/
def whileBefore (c : UInt8) (w : Int) : List UInt8 × Int := countDown c (toInt (w - 1))

/-- `strnlen`, which looks at the byte before it looks at `maxlen`. -/
def strnlenAt (r : Readable) (s : Nat) : Nat → Option Nat
  | 0 => (r s).map fun _ => 0
  | n + 1 => (r s).bind fun c =>
      if c ≠ 0 then (strnlenAt r (s + 1) n).map (· + 1) else some 0

/-- `n` times `*str++ = *s++`. -/
def readBytes (r : Readable) (s : Nat) : Nat → Option (List UInt8)
  | 0 => some []
  | n + 1 => (r s).bind fun c => (readBytes r (s + 1) n).map (c :: ·)

/-- `base` and `flags` for the formats of integers. -/
def integerFormat (flags : Flags) (c : UInt8) : Option (Nat × Flags) :=
  if c = ch 'o' then some (8, flags)
  else if c = ch 'x' then some (16, { flags with small := true })
  else if c = ch 'X' then some (16, flags)
  else if c = ch 'd' ∨ c = ch 'i' then some (10, { flags with sign := true })
  else if c = ch 'u' then some (10, flags)
  else none

/-- The `num` that an argument word stands for. -/
def integerArg (flags : Flags) (qualifier : Option UInt8) (a : Nat) : Int :=
  if qualifier = some (ch 'l') then toLong a
  else if qualifier = some (ch 'h') then
    if flags.sign then Int.bmod a (2 ^ 16) else (a % 2 ^ 16 : Nat)
  else if flags.sign then int32 a
  else (a % 2 ^ 32 : Nat)

/-- `case 'c'`. -/
def convertChar (flags : Flags) (width : Int) (st : Printed) : Option Printed :=
  let (pad, width) := if ¬ flags.left then whileBefore (ch ' ') width else ([], width)
  (vaArg st.args).map fun (a, args) =>
    { st with
      str := st.str ++ pad ++ [UInt8.ofNat a] ++ (whileBefore (ch ' ') width).1
      args := args }

/-- `case 's'`. -/
def convertString (r : Readable) (flags : Flags) (width precision : Int) (st : Printed) :
    Option Printed :=
  (vaArg st.args).bind fun (s, args) =>
  (strnlenAt r s (sizeT precision)).bind fun n =>
    let len := int32 n
    let (pad, width) := if ¬ flags.left then whileAbove (ch ' ') len width else ([], width)
    (readBytes r s len.toNat).map fun text =>
      { st with str := st.str ++ pad ++ text ++ (whileAbove (ch ' ') len width).1, args := args }

/-- `case 'p'`. -/
def convertPointer (flags : Flags) (width precision : Int) (st : Printed) : Option Printed :=
  let (width, flags) := if width = -1 then (16, { flags with zeropad := true }) else (width, flags)
  (vaArg st.args).bind fun (a, args) =>
  (number st.str (toLong a) 16 width precision flags).map fun str =>
    { st with str := str, args := args }

/-- `case 'n'`. -/
def convertCount (qualifier : Option UInt8) (st : Printed) : Option Printed :=
  (vaArg st.args).map fun (ip, args) =>
    let stored : Stored :=
      if qualifier = some (ch 'l') then ⟨ip, 8, toLong st.str.length⟩
      else ⟨ip, 4, toInt st.str.length⟩
    { st with args := args, stored := st.stored ++ [stored] }

/-- The formats of integers. -/
def convertInteger (base : Nat) (flags : Flags) (width precision : Int) (qualifier : Option UInt8)
    (st : Printed) : Option Printed :=
  (vaArg st.args).bind fun (a, args) =>
  (number st.str (integerArg flags qualifier a) base width precision flags).map fun str =>
    { st with str := str, args := args }

/-- The `switch` on the format's character, with where `++fmt` leads afterwards. -/
def convert (r : Readable) (flags : Flags) (width precision : Int) (qualifier : Option UInt8)
    (st : Printed) : List UInt8 → Option (Printed × List UInt8)
  | [] => none
  | c :: fmt =>
      if c = ch 'c' then (convertChar flags width st).map (·, fmt)
      else if c = ch 's' then (convertString r flags width precision st).map (·, fmt)
      else if c = ch 'p' then (convertPointer flags width precision st).map (·, fmt)
      else if c = ch 'n' then (convertCount qualifier st).map (·, fmt)
      else if c = ch '%' then some ({ st with str := st.str ++ [ch '%'] }, fmt)
      else
        match integerFormat flags c with
        | some (base, flags) =>
            (convertInteger base flags width precision qualifier st).map (·, fmt)
        | none =>
            if c ≠ 0 then some ({ st with str := st.str ++ [ch '%'] ++ [c] }, fmt)
            -- `--fmt` takes back the `++fmt` that follows
            else some ({ st with str := st.str ++ [ch '%'] }, c :: fmt)

/-- A `%` and what follows. -/
def directive (r : Readable) (st : Printed) (fmt : List UInt8) : Option (Printed × List UInt8) := do
  let (flags, fmt) ← scanFlags ⟨false, false, false, false, false, false, false⟩ fmt
  let (width, flags, args, fmt) ← scanWidth flags st.args fmt
  let (precision, args, fmt) ← scanPrecision args fmt
  let (qualifier, fmt) ← scanQualifier fmt
  convert r flags width precision qualifier { st with args := args } fmt

/-- The loop of `vsprintf`, which goes around at most `fuel` times. -/
def vsprintfLoop (r : Readable) : Nat → Printed → List UInt8 → Option Printed
  | 0, _, _ => none
  | _, _, [] => none
  | fuel + 1, st, c :: fmt =>
      if c = 0 then some st
      else if c ≠ ch '%' then vsprintfLoop r fuel { st with str := st.str ++ [c] } fmt
      else (directive r st fmt).bind fun (st, fmt) => vsprintfLoop r fuel st fmt

/-- `vsprintf`. Each turn takes a byte of the format at least. Behind `str` comes a NUL. -/
def vsprintf (r : Readable) (fmt : List UInt8) (args : List Nat) : Option Printed :=
  vsprintfLoop r fmt.length ⟨[], args, []⟩ fmt

end IonOS.Libs
