import IonOS.Hel.Dsocket
import IonOS.Libs.Extent

/-!
# The log

`debug::printk`, and `k_hel_debug_impl`, through which a program writes to the log.
`vsprintf` is not told how long `debug::buf` is, and `len` is not passed on. What a
format needs can be added up beforehand, though, and so it can be said which calls
stay in their bounds.
-/

namespace IonOS.Hel

open IonOS.Lib IonOS.Libs

/-- `sizeof(debug::buf)`. -/
def bufSize : Nat := 4096

/-- What a call to `printk` leaves: the bytes from `buf` on that have been written, what went out on
the serial line, and what it returns. -/
structure Logged where
  buf : List UInt8
  serial : List UInt8
  len : Int
deriving DecidableEq, Repr

/-- A line feed takes a carriage return with it. -/
def serialByte (c : UInt8) : List UInt8 := if c = 10 then [13, c] else [c]

def printk (r : Readable) (fmt : List UInt8) (args : List Nat) : Option Logged :=
  (vsprintf r fmt args).map fun p =>
    let len := toInt p.str.length
    ⟨p.str ++ [0], (p.str.take len.toNat).flatMap serialByte, len⟩

/-- `k_hel_debug_kind`. -/
inductive DebugKind where
  | info | debug | warning | error
deriving DecidableEq, Repr

/-- The kind that a number stands for. -/
def DebugKind.ofInt (kind : Int) : Option DebugKind :=
  if kind = 1 then some .info
  else if kind = 2 then some .debug
  else if kind = 3 then some .warning
  else if kind = 4 then some .error
  else none

/-- What comes before the string. -/
def DebugKind.tag : DebugKind → List UInt8
  | .info => [ch '[', ch 'i', ch 'n', ch 'f', ch 'o', ch ']', ch ' ']
  | .debug => [ch '[', ch 'd', ch 'e', ch 'b', ch 'u', ch 'g', ch ']', ch ' ']
  | .warning =>
      [ch '[', ch 'w', ch 'a', ch 'r', ch 'n', ch 'i', ch 'n', ch 'g', ch ']', ch ' ']
  | .error => [ch '[', ch 'e', ch 'r', ch 'r', ch 'o', ch 'r', ch ']', ch ' ']

/-- `k_hel_debug_impl`. `len` is not looked at. -/
def kHelDebugImpl (r : Readable) (kind : Int) (strPtr _len : Nat) : Option (Nat × Option Logged) :=
  match DebugKind.ofInt kind with
  | none => some (HelError.invalidArgument.code, none)
  | some k =>
      (printk r (k.tag ++ [ch '%', ch 's'] ++ [0]) [strPtr]).map fun l => (sizeT l.len, some l)

/-- Only the `n` bytes at `a` may be read. -/
def within (u : Mem) (a n : Nat) : Readable := fun b =>
  if a ≤ b ∧ b < a + n then some (u b) else none

/-- The call reads nothing but the `len` bytes at `strPtr`, and writes to nothing but `buf`. -/
def DebugSafe (u : Mem) (kind : Int) (strPtr len : Nat) : Prop :=
  ∃ size log, kHelDebugImpl (within u strPtr len) kind strPtr len = some (size, log) ∧
    ∀ l, log = some l → l.buf.length ≤ bufSize

variable {u : Mem} {a s k n : Nat}

/-! ## What is read -/

theorem within_some (ha : a ≤ s) (hs : s < a + k) : within u a k s = some (u s) :=
  if_pos ⟨ha, hs⟩

theorem within_none (hs : a + k ≤ s) : within u a k s = none :=
  if_neg fun h => absurd h.2 (Nat.not_lt.mpr hs)

/-- The scan reads the NUL too. -/
theorem strnlenAt_within (ha : a ≤ s) :
    strnlenAt (within u a k) s n =
      if s + strnlen u s n < a + k then some (strnlen u s n) else none := by
  induction n generalizing s with
  | zero =>
    by_cases hs : s < a + k
    · rw [strnlenAt, within_some ha hs, strnlen, Nat.add_zero, if_pos hs]
      rfl
    · rw [strnlenAt, within_none (Nat.not_lt.mp hs), strnlen, Nat.add_zero, if_neg hs]
      rfl
  | succ n ih =>
    by_cases hs : s < a + k
    · rw [strnlenAt, within_some ha hs, Option.bind_some, strnlen]
      by_cases h0 : u s ≠ 0
      · rw [if_pos h0, if_pos h0, ih (Nat.le_succ_of_le ha)]
        by_cases hrest : s + 1 + strnlen u (s + 1) n < a + k
        · rw [if_pos hrest, if_pos (by omega), Option.map_some]
        · rw [if_neg hrest, if_neg (by omega), Option.map_none]
      · rw [if_neg h0, if_neg h0, Nat.add_zero, if_pos hs]
    · rw [strnlenAt, within_none (Nat.not_lt.mp hs), Option.bind_none, if_neg (by omega)]

theorem readBytes_within (ha : a ≤ s) (hs : s + n ≤ a + k) :
    readBytes (within u a k) s n = some (bytes u s n) := by
  induction n generalizing s with
  | zero => rfl
  | succ n ih =>
    rw [readBytes, within_some ha (by omega), Option.bind_some, ih (by omega) (by omega), bytes]
    rfl

/-! ## What is written -/

/-- Characters without a `%` among them are written as they are. -/
theorem items_chars {t cs : List UInt8} (ht : ch '%' ∉ t) :
    items (t ++ cs) = t.map Item.char ++ items cs := by
  induction t with
  | nil => rfl
  | cons c t ih =>
    rw [List.mem_cons, not_or] at ht
    rw [List.cons_append, items, if_neg (Ne.symm ht.1), ih ht.2]
    rfl

theorem render_chars (r : Readable) (t : List UInt8) (is : List Item) (st : Printed) :
    render r (t.map Item.char ++ is) st = render r is { st with str := st.str ++ t } := by
  induction t generalizing st with
  | nil => rw [List.append_nil]; rfl
  | cons c t ih =>
    rw [List.map_cons, List.cons_append, render, ih]
    simp only [List.append_assoc, List.singleton_append]

/-- "%s" behind some characters. -/
theorem vsprintf_string (r : Readable) {t : List UInt8} (h0 : 0 ∉ t) (ht : ch '%' ∉ t) (s : Nat) :
    vsprintf r (t ++ [ch '%', ch 's'] ++ [0]) [s] =
      (strnlenAt r s (2 ^ 64 - 1)).bind fun n =>
      (readBytes r s (int32 n).toNat).map fun text =>
        ⟨t ++ stringText false (-1) (int32 n) text, [], []⟩ := by
  have hzero : 0 ∉ t ++ [ch '%', ch 's'] := by
    intro h
    rcases List.mem_append.mp h with h | h
    · exact h0 h
    · exact absurd h (by decide)
  have hcut : Directive.cut [ch 's'] = (⟨[], .absent, none, none, some (ch 's')⟩, []) := by decide
  have hresolve : Directive.resolve ⟨[], .absent, none, none, some (ch 's')⟩ [s] =
      some (⟨flagsOf [], none, none, none, some (ch 's'), s⟩, []) := rfl
  have hsize : sizeT (-1) = 2 ^ 64 - 1 := by decide
  rw [vsprintf_eq r hzero, items_chars ht, render_chars, items_percent, hcut, items_nil, render,
    hresolve, Option.bind_some]
  dsimp only
  rw [Conversion.text]
  show Option.bind (convText r (flagsOf []) (-1) (-1) none (some (ch 's')) s) _ = _
  rw [convText, if_neg (by decide), if_pos rfl, hsize, Option.bind_assoc]
  refine Option.bind_congr fun n _ => ?_
  rw [Option.bind_map]
  cases readBytes r s (int32 n).toNat with
  | none => rfl
  | some text => rfl

theorem tag_plain (k : DebugKind) : 0 ∉ k.tag ∧ ch '%' ∉ k.tag := by
  cases k <;> decide

/-- No `int` that is kept is more than what it stands for. -/
theorem int32_toNat_le (n : Nat) : (int32 n).toNat ≤ n := by
  unfold int32
  rw [Int.bmod_def]
  omega

/-- What the string takes, if it is shorter than `2 ^ 31`. -/
theorem stringExtent_short (hn : n < 2 ^ 31) : stringExtent false (-1) n = n := by
  have hself : int32 n = n := int32_of_lt hn
  unfold stringExtent stringPadding
  rw [hself, if_neg (by omega)]
  omega

/-- **What fits into the log.** The items of the format can be added up. -/
theorem printk_length (m : Mem) {cs : List UInt8} (hcs : 0 ∉ cs) {args rest : List Nat}
    {ps : List Piece} (h : resolveAll (items cs) args = some (ps, rest)) :
    ∃ l, printk (readAll m) (cs ++ [0]) args = some l ∧
      l.buf.length = (ps.map (Piece.extent m)).sum + 1 := by
  refine ⟨_, congrArg (Option.map _) (vsprintf_written m hcs h), ?_⟩
  dsimp only
  rw [List.length_append, length_pieces, List.length_singleton]

section Call

variable {kind : Int} {d : DebugKind} {len : Nat}

/-- With the NUL among the `len` bytes, the call reads no others. -/
theorem kHelDebugImpl_some (hd : DebugKind.ofInt kind = some d)
    (hlen : strnlen u s (2 ^ 64 - 1) < len) :
    ∃ size l, kHelDebugImpl (within u s len) kind s len = some (size, some l) ∧
      l.buf.length = d.tag.length + stringExtent false (-1) (strnlen u s (2 ^ 64 - 1)) + 1 := by
  have htag := tag_plain d
  have hle := int32_toNat_le (strnlen u s (2 ^ 64 - 1))
  have hrange := int32_range (strnlen u s (2 ^ 64 - 1))
  have hprint := vsprintf_string (within u s len) htag.1 htag.2 s
  rw [strnlenAt_within (Nat.le_refl s), if_pos (Nat.add_lt_add_left hlen s), Option.bind_some,
    readBytes_within (Nat.le_refl s) (by omega), Option.map_some] at hprint
  rw [kHelDebugImpl, hd]
  dsimp only
  rw [printk, hprint]
  refine ⟨_, _, rfl, ?_⟩
  dsimp only
  rw [List.length_append, List.length_append, length_stringText (by decide) (by decide) hrange.1,
    length_bytes, List.length_singleton]
  rfl

/-- Otherwise it reads one that is not its own. -/
theorem kHelDebugImpl_none (hd : DebugKind.ofInt kind = some d)
    (hlen : len ≤ strnlen u s (2 ^ 64 - 1)) :
    kHelDebugImpl (within u s len) kind s len = none := by
  have htag := tag_plain d
  rw [kHelDebugImpl, hd]
  dsimp only
  rw [printk, vsprintf_string _ htag.1 htag.2, strnlenAt_within (Nat.le_refl s),
    if_neg (by omega)]
  rfl

theorem debugSafe_iff :
    DebugSafe u kind s len ↔ ∀ d, DebugKind.ofInt kind = some d →
      strnlen u s (2 ^ 64 - 1) < len ∧
        d.tag.length + stringExtent false (-1) (strnlen u s (2 ^ 64 - 1)) < bufSize := by
  cases hd : DebugKind.ofInt kind with
  | none =>
    refine iff_of_true ⟨HelError.invalidArgument.code, none, ?_, fun _ h => (nomatch h)⟩
      fun _ h => (nomatch h)
    rw [kHelDebugImpl, hd]
  | some d =>
    by_cases hlen : strnlen u s (2 ^ 64 - 1) < len
    · obtain ⟨size, l, hcall, hlength⟩ := kHelDebugImpl_some hd hlen
      constructor
      · intro ⟨_, _, hsafe, hfits⟩ d' hd'
        obtain rfl := Option.some.inj hd'
        obtain ⟨-, rfl⟩ := Prod.mk.inj (Option.some.inj (hcall.symm.trans hsafe))
        have := hfits l rfl
        exact ⟨hlen, by omega⟩
      · intro h
        have hroom := (h d rfl).2
        refine ⟨size, some l, hcall, fun l' hl' => ?_⟩
        obtain rfl := Option.some.inj hl'
        omega
    · have hcall := kHelDebugImpl_none hd (Nat.not_lt.mp hlen)
      refine iff_of_false ?_ fun h => hlen (h d rfl).1
      intro ⟨_, _, hsafe, _⟩
      exact nomatch hcall.symm.trans hsafe

end Call

/--
**Which calls stay in their bounds.**

A format with its words writes as much as its items need, and that must leave room for
the NUL in `buf`. `k_hel_debug` stays within the `len` bytes and `buf` exactly when the
string ends among them and is short enough for what is left of `buf` behind the tag.
-/
theorem log_bounded (m : Mem) :
    (∀ cs args ps rest, 0 ∉ cs → resolveAll (items cs) args = some (ps, rest) →
      ∃ l, printk (readAll m) (cs ++ [0]) args = some l ∧
        (l.buf.length ≤ bufSize ↔ (ps.map (Piece.extent m)).sum < bufSize)) ∧
    ∀ kind strPtr len, DebugSafe m kind strPtr len ↔ ∀ d, DebugKind.ofInt kind = some d →
      strnlen m strPtr (2 ^ 64 - 1) < len ∧
        d.tag.length + stringExtent false (-1) (strnlen m strPtr (2 ^ 64 - 1)) < bufSize := by
  refine ⟨fun cs args ps rest hcs h => ?_, fun kind strPtr len => debugSafe_iff⟩
  obtain ⟨l, hprint, hlength⟩ := printk_length m hcs h
  refine ⟨l, hprint, ?_⟩
  rw [hlength]
  exact Iff.rfl

/-! ## Runs -/

/-- A line of `n` characters at `0x400000`. -/
def userLine (n : Nat) : Mem := fun a => if a < 0x400000 + n then ch 'A' else 0

theorem strnlen_userLine (hn : n < 2 ^ 64 - 1) :
    strnlen (userLine n) 0x400000 (2 ^ 64 - 1) = n := by
  refine strnlen_eq hn (if_neg (Nat.lt_irrefl _)) fun i hi => ?_
  have hin : userLine n (0x400000 + i) = ch 'A' := if_pos (Nat.add_lt_add_left hi _)
  rw [hin]
  decide

/-- Five characters, and a format without a directive. -/
theorem log_bounded_five :
    DebugSafe (userLine 5) 1 0x400000 6 ∧
      ∃ l, printk (readAll (userLine 5)) ([ch 'o', ch 'k'] ++ [0]) [] = some l ∧
        l.buf.length ≤ bufSize := by
  have hitems : items [ch 'o', ch 'k'] = [.char (ch 'o'), .char (ch 'k')] := by
    rw [items, if_neg (by decide), items, if_neg (by decide), items_nil]
  have hall : resolveAll (items [ch 'o', ch 'k']) [] =
      some ([.char (ch 'o'), .char (ch 'k')], []) := by
    rw [hitems]
    rfl
  have hcalls := log_bounded (userLine 5)
  refine ⟨(hcalls.2 1 0x400000 6).mpr fun d hd => ?_, ?_⟩
  · obtain rfl := Option.some.inj hd
    rw [strnlen_userLine (by decide), stringExtent_short (by decide)]
    decide
  · obtain ⟨l, hprint, hroom⟩ := hcalls.1 _ _ _ _ (by decide) hall
    exact ⟨l, hprint, hroom.mpr (by decide)⟩

/-- **A long line leaves `buf`**, and a line that has no NUL among its `len` bytes is read on. -/
theorem log_overrun :
    (∃ size l, kHelDebugImpl (within (userLine 4096) 0x400000 4097) 1 0x400000 4097 =
      some (size, some l) ∧ bufSize < l.buf.length) ∧
    kHelDebugImpl (within (userLine 5) 0x400000 3) 1 0x400000 3 = none ∧
    ¬ DebugSafe (userLine 4096) 1 0x400000 4097 ∧ ¬ DebugSafe (userLine 5) 1 0x400000 3 := by
  have hinfo : DebugKind.ofInt 1 = some .info := rfl
  have hlong : strnlen (userLine 4096) 0x400000 (2 ^ 64 - 1) = 4096 := strnlen_userLine (by decide)
  have hfive : strnlen (userLine 5) 0x400000 (2 ^ 64 - 1) = 5 := strnlen_userLine (by decide)
  have hnone : kHelDebugImpl (within (userLine 5) 0x400000 3) 1 0x400000 3 = none :=
    kHelDebugImpl_none hinfo (by rw [hfive]; decide)
  obtain ⟨size, l, hcall, hlength⟩ :=
    kHelDebugImpl_some hinfo (show strnlen (userLine 4096) 0x400000 (2 ^ 64 - 1) < 4097 by
      rw [hlong]; decide)
  rw [hlong, stringExtent_short (by decide)] at hlength
  have htag : DebugKind.info.tag.length = 7 := rfl
  have hmore : bufSize < l.buf.length := by
    rw [hlength, htag]
    decide
  refine ⟨⟨size, l, hcall, hmore⟩, hnone, ?_, ?_⟩
  · intro ⟨_, _, hsafe, hfits⟩
    obtain ⟨-, rfl⟩ := Prod.mk.inj (Option.some.inj (hcall.symm.trans hsafe))
    exact Nat.not_le.mpr hmore (hfits l rfl)
  · intro ⟨_, _, hsafe, _⟩
    exact nomatch hnone.symm.trans hsafe

end IonOS.Hel
