import BriseDB.Base.Json
import BriseDB.Base.Parser

/-!
# Reading JSON

`json.Unmarshal` reads a text with an automaton for strings and one for numbers, and takes
objects and arrays apart recursively up to a fixed depth.  Strings are then unquoted: escapes
are resolved and what is not UTF-8 is replaced.

A string that was written comes back as `sanitize` gives it.  An object that has been read
stays what it is when more text follows, so no text of an object is the front of another one.
-/

namespace BriseDB.Json

open TokenParser

/-- A JSON value.  A number is kept as it was written. -/
inductive Value where
  | null
  | bool (value : Bool)
  | number (literal : Bytes)
  | string (text : Bytes)
  | array (items : List Value)
  | object (members : List (Bytes × Value))

/-! ## Strings -/

/-- Where the scanner is in a string. -/
inductive StringState where
  | plain
  | escape
  | hex (left : Nat)
  | closed
  deriving DecidableEq

namespace StringState

/-- A hexadecimal digit. -/
def isHex (byte : UInt8) : Bool :=
  48 ≤ byte && byte ≤ 57 || 65 ≤ byte && byte ≤ 70 || 97 ≤ byte && byte ≤ 102

/-- The scanner takes one byte of a string. -/
def step : StringState → UInt8 → Option StringState
  | plain, byte =>
      if byte = 34 then some closed
      else if byte = 92 then some escape
      else if byte < 32 then none
      else some plain
  | escape, byte =>
      if byte = 117 then some (hex 3)
      else if byte ∈ [34, 92, 47, 98, 102, 110, 114, 116] then some plain
      else none
  | hex 0, byte => if isHex byte then some plain else none
  | hex (left + 1), byte => if isHex byte then some (hex left) else none
  | closed, _ => none

/-- The string has ended. -/
def isClosed (state : StringState) : Bool :=
  state = closed

end StringState

/-- The value of a hexadecimal digit. -/
def hexValue (byte : UInt8) : Nat :=
  if byte ≤ 57 then byte.toNat - 48
  else if byte ≤ 70 then byte.toNat - 55
  else byte.toNat - 87

/-- The number that hexadecimal digits stand for. -/
def hexNumber (digits : Bytes) : Nat :=
  digits.foldl (fun number digit => number * 16 + hexValue digit) 0

/-- The UTF-8 sequence of a code point. -/
def utf8 (code : Nat) : Bytes :=
  if code < 0x80 then [UInt8.ofNat code]
  else if code < 0x800 then [UInt8.ofNat (0xC0 + code / 64), UInt8.ofNat (0x80 + code % 64)]
  else if code < 0x10000 then
    [UInt8.ofNat (0xE0 + code / 4096), UInt8.ofNat (0x80 + code / 64 % 64),
      UInt8.ofNat (0x80 + code % 64)]
  else
    [UInt8.ofNat (0xF0 + code / 262144), UInt8.ofNat (0x80 + code / 4096 % 64),
      UInt8.ofNat (0x80 + code / 64 % 64), UInt8.ofNat (0x80 + code % 64)]

/-- U+FFFD. -/
def replacement : Bytes :=
  [0xEF, 0xBF, 0xBD]

/-- What follows a backslash: the text it stands for and the number of bytes it takes.  Two
escaped surrogates make up one code point, and a surrogate by itself is replaced. -/
def unescape : Bytes → Bytes × Nat
  | [] => ([], 0)
  | kind :: rest =>
      if kind = 117 then
        let code := hexNumber (rest.take 4)
        let low := hexNumber ((rest.drop 6).take 4)
        if code < 0xD800 ∨ 0xE000 ≤ code then (utf8 code, 5)
        else if code < 0xDC00 ∧ (rest.drop 4).take 2 = [92, 117] ∧ 0xDC00 ≤ low ∧ low < 0xE000 then
          (utf8 (0x10000 + (code - 0xD800) * 0x400 + (low - 0xDC00)), 11)
        else (replacement, 5)
      else if kind = 98 then ([8], 1)
      else if kind = 102 then ([12], 1)
      else if kind = 110 then ([10], 1)
      else if kind = 114 then ([13], 1)
      else if kind = 116 then ([9], 1)
      else ([kind], 1)

/-- The text between the quotes of a string.  The fuel is the number of bytes left. -/
def unquoteFrom : Nat → Bytes → Bytes
  | 0, _ => []
  | _ + 1, [] => []
  | fuel + 1, first :: rest =>
      if first = 92 then
        (unescape rest).1 ++ unquoteFrom fuel (rest.drop (unescape rest).2)
      else
        match runeLength (first :: rest) with
        | 0 => replacement ++ unquoteFrom fuel rest
        | more + 1 => (first :: rest.take more) ++ unquoteFrom fuel (rest.drop more)

/-- The text between the quotes of a string. -/
def unquote (body : Bytes) : Bytes :=
  unquoteFrom body.length body

/-- A string without its opening quote. -/
def stringBody : TokenParser UInt8 Bytes := do
  let body ← munch StringState.step StringState.isClosed .plain
  pure (unquote body.dropLast)

/-! ## Numbers -/

/-- Where the scanner is in a number. -/
inductive NumberState where
  | start
  | minus
  | zero
  | digits
  | point
  | fraction
  | exponent
  | sign
  | power
  deriving DecidableEq

namespace NumberState

/-- A decimal digit. -/
def isDigit (byte : UInt8) : Bool :=
  48 ≤ byte && byte ≤ 57

/-- The scanner takes one byte of a number. -/
def step : NumberState → UInt8 → Option NumberState
  | start, byte =>
      if byte = 45 then some minus
      else if byte = 48 then some zero
      else if isDigit byte then some digits
      else none
  | minus, byte =>
      if byte = 48 then some zero
      else if isDigit byte then some digits
      else none
  | zero, byte =>
      if byte = 46 then some point
      else if byte = 101 ∨ byte = 69 then some exponent
      else none
  | digits, byte =>
      if isDigit byte then some digits
      else if byte = 46 then some point
      else if byte = 101 ∨ byte = 69 then some exponent
      else none
  | point, byte => if isDigit byte then some fraction else none
  | fraction, byte =>
      if isDigit byte then some fraction
      else if byte = 101 ∨ byte = 69 then some exponent
      else none
  | exponent, byte =>
      if byte = 43 ∨ byte = 45 then some sign
      else if isDigit byte then some power
      else none
  | sign, byte => if isDigit byte then some power else none
  | power, byte => if isDigit byte then some power else none

/-- The number may end here. -/
def isFinal : NumberState → Bool
  | zero | digits | fraction | power => true
  | start | minus | point | exponent | sign => false

end NumberState

/-! ## Values -/

/-- Space between tokens. -/
def isSpace (byte : UInt8) : Bool :=
  byte = 32 || byte = 9 || byte = 13 || byte = 10

/-- Pass over space. -/
def space : TokenParser UInt8 Unit := do
  let _ ← munch (fun (_ : Unit) byte => if isSpace byte then some () else none) (fun _ => true) ()
  pure ()

/-- Take a given byte. -/
def expect (byte : UInt8) : TokenParser UInt8 Unit := do
  let found ← next
  if found = byte then pure () else fail

/-- Take given bytes. -/
def expectAll : Bytes → TokenParser UInt8 Unit
  | [] => pure ()
  | byte :: bytes => do
      expect byte
      expectAll bytes

/-- A value with space around it. -/
def spaced {α : Type} (value : TokenParser UInt8 α) : TokenParser UInt8 α := do
  space
  let found ← value
  space
  pure found

/-- A member of an object. -/
def member (value : TokenParser UInt8 Value) : TokenParser UInt8 (Bytes × Value) := do
  space
  expect 34
  let name ← stringBody
  space
  expect 58
  let found ← spaced value
  pure (name, found)

/-- What comes after an opening bracket. -/
def block {α : Type} (item : TokenParser UInt8 α) (close : UInt8) : TokenParser UInt8 (List α)
  | [] => none
  | byte :: rest =>
      if byte = close then some ([], rest) else items item 44 close (byte :: rest)

/-- A value, given the parser of the values inside it. -/
def valueWith (nested : Option (TokenParser UInt8 Value)) : TokenParser UInt8 Value := do
  let first ← next
  if first = 34 then do
    let text ← stringBody
    pure (.string text)
  else if first = 123 then
    match nested with
    | none => fail
    | some value => do
        space
        let members ← block (member value) 125
        pure (.object members)
  else if first = 91 then
    match nested with
    | none => fail
    | some value => do
        space
        let values ← block (spaced value) 93
        pure (.array values)
  else if first = 116 then do
    expectAll [114, 117, 101]
    pure (.bool true)
  else if first = 102 then do
    expectAll [97, 108, 115, 101]
    pure (.bool false)
  else if first = 110 then do
    expectAll [117, 108, 108]
    pure .null
  else
    match NumberState.step .start first with
    | none => fail
    | some state => do
        let others ← munch NumberState.step NumberState.isFinal state
        pure (.number (first :: others))

/-- A value that nests at most `depth` objects and arrays. -/
def value : Nat → TokenParser UInt8 Value
  | 0 => valueWith none
  | depth + 1 => valueWith (some (value depth))

/-- The depth that `encoding/json` allows. -/
def maxNestingDepth : Nat :=
  10000

/-- A text that is one value. -/
def parse (text : Bytes) : Option Value :=
  match spaced (value maxNestingDepth) text with
  | some (found, []) => some found
  | _ => none

/-! ## Strings that were written -/

theorem hexDigit_reads {digit : UInt8} (less : digit < 16) :
    StringState.isHex (hexDigit digit) = true ∧ hexValue (hexDigit digit) = digit.toNat := by
  have all : ∀ number < 16, StringState.isHex (hexDigit (UInt8.ofNat number)) = true ∧
      hexValue (hexDigit (UInt8.ofNat number)) = number := by
    decide
  simpa using all digit.toNat less

theorem halves_lt (byte : UInt8) : byte / 16 < 16 ∧ byte % 16 < 16 := by
  refine ⟨?_, UInt8.mod_lt _ (by decide)⟩
  have less := byte.toNat_lt
  rw [UInt8.lt_iff_toNat_lt, UInt8.toNat_div]
  simp only [UInt8.reduceToNat]
  omega

/-- The escape of a control character or of a character that is special in HTML. -/
theorem hexNumber_escape (byte : UInt8) :
    hexNumber [48, 48, hexDigit (byte / 16), hexDigit (byte % 16)] = byte.toNat := by
  rcases halves_lt byte with ⟨quotient, remainder⟩
  have zero : hexValue 48 = 0 := by decide
  simp only [hexNumber, List.foldl_cons, List.foldl_nil, (hexDigit_reads quotient).2,
    (hexDigit_reads remainder).2, zero, UInt8.toNat_div, UInt8.toNat_mod, UInt8.reduceToNat]
  omega

theorem foldlM_plain {bytes : Bytes} (high : ∀ byte ∈ bytes, 0x80 ≤ byte) :
    bytes.foldlM StringState.step .plain = some .plain := by
  induction bytes with
  | nil => rfl
  | cons byte bytes ih =>
      have above := high byte List.mem_cons_self
      have notQuote : byte ≠ 34 := by rintro rfl; exact absurd above (by decide)
      have notBackslash : byte ≠ 92 := by rintro rfl; exact absurd above (by decide)
      have notControl : ¬ byte < 32 := fun less =>
        absurd (UInt8.lt_of_lt_of_le less (show 32 ≤ 0x80 by decide)) (UInt8.not_lt.mpr above)
      rw [List.foldlM_cons, StringState.step, if_neg notQuote, if_neg notBackslash,
        if_neg notControl]
      exact ih fun byte mem => high byte (List.mem_cons_of_mem _ mem)

theorem unquoteFrom_rune {rune : Bytes} (isRune : IsRune rune) (notBackslash : 92 ∉ rune)
    (fuel : Nat) (rest : Bytes) :
    unquoteFrom (fuel + 1) (rune ++ rest) = rune ++ unquoteFrom fuel rest := by
  have lengthEq := isRune.runeLength_append rest
  cases rune with
  | nil => exact absurd rfl isRune.nonempty
  | cons first tail =>
      have notFirst : first ≠ 92 := fun isFirst => notBackslash (isFirst ▸ List.mem_cons_self)
      rw [List.cons_append] at lengthEq ⊢
      rw [unquoteFrom, if_neg notFirst, lengthEq]
      simp

/-- An escape by four hexadecimal digits, surrogates apart. -/
theorem unquoteFrom_unicode {digits : Bytes} (four : digits.length = 4)
    (single : hexNumber digits < 0xD800 ∨ 0xE000 ≤ hexNumber digits) (fuel : Nat) (rest : Bytes) :
    unquoteFrom (fuel + 1) (92 :: 117 :: digits ++ rest) =
      utf8 (hexNumber digits) ++ unquoteFrom fuel rest := by
  have front : (digits ++ rest).take 4 = digits := by
    rw [← four, List.take_left]
  have unescaped : unescape (117 :: (digits ++ rest)) = (utf8 (hexNumber digits), 5) := by
    rw [unescape, if_pos rfl, front, if_pos single]
  have back : (117 :: (digits ++ rest)).drop 5 = rest := by
    rw [List.drop_succ_cons, ← four, List.drop_left]
  rw [List.cons_append, List.cons_append, unquoteFrom, if_pos rfl, unescaped, back]

/-- What is written for a UTF-8 sequence stays inside the string, and is unquoted to the
sequence. -/
theorem escapeRune_reads {rune : Option Bytes}
    (isRune : ∀ bytes, rune = some bytes → IsRune bytes) :
    (escapeRune rune).foldlM StringState.step .plain = some .plain ∧
      ∀ fuel rest, unquoteFrom (fuel + 1) (escapeRune rune ++ rest) =
        rune.getD replacement ++ unquoteFrom fuel rest := by
  unfold escapeRune
  split
  · exact ⟨by decide, @unquoteFrom_unicode [102, 102, 102, 100] rfl (by decide)⟩
  · next byte =>
    split
    · next special => rcases special with rfl | rfl <;> exact ⟨by decide, fun _ _ => rfl⟩
    next notQuoted =>
    split
    · next special => subst special; exact ⟨by decide, fun _ _ => rfl⟩
    split
    · next special => subst special; exact ⟨by decide, fun _ _ => rfl⟩
    split
    · next special => subst special; exact ⟨by decide, fun _ _ => rfl⟩
    split
    · next special => subst special; exact ⟨by decide, fun _ _ => rfl⟩
    split
    · next special => subst special; exact ⟨by decide, fun _ _ => rfl⟩
    split
    · next special =>
      have low : byte.toNat < 0x80 := by
        rcases special with less | rfl | rfl | rfl
        · exact Nat.lt_trans less (by decide)
        all_goals decide
      have digits := hexNumber_escape byte
      refine ⟨?_, fun fuel rest => ?_⟩
      · rcases halves_lt byte with ⟨quotient, remainder⟩
        have front : (ascii "\\u00").foldlM StringState.step .plain = some (.hex 1) := by decide
        rw [List.foldlM_append, front]
        simp [StringState.step, (hexDigit_reads quotient).1, (hexDigit_reads remainder).1]
      · refine (@unquoteFrom_unicode [48, 48, hexDigit (byte / 16), hexDigit (byte % 16)] rfl
          (.inl (by omega)) fuel rest).trans ?_
        rw [digits, utf8, if_pos low, UInt8.ofNat_toNat]
        rfl
    · next plain =>
      rw [not_or] at notQuoted
      refine ⟨?_, unquoteFrom_rune (isRune _ rfl) (by simpa using Ne.symm notQuoted.2)⟩
      rw [List.foldlM_cons, StringState.step, if_neg notQuoted.1, if_neg notQuoted.2,
        if_neg fun less => plain (.inl less)]
      rfl
  · next bytes many =>
    have whole := isRune bytes rfl
    have high : ∀ byte ∈ bytes, 0x80 ≤ byte :=
      whole.ascii_or_high.resolve_left fun ⟨byte, isByte, _⟩ => many byte isByte
    split
    · next special =>
        subst special
        exact ⟨by decide, @unquoteFrom_unicode [50, 48, 50, 56] rfl (by decide)⟩
    split
    · next special =>
        subst special
        exact ⟨by decide, @unquoteFrom_unicode [50, 48, 50, 57] rfl (by decide)⟩
    · exact ⟨foldlM_plain high, unquoteFrom_rune whole fun mem => absurd (high 92 mem) (by decide)⟩

theorem escaped_reads {list : List (Option Bytes)}
    (areRunes : ∀ bytes, some bytes ∈ list → IsRune bytes) :
    (list.flatMap escapeRune).foldlM StringState.step .plain = some .plain ∧
      ∀ fuel, list.length ≤ fuel → unquoteFrom fuel (list.flatMap escapeRune) =
        list.flatMap fun rune => rune.getD replacement := by
  induction list with
  | nil => exact ⟨rfl, fun fuel _ => by cases fuel <;> rfl⟩
  | cons rune list ih =>
      rcases ih fun bytes mem => areRunes bytes (List.mem_cons_of_mem _ mem) with ⟨path, unquoted⟩
      rcases @escapeRune_reads rune fun bytes isBytes =>
        areRunes bytes (isBytes ▸ List.mem_cons_self) with ⟨first, firstUnquoted⟩
      refine ⟨?_, fun fuel enough => ?_⟩
      · rw [List.flatMap_cons, List.foldlM_append, first]
        exact path
      · cases fuel with
        | zero => simp at enough
        | succ fuel =>
            rw [List.flatMap_cons, firstUnquoted, unquoted fuel (Nat.le_of_succ_le_succ enough),
              List.flatMap_cons]

theorem stringBody_append {body : Bytes} (path : body.foldlM StringState.step .plain = some .plain)
    (rest : Bytes) : stringBody (body ++ 34 :: rest) = some (unquote body, rest) := by
  have closes : (body ++ [34]).foldlM StringState.step .plain = some .closed := by
    rw [List.foldlM_append, path]
    rfl
  have scanned : munch StringState.step StringState.isClosed .plain (body ++ 34 :: rest) =
      some (body ++ [34], rest) :=
    (munch_eq_some _ _).mpr ⟨by simp, .closed, closes, by decide, fun _ _ => rfl⟩
  refine (bind_of_some scanned _).trans ?_
  rw [List.dropLast_concat]
  rfl

theorem length_le_flatMap_escapeRune (list : List (Option Bytes))
    (areRunes : ∀ bytes, some bytes ∈ list → IsRune bytes) :
    list.length ≤ (list.flatMap escapeRune).length := by
  induction list with
  | nil => exact le_rfl
  | cons rune list ih =>
      have rest := ih fun bytes mem => areRunes bytes (List.mem_cons_of_mem _ mem)
      have one : 1 ≤ (escapeRune rune).length := by
        cases rune with
        | none => decide
        | some bytes =>
            have atLeast := length_le_escapeRune bytes
            have nonempty := List.length_pos_iff.mpr (areRunes bytes List.mem_cons_self).nonempty
            omega
      rw [List.flatMap_cons, List.length_append, List.length_cons]
      omega

/-- A string that was written is read as `sanitize` gives it. -/
theorem stringBody_quoted (bytes rest : Bytes) :
    stringBody ((runes bytes).flatMap escapeRune ++ 34 :: rest) = some (sanitize bytes, rest) := by
  have areRunes : ∀ rune, some rune ∈ runes bytes → IsRune rune := fun _ => isRune_of_mem
  rcases escaped_reads areRunes with ⟨path, unquoted⟩
  rw [stringBody_append path, unquote,
    unquoted _ (length_le_flatMap_escapeRune _ areRunes)]
  rfl

/-! ## Values that were written -/

theorem space_of_none {text : Bytes} (noSpace : ∀ byte ∈ text.head?, isSpace byte = false) :
    space text = some ((), text) := by
  refine (@bind_of_some _ _ _ (munch _ _ ()) text text [] ?_ _).trans rfl
  refine (munch_eq_some _ _).mpr ⟨rfl, (), rfl, rfl, fun byte mem => ?_⟩
  simp [noSpace byte mem]

theorem valueWith_string {nested : Option (TokenParser UInt8 Value)} (bytes rest : Bytes) :
    valueWith nested (quote bytes ++ rest) = some (.string (sanitize bytes), rest) := by
  have body := stringBody_quoted bytes rest
  have shape : quote bytes ++ rest = 34 :: ((runes bytes).flatMap escapeRune ++ 34 :: rest) := by
    simp [quote]
  rw [shape]
  refine (bind_of_some rfl _).trans ?_
  rw [if_pos rfl]
  exact bind_of_some body _

theorem ne_of_step {first byte : UInt8} {state : NumberState}
    (isState : NumberState.step .start first = some state)
    (isNone : NumberState.step .start byte = none) : first ≠ byte := by
  rintro rfl
  rw [isNone] at isState
  cases isState

theorem valueWith_number {nested : Option (TokenParser UInt8 Value)} {first : UInt8}
    {others rest : Bytes} {last : NumberState}
    (path : (first :: others).foldlM NumberState.step .start = some last)
    (isFinal : last.isFinal = true) (stuck : ∀ byte ∈ rest.head?, last.step byte = none) :
    valueWith nested (first :: others ++ rest) = some (.number (first :: others), rest) := by
  rw [List.foldlM_cons] at path
  rcases Option.bind_eq_some_iff.mp path with ⟨state, isState, path⟩
  refine (bind_of_some rfl _).trans ?_
  rw [if_neg (ne_of_step isState rfl), if_neg (ne_of_step isState rfl),
    if_neg (ne_of_step isState rfl), if_neg (ne_of_step isState rfl),
    if_neg (ne_of_step isState rfl), if_neg (ne_of_step isState rfl)]
  simp only [isState]
  exact bind_of_some ((munch_eq_some _ _).mpr ⟨rfl, last, path, isFinal, stuck⟩) _

theorem digitBytes_path {state : NumberState} (starts : state = .start ∨ state = .minus)
    {number : Nat} (positive : 0 < number) :
    (digitBytes number).foldlM NumberState.step state = some .digits := by
  induction number using Nat.strong_induction_on with
  | _ number ih =>
      rcases Nat.lt_or_ge number 10 with less | atLeast
      · rw [digitBytes_of_lt less]
        have all : ∀ number < 10, 0 < number →
            NumberState.step .start (UInt8.ofNat (48 + number)) = some .digits ∧
            NumberState.step .minus (UInt8.ofNat (48 + number)) = some .digits := by
          decide
        rcases starts with rfl | rfl
        · rw [List.foldlM_cons, (all number less positive).1]
          rfl
        · rw [List.foldlM_cons, (all number less positive).2]
          rfl
      · have all : ∀ number < 10,
            NumberState.step .digits (UInt8.ofNat (48 + number)) = some .digits := by
          decide
        rw [digitBytes_of_le atLeast, List.foldlM_append, ih (number / 10) (by omega) (by omega)]
        change (NumberState.step .digits _ >>= fun state => [].foldlM NumberState.step state) = _
        rw [all (number % 10) (by omega)]
        rfl

theorem decimal_path {number : Int} (nonzero : number ≠ 0) :
    (decimal number).foldlM NumberState.step .start = some .digits := by
  change ((if number < 0 then [45] else []) ++ digitBytes number.natAbs).foldlM _ _ = _
  split
  · rw [List.singleton_append, List.foldlM_cons]
    exact digitBytes_path (.inr rfl) (by omega)
  · exact digitBytes_path (.inl rfl) (by omega)

/-- A number other than 0 that was written and is followed by a comma or a bracket. -/
theorem valueWith_decimal {nested : Option (TokenParser UInt8 Value)} {number : Int}
    (nonzero : number ≠ 0) {rest : Bytes}
    (stuck : ∀ byte ∈ rest.head?, NumberState.step .digits byte = none) :
    valueWith nested (decimal number ++ rest) = some (.number (decimal number), rest) := by
  have path := decimal_path nonzero
  cases shape : decimal number with
  | nil =>
      rw [shape] at path
      cases path
  | cons first others =>
      rw [shape] at path
      exact valueWith_number path rfl stuck

/-! ### Objects -/

/-- The text is read as the value when a comma or the end of the object follows. -/
def Reads (parser : TokenParser UInt8 Value) (text : Bytes) (found : Value) : Prop :=
  text ≠ [] ∧ (∀ byte ∈ text.head?, isSpace byte = false) ∧
    ∀ rest, (∀ byte ∈ rest.head?, byte = 44 ∨ byte = 125) →
      parser (text ++ rest) = some (found, rest)

theorem reads_string (depth : Nat) (bytes : Bytes) :
    Reads (value depth) (quote bytes) (.string (sanitize bytes)) := by
  refine ⟨by simp [quote], ?_, fun rest _ => ?_⟩
  · intro byte mem
    obtain rfl := Option.some.inj mem
    rfl
  · cases depth <;> exact valueWith_string bytes rest

theorem number_noSpace {text : Bytes} {last : NumberState}
    (path : text.foldlM NumberState.step .start = some last) :
    ∀ byte ∈ text.head?, isSpace byte = false := by
  intro byte mem
  cases text with
  | nil => cases mem
  | cons first rest =>
      obtain rfl := Option.some.inj mem
      rw [List.foldlM_cons] at path
      rcases Option.bind_eq_some_iff.mp path with ⟨state, isState, -⟩
      have differs : ∀ byte, NumberState.step .start byte = none → first ≠ byte :=
        fun _ => ne_of_step isState
      simp [isSpace, differs 32 rfl, differs 9 rfl, differs 13 rfl, differs 10 rfl]

theorem reads_decimal (depth : Nat) {number : Int} (nonzero : number ≠ 0) :
    Reads (value depth) (decimal number) (.number (decimal number)) := by
  refine ⟨?_, number_noSpace (decimal_path nonzero), fun rest follows => ?_⟩
  · intro empty
    exact digitBytes_ne_nil _ (List.append_eq_nil_iff.mp empty).2
  · have stuck : ∀ byte ∈ rest.head?, NumberState.step .digits byte = none := by
      intro byte mem
      rcases follows byte mem with rfl | rfl <;> rfl
    cases depth <;> exact valueWith_decimal nonzero stuck

/-- A name that is written without escapes. -/
def PlainName (name : Bytes) : Prop :=
  name.foldlM StringState.step .plain = some .plain ∧ unquote name = name

instance (name : Bytes) : Decidable (PlainName name) :=
  inferInstanceAs (Decidable (_ ∧ _))

/-- The text of a member. -/
def memberText (name text : Bytes) : Bytes :=
  34 :: name ++ 34 :: 58 :: text

theorem member_reads {parser : TokenParser UInt8 Value} {name text rest : Bytes} {found : Value}
    (plain : PlainName name) (reads : Reads parser text found)
    (follows : ∀ byte ∈ rest.head?, byte = 44 ∨ byte = 125) :
    member parser (memberText name text ++ rest) = some ((name, found), rest) := by
  rcases reads with ⟨nonempty, noSpace, reads⟩
  have shape : memberText name text ++ rest = 34 :: (name ++ 34 :: (58 :: (text ++ rest))) := by
    simp [memberText]
  have textFront : ∀ byte ∈ (text ++ rest).head?, isSpace byte = false := by
    cases text with
    | nil => exact absurd rfl nonempty
    | cons => exact noSpace
  have restFront : ∀ byte ∈ rest.head?, isSpace byte = false := by
    intro byte mem
    rcases follows byte mem with rfl | rfl <;> rfl
  have found : spaced parser (text ++ rest) = some (found, rest) := by
    refine (bind_of_some (space_of_none textFront) _).trans ?_
    refine (bind_of_some (reads rest follows) _).trans ?_
    exact (bind_of_some (space_of_none restFront) _).trans rfl
  rw [shape]
  refine (bind_of_some (space_of_none (by simp; rfl)) _).trans ?_
  refine (@bind_of_some _ _ _ (expect 34) _ (name ++ _) () rfl _).trans ?_
  refine (bind_of_some (stringBody_append plain.1 _) _).trans ?_
  refine (bind_of_some (space_of_none (by simp; rfl)) _).trans ?_
  refine (@bind_of_some _ _ _ (expect 58) _ (text ++ rest) () rfl _).trans ?_
  refine (bind_of_some found _).trans ?_
  rw [plain.2]
  rfl

/-- What stands after a member of an object, up to the end of the object. -/
inductive Members (parser : TokenParser UInt8 Value) : List (Bytes × Value) → Bytes → Prop
  | done : Members parser [] [125]
  | more {name text rest : Bytes} {found : Value} {members : List (Bytes × Value)} :
      PlainName name → Reads parser text found → Members parser members rest →
      Members parser ((name, found) :: members) (44 :: memberText name text ++ rest)

theorem Members.length_lt {parser : TokenParser UInt8 Value} {members : List (Bytes × Value)}
    {text : Bytes} (listed : Members parser members text) : members.length < text.length := by
  induction listed with
  | done => decide
  | more _ _ _ ih =>
      simp only [List.cons_append, List.length_cons, List.length_append]
      omega

theorem itemsWithin_members {parser : TokenParser UInt8 Value} {name text rest : Bytes}
    {found : Value} {members : List (Bytes × Value)} (plain : PlainName name)
    (reads : Reads parser text found) (listed : Members parser members rest) (later : Bytes)
    {fuel : Nat} (enough : members.length < fuel) :
    itemsWithin (member parser) 44 125 fuel (memberText name text ++ (rest ++ later)) =
      some ((name, found) :: members, later) := by
  induction listed generalizing name text found fuel with
  | done =>
      obtain ⟨fuel, rfl⟩ := Nat.exists_eq_succ_of_ne_zero (Nat.ne_zero_of_lt enough)
      exact itemsWithin_last (member_reads plain reads (by simp))
  | @more nextName nextText nextRest _ _ nextPlain nextReads nextListed ih =>
      obtain ⟨fuel, rfl⟩ := Nat.exists_eq_succ_of_ne_zero (Nat.ne_zero_of_lt enough)
      have shape : 44 :: memberText nextName nextText ++ nextRest ++ later =
          44 :: (memberText nextName nextText ++ (nextRest ++ later)) := by
        simp
      rw [shape]
      exact itemsWithin_more (by decide) (member_reads plain reads (by simp))
        (ih nextPlain nextReads (Nat.lt_of_succ_lt_succ enough))

theorem block_of_ne {α : Type} {item : TokenParser UInt8 α} {close byte : UInt8} {rest : Bytes}
    (differ : byte ≠ close) :
    block item close (byte :: rest) = items item 44 close (byte :: rest) :=
  if_neg differ

/-- An object with at least one member that was written is read back. -/
theorem value_object {depth : Nat} {name text rest : Bytes} {found : Value}
    {members : List (Bytes × Value)} (plain : PlainName name)
    (reads : Reads (value depth) text found) (listed : Members (value depth) members rest)
    (later : Bytes) :
    value (depth + 1) (123 :: memberText name text ++ rest ++ later) =
      some (.object ((name, found) :: members), later) := by
  have shape : 123 :: memberText name text ++ rest ++ later =
      123 :: (memberText name text ++ (rest ++ later)) := by
    simp
  have fuel : members.length < (memberText name text ++ (rest ++ later)).length := by
    have shorter := listed.length_lt
    simp only [List.length_append]
    omega
  have read : block (member (value depth)) 125 (memberText name text ++ (rest ++ later)) =
      some ((name, found) :: members, later) :=
    (block_of_ne (by decide)).trans (itemsWithin_members plain reads listed later fuel)
  rw [shape]
  refine (bind_of_some rfl _).trans ?_
  rw [if_neg (by decide), if_pos rfl]
  refine (bind_of_some (space_of_none ?_) _).trans ?_
  · intro byte mem
    obtain rfl := Option.some.inj mem
    rfl
  · exact bind_of_some read _

/-! ## Control characters -/

/-- There are no control characters in the text. -/
def Printable (text : Bytes) : Prop :=
  ∀ byte ∈ text, 32 ≤ byte

instance (text : Bytes) : Decidable (Printable text) :=
  List.decidableBAll (fun byte => 32 ≤ byte) text

@[simp]
theorem printable_append {text later : Bytes} :
    Printable (text ++ later) ↔ Printable text ∧ Printable later :=
  List.forall_mem_append

theorem StringState.step_printable (state : StringState) (byte : UInt8) (after : StringState)
    (moved : state.step byte = some after) : 32 ≤ byte := by
  have all : ∀ code < 32, step .plain (UInt8.ofNat code) = none ∧
      step .escape (UInt8.ofNat code) = none ∧ isHex (UInt8.ofNat code) = false := by
    decide
  refine UInt8.not_lt.mp fun low => ?_
  have control := all byte.toNat low
  rw [UInt8.ofNat_toNat] at control
  rcases control with ⟨plain, escape, notHex⟩
  cases state with
  | plain => cases plain.symm.trans moved
  | escape => cases escape.symm.trans moved
  | hex left => cases left <;> simp [step, notHex] at moved
  | closed => cases moved

theorem NumberState.step_printable (state : NumberState) (byte : UInt8) (after : NumberState)
    (moved : state.step byte = some after) : 32 ≤ byte := by
  have all : ∀ state ∈ [start, minus, zero, digits, point, fraction, exponent, sign, power],
      ∀ code < 32, step state (UInt8.ofNat code) = none := by
    decide
  refine UInt8.not_lt.mp fun low => ?_
  have control := all state (by cases state <;> decide) byte.toNat low
  rw [UInt8.ofNat_toNat] at control
  cases control.symm.trans moved

theorem printable_quote (bytes : Bytes) : Printable (quote bytes) := by
  have path := (escaped_reads fun _ => @isRune_of_mem bytes _).1
  have body : Printable ((runes bytes).flatMap escapeRune) :=
    forall_of_path _ StringState.step_printable path
  have mark : Printable [34] := by decide
  exact printable_append.mpr ⟨printable_append.mpr ⟨mark, body⟩, mark⟩

theorem printable_decimal {number : Int} (nonzero : number ≠ 0) : Printable (decimal number) :=
  forall_of_path _ NumberState.step_printable (decimal_path nonzero)

/-! ## Texts that go on -/

theorem stable_expect (byte : UInt8) : Stable (expect byte) := by
  refine stable_next.bind fun found => ?_
  split
  · exact stable_pure ()
  · exact stable_fail

theorem settling_expect (byte : UInt8) : Settling (expect byte) :=
  (Hungry.bind hungry_next).settling (stable_expect byte)

theorem settling_space : Settling space :=
  (settling_munch ()).bind fun _ => settling_pure ()

theorem settling_expectAll (bytes : Bytes) : Settling (expectAll bytes) := by
  induction bytes with
  | nil => exact settling_pure ()
  | cons byte bytes ih => exact (settling_expect byte).bind fun _ => ih

theorem stable_stringBody : Stable stringBody := by
  refine (stable_munch _ fun last isClosed byte => ?_).bind fun _ => stable_pure _
  obtain rfl : last = .closed := of_decide_eq_true isClosed
  rfl

theorem settling_stringBody : Settling stringBody :=
  Hungry.settling rfl stable_stringBody

theorem settling_spaced {α : Type} {parser : TokenParser UInt8 α} (settling : Settling parser) :
    Settling (spaced parser) :=
  settling_space.bind fun _ => settling.bind fun _ => settling_space.bind fun _ => settling_pure _

theorem settling_member {parser : TokenParser UInt8 Value} (settling : Settling parser) :
    Settling (member parser) :=
  settling_space.bind fun _ => (settling_expect 34).bind fun _ =>
    settling_stringBody.bind fun _ => settling_space.bind fun _ =>
      (settling_expect 58).bind fun _ => (settling_spaced settling).bind fun _ => settling_pure _

theorem stable_block {α : Type} {item : TokenParser UInt8 α} (settling : Settling item)
    (close : UInt8) : Stable (block item close) := by
  intro text found rest parsed later
  cases text with
  | nil => cases parsed
  | cons byte text =>
      by_cases isClose : byte = close
      · cases (if_pos isClose).symm.trans parsed
        exact if_pos isClose
      · exact (block_of_ne isClose).trans
          (stable_items settling _ _ _ ((block_of_ne isClose).symm.trans parsed) later)

/-- What comes after the opening bracket of an object or an array does not depend on the text
after the closing bracket. -/
theorem stable_bracketed {α β : Type} {item : TokenParser UInt8 α} (settling : Settling item)
    (close : UInt8) (build : List α → β) :
    Stable (do
      space
      let found ← block item close
      pure (build found) : TokenParser UInt8 β) :=
  settling_space.bind_stable (fun _ => (stable_block settling close).bind fun _ => stable_pure _)
    fun _ => Hungry.bind rfl

/-- An object that has been read stays what it is when more text follows. -/
theorem valueWith_object_append {nested : Option (TokenParser UInt8 Value)}
    (settling : ∀ parser, nested = some parser → Settling parser) {text rest : Bytes}
    {found : Value} (parsed : valueWith nested (123 :: text) = some (found, rest)) (later : Bytes) :
    valueWith nested (123 :: text ++ later) = some (found, rest ++ later) := by
  cases nested with
  | none => cases parsed
  | some parser =>
      have stable := @stable_bracketed _ _ _ (settling_member (settling parser rfl)) 125
          Value.object
      exact stable text found rest parsed later

theorem settling_valueWith {nested : Option (TokenParser UInt8 Value)}
    (settling : ∀ parser, nested = some parser → Settling parser) :
    Settling (valueWith nested) := by
  refine (hungry_next.settling stable_next).bind fun first => ?_
  split
  · exact settling_stringBody.bind fun _ => settling_pure _
  split
  · cases nested with
    | none => exact Hungry.settling rfl stable_fail
    | some parser =>
        exact Hungry.settling rfl
          (stable_bracketed (settling_member (settling parser rfl)) 125 Value.object)
  split
  · cases nested with
    | none => exact Hungry.settling rfl stable_fail
    | some parser =>
        exact Hungry.settling rfl
          (stable_bracketed (settling_spaced (settling parser rfl)) 93 Value.array)
  split
  · exact (settling_expectAll _).bind fun _ => settling_pure _
  split
  · exact (settling_expectAll _).bind fun _ => settling_pure _
  split
  · exact (settling_expectAll _).bind fun _ => settling_pure _
  split
  · exact Hungry.settling rfl stable_fail
  · exact (settling_munch _).bind fun _ => settling_pure _

theorem settling_value (depth : Nat) : Settling (value depth) := by
  induction depth with
  | zero => exact settling_valueWith (by simp)
  | succ depth ih => exact settling_valueWith fun parser isParser => Option.some.inj isParser ▸ ih

theorem value_object_append {depth : Nat} {text rest : Bytes} {found : Value}
    (parsed : value depth (123 :: text) = some (found, rest)) (later : Bytes) :
    value depth (123 :: text ++ later) = some (found, rest ++ later) := by
  cases depth with
  | zero => exact valueWith_object_append (by simp) parsed later
  | succ depth =>
      exact valueWith_object_append (fun parser isParser =>
        Option.some.inj isParser ▸ settling_value depth)
        parsed later

/-! ## Whole texts -/

theorem value_nil (depth : Nat) : value depth [] = none := by
  cases depth <;> rfl

theorem parse_eq_some {text : Bytes} {found : Value} (parsed : parse text = some found) :
    spaced (value maxNestingDepth) text = some (found, []) := by
  unfold parse at parsed
  split at parsed
  · next read => rw [read, Option.some.inj parsed]
  · cases parsed

theorem parse_of_value {text : Bytes} {found : Value}
    (noSpace : ∀ byte ∈ text.head?, isSpace byte = false)
    (parsed : value maxNestingDepth text = some (found, [])) : parse text = some found := by
  have read : spaced (value maxNestingDepth) text = some (found, []) := by
    refine (bind_of_some (space_of_none noSpace) _).trans ?_
    refine (bind_of_some parsed _).trans ?_
    exact (bind_of_some (space_of_none (by simp)) _).trans rfl
  rw [parse, read]

/-- A proper front part of the text of an object is not a JSON text. -/
theorem parse_front {text front back : Bytes} {found : Value}
    (parsed : value maxNestingDepth (123 :: text) = some (found, []))
    (split : 123 :: text = front ++ back) (cut : back ≠ []) : parse front = none := by
  refine Option.eq_none_iff_forall_ne_some.mpr fun other read => ?_
  rcases bind_eq_some.mp (parse_eq_some read) with ⟨_, mid, passed, later⟩
  rcases bind_eq_some.mp later with ⟨_, rest, inner, _⟩
  cases front with
  | nil =>
      cases (space_of_none (by simp)).symm.trans passed
      cases (value_nil _).symm.trans inner
  | cons first front =>
      obtain ⟨rfl, rfl⟩ := List.cons.inj split
      cases (space_of_none (by simp; rfl)).symm.trans passed
      have whole := value_object_append inner back
      have empty := congrArg Prod.snd (Option.some.inj (parsed.symm.trans whole))
      exact cut (List.append_eq_nil_iff.mp empty.symm).2

end BriseDB.Json
