import BriseDB.Base.Bytes

/-!
# JSON strings and numbers

What `encoding/json` writes for a string and for a number.  A string is taken to be UTF-8; a
byte that does not belong to a well-formed sequence is written as U+FFFD, and the characters
that are special in HTML are escaped.
-/

namespace BriseDB.Json

/-- A continuation byte of UTF-8 in the given range. -/
def within (low high : UInt8) : Option UInt8 → Bool
  | none => false
  | some byte => low ≤ byte && byte ≤ high

/-- The number of bytes of the UTF-8 sequence a string starts with, and 0 when it
does not start with a well-formed one (`utf8.DecodeRune`). -/
def runeLength (bytes : Bytes) : Nat :=
  match bytes with
  | [] => 0
  | first :: rest =>
      let second := rest[0]?
      let third := rest[1]?
      let fourth := rest[2]?
      if first < 0x80 then 1
      else if 0xC2 ≤ first ∧ first ≤ 0xDF then
        if within 0x80 0xBF second then 2 else 0
      else if 0xE0 ≤ first ∧ first ≤ 0xEF then
        let low := if first = 0xE0 then 0xA0 else 0x80
        let high := if first = 0xED then 0x9F else 0xBF
        if within low high second && within 0x80 0xBF third then 3 else 0
      else if 0xF0 ≤ first ∧ first ≤ 0xF4 then
        let low := if first = 0xF0 then 0x90 else 0x80
        let high := if first = 0xF4 then 0x8F else 0xBF
        if within low high second && within 0x80 0xBF third && within 0x80 0xBF fourth then 4 else 0
      else 0

/-- Cut a string into UTF-8 sequences; `none` stands for a byte that does not
belong to one.  The fuel is the number of bytes left. -/
def runesFrom : Nat → Bytes → List (Option Bytes)
  | 0, _ => []
  | _ + 1, [] => []
  | fuel + 1, first :: rest =>
      match runeLength (first :: rest) with
      | 0 => none :: runesFrom fuel rest
      | more + 1 => some (first :: rest.take more) :: runesFrom fuel (rest.drop more)

/-- The UTF-8 sequences of a string. -/
def runes (bytes : Bytes) : List (Option Bytes) :=
  runesFrom bytes.length bytes

/-- A string after JSON encoding and decoding: every byte that is not part of
well-formed UTF-8 comes back as U+FFFD. -/
def sanitize (bytes : Bytes) : Bytes :=
  (runes bytes).flatMap fun rune => rune.getD [0xEF, 0xBF, 0xBD]

/-- The bytes of an ASCII text. -/
def ascii (text : String) : Bytes :=
  text.toList.map fun c => UInt8.ofNat c.toNat

/-- A hexadecimal digit. -/
def hexDigit (digit : UInt8) : UInt8 :=
  if digit < 10 then 48 + digit else 87 + digit

/-- The encoding of one UTF-8 sequence inside a JSON string, with the characters
that are special in HTML escaped.  The short escapes of 8 and 12 are those of Go 1.22 and later. -/
def escapeRune : Option Bytes → Bytes
  | none => ascii "\\ufffd"
  | some [byte] =>
      if byte = 34 ∨ byte = 92 then [92, byte]
      else if byte = 8 then ascii "\\b"
      else if byte = 12 then ascii "\\f"
      else if byte = 10 then ascii "\\n"
      else if byte = 13 then ascii "\\r"
      else if byte = 9 then ascii "\\t"
      else if byte < 32 ∨ byte = 60 ∨ byte = 62 ∨ byte = 38 then
        ascii "\\u00" ++ [hexDigit (byte / 16), hexDigit (byte % 16)]
      else [byte]
  | some rune =>
      if rune = [0xE2, 0x80, 0xA8] then ascii "\\u2028"
      else if rune = [0xE2, 0x80, 0xA9] then ascii "\\u2029"
      else rune

/-- A JSON string. -/
def quote (bytes : Bytes) : Bytes :=
  [34] ++ (runes bytes).flatMap escapeRune ++ [34]

/-- A decimal number. -/
def decimal (number : Int) : Bytes :=
  (if number < 0 then [45] else []) ++
    (Nat.toDigits 10 number.natAbs).map fun c => UInt8.ofNat c.toNat

/-- The number given by decimal digits, and `none` if there is anything else. -/
def parseDigits (digits : Bytes) : Option Nat :=
  if digits = [] then none
  else
    digits.foldlM (fun (number : Nat) digit =>
      if 48 ≤ digit ∧ digit ≤ 57 then some (number * 10 + (digit.toNat - 48)) else none) 0

/-! ### UTF-8 sequences -/

theorem within_eq_true {low high : UInt8} {byte : Option UInt8} :
    within low high byte = true ↔ ∃ found, byte = some found ∧ low ≤ found ∧ found ≤ high := by
  cases byte <;> simp [within]

theorem within_continues {low high : UInt8} {byte : Option UInt8} (above : 0x80 ≤ low)
    (isWithin : within low high byte = true) : ∃ found, byte = some found ∧ 0x80 ≤ found := by
  rcases within_eq_true.mp isWithin with ⟨found, isFound, atLeast, -⟩
  exact ⟨found, isFound, UInt8.le_trans above atLeast⟩

/-- A text starts with a UTF-8 sequence if it starts with an ASCII byte, or with a lead byte
and its continuation bytes.  What comes after them does not matter. -/
theorem runeLength_cases {first : UInt8} {rest : Bytes} {more : Nat}
    (isRune : runeLength (first :: rest) = more + 1) :
    (first < 0x80 ∧ more = 0 ∨ 0x80 ≤ first ∧ 0 < more) ∧
      (∀ i < more, ∃ byte, rest[i]? = some byte ∧ 0x80 ≤ byte) ∧
      ∀ other : Bytes, (∀ i < more, other[i]? = rest[i]?) →
        runeLength (first :: other) = more + 1 := by
  by_cases low : first < 0x80
  · simp only [runeLength, if_pos low] at isRune ⊢
    obtain rfl : more = 0 := by omega
    exact ⟨.inl ⟨low, rfl⟩, by simp, fun _ _ => rfl⟩
  have high : 0x80 ≤ first := UInt8.not_lt.mp low
  by_cases two : 0xC2 ≤ first ∧ first ≤ 0xDF
  · simp only [runeLength, if_neg low, if_pos two] at isRune ⊢
    split at isRune
    · next second =>
      obtain rfl : more = 1 := by omega
      refine ⟨.inr ⟨high, by omega⟩, fun i less => ?_, fun other same => ?_⟩
      · obtain rfl : i = 0 := by omega
        exact within_continues (UInt8.le_refl _) second
      · rw [same 0 (by omega), if_pos second]
    · omega
  by_cases three : 0xE0 ≤ first ∧ first ≤ 0xEF
  · simp only [runeLength, if_neg low, if_neg two, if_pos three] at isRune ⊢
    generalize lowEq : (if first = 0xE0 then (0xA0 : UInt8) else 0x80) = low at isRune ⊢
    have above : 0x80 ≤ low := by
      rw [← lowEq]
      split <;> decide
    generalize (if first = 0xED then (0x9F : UInt8) else 0xBF) = high at isRune ⊢
    split at isRune
    · next all =>
      obtain rfl : more = 2 := by omega
      rcases Bool.and_eq_true_iff.mp all with ⟨second, third⟩
      refine ⟨.inr ⟨‹_›, by omega⟩, fun i less => ?_, fun other same => ?_⟩
      · rcases i with _ | _ | i
        · exact within_continues above second
        · exact within_continues (UInt8.le_refl _) third
        · omega
      · rw [same 0 (by omega), same 1 (by omega), if_pos all]
    · omega
  by_cases four : 0xF0 ≤ first ∧ first ≤ 0xF4
  · simp only [runeLength, if_neg low, if_neg two, if_neg three, if_pos four] at isRune ⊢
    generalize lowEq : (if first = 0xF0 then (0x90 : UInt8) else 0x80) = low at isRune ⊢
    have above : 0x80 ≤ low := by
      rw [← lowEq]
      split <;> decide
    generalize (if first = 0xF4 then (0x8F : UInt8) else 0xBF) = high at isRune ⊢
    split at isRune
    · next all =>
      obtain rfl : more = 3 := by omega
      rcases Bool.and_eq_true_iff.mp all with ⟨both, fourth⟩
      rcases Bool.and_eq_true_iff.mp both with ⟨second, third⟩
      refine ⟨.inr ⟨‹_›, by omega⟩, fun i less => ?_, fun other same => ?_⟩
      · rcases i with _ | _ | _ | i
        · exact within_continues above second
        · exact within_continues (UInt8.le_refl _) third
        · exact within_continues (UInt8.le_refl _) fourth
        · omega
      · rw [same 0 (by omega), same 1 (by omega), same 2 (by omega), if_pos all]
    · omega
  · simp only [runeLength, if_neg low, if_neg two, if_neg three, if_neg four] at isRune
    omega
/-- A single UTF-8 sequence. -/
structure IsRune (rune : Bytes) : Prop where
  nonempty : rune ≠ []
  length_eq : runeLength rune = rune.length

namespace IsRune

variable {rune : Bytes}

/-- The front of a text that starts with a UTF-8 sequence. -/
theorem of_runeLength {first : UInt8} {rest : Bytes} {more : Nat}
    (isRune : runeLength (first :: rest) = more + 1) :
    more ≤ rest.length ∧ IsRune (first :: rest.take more) := by
  rcases runeLength_cases isRune with ⟨-, continues, same⟩
  have enough : more ≤ rest.length := by
    rcases Nat.eq_zero_or_pos more with rfl | positive
    · exact Nat.zero_le _
    · rcases continues (more - 1) (by omega) with ⟨byte, isByte, -⟩
      have inside := (List.getElem?_eq_some_iff.mp isByte).1
      omega
  refine ⟨enough, List.cons_ne_nil _ _, ?_⟩
  rw [same (rest.take more) fun i less => by rw [List.getElem?_take_of_lt less], List.length_cons,
    List.length_take_of_le enough]

/-- What follows a UTF-8 sequence does not change it. -/
theorem runeLength_append (isRune : IsRune rune) (later : Bytes) :
    runeLength (rune ++ later) = rune.length := by
  cases rune with
  | nil => exact absurd rfl isRune.nonempty
  | cons first rest =>
      refine (runeLength_cases isRune.length_eq).2.2 (rest ++ later) fun i less => ?_
      exact List.getElem?_append_left less

/-- A UTF-8 sequence is an ASCII byte, or has no ASCII byte in it. -/
theorem ascii_or_high (isRune : IsRune rune) :
    (∃ byte, rune = [byte] ∧ byte < 0x80) ∨ ∀ byte ∈ rune, 0x80 ≤ byte := by
  cases rune with
  | nil => exact absurd rfl isRune.nonempty
  | cons first rest =>
      rcases runeLength_cases isRune.length_eq with ⟨lead, continues, -⟩
      rcases lead with ⟨low, isEmpty⟩ | ⟨high, -⟩
      · exact .inl ⟨first, by rw [List.eq_nil_of_length_eq_zero isEmpty], low⟩
      · refine .inr fun byte mem => ?_
        rcases List.mem_cons.mp mem with rfl | mem
        · exact high
        · rcases List.getElem_of_mem mem with ⟨i, less, rfl⟩
          rcases continues i less with ⟨found, isFound, above⟩
          rw [List.getElem?_eq_getElem less] at isFound
          exact Option.some.inj isFound ▸ above

end IsRune

theorem isRune_of_mem_runesFrom {fuel : Nat} {bytes rune : Bytes}
    (mem : some rune ∈ runesFrom fuel bytes) : IsRune rune := by
  induction fuel generalizing bytes with
  | zero => simp [runesFrom] at mem
  | succ fuel ih =>
      match bytes with
      | [] => simp [runesFrom] at mem
      | first :: rest =>
          unfold runesFrom at mem
          split at mem
          · exact ih (List.mem_of_ne_of_mem (by simp) mem)
          · next more isRune =>
            rcases List.mem_cons.mp mem with head | mem
            · rw [Option.some.inj head]
              exact (IsRune.of_runeLength isRune).2
            · exact ih mem

theorem isRune_of_mem {bytes rune : Bytes} (mem : some rune ∈ runes bytes) : IsRune rune :=
  isRune_of_mem_runesFrom mem

/-- The text is well-formed UTF-8. -/
def ValidUTF8 (bytes : Bytes) : Prop :=
  none ∉ runes bytes

instance (bytes : Bytes) : Decidable (ValidUTF8 bytes) :=
  inferInstanceAs (Decidable (_ ∉ _))

theorem length_sanitized {fuel : Nat} {bytes : Bytes} (enough : bytes.length ≤ fuel) :
    ((runesFrom fuel bytes).flatMap fun rune => rune.getD [0xEF, 0xBF, 0xBD]).length =
      bytes.length + 2 * (runesFrom fuel bytes).count none := by
  induction fuel generalizing bytes with
  | zero =>
      rw [List.eq_nil_of_length_eq_zero (Nat.le_zero.mp enough)]
      rfl
  | succ fuel ih =>
      match bytes with
      | [] => rfl
      | first :: rest =>
          have shorter : rest.length ≤ fuel := Nat.le_of_succ_le_succ enough
          unfold runesFrom
          split
          · have tail := ih shorter
            simp only [List.flatMap_cons, List.length_append, List.length_cons, Option.getD_none,
              List.count_cons_self, tail, List.length_nil]
            omega
          · next more isRune =>
            have inside := (IsRune.of_runeLength isRune).1
            have tail := @ih (rest.drop more) (by rw [List.length_drop]; omega)
            have differ : (some (first :: rest.take more) : Option Bytes) ≠ none := by simp
            rw [List.flatMap_cons, List.length_append, tail, List.count_cons_of_ne differ]
            simp only [Option.getD_some, List.length_cons, List.length_take, List.length_drop]
            omega

theorem sanitized_of_valid {fuel : Nat} {bytes : Bytes} (enough : bytes.length ≤ fuel)
    (valid : none ∉ runesFrom fuel bytes) :
    ((runesFrom fuel bytes).flatMap fun rune => rune.getD [0xEF, 0xBF, 0xBD]) = bytes := by
  induction fuel generalizing bytes with
  | zero =>
      rw [List.eq_nil_of_length_eq_zero (Nat.le_zero.mp enough)]
      rfl
  | succ fuel ih =>
      match bytes with
      | [] => rfl
      | first :: rest =>
          have shorter : rest.length ≤ fuel := Nat.le_of_succ_le_succ enough
          unfold runesFrom at valid ⊢
          split at valid
          · simp at valid
          · next more isRune =>
            have tail := @ih (rest.drop more) (by rw [List.length_drop]; omega) fun mem =>
              valid (List.mem_cons_of_mem _ mem)
            rw [List.flatMap_cons, tail]
            simp

/-- A string survives JSON if and only if it is well-formed UTF-8. -/
theorem sanitize_eq_self_iff {bytes : Bytes} : sanitize bytes = bytes ↔ ValidUTF8 bytes := by
  constructor
  · intro same mem
    have lengthEq := congrArg List.length same
    have counted := List.count_pos_iff.mpr mem
    unfold sanitize runes at lengthEq
    unfold runes at counted
    rw [length_sanitized le_rfl] at lengthEq
    omega
  · exact sanitized_of_valid le_rfl

/-! ### Decimal digits -/

theorem digitByte {digit : Nat} (less : digit < 10) :
    UInt8.ofNat (Nat.digitChar digit).toNat = UInt8.ofNat (48 + digit) := by
  have all : ∀ digit < 10,
      UInt8.ofNat (Nat.digitChar digit).toNat = UInt8.ofNat (48 + digit) := by
    decide
  exact all digit less

theorem digitByte_bounds {digit : Nat} (less : digit < 10) :
    48 ≤ UInt8.ofNat (48 + digit) ∧ UInt8.ofNat (48 + digit) ≤ 57 ∧
      (UInt8.ofNat (48 + digit)).toNat = 48 + digit := by
  have all : ∀ digit < 10, 48 ≤ UInt8.ofNat (48 + digit) ∧ UInt8.ofNat (48 + digit) ≤ 57 ∧
      (UInt8.ofNat (48 + digit)).toNat = 48 + digit := by
    decide
  exact all digit less

/-- The decimal digits of a number. -/
def digitBytes (number : Nat) : Bytes :=
  (Nat.toDigits 10 number).map fun c => UInt8.ofNat c.toNat

theorem digitBytes_of_lt {number : Nat} (less : number < 10) :
    digitBytes number = [UInt8.ofNat (48 + number)] := by
  rw [digitBytes, Nat.toDigits_of_lt_base less, List.map_singleton, digitByte less]

theorem digitBytes_of_le {number : Nat} (atLeast : 10 ≤ number) :
    digitBytes number = digitBytes (number / 10) ++ [UInt8.ofNat (48 + number % 10)] := by
  rw [digitBytes, Nat.toDigits_of_base_le (by decide) atLeast, List.map_append, List.map_singleton,
    digitByte (Nat.mod_lt _ (by decide))]
  rfl

theorem digitBytes_ne_nil (number : Nat) : digitBytes number ≠ [] := by
  rcases Nat.lt_or_ge number 10 with less | atLeast
  · simp [digitBytes_of_lt less]
  · simp [digitBytes_of_le atLeast]

theorem parseDigits_digitBytes (number : Nat) : parseDigits (digitBytes number) = some number := by
  rw [parseDigits, if_neg (digitBytes_ne_nil number)]
  induction number using Nat.strong_induction_on with
  | _ number ih =>
      rcases Nat.lt_or_ge number 10 with less | atLeast
      · rcases digitByte_bounds less with ⟨low, high, value⟩
        rw [digitBytes_of_lt less, List.foldlM_cons, if_pos ⟨low, high⟩, value]
        simp
      · rcases digitByte_bounds (Nat.mod_lt number (show 0 < 10 by decide)) with ⟨low, high, value⟩
        rw [digitBytes_of_le atLeast, List.foldlM_append, ih (number / 10) (by omega)]
        simp only [Option.bind_eq_bind, Option.bind_some, List.foldlM_cons, List.foldlM_nil]
        rw [if_pos ⟨low, high⟩, value]
        simp only [Option.bind_some, Option.pure_def, Option.some.injEq]
        omega

/-! ### Lengths -/

theorem length_le_escapeRune (rune : Bytes) : rune.length ≤ (escapeRune (some rune)).length := by
  unfold escapeRune
  split
  · next eq => cases eq
  · next byte eq =>
    obtain rfl := Option.some.inj eq
    repeat' split
    all_goals simp [ascii]
  · next found _ eq =>
    obtain rfl := Option.some.inj eq
    repeat' split
    · next isRune => simp [isRune, ascii]
    · next isRune => simp [isRune, ascii]
    · exact le_rfl

theorem length_le_runesFrom (fuel : Nat) (bytes : Bytes) (enough : bytes.length ≤ fuel) :
    bytes.length ≤ ((runesFrom fuel bytes).flatMap escapeRune).length := by
  induction fuel generalizing bytes with
  | zero => simpa [runesFrom] using enough
  | succ fuel ih =>
      match bytes with
      | [] => exact Nat.zero_le _
      | first :: rest =>
          have shorter : rest.length ≤ fuel := Nat.le_of_succ_le_succ enough
          unfold runesFrom
          split
          · have tail := ih rest shorter
            have six : (escapeRune none).length = 6 := by decide +kernel
            simp only [List.flatMap_cons, List.length_append, List.length_cons, six]
            omega
          · next more _ =>
            have tail := ih (rest.drop more) (by rw [List.length_drop]; omega)
            have rune := length_le_escapeRune (first :: rest.take more)
            simp only [List.flatMap_cons, List.length_append, List.length_cons, List.length_take,
              List.length_drop] at tail rune ⊢
            omega

/-- A JSON string is at least as long as the string it encodes. -/
theorem length_le_quote (bytes : Bytes) : bytes.length ≤ (quote bytes).length := by
  have body := length_le_runesFrom bytes.length bytes (Nat.le_refl _)
  simp only [quote, runes, List.length_append, List.length_singleton]
  omega

/-- What is read back is no longer than what was written. -/
theorem length_sanitize_le_quote (bytes : Bytes) :
    (sanitize bytes).length ≤ (quote bytes).length := by
  have each : ∀ list : List (Option Bytes),
      (list.flatMap fun rune => rune.getD [0xEF, 0xBF, 0xBD]).length ≤
        (list.flatMap escapeRune).length := by
    intro list
    induction list with
    | nil => exact Nat.le_refl _
    | cons rune list ih =>
        have first : (rune.getD [0xEF, 0xBF, 0xBD]).length ≤ (escapeRune rune).length := by
          cases rune with
          | none => decide
          | some bytes => exact length_le_escapeRune bytes
        rw [List.flatMap_cons, List.flatMap_cons, List.length_append, List.length_append]
        omega
  have body := each (runes bytes)
  simp only [sanitize, quote, List.length_append, List.length_singleton]
  omega

theorem length_decimal {number : Int} (small : number.natAbs < 10 ^ 20) :
    (decimal number).length ≤ 21 := by
  have digits : (Nat.toDigits 10 number.natAbs).length ≤ 20 :=
    (Nat.length_toDigits_le_iff (by decide) (by decide)).mpr small
  unfold decimal
  split <;>
    simp only [List.length_append, List.length_map, List.length_singleton, List.length_nil] <;>
    omega

end BriseDB.Json
