import BriseDB.Base.JsonReader
import BriseDB.Store.Wal

/-!
# Decoding log records

`json.Unmarshal` fills a `walEntry` from a text.  The members of an object are taken one after
the other, names match without regard to case, and a member of another name is passed over.

`unmarshal_marshal` says what comes back from a line that was written: the record with its
strings sanitized.  A line that was cut short is not a record at all (`unmarshal_front`).
-/

namespace BriseDB

open Json (Value ascii quote decimal sanitize parseDigits)

/-- `walEntry` as it is decoded: the `Type` can be any text. -/
structure RawEntry where
  type : Bytes
  key : Key
  value : Bytes
  volumeID : UInt32
  offset : UInt64
  size : UInt64
  expiresAt : Int64
  deriving DecidableEq, Repr

namespace RawEntry

/-- The zero value. -/
def zero : RawEntry :=
  ⟨[], [], [], 0, 0, 0, 0⟩

/-- The record that `applyEntry` acts on.  Other types are ignored. -/
def entry? (raw : RawEntry) : Option WalEntry :=
  if raw.type = ascii "SET" then
    some ⟨.set, raw.key, raw.value, raw.volumeID, raw.offset, raw.size, raw.expiresAt⟩
  else if raw.type = ascii "DELETE" then
    some ⟨.delete, raw.key, raw.value, raw.volumeID, raw.offset, raw.size, raw.expiresAt⟩
  else none

/-! ## Members -/

/-- A name without regard to case.  Besides those of ASCII, the letters that fold to an ASCII
letter are the long s and the Kelvin sign. -/
def foldName : Bytes → Bytes
  | 0xC5 :: 0xBF :: rest => 83 :: foldName rest
  | 0xE2 :: 0x84 :: 0xAA :: rest => 75 :: foldName rest
  | byte :: rest => (if 97 ≤ byte ∧ byte ≤ 122 then byte - 32 else byte) :: foldName rest
  | [] => []

/-- What a member makes of a text; `null` leaves it as it is. -/
def textOf (old : Bytes) : Value → Option Bytes
  | .string text => some text
  | .null => some old
  | _ => none

/-- What a member makes of an unsigned number below a bound. -/
def naturalOf (bound old : Nat) : Value → Option Nat
  | .number literal =>
      match parseDigits literal with
      | some number => if number < bound then some number else none
      | none => none
  | .null => some old
  | _ => none

/-- A decimal number with an optional minus sign. -/
def signed (literal : Bytes) : Option Int :=
  if literal.head? = some 45 then (parseDigits literal.tail).map fun number : Nat => -(number : Int)
  else (parseDigits literal).map fun number : Nat => (number : Int)

/-- What a member makes of a signed number of 64 bits. -/
def integerOf (old : Int64) : Value → Option Int64
  | .number literal =>
      match signed literal with
      | some number =>
          if -2 ^ 63 ≤ number ∧ number < 2 ^ 63 then some (Int64.ofInt number) else none
      | none => none
  | .null => some old
  | _ => none

/-- The fields of a record. -/
inductive Field where
  | type
  | key
  | value
  | volumeID
  | offset
  | size
  | expiresAt
  deriving DecidableEq

/-- The field of a given name. -/
def field? (name : Bytes) : Option Field :=
  let name := foldName name
  if name = ascii "TYPE" then some .type
  else if name = ascii "KEY" then some .key
  else if name = ascii "VALUE" then some .value
  else if name = ascii "VOLUMEID" then some .volumeID
  else if name = ascii "OFFSET" then some .offset
  else if name = ascii "SIZE" then some .size
  else if name = ascii "EXPIRESAT" then some .expiresAt
  else none

/-- Set a field from a value. -/
def setField (raw : RawEntry) (found : Value) : Field → Option RawEntry
  | .type => (textOf raw.type found).map fun text => { raw with type := text }
  | .key => (textOf raw.key found).map fun text => { raw with key := text }
  | .value => (textOf raw.value found).map fun text => { raw with value := text }
  | .volumeID =>
      (naturalOf (2 ^ 32) raw.volumeID.toNat found).map fun number =>
        { raw with volumeID := UInt32.ofNat number }
  | .offset =>
      (naturalOf (2 ^ 64) raw.offset.toNat found).map fun number =>
        { raw with offset := UInt64.ofNat number }
  | .size =>
      (naturalOf (2 ^ 64) raw.size.toNat found).map fun number =>
        { raw with size := UInt64.ofNat number }
  | .expiresAt => (integerOf raw.expiresAt found).map fun number => { raw with expiresAt := number }

/-- Take over a member of the object. -/
def assign (raw : RawEntry) (member : Bytes × Value) : Option RawEntry :=
  match field? member.1 with
  | some field => raw.setField member.2 field
  | none => some raw

theorem assign_of_field {name : Bytes} {field : Field} (isField : field? name = some field)
    (raw : RawEntry) (found : Value) : raw.assign (name, found) = raw.setField found field := by
  simp only [assign, isField]

/-- `json.Unmarshal` of a record. -/
def unmarshal (text : Bytes) : Option RawEntry :=
  match Json.parse text with
  | some (.object members) => members.foldlM assign zero
  | some .null => some zero
  | _ => none

end RawEntry

namespace WalEntry

/-- The text of the `Type`. -/
def typeText (e : WalEntry) : Bytes :=
  match e.type with
  | .set => ascii "SET"
  | .delete => ascii "DELETE"

/-- The record with the text of its type. -/
def raw (e : WalEntry) : RawEntry :=
  ⟨e.typeText, e.key, e.value, e.volumeID, e.offset, e.size, e.expiresAt⟩

@[simp]
theorem entry?_raw (e : WalEntry) : e.raw.entry? = some e := by
  rcases e with ⟨_ | _, _⟩ <;> rfl

theorem raw_injective {e other : WalEntry} (same : e.raw = other.raw) : e = other := by
  have entries := congrArg RawEntry.entry? same
  rw [entry?_raw, entry?_raw] at entries
  exact Option.some.inj entries

/-! ## The members of a line -/

/-- The member that `numberField` writes. -/
def numberMember (name : String) (number : Int) : List (Bytes × Value) :=
  if number = 0 then [] else [(ascii name, .number (decimal number))]

/-- The member for the value. -/
def valueMember (value : Bytes) : List (Bytes × Value) :=
  if value = [] then [] else [(ascii "Value", .string (sanitize value))]

/-- The members of the line of a record after its type. -/
def members (e : WalEntry) : List (Bytes × Value) :=
  (ascii "Key", .string (sanitize e.key)) ::
    (valueMember e.value ++ (numberMember "VolumeID" e.volumeID.toNat ++
      (numberMember "Offset" e.offset.toNat ++ (numberMember "Size" e.size.toNat ++
        numberMember "ExpiresAt" e.expiresAt.toInt))))

open Json (Members Reads PlainName memberText)

section

variable {depth : Nat} {rest : Bytes} {list : List (Bytes × Value)}

theorem members_numberField {name : String} (plain : PlainName (ascii name)) (number : Int)
    (listed : Members (Json.value depth) list rest) :
    Members (Json.value depth) (numberMember name number ++ list)
      (numberField name number ++ rest) := by
  unfold numberMember numberField
  split
  · exact listed
  · next nonzero =>
    have label : ascii s!",\"{name}\":" = 44 :: 34 :: ascii name ++ [34, 58] := by
      simp [ascii, toString]
    have shape : ascii s!",\"{name}\":" ++ decimal number ++ rest =
        44 :: memberText (ascii name) (decimal number) ++ rest := by
      simp [label, memberText]
    rw [shape]
    exact .more plain (Json.reads_decimal depth nonzero) listed

theorem members_value (value : Bytes) (listed : Members (Json.value depth) list rest) :
    Members (Json.value depth) (valueMember value ++ list)
      ((if value = [] then [] else ascii ",\"Value\":" ++ quote value) ++ rest) := by
  unfold valueMember
  split
  · exact listed
  · exact .more (by decide) (Json.reads_string depth value) listed

end

/-- The line of a record is the text of an object. -/
theorem value_marshal (e : WalEntry) (depth : Nat) (later : Bytes) :
    Json.value (depth + 1) (e.marshal ++ later) =
      some (.object ((ascii "Type", .string e.typeText) :: e.members), later) := by
  have expiry := @members_numberField depth _ _ "ExpiresAt" (by decide) e.expiresAt.toInt .done
  have size := @members_numberField depth _ _ "Size" (by decide) e.size.toNat expiry
  have offset := @members_numberField depth _ _ "Offset" (by decide) e.offset.toNat size
  have volumeID := @members_numberField depth _ _ "VolumeID" (by decide) e.volumeID.toNat offset
  have listed := Members.more (show PlainName (ascii "Key") by decide)
    (Json.reads_string depth e.key) (members_value e.value volumeID)
  have typeReads := Json.reads_string depth e.typeText
  have typeEq : sanitize e.typeText = e.typeText := by
    unfold typeText
    split <;> decide
  have parsed := Json.value_object (show PlainName (ascii "Type") by decide) typeReads listed later
  rw [typeEq, List.append_nil] at parsed
  have opening : ascii "\x7b\"Type\":" = 123 :: 34 :: ascii "Type" ++ [34, 58] := by decide
  have second : ascii ",\"Key\":" = 44 :: 34 :: ascii "Key" ++ [34, 58] := by decide
  have closing : ascii "\x7d" = [125] := by decide
  refine Eq.trans (congrArg _ ?_) parsed
  rcases e with ⟨_ | _, _⟩ <;> simp [marshal, memberText, typeText, opening, second, closing]

open RawEntry (assign assign_of_field zero naturalOf integerOf unmarshal)

theorem foldlM_member {member : Bytes × Value} {raw next : RawEntry}
    (assigned : raw.assign member = some next) (list : List (Bytes × Value)) :
    (member :: list).foldlM assign raw = list.foldlM assign next := by
  rw [List.foldlM_cons, assigned]
  rfl

theorem foldlM_numberMember {name : String} {number : Int} {raw next : RawEntry}
    (unset : number = 0 → raw = next)
    (assigned : number ≠ 0 → raw.assign (ascii name, .number (decimal number)) = some next)
    (list : List (Bytes × Value)) :
    (numberMember name number ++ list).foldlM assign raw = list.foldlM assign next := by
  unfold numberMember
  split
  · next isZero => rw [unset isZero, List.nil_append]
  · next nonzero =>
    exact foldlM_member (assigned nonzero) list

theorem foldlM_valueMember {value : Bytes} {raw : RawEntry} (unset : raw.value = [])
    (list : List (Bytes × Value)) :
    (valueMember value ++ list).foldlM assign raw =
      list.foldlM assign { raw with value := sanitize value } := by
  unfold valueMember
  split
  · next isEmpty =>
    have same : { raw with value := sanitize value } = raw := by
      rw [isEmpty, show sanitize [] = [] from rfl, ← unset]
    rw [same, List.nil_append]
  · exact foldlM_member (assign_of_field (show RawEntry.field? (ascii "Value") =
      some .value by decide)
      raw _) list

theorem naturalOf_decimal {bound number : Nat} (less : number < bound) (old : Nat) :
    naturalOf bound old (.number (decimal number)) = some number := by
  have digits : parseDigits (decimal number) = some number := Json.parseDigits_digitBytes number
  simp only [naturalOf, digits, if_pos less]

theorem signed_decimal (number : Int) : RawEntry.signed (decimal number) = some number := by
  have digits := Json.parseDigits_digitBytes number.natAbs
  by_cases negative : number < 0
  · have shape : decimal number = 45 :: Json.digitBytes number.natAbs := by
      rw [decimal, if_pos negative]
      rfl
    rw [shape, RawEntry.signed, List.head?_cons, if_pos rfl, List.tail_cons, digits,
      Option.map_some]
    exact congrArg some (by omega)
  · have shape : decimal number = Json.digitBytes number.natAbs := by
      rw [decimal, if_neg negative]
      rfl
    have unsigned : (Json.digitBytes number.natAbs).head? ≠ some 45 := by
      intro isMinus
      rcases List.head?_eq_some_iff.mp isMinus with ⟨rest, isRest⟩
      rw [isRest] at digits
      cases digits
    rw [shape, RawEntry.signed, if_neg unsigned, digits, Option.map_some]
    exact congrArg some (by omega)

theorem integerOf_decimal (number old : Int64) :
    integerOf old (.number (decimal number.toInt)) = some number := by
  have bounds : -2 ^ 63 ≤ number.toInt ∧ number.toInt < 2 ^ 63 := ⟨number.le_toInt, number.toInt_lt⟩
  simp only [integerOf, signed_decimal, if_pos bounds, Int64.ofInt_toInt]

theorem foldlM_natural {name : String} {field : RawEntry.Field}
    (isField : RawEntry.field? (ascii name) = some field) {bound number old : Nat}
    (less : number < bound) {raw : RawEntry} {set : Nat → RawEntry}
    (sets : ∀ found, raw.setField found field = (naturalOf bound old found).map set)
    (unset : set 0 = raw) (list : List (Bytes × Value)) :
    (numberMember name number ++ list).foldlM assign raw = list.foldlM assign (set number) := by
  refine foldlM_numberMember (fun isZero => ?_) (fun _ => ?_) list
  · rw [Int.natCast_eq_zero.mp isZero, unset]
  · rw [assign_of_field isField, sets, naturalOf_decimal less]
    rfl

theorem foldlM_members (e : WalEntry) :
    ((ascii "Type", .string e.typeText) :: e.members).foldlM assign zero = some e.wire.raw := by
  have typeField : RawEntry.field? (ascii "Type") = some .type := by decide
  have keyField : RawEntry.field? (ascii "Key") = some .key := by decide
  have idField : RawEntry.field? (ascii "VolumeID") = some .volumeID := by decide
  have offsetField : RawEntry.field? (ascii "Offset") = some .offset := by decide
  have sizeField : RawEntry.field? (ascii "Size") = some .size := by decide
  have expiryField : RawEntry.field? (ascii "ExpiresAt") = some .expiresAt := by decide
  refine (foldlM_member (assign_of_field typeField zero _) _).trans ?_
  refine (foldlM_member (assign_of_field keyField _ _) _).trans ?_
  refine (foldlM_valueMember rfl _).trans ?_
  refine (foldlM_natural idField e.volumeID.toNat_lt (fun _ => rfl) rfl _).trans ?_
  refine (foldlM_natural offsetField e.offset.toNat_lt (fun _ => rfl) rfl _).trans ?_
  refine (foldlM_natural sizeField e.size.toNat_lt (fun _ => rfl) rfl _).trans ?_
  have expiry := @foldlM_numberMember "ExpiresAt" e.expiresAt.toInt
    { e.wire.raw with expiresAt := 0 } e.wire.raw (fun isZero => ?_) (fun _ => ?_) []
  · rw [List.append_nil] at expiry
    simp only [UInt32.ofNat_toNat, UInt64.ofNat_toNat]
    exact expiry
  · have unset : e.expiresAt = 0 := Int64.toInt_inj.mp isZero
    rw [raw, show e.wire.expiresAt = 0 from unset]
  · rw [assign_of_field expiryField]
    exact congrArg (Option.map _) (integerOf_decimal e.expiresAt 0)

theorem marshal_shape (e : WalEntry) : ∃ body, e.marshal = 123 :: (body ++ [125]) := by
  have opening : ascii "\x7b\"Type\":" = 123 :: (34 :: ascii "Type" ++ [34, 58]) := by decide
  have closing : ascii "\x7d" = [125] := by decide
  simp only [marshal, opening, closing, List.cons_append, List.cons.injEq, true_and]
  simp only [← List.cons_append]
  exact ⟨_, rfl⟩

/-- What comes back from the line of a record. -/
theorem unmarshal_marshal (e : WalEntry) : unmarshal e.marshal = some e.wire.raw := by
  rcases e.marshal_shape with ⟨body, shape⟩
  have parsed := value_marshal e 9999 []
  rw [List.append_nil] at parsed
  have noSpace : ∀ byte ∈ e.marshal.head?, Json.isSpace byte = false := by
    rw [shape]
    simp
    rfl
  rw [unmarshal, Json.parse_of_value noSpace parsed]
  exact foldlM_members e

/-- A line that is cut short is not a record. -/
theorem unmarshal_front {e : WalEntry} {kept : Nat} (cut : kept < e.marshal.length) :
    unmarshal (e.marshal.take kept) = none := by
  rcases e.marshal_shape with ⟨body, shape⟩
  have parsed := value_marshal e 9999 []
  rw [List.append_nil, shape] at parsed
  rw [unmarshal, Json.parse_front parsed ((List.take_append_drop kept e.marshal).trans shape).symm]
  rw [Ne, List.drop_eq_nil_iff]
  omega

/-! ## Bytes that are not in a line -/

open Json (Printable printable_append)

theorem printable_numberField {name : String} (label : Printable (ascii s!",\"{name}\":"))
    (number : Int) : Printable (numberField name number) := by
  unfold numberField
  split
  · simp [Printable]
  · next nonzero => exact printable_append.mpr ⟨label, Json.printable_decimal nonzero⟩

theorem printable_marshal (e : WalEntry) : Printable e.marshal := by
  have type : Printable (ascii "\x7b\"Type\":") := by decide
  have key : Printable (ascii ",\"Key\":") := by decide
  have value : Printable (if e.value = [] then [] else ascii ",\"Value\":" ++ quote e.value) := by
    split
    · simp [Printable]
    · exact printable_append.mpr ⟨by decide, Json.printable_quote _⟩
  simp only [marshal, printable_append]
  exact ⟨⟨⟨⟨⟨⟨⟨⟨⟨type, Json.printable_quote _⟩, key⟩, Json.printable_quote _⟩, value⟩,
    printable_numberField (by decide) _⟩, printable_numberField (by decide) _⟩,
    printable_numberField (by decide) _⟩, printable_numberField (by decide) _⟩, by decide⟩

theorem newline_not_mem_marshal (e : WalEntry) : 10 ∉ e.marshal :=
  fun mem => absurd (e.printable_marshal 10 mem) (by decide)

end WalEntry

end BriseDB
