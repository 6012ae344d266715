import BriseDB.Base.Json
import BriseDB.Types

/-!
# Log records

`walEntry` is the record of the write-ahead log and of the replication stream.
It travels as one line of JSON.  `marshal` gives the bytes of that line, which
decide whether the line can be read back, and `wire` is the record the reader
decodes from them.

The log file is kept as a list of lines.  A write that fails can leave a piece
of a line behind.
-/

namespace BriseDB

/-- The `Type` of a log record. -/
inductive WalType where
  | set
  | delete
  deriving DecidableEq, Repr

/-- `walEntry`. -/
structure WalEntry where
  type : WalType
  key : Key
  value : Bytes
  volumeID : UInt32
  offset : UInt64
  size : UInt64
  expiresAt : Int64
  deriving DecidableEq, Repr

namespace WalEntry

/-- A SET record for the log, which carries the address and not the value. -/
def ofSet (key : Key) (addr : NeedleAddr) (expiresAt : Int64) : WalEntry :=
  ⟨.set, key, [], addr.volumeID, addr.offset, addr.size, expiresAt⟩

/-- A DELETE record. -/
def ofDelete (key : Key) : WalEntry :=
  ⟨.delete, key, [], 0, 0, 0, 0⟩

/-- A SET record for the replication stream, which carries the value and not the
address. -/
def ofValue (key : Key) (value : Bytes) (expiresAt : Int64) : WalEntry :=
  ⟨.set, key, value, 0, 0, 0, expiresAt⟩

/-- The address in a record. -/
def addr (e : WalEntry) : NeedleAddr :=
  ⟨e.volumeID, e.offset, e.size⟩

@[simp]
theorem ofSet_addr (key : Key) (addr : NeedleAddr) (expiresAt : Int64) :
    (ofSet key addr expiresAt).addr = addr :=
  rfl

end WalEntry

/-! ## Lines of JSON -/

namespace WalEntry

open Json

/-- A numeric field with the option `omitempty`. -/
def numberField (name : String) (number : Int) : Bytes :=
  if number = 0 then [] else ascii s!",\"{name}\":" ++ decimal number

/-- `json.Marshal` of a record. -/
def marshal (e : WalEntry) : Bytes :=
  let type := match e.type with
    | .set => "SET"
    | .delete => "DELETE"
  ascii "\x7b\"Type\":" ++ quote (ascii type) ++ ascii ",\"Key\":" ++ quote e.key ++
    (if e.value = [] then [] else ascii ",\"Value\":" ++ quote e.value) ++
    numberField "VolumeID" e.volumeID.toNat ++ numberField "Offset" e.offset.toNat ++
    numberField "Size" e.size.toNat ++ numberField "ExpiresAt" e.expiresAt.toInt ++ ascii "\x7d"

/-- The record decoded from the line of a record. -/
def wire (e : WalEntry) : WalEntry :=
  { e with key := sanitize e.key, value := sanitize e.value }

/-- The longest line a `bufio.Scanner` accepts. -/
def maxLine : Nat :=
  65535

/-- The record comes back from the log as it was written. -/
structure ReadsBack (e : WalEntry) : Prop where
  wire_eq : e.wire = e
  line : e.marshal.length ≤ maxLine

instance (e : WalEntry) : Decidable e.ReadsBack :=
  decidable_of_iff (e.wire = e ∧ e.marshal.length ≤ maxLine)
    ⟨fun both => ⟨both.1, both.2⟩, fun back => ⟨back.wire_eq, back.line⟩⟩

/-! ### Records that read back -/

theorem length_numberField (name : String) {number : Int} (small : number.natAbs < 10 ^ 20) :
    (numberField name number).length ≤ name.length + 25 := by
  unfold numberField
  split
  · exact Nat.zero_le _
  · have digits := length_decimal small
    have label : (ascii s!",\"{name}\":").length = name.length + 4 := by
      simp [ascii, toString, String.length_toList]
    rw [List.length_append, label]
    omega

theorem ReadsBack.key_fits {e : WalEntry} (back : e.ReadsBack) : e.key.length ≤ 65535 := by
  have quoted := length_le_quote e.key
  have line := back.line
  simp only [marshal, maxLine, List.length_append] at line
  omega

/-- A record with a short, well-formed key reads back, whatever its address. -/
theorem ofSet_readsBack {key : Key} (clean : sanitize key = key)
    (short : (quote key).length ≤ 65000) (addr : NeedleAddr) (expiresAt : Int64) :
    (ofSet key addr expiresAt).ReadsBack := by
  constructor
  · simp only [wire, ofSet, clean]
    rfl
  · have idLt := addr.volumeID.toNat_lt
    have offsetLt := addr.offset.toNat_lt
    have sizeLt := addr.size.toNat_lt
    have expiryGe := expiresAt.le_toInt
    have expiryLt := expiresAt.toInt_lt
    have id := length_numberField "VolumeID" (show (addr.volumeID.toNat : Int).natAbs < _ by omega)
    have offset := length_numberField "Offset" (show (addr.offset.toNat : Int).natAbs < _ by omega)
    have size := length_numberField "Size" (show (addr.size.toNat : Int).natAbs < _ by omega)
    have expiry := length_numberField "ExpiresAt" (show expiresAt.toInt.natAbs < _ by omega)
    have head : (ascii "\x7b\"Type\":" ++ quote (ascii "SET") ++ ascii ",\"Key\":" ++
        ascii "\x7d").length ≤ 100 := by
      decide +kernel
    have names :
        "VolumeID".length + "Offset".length + "Size".length + "ExpiresAt".length ≤ 100 := by
      decide
    simp only [marshal, ofSet, maxLine, List.length_append, if_true, List.length_nil] at head ⊢
    omega

end WalEntry

/-- A line of the log file: complete, or the first bytes of a line whose write
was cut short. -/
inductive WalLine where
  | entry (e : WalEntry)
  | torn (e : WalEntry) (kept : Nat)
  deriving DecidableEq, Repr

/-- The lines in the first `count` bytes that the flusher writes for a batch. -/
def cutLines : Nat → List WalEntry → List WalLine
  | _, [] => []
  | count, e :: rest =>
      if e.marshal.length + 1 ≤ count then
        .entry e :: cutLines (count - (e.marshal.length + 1)) rest
      else [.torn e count]

example : (WalEntry.ofSet [107] ⟨1, 8, 3⟩ 0).ReadsBack := by decide +kernel

example : (WalEntry.ofDelete [0xFF]).wire ≠ WalEntry.ofDelete [0xFF] := by decide +kernel

end BriseDB
