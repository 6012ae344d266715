import BriseDB.Store.Session

/-!
# Commands of the TCP server

`handleConn` serves one connection with one session.  A command and its arguments are the
words of a line, and the answer is a list of lines.  The commands of the publish and
subscribe channels, `VOLINFO` and the hand-over of a connection to a replica are left out.
-/

namespace BriseDB

open Json (ascii decimal parseDigits)

namespace Server

/-! ## Numbers -/

/-- `strconv.ParseInt` to base 10 and 64 bits: a number out of range is an error. -/
def parseInt (text : Bytes) : Option Int64 := do
  let number ← match text with
    | 45 :: digits => (parseDigits digits).map fun number => -(number : Int)
    | 43 :: digits => (parseDigits digits).map fun number => (number : Int)
    | digits => (parseDigits digits).map fun number => (number : Int)
  if -2 ^ 63 ≤ number ∧ number < 2 ^ 63 then some (Int64.ofInt number) else none

/-- `strings.ToUpper`, as far as it matters for the names of commands and options: the
letters whose capital is an ASCII letter are those of ASCII, the dotless i and the long s. -/
def toUpper : Bytes → Bytes
  | 0xC4 :: 0xB1 :: rest => 73 :: toUpper rest
  | 0xC5 :: 0xBF :: rest => 83 :: toUpper rest
  | byte :: rest => (if 97 ≤ byte ∧ byte ≤ 122 then byte - 32 else byte) :: toUpper rest
  | [] => []

/-! ## Answers -/

/-- Answer a call that returns nothing but an error. -/
def answer (call : Exec Session Unit) : Exec Session (List Bytes) := do
  let result ← Exec.attempt call
  match result with
  | .ok _ => pure [ascii "+OK"]
  | .error cause => pure [ascii s!"-{cause}"]

/-- An error that is found in the command itself. -/
def refuse (text : String) : Exec Session (List Bytes) :=
  pure [ascii s!"-ERROR: {text}"]

/-- An integer. -/
def number (value : Int) : Bytes :=
  ascii "+" ++ decimal value

/-- A text of the store. -/
def item (text : Bytes) : Bytes :=
  ascii "+" ++ text

/-! ## Commands -/

/-- The orders of the loops over maps. -/
structure Orders where
  count : Session.CountOrder
  commit : CommitOrder
  keys : RangeOrder Key
  log : RangeOrder Key

/-- `SET key value [EX seconds]`. -/
def set (now : Time) : List Bytes → Exec Session (List Bytes)
  | key :: value :: option :: seconds :: _ =>
      if toUpper option = ascii "EX" then
        match parseInt seconds with
        | none => refuse "EX requires a positive integer"
        | some secs =>
            if secs ≤ 0 then refuse "EX requires a positive integer"
            else answer (Session.setEX key value (secs * 1000000000) now)
      else answer (Session.set key value)
  | key :: value :: _ => answer (Session.set key value)
  | _ => refuse "SET requires key and value"

/-- `GET key`. -/
def get (now : Time) : List Bytes → Exec Session (List Bytes)
  | key :: _ => do
      let found ← Session.get key now
      match found with
      | some value => pure [item value]
      | none => pure [ascii "+nil"]
  | [] => refuse "GET requires key"

/-- `DELETE key`. -/
def delete : List Bytes → Exec Session (List Bytes)
  | key :: _ => answer (Session.delete key)
  | [] => refuse "DELETE requires key"

/-- `COUNT value`. -/
def count (now : Time) (order : Session.CountOrder) : List Bytes → Exec Session (List Bytes)
  | value :: _ => do
      let found ← Session.count value now order
      pure [number found]
  | [] => refuse "COUNT requires value"

/-- `TTL key`. -/
def ttl (now : Time) : List Bytes → Exec Session (List Bytes)
  | key :: _ => do
      let seconds ← Session.ttl key now
      pure [number seconds]
  | [] => refuse "TTL requires key"

/-- `PERSIST key`. -/
def persist : List Bytes → Exec Session (List Bytes)
  | key :: _ => do
      let removed ← Session.persist key
      pure [ascii (if removed then "+1" else "+0")]
  | [] => refuse "PERSIST requires key"

/-- `KEYS pattern`. -/
def keys (now : Time) (order : RangeOrder Key) : List Bytes → Exec Session (List Bytes)
  | pattern :: _ => do
      let found ← Session.keys pattern now order
      pure (number found.length :: found.map item)
  | [] => refuse "KEYS requires a pattern"

/-- The page size that is asked for by `COUNT`; anything else is ignored. -/
def pageSize : List Bytes → Int64
  | option :: text :: _ =>
      if toUpper option = ascii "COUNT" then
        match parseInt text with
        | some size => if 0 < size then size else 10
        | none => 10
      else 10
  | _ => 10

/-- `SCAN cursor [COUNT count]`. -/
def scan (now : Time) (order : RangeOrder Key) : List Bytes → Exec Session (List Bytes)
  | text :: options =>
      match parseInt text with
      | none => refuse "cursor must be a non-negative integer"
      | some cursor =>
          if cursor < 0 then refuse "cursor must be a non-negative integer"
          else do
            let (next, page) ← Session.scan cursor (pageSize options) now order
            pure ((number next.toInt ++ ascii " " ++ decimal page.length) :: page.map item)
  | [] => refuse "SCAN requires a cursor"

/-- `COMPACT`. -/
def compact (now : Time) (orders : Orders) : Exec Session (List Bytes) :=
  answer (Session.onDB (DB.compact now orders.keys orders.log))

/-- The commands of `handleConn` that are modelled, and what it answers to a name it does
not know. -/
inductive Command where
  | set
  | get
  | delete
  | count
  | ttl
  | persist
  | keys
  | scan
  | begin
  | commit
  | rollback
  | compact
  | stop
  | unknown (name : Bytes)
  deriving DecidableEq, Repr

namespace Command

/-- Whether a read-only server carries the command out. -/
def Allowed : Command → Prop
  | get | count | ttl | keys | scan | stop => True
  | _ => False

instance : DecidablePred Allowed
  | get | count | ttl | keys | scan | stop => inferInstanceAs (Decidable True)
  | set | delete | persist | begin | commit | rollback | compact | unknown _ =>
      inferInstanceAs (Decidable False)

end Command

/-- What `handleConn` answers to a command.  The connection ends after `STOP`. -/
def handle (readOnly : Bool) (now : Time) (orders : Orders) (cmd : Command) (args : List Bytes) :
    Exec Session (List Bytes) :=
  if readOnly ∧ ¬ cmd.Allowed then refuse "server is read-only"
  else
    match cmd with
    | .set => set now args
    | .get => get now args
    | .delete => delete args
    | .count => count now orders.count args
    | .ttl => ttl now args
    | .persist => persist args
    | .keys => keys now orders.keys args
    | .scan => scan now orders.keys args
    | .begin => answer Session.beginTransaction
    | .commit => answer (Session.commitTransaction orders.commit)
    | .rollback => answer Session.rollbackTransaction
    | .compact => compact now orders
    | .stop => pure [ascii "+OK"]
    | .unknown name => pure [ascii "-ERROR: unknown command " ++ name]

end Server

end BriseDB
