import BriseDB.Server.Commands

/-!
# The HTTP blob server

`getBlob` serves a blob or a range of it, and `handleScan` a page of the keys.  Every request
has a session of its own.  A query parameter or header that is not given is the empty text.
-/

namespace BriseDB

open Json (ascii decimal parseDigits quote)

namespace Session

/-- `ReadBlobAt`: a part of the blob at an address. -/
def readBlobAt (addr : NeedleAddr) (start length : Int64) : Exec Session Bytes := do
  let data ← onDB (DB.onVolumes (VolumePool.read addr))
  let n : Int := data.length
  let last := (start + length).toInt
  if n ≤ start.toInt then pure []
  else
    let last := if n < last ∨ length < 0 then n else last
    if 0 ≤ start.toInt ∧ start.toInt ≤ last then
      pure ((data.take last.toNat).drop start.toInt.toNat)
    else Exec.panic "slice bounds out of range"

end Session

namespace Server

/-! ## Numbers -/

/-- The value that `strconv.Atoi` returns, with an error or without: 0 for a text that is not a
number, and the nearest bound for a number out of range.  Digits that do not fit in 64 bits are
out of range whatever follows them. -/
def atoi (text : Bytes) : Int64 :=
  let digits := if text.head? = some 45 ∨ text.head? = some 43 then text.tail else text
  let leading := digits.takeWhile fun digit => 48 ≤ digit ∧ digit ≤ 57
  let number := (parseDigits leading).getD 0
  if leading ≠ digits ∧ number < 2 ^ 64 then 0
  else if text.head? = some 45 then
    if 2 ^ 63 ≤ number then Int64.minValue else -Int64.ofNat number
  else if 2 ^ 63 ≤ number then Int64.maxValue
  else Int64.ofNat number

/-- `int64(d.Seconds())`. -/
def seconds (duration : Int) : Int :=
  if 0 ≤ duration then Time.wholeSeconds duration else -Time.wholeSeconds (-duration)

/-! ## Responses -/

/-- A response: its status, its headers and its body. -/
structure Response where
  status : Nat
  headers : List (String × Bytes)
  body : Bytes
  deriving DecidableEq, Repr

/-- `w.Header().Set`. -/
def setHeader (name : String) (value : Bytes) (headers : List (String × Bytes)) :
    List (String × Bytes) :=
  headers.filter (fun header => header.1 ≠ name) ++ [(name, value)]

/-- `http.Error`. -/
def httpError (headers : List (String × Bytes)) (text : Bytes) (code : Nat) : Response where
  status := code
  headers :=
    setHeader "X-Content-Type-Options" (ascii "nosniff")
      (setHeader "Content-Type" (ascii "text/plain; charset=utf-8")
        (headers.filter fun header => header.1 ≠ "Content-Length"))
  body := text ++ [10]

/-- A slice of texts in JSON; a slice without elements is the nil slice here. -/
def jsonStrings (texts : List Bytes) : Bytes :=
  if texts = [] then ascii "null"
  else ascii "[" ++ List.intercalate (ascii ",") (texts.map quote) ++ ascii "]"

/-- The methods that the handlers tell apart. -/
inductive Method where
  | get
  | put
  | head
  | delete
  | other
  deriving DecidableEq, Repr

/-- A call by a new session. -/
def withSession {α : Type} (call : Exec Session α) : Exec DB α :=
  Exec.zoom (fun db => ⟨db, []⟩) (fun s _ => s.db) call

/-! ## Keys -/

/-- `handleScan`: `GET /v1/scan?cursor=…&count=…`. -/
def handleScan (method : Method) (cursor count : Bytes) (now : Time) (order : RangeOrder Key) :
    Exec DB Response :=
  if method ≠ .get then pure (httpError [] (ascii "method not allowed") 405)
  else do
    let size := if atoi count ≤ 0 then 100 else atoi count
    let (next, keys) ← withSession (Session.scan (atoi cursor) size now order)
    pure
      { status := 200
        headers := [("Content-Type", ascii "application/json")]
        body := ascii "\x7b\"count\":" ++ decimal keys.length ++ ascii ",\"keys\":" ++
          jsonStrings keys ++ ascii ",\"next_cursor\":" ++ decimal next.toInt ++ ascii "\x7d\n" }

/-! ## Blobs -/

/-- The texts before and after the first hyphen (`strings.SplitN(spec, "-", 2)`). -/
def splitHyphen (spec : Bytes) : Option (Bytes × Bytes) :=
  match spec.dropWhile (· ≠ 45) with
  | [] => none
  | _ :: rest => some (spec.takeWhile (· ≠ 45), rest)

/-- `parseRange`: the start and the length of the range in a header, where the length -1 stands
for the rest of the blob. -/
def parseRange (hdr : Bytes) (total : Int64) : Except String (Int64 × Int64) :=
  if ¬ (ascii "bytes=").isPrefixOf hdr then .error "unsupported range unit"
  else
    let spec := hdr.drop 6
    if 44 ∈ spec then .error "multi-range not supported"
    else
      match splitHyphen spec with
      | none => .error "invalid range spec"
      | some ([], suffix) =>
          match parseInt suffix with
          | none => .error "invalid suffix range"
          | some n =>
              if n ≤ 0 then .error "invalid suffix range"
              else
                let start := if total - n < 0 then 0 else total - n
                .ok (start, total - start)
      | some (first, last) =>
          match parseInt first with
          | none => .error "invalid range start"
          | some start =>
              if start < 0 then .error "invalid range start"
              else if total ≤ start then .error "range start beyond content length"
              else if last = [] then .ok (start, -1)
              else
                match parseInt last with
                | none => .error "invalid range end"
                | some stop =>
                    if stop < start then .error "invalid range end"
                    else
                      let stop := if total ≤ stop then total - 1 else stop
                      .ok (start, stop - start + 1)

/-- `getBlob`: `GET` and `HEAD /v1/blobs/key`.  The clock is read at `now` for the expiry and at
`later` for the remaining time. -/
def getBlob (key : Key) (sendBody : Bool) (rangeHdr : Bytes) (now later : Time) :
    Exec DB Response := do
  let found ← withSession (Session.getBlobMeta key now)
  match found with
  | none => pure (httpError [] (ascii "not found") 404)
  | some (addr, expiresAt) =>
      let size := addr.size.toInt64
      let ttlSecs :=
        if 0 < expiresAt then seconds (Session.untilInstant (Time.ofNano expiresAt) later) else -1
      let headers := [("Accept-Ranges", ascii "bytes"),
        ("Content-Type", ascii "application/octet-stream"),
        ("X-Brise-Size", decimal size.toInt), ("X-Brise-TTL", decimal ttlSecs)]
      if ¬ sendBody then
        pure ⟨200, setHeader "Content-Length" (decimal size.toInt) headers, []⟩
      else if rangeHdr ≠ [] then
        match parseRange rangeHdr size with
        | .error cause => pure (httpError headers (ascii s!"bad range: {cause}") 416)
        | .ok (start, length) => do
            let result ← Exec.attempt (withSession (Session.readBlobAt addr start length))
            match result with
            | .error cause => pure (httpError headers (ascii cause) 500)
            | .ok chunk =>
                let last := start + Int64.ofNat chunk.length - 1
                pure
                  { status := 206
                    headers :=
                      setHeader "Content-Length" (decimal chunk.length)
                        (setHeader "Content-Range" (ascii "bytes " ++ decimal start.toInt ++
                          ascii "-" ++ decimal last.toInt ++ ascii "/" ++ decimal size.toInt)
                          headers)
                    body := chunk }
      else do
        let result ← Exec.attempt (withSession (Session.readBlobAt addr 0 (-1)))
        match result with
        | .error cause => pure (httpError headers (ascii cause) 500)
        | .ok data => pure ⟨200, setHeader "Content-Length" (decimal data.length) headers, data⟩

end Server

end BriseDB
