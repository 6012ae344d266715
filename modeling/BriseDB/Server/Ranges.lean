import BriseDB.Server.Blobs
import BriseDB.Store.Listing
import BriseDB.Store.Replication

/-!
# Range requests

`parseRange` turns a `Range` header into a start and a length, `ReadBlobAt` cuts that part
out of the blob, and `getBlob` reports the part in `Content-Range`.  The three do their own
arithmetic on 64-bit numbers.  The main result says that they agree for every header and
every blob, except that the last bytes of an empty blob are served as a range.
-/

namespace BriseDB

namespace Server

open Json (ascii decimal)

/-! ## Headers -/

/-- The header asks for the bytes `first` to `last` of `total`. -/
inductive Requested (hdr : Bytes) (total : Nat) : Nat → Nat → Prop
  | closed {low high : Bytes} {start stop : Int64}
      (header : hdr = ascii "bytes=" ++ (low ++ 45 :: high)) (plain : 45 ∉ low)
      (isStart : parseInt low = some start) (isStop : parseInt high = some stop)
      (nonneg : 0 ≤ start.toInt) (ordered : start.toInt ≤ stop.toInt) :
      Requested hdr total start.toInt.toNat (min stop.toInt.toNat (total - 1))
  | toEnd {low : Bytes} {start : Int64} (header : hdr = ascii "bytes=" ++ (low ++ [45]))
      (plain : 45 ∉ low) (isStart : parseInt low = some start) (nonneg : 0 ≤ start.toInt) :
      Requested hdr total start.toInt.toNat (total - 1)
  | suffix {text : Bytes} {n : Int64} (header : hdr = ascii "bytes=" ++ 45 :: text)
      (isCount : parseInt text = some n) (positive : 0 < n.toInt) :
      Requested hdr total (total - min n.toInt.toNat total) (total - 1)

/-- The header asks for a number of bytes at the end. -/
def AsksSuffix (hdr : Bytes) : Prop :=
  ∃ text n, hdr = ascii "bytes=" ++ 45 :: text ∧ 44 ∉ text ∧ parseInt text = some n ∧ 0 < n.toInt

theorem splitHyphen_eq_some {spec low high : Bytes}
    (isSplit : splitHyphen spec = some (low, high)) : spec = low ++ 45 :: high ∧ 45 ∉ low := by
  unfold splitHyphen at isSplit
  split at isSplit
  · cases isSplit
  · rename_i byte rest dropped
    cases isSplit
    have stops := List.head?_dropWhile_not (fun byte : UInt8 => decide (byte ≠ 45)) spec
    rw [dropped] at stops
    have isHyphen : byte = 45 := by simpa using stops
    constructor
    · subst isHyphen
      rw [← dropped, List.takeWhile_append_dropWhile]
    · intro mem
      simpa using List.all_eq_true.mp List.all_takeWhile 45 mem

/-! ## Numbers -/

theorem toInt_sub {a b : Int64} (low : -2 ^ 63 ≤ a.toInt - b.toInt)
    (high : a.toInt - b.toInt < 2 ^ 63) : (a - b).toInt = a.toInt - b.toInt := by
  rw [Int64.toInt_sub]
  exact Int.bmod_eq_of_le (by omega) (by omega)

theorem toInt_add_one {a : Int64} (fits : a.toInt + 1 < 2 ^ 63) : (a + 1).toInt = a.toInt + 1 := by
  have low := a.le_toInt
  rw [Int64.toInt_add, Int64.toInt_one]
  exact Int.bmod_eq_of_le (by omega) (by omega)

/-! ## Parsing -/

/-- What `parseRange` makes of a header that it accepts. -/
inductive Parsed (hdr : Bytes) (total : Int) : Int → Int → Prop
  | closed {low high : Bytes} {start stop : Int64}
      (header : hdr = ascii "bytes=" ++ (low ++ 45 :: high)) (plain : 45 ∉ low)
      (isStart : parseInt low = some start) (isStop : parseInt high = some stop)
      (nonneg : 0 ≤ start.toInt) (inside : start.toInt < total)
      (ordered : start.toInt ≤ stop.toInt) :
      Parsed hdr total start.toInt (min stop.toInt (total - 1) - start.toInt + 1)
  | toEnd {low : Bytes} {start : Int64} (header : hdr = ascii "bytes=" ++ (low ++ [45]))
      (plain : 45 ∉ low) (isStart : parseInt low = some start) (nonneg : 0 ≤ start.toInt)
      (inside : start.toInt < total) : Parsed hdr total start.toInt (-1)
  | suffix {text : Bytes} {n : Int64} (header : hdr = ascii "bytes=" ++ 45 :: text)
      (noComma : 44 ∉ text) (isCount : parseInt text = some n) (positive : 0 < n.toInt) :
      Parsed hdr total (max 0 (total - n.toInt)) (total - max 0 (total - n.toInt))

theorem parseRange_parsed {hdr : Bytes} {total start length : Int64} (nonneg : 0 ≤ total.toInt)
    (parsed : parseRange hdr total = .ok (start, length)) :
    Parsed hdr total.toInt start.toInt length.toInt := by
  unfold parseRange at parsed
  split at parsed
  · cases parsed
  rename_i isPrefix
  obtain ⟨spec, rfl⟩ : ∃ spec, hdr = ascii "bytes=" ++ spec := by
    rw [not_not, List.isPrefixOf_iff_prefix] at isPrefix
    rcases isPrefix with ⟨spec, rfl⟩
    exact ⟨spec, rfl⟩
  have specEq : (ascii "bytes=" ++ spec).drop 6 = spec := List.drop_left' (by decide)
  simp only [specEq] at parsed
  split at parsed
  · cases parsed
  rename_i noComma
  split at parsed
  · cases parsed
  · rename_i text isSplit
    obtain ⟨rfl, -⟩ := splitHyphen_eq_some isSplit
    split at parsed
    · cases parsed
    · rename_i n isCount
      split at parsed
      · cases parsed
      · rename_i positive
        rw [Int64.le_iff_toInt_le, Int64.toInt_zero] at positive
        have small := total.toInt_lt
        have count := n.toInt_lt
        have rest := toInt_sub (show -2 ^ 63 ≤ total.toInt - n.toInt by omega) (by omega)
        have startEq : (if total - n < 0 then 0 else total - n).toInt =
            max 0 (total.toInt - n.toInt) := by
          split
          · rename_i negative
            rw [Int64.lt_iff_toInt_lt, rest, Int64.toInt_zero] at negative
            rw [Int64.toInt_zero, max_eq_left negative.le]
          · rename_i negative
            rw [Int64.lt_iff_toInt_lt, rest, Int64.toInt_zero] at negative
            rw [rest, max_eq_right (by omega)]
        cases parsed
        rw [toInt_sub (by omega) (by omega), startEq]
        exact .suffix rfl (fun mem => noComma (List.mem_cons_of_mem _ mem)) isCount (by omega)
  · rename_i low high notSuffix isSplit
    obtain ⟨rfl, plain⟩ := splitHyphen_eq_some isSplit
    split at parsed
    · cases parsed
    rename_i first isStart
    split at parsed
    · cases parsed
    rename_i startNonneg
    rw [Int64.lt_iff_toInt_lt, Int64.toInt_zero] at startNonneg
    split at parsed
    · cases parsed
    rename_i inside
    rw [Int64.le_iff_toInt_le] at inside
    split at parsed
    · rename_i isEmpty
      subst isEmpty
      cases parsed
      exact .toEnd rfl plain isStart (by omega) (by omega)
    · split at parsed
      · cases parsed
      rename_i stop isStop
      split at parsed
      · cases parsed
      rename_i ordered
      rw [Int64.lt_iff_toInt_lt] at ordered
      have small := total.toInt_lt
      have stopEq : (if total ≤ stop then total - 1 else stop).toInt =
          min stop.toInt (total.toInt - 1) := by
        split
        · rename_i beyond
          rw [Int64.le_iff_toInt_le] at beyond
          rw [toInt_sub (by rw [Int64.toInt_one]; omega) (by rw [Int64.toInt_one]; omega),
            Int64.toInt_one, min_eq_right (by omega)]
        · rename_i within
          rw [Int64.le_iff_toInt_le] at within
          rw [min_eq_left (by omega)]
      cases parsed
      rw [toInt_add_one, toInt_sub (by omega) (by omega), stopEq]
      · exact .closed rfl plain isStart isStop (by omega) (by omega) (by omega)
      · rw [toInt_sub (by omega) (by omega)]
        omega

/-- Of a blob that is not empty, the bytes asked for are at least one. -/
theorem Parsed.requested {hdr : Bytes} {total : Nat} (nonempty : 0 < total) {start length : Int}
    (parsed : Parsed hdr total start length) :
    ∃ first last : Nat, Requested hdr total first last ∧ first ≤ last ∧ last < total ∧
      start = first ∧ (length = -1 ∧ last + 1 = total ∨ length = last - first + 1) := by
  cases parsed with
  | closed header plain isStart isStop nonneg inside ordered =>
      refine ⟨_, _, .closed header plain isStart isStop nonneg ordered, ?_, ?_, ?_, .inr ?_⟩ <;>
        omega
  | toEnd header plain isStart nonneg inside =>
      refine ⟨_, _, .toEnd header plain isStart nonneg, ?_, ?_, ?_, .inl ⟨rfl, ?_⟩⟩ <;> omega
  | suffix header noComma isCount positive =>
      refine ⟨_, _, .suffix header isCount positive, ?_, ?_, ?_, .inr ?_⟩ <;> omega

/-- An empty blob has no first byte, so only a suffix is accepted. -/
theorem Parsed.asksSuffix {hdr : Bytes} {start length : Int} (parsed : Parsed hdr 0 start length) :
    AsksSuffix hdr := by
  cases parsed with
  | closed header plain isStart isStop nonneg inside ordered => omega
  | toEnd header plain isStart nonneg inside => omega
  | suffix header noComma isCount positive => exact ⟨_, _, header, noComma, isCount, positive⟩

theorem AsksSuffix.parseRange_empty {hdr : Bytes} (asks : AsksSuffix hdr) :
    parseRange hdr 0 = .ok (0, 0) := by
  rcases asks with ⟨text, n, rfl, noComma, isCount, positive⟩
  have specEq : (ascii "bytes=" ++ 45 :: text).drop 6 = 45 :: text := List.drop_left' (by decide)
  have isPrefix : (ascii "bytes=").isPrefixOf (ascii "bytes=" ++ 45 :: text) = true :=
    List.isPrefixOf_iff_prefix.mpr (List.prefix_append _ _)
  have isSplit : splitHyphen (45 :: text) = some ([], text) := by simp [splitHyphen]
  have notComma : 44 ∉ (45 : UInt8) :: text := by simpa using noComma
  have notNegative : ¬ n ≤ 0 := Session.not_le_zero positive
  have clamped : (0 : Int64) - n < 0 := by
    have small := n.toInt_lt
    rw [Int64.lt_iff_toInt_lt, toInt_sub (by rw [Int64.toInt_zero]; omega)
      (by rw [Int64.toInt_zero]; omega), Int64.toInt_zero]
    omega
  unfold parseRange
  simp only [isPrefix, not_true_eq_false, if_false, specEq, if_neg notComma, isSplit, isCount,
    if_neg notNegative, if_pos clamped]
  rfl

/-! ## Serving -/

/-- The key has a blob with this data. -/
structure HasBlob (db : DB) (key : Key) (now : Time) (addr : NeedleAddr) (expiresAt : Int64)
    (data : Bytes) : Prop where
  found : (Session.getBlobMeta key now ⟨db, []⟩ []).res = .ok (some (addr, expiresAt))
  read : (VolumePool.read addr db.volumes []).res = .ok data
  size_eq : addr.size.toNat = data.length
  small : data.length < 2 ^ 63

section Serving

variable {db : DB} {key : Key} {now : Time} {addr : NeedleAddr} {expiresAt : Int64} {data : Bytes}

theorem readBlobAt_eq (read : (VolumePool.read addr db.volumes []).res = .ok data)
    (small : data.length < 2 ^ 63) {start length : Int64} {first last : Nat}
    (ordered : first ≤ last)
    (inside : last < data.length) (startEq : start.toInt = first)
    (lengthEq : length.toInt = -1 ∧ last + 1 = data.length ∨ length.toInt = last - first + 1) :
    (Session.readBlobAt addr start length ⟨db, []⟩ []).res =
      .ok ((data.take (last + 1)).drop first) := by
  have highEq : (if (data.length : Int) < (start + length).toInt ∨ length < 0 then
      (data.length : Int) else (start + length).toInt) = last + 1 := by
    rcases lengthEq with ⟨toEnd, isLast⟩ | lengthEq
    · have negative : length < 0 := by
        rw [Int64.lt_iff_toInt_lt, toEnd, Int64.toInt_zero]
        decide
      rw [if_pos (.inr negative)]
      omega
    · have sum : (start + length).toInt = last + 1 := by
        rw [Int64.toInt_add, startEq, lengthEq]
        rw [Int.bmod_eq_of_le] <;> omega
      have nonneg : ¬ length < 0 := by
        rw [Int64.lt_iff_toInt_lt, lengthEq, Int64.toInt_zero]
        omega
      rw [sum, if_neg (not_or.mpr ⟨by omega, nonneg⟩)]
  refine Exec.bind_eq_ok.mpr ⟨data, read, ?_⟩
  dsimp only
  rw [if_neg (by omega), highEq, if_pos (by omega), startEq]
  rfl

theorem getBlobMeta_eq {s : Session} {faults : List Fault} {found : Option (NeedleAddr × Int64)}
    (returned : (Session.getBlobMeta key now s faults).res = .ok found) :
    Session.getBlobMeta key now s faults = ⟨.ok found, s, faults, false⟩ := by
  unfold Session.getBlobMeta at returned ⊢
  rcases Exec.bind_eq_ok.mp returned with ⟨entry, isEntry, returned⟩
  have asked : Exec.ask (fun s : Session => Index.get s.db.hindex key) s faults =
      ⟨.ok entry, s, faults, false⟩ := congrArg (Out.mk · s faults false) isEntry
  rw [asked] at returned
  rw [Exec.bind_of_ok asked]
  cases entry with
  | none => exact congrArg (Out.mk · s faults false) returned
  | some pair =>
      dsimp only at returned ⊢
      split at returned
      · rename_i expired
        rw [if_pos expired]
        exact congrArg (Out.mk · s faults false) returned
      · rename_i live
        rw [if_neg live]
        exact congrArg (Out.mk · s faults false) returned

theorem HasBlob.size_toInt64 (blob : HasBlob db key now addr expiresAt data) :
    addr.size.toInt64 = Int64.ofNat data.length := by
  have sizeEq : addr.size = UInt64.ofNat data.length := by
    rw [← blob.size_eq, UInt64.ofNat_toNat]
  rw [sizeEq]
  rfl

theorem HasBlob.toInt_length (blob : HasBlob db key now addr expiresAt data) :
    (Int64.ofNat data.length).toInt = data.length :=
  Int64.toInt_ofNat_of_lt blob.small

/-- The answer to a range of a blob: 416 if the header is refused, and otherwise the bytes that
the header asks for, with the same range in `Content-Range`. -/
def RangeServed (hdr data : Bytes) (response : Response) : Prop :=
  (∃ cause, parseRange hdr (Int64.ofNat data.length) = .error cause ∧ response.status = 416) ∨
    ∃ first last, Requested hdr data.length first last ∧ first ≤ last ∧ last < data.length ∧
      response.status = 206 ∧ response.body = (data.take (last + 1)).drop first ∧
      ("Content-Range", ascii "bytes " ++ decimal first ++ ascii "-" ++ decimal last ++
        ascii "/" ++ decimal data.length) ∈ response.headers

theorem HasBlob.lookup_eq (blob : HasBlob db key now addr expiresAt data) :
    withSession (Session.getBlobMeta key now) db [] =
      ⟨.ok (some (addr, expiresAt)), db, [], false⟩ := by
  simp only [withSession, Exec.zoom, getBlobMeta_eq blob.found]

/-- Without a range the answer is the whole blob, and hence no range. -/
theorem HasBlob.getBlob_whole (blob : HasBlob db key now addr expiresAt data) (later : Time)
    {response : Response} (answered : (getBlob key true [] now later db []).res = .ok response) :
    response.status = 500 ∨ response.status = 200 := by
  unfold getBlob at answered
  rw [Exec.bind_of_ok blob.lookup_eq] at answered
  rcases Exec.bind_eq_ok.mp answered with ⟨result, _, answered⟩
  cases result with
  | error cause =>
      obtain rfl := Res.ok.inj answered
      exact .inl rfl
  | ok chunk =>
      obtain rfl := Res.ok.inj answered
      exact .inr rfl

theorem HasBlob.getBlob_refused (blob : HasBlob db key now addr expiresAt data) {hdr : Bytes}
    (given : hdr ≠ []) (later : Time) {cause : String}
    (refused : parseRange hdr (Int64.ofNat data.length) = .error cause) :
    ∃ response, (getBlob key true hdr now later db []).res = .ok response ∧
      response.status = 416 := by
  unfold getBlob
  rw [Exec.bind_of_ok blob.lookup_eq]
  dsimp only
  rw [if_neg (by decide), if_pos given, blob.size_toInt64]
  simp only [refused]
  exact ⟨_, rfl, rfl⟩

/-- A range that is accepted is answered with the part that `ReadBlobAt` returns. -/
theorem HasBlob.getBlob_part (blob : HasBlob db key now addr expiresAt data) {hdr : Bytes}
    (given : hdr ≠ []) (later : Time) {start length : Int64} {chunk : Bytes}
    (accepted : parseRange hdr (Int64.ofNat data.length) = .ok (start, length))
    (isChunk : (Session.readBlobAt addr start length ⟨db, []⟩ []).res = .ok chunk) :
    ∃ response, (getBlob key true hdr now later db []).res = .ok response ∧
      response.status = 206 ∧ response.body = chunk ∧
      ("Content-Range", ascii "bytes " ++ decimal start.toInt ++ ascii "-" ++
        decimal (start + Int64.ofNat chunk.length - 1).toInt ++ ascii "/" ++
        decimal data.length) ∈ response.headers := by
  have attempted : (Exec.attempt (withSession (Session.readBlobAt addr start length)) db []).res =
      .ok (.ok chunk) := Exec.attempt_res isChunk
  unfold getBlob
  rw [Exec.bind_of_ok blob.lookup_eq]
  dsimp only
  rw [if_neg (by decide), if_pos given, blob.size_toInt64]
  simp only [accepted]
  refine ⟨_, Exec.bind_eq_ok.mpr ⟨_, attempted, rfl⟩, rfl, rfl, ?_⟩
  rw [blob.toInt_length]
  simp [setHeader]

/-- The answer to a request with a `Range` header is right exactly if the header is not empty
and does not ask for the last bytes of an empty blob. -/
theorem HasBlob.getBlob_rangeServed_iff (blob : HasBlob db key now addr expiresAt data)
    (hdr : Bytes) (later : Time) :
    (∃ response, (getBlob key true hdr now later db []).res = .ok response ∧
      RangeServed hdr data response) ↔ hdr ≠ [] ∧ (data = [] → ¬ AsksSuffix hdr) := by
  constructor
  · rintro ⟨response, answered, served⟩
    refine ⟨?_, ?_⟩
    · rintro rfl
      rcases served with ⟨_, _, refused⟩ | ⟨_, _, _, _, _, isPartial, _⟩
      · rcases blob.getBlob_whole later answered with isError | isWhole <;> omega
      · rcases blob.getBlob_whole later answered with isError | isWhole <;> omega
    · rintro rfl asks
      rcases served with ⟨cause, refused, _⟩ | ⟨_, last, _, _, inside, _⟩
      · have accepted := asks.parseRange_empty
        exact absurd (refused.symm.trans accepted) (by simp)
      · exact absurd inside (Nat.not_lt_zero last)
  · rintro ⟨given, notSuffix⟩
    cases parsed : parseRange hdr (Int64.ofNat data.length) with
    | error cause =>
        rcases blob.getBlob_refused given later parsed with ⟨response, answered, refused⟩
        exact ⟨response, answered, .inl ⟨cause, parsed, refused⟩⟩
    | ok pair =>
        have isParsed := parseRange_parsed (by rw [blob.toInt_length]; omega) parsed
        rw [blob.toInt_length] at isParsed
        by_cases empty : data = []
        · subst empty
          exact absurd isParsed.asksSuffix (notSuffix rfl)
        rcases isParsed.requested (List.length_pos_iff.mpr empty) with
          ⟨first, last, requested, ordered, inside, startEq, lengthEq⟩
        have isChunk := readBlobAt_eq blob.read blob.small ordered inside startEq lengthEq
        rcases blob.getBlob_part given later parsed isChunk with
          ⟨response, answered, isPartial, bodyEq, range⟩
        have chunkLength : ((data.take (last + 1)).drop first).length = last + 1 - first := by
          rw [List.length_drop, List.length_take, Nat.min_eq_left inside]
        have lastEq : (pair.1 + Int64.ofNat ((data.take (last + 1)).drop first).length - 1).toInt =
            last := by
          have small := blob.small
          have lengthEq : (Int64.ofNat (last + 1 - first)).toInt =
              ((last + 1 - first : Nat) : Int) :=
            Int64.toInt_ofNat_of_lt (by omega)
          have sum : (pair.1 + Int64.ofNat (last + 1 - first)).toInt = last + 1 := by
            rw [Session.toInt_add (by omega) (by omega) (by omega)]
            omega
          rw [chunkLength, toInt_sub (by rw [sum, Int64.toInt_one]; omega)
            (by rw [sum, Int64.toInt_one]; omega), sum, Int64.toInt_one]
          omega
        rw [startEq, lastEq] at range
        exact ⟨response, answered,
          .inr ⟨first, last, requested, ordered, inside, isPartial, bodyEq, range⟩⟩

end Serving

/-! ## Stored blobs -/

/-- A blob that can be read has the size in its address. -/
theorem length_of_read {v : Volume} {addr : NeedleAddr} {data : Bytes}
    (readEq : Volume.read v addr = .ok data) :
    addr.size.toNat = data.length ∧ data.length < 2 ^ 63 := by
  rcases Volume.readWithin_eq_ok.mp readEq with ⟨fits, -, long, headed, -, rfl⟩
  have cut : (File.readAt v.contents addr.offset.toNat (8 + addr.size).toNat).length ≤
      (8 + addr.size).toNat := by
    rw [File.length_readAt]
    exact Nat.min_le_left _ _
  have sum : (8 + addr.size).toNat = (8 + addr.size.toNat) % 2 ^ 64 := UInt64.toNat_add ..
  have bound := addr.size.toNat_lt
  unfold File.maxSize at fits
  rw [List.length_drop]
  omega

/-- The live keys of a store are blobs. -/
theorem HasBlob.of_models {db : DB} {rows : Rows} (models : db.Models rows) {key : Key} {row : Row}
    (stored : rows key = some row) {now : Time} (live : ¬ Session.expiredAt now row.expiresAt) :
    HasBlob db key now row.addr row.expiresAt row.value := by
  have holds := models.holds key row stored
  have reads : (VolumePool.read row.addr).Returns True db.volumes _ :=
    VolumePool.read_returns models.pool holds
  rcases reads.correct [] (reads.undisturbed trivial).1 with ⟨_, readEq, rfl, -⟩
  rcases holds with ⟨_, _, _, _, found⟩
  rcases length_of_read found with ⟨sizeEq, small⟩
  refine ⟨Exec.bind_eq_ok.mpr ⟨some (row.addr, row.expiresAt), ?_, ?_⟩, readEq, sizeEq, small⟩
  · refine (models.index.get_eq key).trans ?_
    rw [Rows.content, stored]
    rfl
  · dsimp only
    rw [if_neg live]
    rfl

end Server

open Server
open Json (ascii)

theorem History.oneValue_hasBlob {value : Bytes} (short : value.length ≤ 100) :
    ∃ addr, HasBlob (History.oneValue value).final.db [107] Clock.epoch addr 0 value := by
  rcases History.oneValue_models short with ⟨rows, models, valuesEq⟩
  have values : rows.values [107] = some (value, 0) := by rw [valuesEq, Function.update_self]
  rcases Option.map_eq_some_iff.mp values with ⟨row, stored, same⟩
  obtain ⟨rfl, permanent⟩ := Prod.mk.inj same
  have live : ¬ Session.expiredAt Clock.epoch row.expiresAt := by
    rw [permanent]
    decide
  exact ⟨row.addr, permanent ▸ HasBlob.of_models models stored live⟩

/-- The middle bytes of a blob of four. -/
theorem Server.HasBlob.getBlob_rangeServed_iff_middle :
    ∃ addr, HasBlob (History.oneValue [5, 6, 7, 8]).final.db [107] Clock.epoch addr 0 [5, 6, 7, 8] ∧
      ∃ response, (getBlob [107] true (ascii "bytes=1-2") Clock.epoch Clock.epoch
          (History.oneValue [5, 6, 7, 8]).final.db []).res = .ok response ∧
        RangeServed (ascii "bytes=1-2") [5, 6, 7, 8] response := by
  rcases @History.oneValue_hasBlob [5, 6, 7, 8] (by decide) with ⟨addr, blob⟩
  generalize (History.oneValue [5, 6, 7, 8]).final.db = db at blob ⊢
  exact ⟨addr, blob, (blob.getBlob_rangeServed_iff _ _).mpr
    ⟨by decide, fun empty => by cases empty⟩⟩

theorem Server.HasBlob.getBlob_empty {db : DB} {addr : NeedleAddr} {now : Time} {expiresAt : Int64}
    (blob : HasBlob db [107] now addr expiresAt []) (later : Time) :
    ∃ response, (getBlob [107] true (ascii "bytes=-5") now later db []).res = .ok response ∧
      response.status = 206 ∧ response.body = [] ∧
      ("Content-Range", ascii "bytes 0--1/0") ∈ response.headers := by
  have accepted : parseRange (ascii "bytes=-5") (Int64.ofNat ([] : Bytes).length) = .ok (0, 0) := by
    decide +kernel
  have isChunk : (Session.readBlobAt addr 0 0 ⟨db, []⟩ []).res = .ok [] := by
    refine Exec.bind_eq_ok.mpr ⟨[], blob.read, ?_⟩
    dsimp only
    rw [if_pos (by decide)]
    rfl
  have rangeEq : ascii "bytes " ++ Json.decimal (0 : Int64).toInt ++ ascii "-" ++
      Json.decimal (0 + Int64.ofNat ([] : Bytes).length - 1).toInt ++ ascii "/" ++
      Json.decimal ([] : Bytes).length = ascii "bytes 0--1/0" := by
    decide +kernel
  rcases blob.getBlob_part (by decide) later accepted isChunk with
    ⟨response, answered, isPartial, bodyEq, range⟩
  exact ⟨response, answered, isPartial, bodyEq, rangeEq ▸ range⟩

/-- The last five bytes of an empty blob are served as the bytes 0 to -1 of 0. -/
theorem History.getBlob_emptySuffix :
    ∃ response, (getBlob [107] true (ascii "bytes=-5") Clock.epoch Clock.epoch
        (History.oneValue []).final.db []).res = .ok response ∧ response.status = 206 ∧
      response.body = [] ∧ ("Content-Range", ascii "bytes 0--1/0") ∈ response.headers := by
  rcases @History.oneValue_hasBlob [] (by decide) with ⟨addr, blob⟩
  exact blob.getBlob_empty Clock.epoch

end BriseDB
