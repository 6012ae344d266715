import BriseDB.Volume.Core

/-!
# Appends that may fail

`write` and `writeStream` append a header and then the payload, and advance the
end of the volume only when both have succeeded.  A call that fails with nothing
written leaves the volume as it was.  A call that fails later leaves bytes behind
that the volume does not count, and every later address is wrong.
-/

namespace BriseDB

open Bytes (putBE)

/-- A call that appends a blob to a volume. -/
inductive Append where
  | write (data : Bytes)
  | stream (r : Reader) (size : Int64)
  deriving DecidableEq, Repr

namespace Append

/-- Carry out the call. -/
def run : Append → Exec Volume NeedleAddr
  | write data => Volume.write data
  | stream r size => Volume.writeStream r size

/-- The bytes the caller hands over. -/
def payload : Append → Bytes
  | write data => data
  | stream r _ => r.data

/-- A reader yields the announced number of bytes and no error. -/
def Exact : Append → Prop
  | write _ => True
  | stream r size => r.error = none ∧ (r.data.length : Int) = size.toInt

/-- The header write fails before its first byte: the file is full, or the
environment refuses it. -/
def Refused (v : Volume) (faults : List Fault) : Prop :=
  File.maxSize < v.contents.length + 8 ∨ faults.head? = some (.cut 0)

/-- Header and payload fit into the file, and the environment writes both. -/
def Completed (v : Volume) (payload : Bytes) (faults : List Fault) : Prop :=
  v.contents.length + (8 + payload.length) ≤ File.maxSize ∧
    ∀ fault ∈ faults.take 2, fault = .complete

/-- The call appends its whole blob or nothing. -/
def Clean (call : Append) (v : Volume) (faults : List Fault) : Prop :=
  Refused v faults ∨ call.Exact ∧ Completed v call.payload faults

end Append

namespace Volume

/-- A run of calls, each with the outcomes of its file writes. -/
abbrev Run :=
  List (Append × List Fault)

/-- The volume after a run. -/
def after : Volume → Run → Volume
  | v, [] => v
  | v, (call, faults) :: rest => after (call.run v faults).state rest

/-- The addresses returned in a run, with the payloads they were returned for. -/
def returned : Volume → Run → List (NeedleAddr × Bytes)
  | _, [] => []
  | v, (call, faults) :: rest =>
      let out := call.run v faults
      match out.res with
      | .ok addr => (addr, call.payload) :: returned out.state rest
      | _ => returned out.state rest

/-- Every call of a run appends its whole blob or nothing. -/
def CleanRun : Volume → Run → Prop
  | _, [] => True
  | v, (call, faults) :: rest => call.Clean v faults ∧ CleanRun (call.run v faults).state rest

/-! ## One call -/

variable {v : Volume} {faults : List Fault}

theorem appendFile_complete {data : Bytes}
    (fits : v.contents.length + data.length ≤ File.maxSize)
    (complete : ∀ fault, faults.head? = some fault → fault = .complete) :
    appendFile data v faults = ⟨.ok (), { v with contents := v.contents ++ data }, faults.tail,
      false⟩ := by
  unfold appendFile
  rw [Exec.bind_state_apply, Exec.bind_of_ok (File.write_complete fits complete v),
    File.writeAt_end rfl]
  rfl

/-- A refused header leaves the file as it is. -/
theorem appendFile_refused {data : Bytes} (length : data.length = 8)
    (refused : Append.Refused v faults) :
    ∃ message, appendFile data v faults = ⟨.err message, v, faults.tail, true⟩ := by
  unfold appendFile
  rw [Exec.bind_state_apply]
  have written : ∃ message, (File.write v.contents v.contents.length data : Exec Volume _) v
      faults =
      ⟨.ok (v.contents, some message), v, faults.tail, true⟩ := by
    unfold File.write
    rw [length]
    rcases refused with full | cut
    · exact ⟨_, if_neg (Nat.not_le.mpr full)⟩
    · by_cases fits : v.contents.length + 8 ≤ File.maxSize
      · rcases List.head?_eq_some_iff.mp cut with ⟨rest, rfl⟩
        rw [if_pos fits]
        exact ⟨_, rfl⟩
      · exact ⟨_, if_neg fits⟩
  rcases written with ⟨message, eq⟩
  refine ⟨message, ?_⟩
  change Exec.bind _ _ v faults = _
  simp only [Exec.bind, eq]
  rfl

/-- Header and payload of a blob are appended one after the other. -/
theorem appendBlob_complete {α : Type} {data : Bytes} (completed : Append.Completed v data faults)
    (header payload : String) (next : Unit → Exec Volume α) :
    (Exec.wrap header (appendFile (putBE 8 data.length)) >>= fun _ =>
        Exec.wrap payload (appendFile data) >>= next) v faults =
      next () { v with contents := v.contents ++ encodeBlob data } faults.tail.tail := by
  rcases completed with ⟨fits, complete⟩
  have headerEq : appendFile (putBE 8 data.length) v faults =
      ⟨.ok (), { v with contents := v.contents ++ putBE 8 data.length }, faults.tail, false⟩ := by
    apply appendFile_complete
    · rw [Bytes.length_putBE]
      omega
    · intro fault isFirst
      apply complete fault
      rcases List.head?_eq_some_iff.mp isFirst with ⟨rest, rfl⟩
      simp
  have payloadEq : appendFile data { v with contents := v.contents ++ putBE 8 data.length }
        faults.tail =
      ⟨.ok (), { v with contents := v.contents ++ encodeBlob data }, faults.tail.tail, false⟩ := by
    rw [appendFile_complete]
    · rw [encodeBlob, List.append_assoc]
    · rw [List.length_append, Bytes.length_putBE]
      omega
    · intro fault isSecond
      apply complete fault
      rcases faults with _ | ⟨first, later⟩
      · cases isSecond
      · rcases List.head?_eq_some_iff.mp isSecond with ⟨rest, restEq⟩
        rw [show later = fault :: rest from restEq]
        simp
  rw [Exec.bind_of_ok (Exec.wrap_of_ok header headerEq),
    Exec.bind_of_ok (Exec.wrap_of_ok payload payloadEq)]

/-- A call whose header is refused changes nothing. -/
theorem run_refused (call : Append) (refused : Append.Refused v faults) :
    ∃ message, call.run v faults = ⟨.err message, v, faults.tail, true⟩ := by
  cases call with
  | write data =>
      rcases appendFile_refused (Bytes.length_putBE 8 data.length) refused with ⟨message, eq⟩
      change ∃ message, write data v faults = _
      unfold write
      rw [Exec.bind_state_apply, Exec.bind_of_err (Exec.wrap_of_err _ eq)]
      exact ⟨_, rfl⟩
  | stream r size =>
      rcases appendFile_refused (Bytes.length_putBE 8 size.toUInt64.toNat) refused with
        ⟨message, eq⟩
      change ∃ message, writeStream r size v faults = _
      unfold writeStream
      rw [Exec.bind_state_apply, Exec.bind_of_err (Exec.wrap_of_err _ eq)]
      exact ⟨_, rfl⟩

/-- A completed call appends its blob and returns the address where it starts. -/
theorem run_completed {call : Append} (exact_ : call.Exact)
    (completed : Append.Completed v call.payload faults) :
    call.run v faults =
      ⟨.ok (v.nextAddr call.payload), v.append call.payload, faults.tail.tail, false⟩ := by
  cases call with
  | write data =>
      have blob : Append.Completed v data faults := completed
      change write data v faults = _
      unfold write
      rw [Exec.bind_state_apply, appendBlob_complete blob]
      rfl
  | stream r size =>
      rcases r with ⟨data, error⟩
      rcases exact_ with ⟨noError, sizeEq⟩
      obtain rfl : error = none := noError
      have blob : Append.Completed v data faults := completed
      have lengthEq : size.toUInt64.toNat = data.length := toNat_size sizeEq
      have unsignedEq : size.toUInt64 = UInt64.ofNat data.length := by
        rw [← lengthEq, UInt64.ofNat_toNat]
      change writeStream ⟨data, none⟩ size v faults = _
      unfold writeStream
      rw [lengthEq, unsignedEq, Exec.bind_state_apply, appendBlob_complete blob]
      simp only [sizeEq, ne_eq, not_true_eq_false, if_false]
      rfl

/-! ## Runs -/

theorem CleanRun.of_append {before later : Run} (clean : v.CleanRun (before ++ later)) :
    v.CleanRun before := by
  induction before generalizing v with
  | nil => trivial
  | cons step before ih => exact ⟨clean.1, ih clean.2⟩

/-- In a clean run the volume keeps knowing its end, and no blob is lost. -/
theorem CleanRun.reads {run : Run} (intact : v.Intact) (clean : v.CleanRun run) :
    (v.after run).Intact ∧
      (∀ addr data, read v addr = .ok data → read (v.after run) addr = .ok data) ∧
      ∀ blob ∈ v.returned run, read (v.after run) blob.1 = .ok blob.2 := by
  induction run generalizing v with
  | nil => exact ⟨intact, fun _ _ readEq => readEq, nofun⟩
  | cons step run ih =>
      rcases step with ⟨call, faults⟩
      rcases clean with ⟨stepClean, restClean⟩
      simp only [after, returned]
      rcases stepClean with refused | ⟨isExact, completed⟩
      · rcases run_refused call refused with ⟨message, eq⟩
        rw [eq] at restClean ⊢
        exact ih intact restClean
      · have fits := completed.1
        rw [run_completed isExact completed] at restClean ⊢
        rcases ih (intact.append fits) restClean with ⟨stays, keeps, later⟩
        refine ⟨stays, fun addr data readEq => keeps addr data (read_append readEq _), ?_⟩
        intro blob mem
        rcases List.mem_cons.mp mem with rfl | isLater
        · exact keeps _ _ (intact.read_nextAddr fits)
        · exact later blob isLater

/-- When every call of a run appends its whole blob or nothing, the volume knows the
end of its file after each call, and every address that was returned reads back as the
payload of its call. -/
theorem appends_readBack (id : UInt32) {contents : Bytes} (within : contents.length ≤ File.maxSize)
    {run before later : Run} (clean : (openVolume id contents).CleanRun run)
    (split : run = before ++ later) :
    ((openVolume id contents).after before).endOffset.toNat =
        ((openVolume id contents).after before).contents.length ∧
      ∀ blob ∈ (openVolume id contents).returned before,
        read ((openVolume id contents).after before) blob.1 = .ok blob.2 := by
  have cleanBefore : (openVolume id contents).CleanRun before := (split ▸ clean).of_append
  rcases cleanBefore.reads (openVolume_intact within) with ⟨intact, -, readBack⟩
  refine ⟨?_, readBack⟩
  have bound := intact.within
  unfold File.maxSize at bound
  rw [intact.end_eq, UInt64.toNat_ofNat_of_lt' (show _ < 2 ^ 64 by omega)]

/-- One blob, then a header that is refused. -/
def oneRefused : Run :=
  [(.write [7], []), (.write [8], [.cut 0])]

theorem appends_readBack_oneRefused :
    (openVolume 0 []).returned oneRefused = [(⟨0, 0, 1⟩, [7])] ∧
      ((openVolume 0 []).after oneRefused).endOffset.toNat =
        ((openVolume 0 []).after oneRefused).contents.length ∧
      ∀ blob ∈ (openVolume 0 []).returned oneRefused,
        read ((openVolume 0 []).after oneRefused) blob.1 = .ok blob.2 := by
  have clean : (openVolume 0 []).CleanRun oneRefused :=
    ⟨.inr ⟨trivial, by decide, by decide⟩, .inl (.inr rfl), trivial⟩
  exact ⟨by decide, appends_readBack 0 (by decide) clean (List.append_nil oneRefused).symm⟩

/-- An upload that ends after one of two announced bytes, then a blob. -/
def shortUpload : Run :=
  [(.stream ⟨[1], none⟩ 2, []), (.write [7], [])]

/-- After a short upload the end of the volume is wrong, and so is the next address. -/
theorem shortUpload_misplaces :
    ((openVolume 0 []).after shortUpload).endOffset.toNat ≠
        ((openVolume 0 []).after shortUpload).contents.length ∧
      (⟨0, 0, 1⟩, [7]) ∈ (openVolume 0 []).returned shortUpload ∧
      read ((openVolume 0 []).after shortUpload) ⟨0, 0, 1⟩ ≠ .ok [7] := by
  decide

end Volume

end BriseDB
