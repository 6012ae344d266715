import BriseDB.Base.Delivers
import BriseDB.Index.Update

/-!
# The index when writes fail

`Set`, `Delete` and `openHashIndex` report a failed write.  `Close` does not: it
ignores the failure to store the entry count.  A header that was written in part
still holds the size of the table and the offset of the data, for these do not
change, and some entry count.
-/

namespace BriseDB.Index

open Bytes (putLE getLE)

/-! ## Calls that report failures -/

theorem writeFile_reports (offset : Nat) (data : Bytes) : Exec.Reports (writeFile offset data) := by
  refine .bind Exec.Reports.state fun hi => .bind_write ?_ ?_
  · intro written
    exact .bind (.put _) fun _ => .pure ()
  · intro written cause state faults value isOk
    rcases Exec.bind_eq_ok.mp isOk with ⟨_, _, thrown⟩
    cases thrown

theorem appendEntry_reports (context : String) (key : Key) (addr : NeedleAddr) (expiresAt : Int64)
    (deleted : Bool) (count : Int64 → Int64) :
    Exec.Reports (appendEntry context key addr expiresAt deleted count) := by
  refine .bind (.ask _) fun slot => ?_
  refine .bind Exec.Reports.state fun hi => ?_
  refine .bind (.wrap _ (writeFile_reports _ _)) fun _ => ?_
  refine .bind (.modify _) fun _ => ?_
  exact .bind Exec.Reports.state fun _ => writeFile_reports _ _

theorem loadBuckets_reports : Exec.Reports loadBuckets := by
  refine .bind Exec.Reports.state fun hi => ?_
  split
  · exact .exhausted _
  · dsimp only
    split
    · exact .throw _
    · exact .put _

/-- Nothing is written when the table is loaded. -/
theorem loadBuckets_failed {hi : HashIndex} (fits : hi.bucketCount * 8 ≤ File.maxSize)
    (faults : List Fault) : (loadBuckets hi faults).failed = false := by
  unfold loadBuckets
  rw [Exec.bind_state_apply, if_neg (Nat.not_lt.mpr fits)]
  split <;> rfl

theorem initFile_reports : Exec.Reports initFile := by
  refine .bind Exec.Reports.state fun hi => ?_
  refine .bind (writeFile_reports _ _) fun _ => ?_
  split
  · exact .exhausted _
  · exact writeFile_reports _ _

theorem readHeader_reports : Exec.Reports readHeader := by
  refine .bind Exec.Reports.state fun hi => ?_
  dsimp only
  split
  · exact .throw _
  · split
    · exact .throw _
    · exact .put _

theorem openHashIndex_reports (bucketCount : UInt64) :
    Exec.Reports (openHashIndex bucketCount) := by
  refine .bind (.modify _) fun _ => ?_
  refine .bind Exec.Reports.state fun hi => ?_
  have loads : Exec.Reports (Exec.wrap "load hash index buckets" loadBuckets) :=
    Exec.Reports.wrap _ loadBuckets_reports
  split
  · exact .bind (.wrap _ initFile_reports) fun _ => loads
  · refine .bind (.wrap _ readHeader_reports) fun _ => ?_
    exact .bind (.modify _) fun _ => loads

/-! ## A header written in part -/

/-- The fields of the header in front of the entry count. -/
def headerFront (count dataBase : Nat) : Bytes :=
  hiMagic ++ (putLE 4 hiVersion ++ (putLE 4 0 ++ (putLE 8 count ++ putLE 8 dataBase)))

theorem encodeHeader_eq (count dataBase : Nat) (stored : Int64) :
    encodeHeader count dataBase stored =
      headerFront count dataBase ++ (putLE 8 stored.toUInt64.toNat ++ List.replicate 24 0) := by
  simp [encodeHeader, headerFront]

/-- Overwriting a part of the middle of three fields that stay as they are around it. -/
theorem take_append_drop_middle {front old new back : Bytes} (sameLength : new.length = old.length)
    (written : Nat) :
    (front ++ (new ++ back)).take written ++ (front ++ (old ++ back)).drop written =
      front ++ ((new.take (written - front.length) ++ old.drop (written - front.length)) ++
        back) := by
  simp only [List.take_append, List.drop_append, sameLength]
  rcases Nat.le_total written front.length with inFront | behindFront
  · simp only [Nat.sub_eq_zero_of_le inFront, List.take_zero, List.nil_append, Nat.zero_sub,
      List.drop_zero, List.append_nil]
    rw [← List.append_assoc, List.take_append_drop]
  · rw [List.take_of_length_le behindFront, List.drop_eq_nil_of_le behindFront]
    rcases Nat.le_total (written - front.length) old.length with inMiddle | behindMiddle
    · simp [Nat.sub_eq_zero_of_le inMiddle]
    · rw [List.take_of_length_le (by omega), List.drop_eq_nil_of_le behindMiddle]
      simp

/-- Eight bytes are the count of some header. -/
theorem exists_count {bytes : Bytes} (length : bytes.length = 8) :
    ∃ stored : Int64, putLE 8 stored.toUInt64.toNat = bytes := by
  have small := Bytes.getLE_lt bytes
  have whole := Bytes.putLE_getLE bytes
  rw [length] at small whole
  refine ⟨(UInt64.ofNat (getLE bytes)).toInt64, ?_⟩
  rw [UInt64.toUInt64_toInt64, UInt64.toNat_ofNat_of_lt' small, whole]

/-- A header that is overwritten in part is a header. -/
theorem writeAt_header (count dataBase : Nat) (old new : Int64) (written : Nat) (rest : Bytes) :
    ∃ stored, File.writeAt (encodeHeader count dataBase old ++ rest) 0
        ((encodeHeader count dataBase new).take written) =
      encodeHeader count dataBase stored ++ rest := by
  have startEq : File.writeAt (encodeHeader count dataBase old) 0
      ((encodeHeader count dataBase new).take written) =
        (encodeHeader count dataBase new).take written ++
          (encodeHeader count dataBase old).drop written := by
    unfold File.writeAt
    split
    · next empty =>
      have nothing : written = 0 ∨ encodeHeader count dataBase new = [] :=
        List.take_eq_nil_iff.mp empty
      have long := length_encodeHeader count dataBase new
      rcases nothing with rfl | noHeader
      · simp
      · rw [noHeader] at long
        cases long
    · have takenLength : ((encodeHeader count dataBase new).take written).length =
          min written hiHeaderSize := by
        rw [List.length_take, length_encodeHeader]
      rw [takenLength]
      rcases Nat.le_total written hiHeaderSize with inside | beyond
      · simp [Nat.min_eq_left inside]
      · rw [Nat.min_eq_right beyond, List.drop_eq_nil_of_le (by simp),
          List.drop_eq_nil_of_le (by simpa using beyond)]
        simp
  have mixed := @take_append_drop_middle (headerFront count dataBase)
    (putLE 8 old.toUInt64.toNat) (putLE 8 new.toUInt64.toNat) (List.replicate 24 0) (by simp)
    written
  rw [← encodeHeader_eq, ← encodeHeader_eq] at mixed
  rcases @exists_count ((putLE 8 new.toUInt64.toNat).take
      (written - (headerFront count dataBase).length) ++
    (putLE 8 old.toUInt64.toNat).drop (written - (headerFront count dataBase).length))
    (by simp; omega) with ⟨stored, storedEq⟩
  refine ⟨stored, ?_⟩
  rw [File.writeAt_append_left (by simp), startEq, mixed, ← storedEq, ← encodeHeader_eq]

/-- However its write ends, `Close` leaves a header with some entry count. -/
theorem close_state {hi : HashIndex} {old : Int64} {rest : Bytes}
    (contents : hi.f = encodeHeader hi.bucketCount hi.dataBase old ++ rest)
    (faults : List Fault) :
    (close hi faults).res = .ok () ∧
      ∃ stored, (close hi faults).state =
        { hi with f := encodeHeader hi.bucketCount hi.dataBase stored ++ rest } := by
  set header := encodeHeader hi.bucketCount hi.dataBase hi.entryCount with headerDef
  have headerFits : 0 + header.length ≤ File.maxSize := by
    rw [headerDef, length_encodeHeader]
    decide
  have written : ∀ count, ∃ stored, File.writeAt hi.f 0 (header.take count) =
      encodeHeader hi.bucketCount hi.dataBase stored ++ rest := by
    intro count
    rw [contents]
    exact writeAt_header _ _ _ _ _ _
  have whole : ∃ stored, File.writeAt hi.f 0 header =
      encodeHeader hi.bucketCount hi.dataBase stored ++ rest := by
    have all := written header.length
    rwa [List.take_length] at all
  unfold close
  rw [Exec.bind_state_apply]
  have wrote : ∃ result stored later failed, writeFile 0 header hi faults =
      ⟨result, { hi with f := encodeHeader hi.bucketCount hi.dataBase stored ++ rest }, later,
        failed⟩ ∧ (result = .ok () ∨ ∃ message, result = .err message) := by
    unfold writeFile
    rw [Exec.bind_state_apply]
    simp only [bind, Exec.bind, File.write, if_pos headerFits]
    cases faults with
    | nil =>
        rcases whole with ⟨stored, wholeEq⟩
        exact ⟨_, stored, _, _, by simp only [wholeEq]; rfl, .inl rfl⟩
    | cons fault more =>
        cases fault with
        | complete =>
            rcases whole with ⟨stored, wholeEq⟩
            exact ⟨_, stored, _, _, by simp only [wholeEq]; rfl, .inl rfl⟩
        | cut count =>
            rcases written count with ⟨stored, partEq⟩
            exact ⟨_, stored, _, _, by simp only [partEq]; rfl, .inr ⟨_, rfl⟩⟩
  rcases wrote with ⟨result, stored, later, failed, wroteEq, ok | ⟨message, err⟩⟩
  · subst ok
    simp only [bind, pure, Exec.bind, Exec.ret, Exec.attempt, ← headerDef, wroteEq]
    exact ⟨trivial, stored, rfl⟩
  · subst err
    simp only [bind, pure, Exec.bind, Exec.ret, Exec.attempt, ← headerDef, wroteEq]
    exact ⟨trivial, stored, rfl⟩

/-- `Close` replaces the entry count in the header, however its write ends. -/
theorem close_rewrites {room : Prop} {hi : HashIndex} {old : Int64} {rest : Bytes}
    (contents : hi.f = encodeHeader hi.bucketCount hi.dataBase old ++ rest) :
    close.Delivers room hi fun _ next => ∃ stored,
      next = { hi with f := encodeHeader hi.bucketCount hi.dataBase stored ++ rest } := by
  refine ⟨fun faults _ _ => (close_state contents faults).2,
    fun faults _ => ⟨(), (close_state contents faults).1⟩, fun _ => ?_⟩
  have headerFits :
      0 + (encodeHeader hi.bucketCount hi.dataBase hi.entryCount).length ≤ File.maxSize := by
    rw [length_encodeHeader]
    decide
  unfold close writeFile
  simp only [bind, Exec.bind, Exec.state, Exec.attempt, File.write, if_pos headerFits]
  exact ⟨rfl, rfl⟩

/-- `Close` of a properly laid out index, however its write ends. -/
theorem close_delivers {room : Prop} {hi : HashIndex} {stored : Int64} {log : List Record}
    (layout : Layout hi stored log) :
    close.Delivers room hi fun _ next =>
      ∃ newStored, Layout next newStored log ∧ next.entryCount = hi.entryCount ∧
        next.tmp = hi.tmp ∧ next.bucketCount = hi.bucketCount := by
  refine .mono (close_rewrites layout.contents_eq) ?_
  rintro _ _ ⟨newStored, rfl⟩
  exact ⟨newStored, layout.withStored newStored, rfl, rfl, rfl⟩

end BriseDB.Index
