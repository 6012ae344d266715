import BriseDB.Store.Recovery
import BriseDB.Store.WalCodec

/-!
# The bytes of the log file

`replayWAL` cuts the log file into lines and decodes one after the other.  A line that is too
long or that is not a record ends the replay with an error; the records before it have been
applied by then.

The lines of a `DB` stand for these bytes: replaying the text of a log gives the same as
replaying its lines (`replayText_logText`).
-/

namespace BriseDB

open Json (ValidUTF8)

/-! ## Lines -/

/-- The lines of a text, as `bufio.ScanLines` cuts it, with their carriage returns. -/
def scanLines : Bytes → List Bytes
  | [] => []
  | byte :: rest =>
      if byte = 10 then [] :: scanLines rest
      else
        match scanLines rest with
        | [] => [[byte]]
        | line :: others => (byte :: line) :: others

/-- A line without a carriage return at its end. -/
def dropCR (line : Bytes) : Bytes :=
  if line.getLast? = some 13 then line.dropLast else line

theorem scanLines_line {line : Bytes} (noBreak : 10 ∉ line) (rest : Bytes) :
    scanLines (line ++ 10 :: rest) = line :: scanLines rest := by
  induction line with
  | nil => rfl
  | cons byte line ih =>
      rw [List.mem_cons, not_or] at noBreak
      rw [List.cons_append, scanLines, if_neg (Ne.symm noBreak.1), ih noBreak.2]

theorem scanLines_last {line : Bytes} (noBreak : 10 ∉ line) (nonempty : line ≠ []) :
    scanLines line = [line] := by
  induction line with
  | nil => exact absurd rfl nonempty
  | cons byte line ih =>
      rw [List.mem_cons, not_or] at noBreak
      rw [scanLines, if_neg (Ne.symm noBreak.1)]
      cases line with
      | nil => rfl
      | cons second line => rw [ih noBreak.2 (List.cons_ne_nil _ _)]

/-! ## Reading records -/

/-- The records that the scanner loop decodes, and the error it ends with. -/
def readRecords : List Bytes → List RawEntry × Option String
  | [] => ([], none)
  | line :: rest =>
      if WalEntry.maxLine < line.length then ([], some "bufio.Scanner: token too long")
      else
        match RawEntry.unmarshal (dropCR line) with
        | none => ([], some "unmarshal WAL entry")
        | some raw => (raw :: (readRecords rest).1, (readRecords rest).2)

/-- The records in the text of a log. -/
def readLog (text : Bytes) : List RawEntry × Option String :=
  readRecords (scanLines text)

namespace DB

/-- `replayWAL` on one record that has been decoded. -/
def replayRaw (now : Time) (raw : RawEntry) : Exec DB Unit :=
  match raw.entry? with
  | some op => replayEntry now op
  | none => pure ()

/-- The loop of `replayWAL` over the lines of a text. -/
def replayScanned (now : Time) : List Bytes → Exec DB Unit
  | [] => pure ()
  | line :: rest =>
      if WalEntry.maxLine < line.length then Exec.throw "bufio.Scanner: token too long"
      else
        match RawEntry.unmarshal (dropCR line) with
        | none => Exec.throw "unmarshal WAL entry"
        | some raw => do
            replayRaw now raw
            replayScanned now rest

/-- `replayWAL` on the bytes of the log file. -/
def replayText (now : Time) (text : Bytes) : Exec DB Unit :=
  replayScanned now (scanLines text)

/-- End with an error, if there is one. -/
def finish : Option String → Exec DB Unit
  | none => pure ()
  | some cause => Exec.throw cause

/-- Replay applies the records it reads in their order, and then returns the error that
stopped the reading. -/
theorem replayText_eq (now : Time) (text : Bytes) :
    replayText now text =
      (do
        Exec.each (readLog text).1 (replayRaw now)
        finish (readLog text).2) := by
  unfold replayText readLog
  induction scanLines text with
  | nil => rfl
  | cons line rest ih =>
      unfold replayScanned readRecords
      split
      · rfl
      · split
        · rfl
        · rw [ih, Exec.each, LawfulMonad.bind_assoc]

end DB

/-! ## Texts that were written -/

/-- The bytes of a line. -/
def WalLine.text : WalLine → Bytes
  | .entry e => e.marshal ++ [10]
  | .torn e kept => e.marshal.take kept

/-- The bytes of the log file. -/
def logText (lines : List WalLine) : Bytes :=
  lines.flatMap WalLine.text

theorem dropCR_marshal (e : WalEntry) : dropCR e.marshal = e.marshal := by
  rcases e.marshal_shape with ⟨body, shape⟩
  have last : e.marshal.getLast? = some 125 := by
    rw [shape, ← List.cons_append, List.getLast?_concat]
  rw [dropCR, last, if_neg (by decide)]

theorem dropCR_take (e : WalEntry) (kept : Nat) :
    dropCR (e.marshal.take kept) = e.marshal.take kept := by
  have notReturn : (e.marshal.take kept).getLast? ≠ some 13 := fun isReturn =>
    absurd (e.printable_marshal 13 (List.mem_of_mem_take (List.mem_of_getLast? isReturn)))
      (by decide)
  rw [dropCR, if_neg notReturn]

theorem readLog_entry (e : WalEntry) (rest : Bytes) :
    readLog (e.marshal ++ 10 :: rest) =
      if WalEntry.maxLine < e.marshal.length then ([], some "bufio.Scanner: token too long")
      else (e.wire.raw :: (readLog rest).1, (readLog rest).2) := by
  unfold readLog
  rw [scanLines_line e.newline_not_mem_marshal, readRecords, dropCR_marshal, e.unmarshal_marshal]

/-- Complete lines that are not too long are decoded one after the other. -/
theorem readLog_append {entries : List WalEntry}
    (short : ∀ e ∈ entries, e.marshal.length ≤ WalEntry.maxLine) (rest : Bytes) :
    readLog (logText (entries.map .entry) ++ rest) =
      (entries.map (fun e => e.wire.raw) ++ (readLog rest).1, (readLog rest).2) := by
  induction entries with
  | nil => rfl
  | cons e entries ih =>
      have shape : logText ((e :: entries).map .entry) ++ rest =
          e.marshal ++ 10 :: (logText (entries.map .entry) ++ rest) := by
        simp [logText, WalLine.text]
      rw [shape, readLog_entry, if_neg (Nat.not_lt.mpr (short e List.mem_cons_self)),
        ih fun other mem => short other (List.mem_cons_of_mem _ mem)]
      rfl

/-- What the last line is read as when its end is missing. -/
theorem readLog_torn (e : WalEntry) {kept : Nat} (positive : 0 < kept)
    (inside : kept ≤ e.marshal.length) :
    readLog (e.marshal.take kept) =
      if WalEntry.maxLine < kept then ([], some "bufio.Scanner: token too long")
      else if e.marshal.length ≤ kept then ([e.wire.raw], none)
      else ([], some "unmarshal WAL entry") := by
  have lengthEq : (e.marshal.take kept).length = kept := List.length_take_of_le inside
  have nonempty : e.marshal.take kept ≠ [] := by
    rw [← List.length_pos_iff, lengthEq]
    exact positive
  have noBreak : 10 ∉ e.marshal.take kept := fun mem =>
    e.newline_not_mem_marshal (List.mem_of_mem_take mem)
  rw [readLog, scanLines_last noBreak nonempty, readRecords, dropCR_take, lengthEq]
  by_cases whole : e.marshal.length ≤ kept
  · rw [List.take_of_length_le whole, e.unmarshal_marshal, if_pos whole]
    rfl
  · rw [WalEntry.unmarshal_front (Nat.lt_of_not_le whole), if_neg whole]

/-! ## Replaying a text -/

namespace DB

theorem replayRaw_raw (now : Time) (e : WalEntry) : replayRaw now e.raw = replayEntry now e := by
  rw [replayRaw, WalEntry.entry?_raw]

/-- A text that starts with a complete line. -/
theorem replayText_entry (now : Time) (e : WalEntry) (rest : Bytes) :
    replayText now (e.marshal ++ 10 :: rest) =
      if WalEntry.maxLine < e.marshal.length then Exec.throw "bufio.Scanner: token too long"
      else replayEntry now e.wire >>= fun _ => replayText now rest := by
  unfold replayText
  rw [scanLines_line e.newline_not_mem_marshal, replayScanned, dropCR_marshal, e.unmarshal_marshal]
  simp only [replayRaw_raw]

/-- Replaying the bytes of a log is replaying its lines, if only the last line may be torn. -/
theorem replayText_logText (now : Time) (entries : List WalEntry) {last : List WalLine}
    (isLast : last = [] ∨ ∃ e kept, last = [.torn e kept] ∧ kept ≤ e.marshal.length) :
    replayText now (logText (entries.map .entry ++ last)) =
      replayLines now (entries.map .entry ++ last) := by
  induction entries with
  | nil =>
      rcases isLast with rfl | ⟨e, kept, rfl, inside⟩
      · rfl
      · have text : logText ([].map WalLine.entry ++ [.torn e kept]) = e.marshal.take kept := by
          simp [logText, WalLine.text]
        rw [text, List.map_nil, List.nil_append, replayLines]
        rcases Nat.eq_zero_or_pos kept with rfl | positive
        · rfl
        · rw [if_neg (Nat.pos_iff_ne_zero.mp positive), replayText_eq,
            readLog_torn e positive inside]
          split
          · rfl
          · by_cases whole : e.marshal.length ≤ kept
            · rw [if_pos whole, if_pos ⟨rfl, whole⟩]
              exact (Exec.bind_ret _).trans ((Exec.bind_ret _).trans (replayRaw_raw now e.wire))
            · rw [if_neg whole, if_neg fun both => whole both.2]
              rfl
  | cons e entries ih =>
      have text : logText ((e :: entries).map .entry ++ last) =
          e.marshal ++ 10 :: logText (entries.map .entry ++ last) := by
        simp [logText, WalLine.text]
      rw [text, replayText_entry, ih, List.map_cons, List.cons_append, replayLines]

end DB

/-! ## A log that is cut -/

/-- The bytes that the first `count` bytes of the lines of a batch consist of. -/
theorem logText_cutLines (count : Nat) (entries : List WalEntry) :
    logText (cutLines count entries) = (logText (entries.map .entry)).take count := by
  induction entries generalizing count with
  | nil => simp [cutLines, logText]
  | cons e entries ih =>
      have text : logText ((e :: entries).map .entry) =
          (e.marshal ++ [10]) ++ logText (entries.map .entry) := by
        simp [logText, WalLine.text]
      rw [text, cutLines]
      split
      · next whole =>
        have length : (e.marshal ++ [10]).length ≤ count := by simpa using whole
        rw [List.take_append, List.take_of_length_le length, List.length_append,
          List.length_singleton, ← ih]
        simp [logText, WalLine.text]
      · next short =>
        have length : count ≤ e.marshal.length := by omega
        have text : logText [.torn e count] = e.marshal.take count := by
          simp [logText, WalLine.text]
        rw [text, List.append_assoc, List.take_append_of_le_length length]

/-- The records whose text is complete in the lines of a log. -/
def survivors : List WalLine → List WalEntry
  | [] => []
  | .entry e :: rest => e :: survivors rest
  | .torn e kept :: rest =>
      if e.marshal.length ≤ kept then e :: survivors rest else survivors rest

/-- No line is left in part.  A line without its newline is complete. -/
def CutBetweenLines (lines : List WalLine) : Prop :=
  ∀ e kept, .torn e kept ∈ lines → kept = 0 ∨ e.marshal.length ≤ kept

theorem marshal_ne_nil (e : WalEntry) : e.marshal ≠ [] := by
  rcases e.marshal_shape with ⟨body, shape⟩
  rw [shape]
  exact List.cons_ne_nil _ _

/-- The last line of a log that is cut inside it. -/
theorem readLog_tornLine_iff {e : WalEntry} {kept : Nat} (inside : kept ≤ e.marshal.length) :
    readLog (logText [.torn e kept]) =
        ((survivors [.torn e kept]).map fun e => e.wire.raw, none) ↔
      CutBetweenLines [.torn e kept] ∧
        ∀ other ∈ survivors [.torn e kept], other.marshal.length ≤ WalEntry.maxLine := by
  have text : logText [.torn e kept] = e.marshal.take kept := by simp [logText, WalLine.text]
  have clean : CutBetweenLines [.torn e kept] ↔ kept = 0 ∨ e.marshal.length ≤ kept := by
    simp [CutBetweenLines]
  have positive : 0 < e.marshal.length := List.length_pos_iff.mpr (marshal_ne_nil e)
  rw [text, clean, survivors]
  rcases Nat.eq_zero_or_pos kept with rfl | some
  · rw [if_neg (by omega)]
    simp [survivors, readLog, scanLines, readRecords]
  · rw [readLog_torn e some inside]
    by_cases whole : e.marshal.length ≤ kept
    · have lengthEq : e.marshal.length = kept := Nat.le_antisymm whole inside
      simp only [if_pos whole, survivors]
      split
      · next tooLong => simp [lengthEq, tooLong]
      · next short => simpa [lengthEq] using short
    · simp only [if_neg whole]
      have inPart : ¬ (kept = 0 ∨ e.marshal.length ≤ kept) := by omega
      split <;> simp [inPart]

theorem readLog_cutLines_iff (entries : List WalEntry) (count : Nat) :
    readLog (logText (cutLines count entries)) =
        ((survivors (cutLines count entries)).map fun e => e.wire.raw, none) ↔
      CutBetweenLines (cutLines count entries) ∧
        ∀ e ∈ survivors (cutLines count entries), e.marshal.length ≤ WalEntry.maxLine := by
  induction entries generalizing count with
  | nil => simp [cutLines, logText, readLog, scanLines, readRecords, survivors, CutBetweenLines]
  | cons e entries ih =>
      rw [cutLines]
      split
      · have text : ∀ lines, logText (.entry e :: lines) = e.marshal ++ 10 :: logText lines := by
          simp [logText, WalLine.text]
        have clean : ∀ lines, CutBetweenLines (.entry e :: lines) ↔ CutBetweenLines lines := by
          simp [CutBetweenLines]
        rw [text, readLog_entry, clean, survivors, List.forall_mem_cons]
        split
        · next tooLong => simp [Nat.not_le.mpr tooLong]
        · next short =>
          rw [List.map_cons, Prod.mk.injEq, List.cons.injEq, ← and_left_comm]
          simp only [true_and, Nat.not_lt.mp short]
          rw [← Prod.mk.injEq]
          exact ih _
      · exact readLog_tornLine_iff (by omega)

/-- A log of any records is cut after any number of bytes.  Replay applies what it has read and
returns the error it met; it meets none and applies the records whose text is complete if and
only if the cut is not inside a line and none of these lines is too long for the scanner. -/
theorem DB.replay_cut_iff (entries : List WalEntry) (count : Nat) :
    (∀ now, DB.replayText now ((logText (entries.map .entry)).take count) =
      (do
        Exec.each (readLog ((logText (entries.map .entry)).take count)).1 (DB.replayRaw now)
        DB.finish (readLog ((logText (entries.map .entry)).take count)).2)) ∧
    (readLog ((logText (entries.map .entry)).take count) =
        ((survivors (cutLines count entries)).map fun e => e.wire.raw, none) ↔
      CutBetweenLines (cutLines count entries) ∧
        ∀ e ∈ survivors (cutLines count entries), e.marshal.length ≤ WalEntry.maxLine) := by
  refine ⟨fun now => DB.replayText_eq now _, ?_⟩
  rw [← logText_cutLines]
  exact readLog_cutLines_iff entries count

namespace DB

/-- A directory without an index whose last log line is torn cannot be opened. -/
theorem newBriseDB_torn {db : DB} (noIndex : db.hindex = Index.HashIndex.ofFiles [] [])
    {e : WalEntry} {kept : Nat} (fileEq : db.walFile = [.torn e kept]) (positive : 0 < kept)
    (cut : kept < e.marshal.length) (short : kept ≤ WalEntry.maxLine) (now : Time)
    (order : RangeOrder Key) :
    (newBriseDB now order db []).res = .err "replay WAL: unmarshal WAL entry" := by
  have roomy : True → Index.dataStart (if (0 : UInt64) = 0 then Index.defaultBucketCount
      else 0).toNat ≤ File.maxSize := fun _ => by decide
  have opened : (Exec.wrap "open hash index" (onIndex (Index.openHashIndex 0))).Returns True db _ :=
    Exec.Returns.wrap (.zoom (noIndex ▸ Index.openHashIndex_represents 0 roomy))
  rcases opened.correct [] (opened.undisturbed trivial).1 with
    ⟨_, isOk, hindex, stateEq, _, noEntries, _⟩
  have replayed : replayLines now [.torn e kept] = Exec.throw "unmarshal WAL entry" := by
    rw [replayLines, if_neg (Nat.pos_iff_ne_zero.mp positive), if_neg (Nat.not_lt.mpr short),
      if_neg fun both => absurd both.2 (Nat.not_le.mpr cut)]
  unfold newBriseDB
  rw [Exec.bind_res, isOk, stateEq]
  change (recover now order { db with hindex := hindex } _).res = _
  unfold recover replayWAL
  rw [Exec.bind_state_apply, if_pos noEntries]
  simp only [Exec.wrap, Exec.bind_state_apply, fileEq, replayed]
  rfl

/-- A crash in the middle of the first record leaves such a directory. -/
theorem newBriseDB_cut_fails :
    (newBriseDB Clock.epoch (.asStored _)
      (start { Directory.empty [] with walLog := cutLines 5 [.ofDelete [107]] } ⟨0, 0, 1, 0, .no⟩
        (.asStored _)) []).res = .err "replay WAL: unmarshal WAL entry" := by
  have fileEq : cutLines 5 [.ofDelete [107]] = [.torn (.ofDelete [107]) 5] := by decide +kernel
  rw [fileEq]
  refine newBriseDB_torn rfl rfl (by decide) ?_ (by decide) _ _
  decide +kernel

end DB

/-! ## A log that was written -/

theorem WalEntry.wire_eq_self_iff {e : WalEntry} :
    e.wire = e ↔ ValidUTF8 e.key ∧ ValidUTF8 e.value := by
  rw [← Json.sanitize_eq_self_iff, ← Json.sanitize_eq_self_iff]
  constructor
  · exact fun same => ⟨congrArg WalEntry.key same, congrArg WalEntry.value same⟩
  · rintro ⟨keyEq, valueEq⟩
    rw [WalEntry.wire, keyEq, valueEq]

/-- A log reads back as it was written if and only if all strings are UTF-8 and no line is too
long. -/
theorem readLog_entries_iff (entries : List WalEntry) :
    readLog (logText (entries.map .entry)) = (entries.map WalEntry.raw, none) ↔
      ∀ e ∈ entries, (ValidUTF8 e.key ∧ ValidUTF8 e.value) ∧
        e.marshal.length ≤ WalEntry.maxLine := by
  induction entries with
  | nil => simp [logText, readLog, scanLines, readRecords]
  | cons e entries ih =>
      have text : logText ((e :: entries).map .entry) =
          e.marshal ++ 10 :: logText (entries.map .entry) := by
        simp [logText, WalLine.text]
      rw [text, readLog_entry, List.forall_mem_cons, ← ih, ← WalEntry.wire_eq_self_iff]
      split
      · next tooLong => simp [Nat.not_le.mpr tooLong]
      · next short =>
        have same : e.wire.raw = e.raw ↔ e.wire = e :=
          ⟨WalEntry.raw_injective, congrArg WalEntry.raw⟩
        simp only [List.map_cons, Prod.ext_iff, List.cons.injEq, same, Nat.not_lt.mp short,
          and_true, and_assoc]

namespace DB

/-- Pass records to `writeWAL` and let the flusher write what is left. -/
def writeAll (entries : List WalEntry) : Exec DB Unit := do
  Exec.each entries writeWAL
  let _ ← drain

theorem writeWAL_logs {db : DB} {room : Prop} (healthy : db.walErr = none ∧ db.walWriterErr = none)
    (op : WalEntry) :
    (writeWAL op).Returns room db fun _ next =>
      (next.walErr = none ∧ next.walWriterErr = none) ∧
        next.log = db.log ++ [.entry { op with value := [] }] := by
  unfold writeWAL
  refine .bind_state ?_
  split
  · refine .bind_put (.bind (drain_returns healthy.2) ?_)
    rintro _ _ ⟨rfl, rfl⟩
    refine .pure ⟨healthy, ?_⟩
    simp [drained, log]
  · rw [healthy.1]
    refine .put ⟨⟨rfl, healthy.2⟩, ?_⟩
    simp [log]

theorem writeAll_returns {db : DB} {room : Prop}
    (healthy : db.walErr = none ∧ db.walWriterErr = none) (entries : List WalEntry) :
    (writeAll entries).Returns room db fun _ next =>
      next.walFile = db.log ++ entries.map fun e => .entry { e with value := [] } := by
  refine .bind (.each (fun (done : List WalEntry) (next : DB) =>
    (next.walErr = none ∧ next.walWriterErr = none) ∧
      next.log = db.log ++ done.map fun e => .entry { e with value := [] }) ?_ ⟨healthy, by simp⟩)
        ?_
  · rintro before e after state - ⟨ok, logEq⟩
    refine .mono (writeWAL_logs ok e) ?_
    rintro _ next ⟨nextOk, nextLog⟩
    exact ⟨nextOk, by rw [nextLog, logEq]; simp⟩
  · rintro _ state ⟨ok, logEq⟩
    refine .bind (drain_returns ok.2) ?_
    rintro _ _ ⟨-, rfl⟩
    exact .pure logEq

/-- Any records are passed to `writeWAL` and written.  The file reads back, without an error, as
just these records, their values apart, if and only if all keys are UTF-8 and no line is longer
than the scanner allows. -/
theorem written_readsBack_iff {db : DB} (healthy : db.walErr = none ∧ db.walWriterErr = none)
    (empty : db.log = []) (entries : List WalEntry) (faults : List Fault)
    (clean : (writeAll entries db faults).failed = false) :
    readLog (logText (writeAll entries db faults).state.walFile) =
        (entries.map fun e => ({ e with value := [] } : WalEntry).raw, none) ↔
      ∀ e ∈ entries, ValidUTF8 e.key ∧
        ({ e with value := [] } : WalEntry).marshal.length ≤ WalEntry.maxLine := by
  rcases (@writeAll_returns db True healthy entries).correct faults clean with ⟨_, _, fileEq⟩
  have lines : (entries.map fun e => WalLine.entry { e with value := [] }) =
      (entries.map fun e => ({ e with value := [] } : WalEntry)).map .entry := by
    rw [List.map_map]
    rfl
  have records : (entries.map fun e => ({ e with value := [] } : WalEntry).raw) =
      (entries.map fun e => ({ e with value := [] } : WalEntry)).map WalEntry.raw := by
    rw [List.map_map]
    rfl
  have noValue : ValidUTF8 [] := by decide
  rw [fileEq, empty, List.nil_append, lines, records, readLog_entries_iff]
  simp [noValue]

/-- A new database that does not wait for its log. -/
def unsynced : DB :=
  start (Directory.empty []) ⟨0, 0, 1, 0, .no⟩ (.asStored _)

theorem writeAll_unsynced (entries : List WalEntry) :
    (writeAll entries unsynced []).failed = false ∧
      (writeAll entries unsynced []).state.walFile =
        entries.map fun e => .entry { e with value := [] } := by
  have returns := @writeAll_returns unsynced True ⟨rfl, rfl⟩ entries
  have clean := (returns.undisturbed trivial).1
  rcases returns.correct [] clean with ⟨_, _, fileEq⟩
  exact ⟨clean, fileEq⟩

theorem written_readsBack_deletes :
    readLog (logText (writeAll [.ofDelete [107], .ofDelete [38]] unsynced []).state.walFile) =
      ([(WalEntry.ofDelete [107]).raw, (WalEntry.ofDelete [38]).raw], none) := by
  refine (written_readsBack_iff ⟨rfl, rfl⟩ rfl _ _ (writeAll_unsynced _).1).mpr ?_
  decide +kernel

/-- Two keys that are not UTF-8 come back as the same key. -/
theorem written_merges :
    readLog (logText (writeAll [.ofDelete [0xFE], .ofDelete [0xFF]] unsynced []).state.walFile) =
      ([(WalEntry.ofDelete [0xEF, 0xBF, 0xBD]).raw, (WalEntry.ofDelete [0xEF, 0xBF, 0xBD]).raw],
        none) := by
  have short : ∀ e ∈ [WalEntry.ofDelete [0xFE], .ofDelete [0xFF]],
      e.marshal.length ≤ WalEntry.maxLine := by
    decide +kernel
  have read := readLog_append short []
  rw [List.append_nil] at read
  rw [(writeAll_unsynced _).2]
  refine read.trans ?_
  decide +kernel

end DB

end BriseDB
