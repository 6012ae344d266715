import BriseDB.Store.LogText
import BriseDB.Store.LongKeys
import Mathlib.Data.List.TakeWhile

/-!
# What a replayed log answers

`replayWAL` passes over SET records that it takes for expired.  It reads the expiry, which
counts nanoseconds, as seconds, and a record it passes over does not hide an older record of the
key.
-/

namespace BriseDB

open Index (Content Represents)

open Session (expiredAt)

namespace WalEntry

/-- The records that the scanner reaches, as they are decoded. -/
def readable (entries : List WalEntry) : List WalEntry :=
  (entries.takeWhile fun e => e.marshal.length ≤ maxLine).map wire

theorem wire_key_fits {e : WalEntry} (short : e.marshal.length ≤ maxLine) :
    e.wire.key.length ≤ 65535 := by
  have quoted := Json.length_sanitize_le_quote e.key
  change (Json.sanitize e.key).length ≤ 65535
  simp only [marshal, maxLine, List.length_append] at short
  omega

/-- What `Get` says at `now` when this was the last update of the key. -/
def shows (now : Time) : Option (Option (NeedleAddr × Int64)) → Option NeedleAddr
  | some (some (addr, expiresAt)) => if expiredAt now expiresAt then none else some addr
  | _ => none

end WalEntry

namespace DB

variable {db : DB} {content : Content} {room : Prop}

/-- The index stands for the content, and the volume pool is in order. -/
def Indexes (db : DB) (content : Content) : Prop :=
  Represents db.hindex content ∧ db.volumes.Inv

/-- Applying a record updates the index, whatever its address is. -/
theorem applyEntry_redoes (indexes : db.Indexes content) {e : WalEntry}
    (keyFits : e.key.length ≤ 65535)
    (roomy : room → db.hindex.f.length + indexCost e.key ≤ File.maxSize) :
    (applyEntry e).Returns room db fun _ next =>
      next.Indexes (Function.update content e.key e.entry) ∧
        next.hindex.f.length = db.hindex.f.length + indexCost e.key := by
  unfold applyEntry
  cases type : e.type with
  | set =>
      have entryEq : e.entry = some (e.addr, e.expiresAt) := by rw [WalEntry.entry, type]
      refine .bind_attempt (.zoom (indexes.1.set keyFits e.addr e.expiresAt roomy)) ?_
      rintro _ _ ⟨hindex, rfl, represents, -, lengthEq⟩
      refine .bind_modify ?_
      unfold onVolumes
      rw [Exec.attempt_zoom]
      refine .bind_zoom (VolumePool.attempt_ensureVolume_returns indexes.2 e.volumeID) ?_
      intro _ volumes consulted
      exact .pure ⟨⟨entryEq ▸ represents, consulted.inv⟩, lengthEq⟩
  | delete =>
      have entryEq : e.entry = none := by rw [WalEntry.entry, type]
      refine .bind_attempt (.zoom (indexes.1.delete keyFits roomy)) ?_
      rintro _ _ ⟨hindex, rfl, represents, -, lengthEq⟩
      exact .modify ⟨⟨entryEq ▸ represents, indexes.2⟩, lengthEq⟩

/-- Replaying records redoes those that are not passed over. -/
theorem replayEach_redoes {now : Time} {entries : List WalEntry} (indexes : db.Indexes content)
    (keysFit : ∀ e ∈ entries, e.key.length ≤ 65535)
    (roomy : room → db.hindex.f.length + entriesCost (kept now entries) ≤ File.maxSize) :
    (Exec.each entries (replayEntry now)).Returns room db fun _ next =>
      next.Indexes (WalEntry.redo content (kept now entries)) := by
  induction entries generalizing db content with
  | nil => exact .pure indexes
  | cons e entries ih =>
      rcases List.forall_mem_cons.mp keysFit with ⟨keyFits, restFit⟩
      unfold Exec.each replayEntry
      by_cases skips : replaySkips now e
      · have keptEq : kept now (e :: entries) = kept now entries :=
          List.filter_cons_of_neg (by simpa using skips)
        rw [keptEq] at roomy ⊢
        rw [if_pos skips]
        exact .bind_pure (ih indexes restFit roomy)
      · have keptEq : kept now (e :: entries) = e :: kept now entries :=
          List.filter_cons_of_pos (by simpa using skips)
        have costEq : entriesCost (e :: kept now entries) =
            indexCost e.key + entriesCost (kept now entries) := by
          simp [entriesCost]
        rw [keptEq, costEq] at roomy
        rw [if_neg skips, keptEq, WalEntry.redo_cons]
        refine .bind (applyEntry_redoes indexes keyFits fun enough => by
          have total := roomy enough
          omega) ?_
        rintro _ next ⟨nextIndexes, lengthEq⟩
        refine ih nextIndexes restFit fun enough => ?_
        have total := roomy enough
        omega

/-- What replay does with a log, over-long lines included. -/
theorem replayLines_eq (now : Time) (entries : List WalEntry) :
    ∃ error, replayLines now (entries.map .entry) =
      Exec.each (WalEntry.readable entries) (replayEntry now) >>= fun _ => finish error := by
  induction entries with
  | nil => exact ⟨none, rfl⟩
  | cons e entries ih =>
      rw [List.map_cons, replayLines]
      split
      · next tooLong =>
        refine ⟨some "bufio.Scanner: token too long", ?_⟩
        rw [WalEntry.readable, List.takeWhile_cons_of_neg (by simpa using tooLong)]
        rfl
      · next short =>
        rcases ih with ⟨error, eq⟩
        refine ⟨error, ?_⟩
        rw [WalEntry.readable, List.takeWhile_cons_of_pos (by simpa using short), List.map_cons,
          Exec.each, LawfulMonad.bind_assoc, eq]
        rfl

theorem bind_finish (call : Exec DB Unit) (error : Option String) (db : DB) (faults : List Fault) :
    ((call >>= fun _ => finish error) db faults).failed = (call db faults).failed ∧
      ((call >>= fun _ => finish error) db faults).state = (call db faults).state := by
  change (Exec.bind call _ db faults).failed = _ ∧ (Exec.bind call _ db faults).state = _
  cases resEq : (call db faults).res with
  | ok => cases error <;> simp [Exec.bind, resEq, finish, Exec.throw, pure, Exec.ret]
  | err => simp [Exec.bind, resEq]
  | panic => simp [Exec.bind, resEq]
  | hang => simp [Exec.bind, resEq]

theorem readable_keys_fit (entries : List WalEntry) :
    ∀ e ∈ WalEntry.readable entries, e.key.length ≤ 65535 := by
  intro e mem
  rcases List.mem_map.mp mem with ⟨written, isWritten, rfl⟩
  have short := List.mem_takeWhile_imp isWritten
  exact WalEntry.wire_key_fits (of_decide_eq_true short)

/-- Replaying a log of any records leaves the index with what the applied ones say. -/
theorem replayLines_indexes (indexes : db.Indexes fun _ => none) (entries : List WalEntry)
    (now : Time) {faults : List Fault}
    (clean : (replayLines now (entries.map .entry) db faults).failed = false) :
    (replayLines now (entries.map .entry) db faults).state.Indexes
      (WalEntry.redo (fun _ => none) (kept now (WalEntry.readable entries))) := by
  rcases replayLines_eq now entries with ⟨error, eq⟩
  have redoes := @replayEach_redoes db _ False now _ indexes (readable_keys_fit entries) False.elim
  rw [eq] at clean ⊢
  rw [(bind_finish _ _ _ _).1] at clean
  rcases redoes.correct faults clean with ⟨_, _, redone⟩
  rw [(bind_finish _ _ _ _).2]
  exact redone

/-- The address that `GetBlobMeta` finds. -/
theorem getBlobMeta_shows {log : List (KeyUpdate Key (NeedleAddr × Int64))}
    (indexes : db.Indexes (KeyLog.run (fun _ => none) log)) (key : Key) (now : Time)
    (stack : List Transaction) :
    ∃ found, (Session.getBlobMeta key now ⟨db, stack⟩ []).res = .ok found ∧
      found.map Prod.fst = WalEntry.shows now (KeyLog.last log key) := by
  have got := indexes.1.get_eq key
  rw [KeyLog.run_apply] at got
  unfold Session.getBlobMeta
  rw [Exec.bind_res]
  change ∃ found, ((Index.get db.hindex key).bind _) = _ ∧ _
  rw [got]
  rcases KeyLog.last log key with _ | _ | ⟨addr, expiresAt⟩
  · exact ⟨none, rfl, rfl⟩
  · exact ⟨none, rfl, rfl⟩
  · by_cases expired : expiredAt now expiresAt
    · refine ⟨none, ?_, ?_⟩
      · simp [Res.bind, expired]
        rfl
      · simp [WalEntry.shows, expired]
    · refine ⟨some (addr, expiresAt), ?_, ?_⟩
      · simp [Res.bind, expired]
        rfl
      · simp [WalEntry.shows, expired]

theorem replayLines_clean (indexes : db.Indexes fun _ => none) (entries : List WalEntry)
    (now : Time)
    (roomy : db.hindex.f.length + entriesCost (kept now (WalEntry.readable entries)) ≤
      File.maxSize) :
    (replayLines now (entries.map .entry) db []).failed = false := by
  rcases replayLines_eq now entries with ⟨error, eq⟩
  rw [eq, (bind_finish _ _ _ _).1]
  exact ((replayEach_redoes indexes (readable_keys_fit entries) fun _ : True => roomy).undisturbed
    trivial).1

/-- Any log is replayed at any instant into an empty index.  A key then has the address of its
last record in the log, or none if that record deletes it or has expired, if and only if the last
record of the key that replay applies shows the same: the last one that stands before any line
too long for the scanner and that does not expire before that instant when its expiry is read
as seconds. -/
theorem replay_shows_iff (indexes : db.Indexes fun _ => none) (entries : List WalEntry) (now : Time)
    (faults : List Fault) (clean : (replayLines now (entries.map .entry) db faults).failed = false)
    (key : Key) (stack : List Transaction) :
    (∃ found, (Session.getBlobMeta key now
        ⟨(replayLines now (entries.map .entry) db faults).state, stack⟩ []).res = .ok found ∧
        found.map Prod.fst =
          WalEntry.shows now (KeyLog.last (entries.map WalEntry.update) key)) ↔
      WalEntry.shows now (KeyLog.last ((kept now (WalEntry.readable entries)).map WalEntry.update)
          key) =
        WalEntry.shows now (KeyLog.last (entries.map WalEntry.update) key) := by
  have after := replayLines_indexes indexes entries now clean
  rcases getBlobMeta_shows after key now stack with ⟨found, foundEq, addrEq⟩
  rw [foundEq, ← addrEq]
  constructor
  · rintro ⟨other, isFound, same⟩
    cases isFound
    exact same
  · exact fun same => ⟨found, rfl, same⟩

/-- A key is set for good, and then with an expiry that has long passed. -/
def expiredLast : List WalEntry :=
  [.ofSet [107] ⟨1, 8, 3⟩ 0, .ofSet [107] ⟨1, 19, 3⟩ 5]

theorem unsynced_indexes : History.unsynced.opened.state.Indexes fun _ => none :=
  ⟨History.unsynced_fresh.models.index, History.unsynced_fresh.models.pool⟩

theorem unsynced_replays (entries : List WalEntry) (now : Time)
    (roomy : freshBytes + entriesCost (kept now (WalEntry.readable entries)) ≤ File.maxSize) :
    (replayLines now (entries.map .entry) History.unsynced.opened.state []).failed = false :=
  replayLines_clean unsynced_indexes entries now
    (History.unsynced_fresh.room _ (by simp) roomy).1

/-- The other way round, the record that is left out does not count. -/
theorem replay_shows_expiredFirst :
    kept 6000000000 (WalEntry.readable expiredLast.reverse) = [.ofSet [107] ⟨1, 8, 3⟩ 0] ∧
      ∃ found, (Session.getBlobMeta [107] 6000000000
        ⟨(replayLines 6000000000 (expiredLast.reverse.map .entry)
          History.unsynced.opened.state []).state, []⟩ []).res = .ok found ∧
        found.map Prod.fst = WalEntry.shows 6000000000
          (KeyLog.last (expiredLast.reverse.map WalEntry.update) [107]) := by
  refine ⟨by decide +kernel,
    (replay_shows_iff unsynced_indexes _ _ _ (unsynced_replays _ _ ?_) _ _).mpr ?_⟩
  all_goals decide +kernel

/-- The older record shows through. -/
theorem replay_uncovers :
    ∃ found, (Session.getBlobMeta [107] 6000000000
        ⟨(replayLines 6000000000 (expiredLast.map .entry) History.unsynced.opened.state []).state,
          []⟩ []).res = .ok found ∧
        found.map Prod.fst = some ⟨1, 8, 3⟩ ∧
        WalEntry.shows 6000000000 (KeyLog.last (expiredLast.map WalEntry.update) [107]) = none := by
  have clean := unsynced_replays expiredLast 6000000000 (by decide +kernel)
  have after := replayLines_indexes unsynced_indexes expiredLast 6000000000 clean
  rcases getBlobMeta_shows after [107] 6000000000 [] with ⟨found, foundEq, addrEq⟩
  refine ⟨found, foundEq, addrEq.trans ?_, ?_⟩
  all_goals decide +kernel

end DB

end BriseDB
