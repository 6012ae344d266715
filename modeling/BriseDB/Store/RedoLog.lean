import BriseDB.Store.Run

/-!
# The log as a redo log

The log is complete when redoing its records from nothing gives an index that
readers cannot tell from the live one.  Eviction removes expired entries without
a record, so the two may differ in entries that have expired; every other step
keeps the log complete, with the exception of `Persist`, which changes the index
and writes no record.
-/

namespace BriseDB

open Session (expiredAt)
open Index (Enumerates Expired)

/-- A reader at `t` cannot tell a redone entry from the live one: they are equal, or
the live one is gone and the redone one has expired. -/
def Alike (t : Time) (live redone : Option (NeedleAddr × Int64)) : Prop :=
  live = redone ∨
    live = none ∧ ∃ addr expiresAt, redone = some (addr, expiresAt) ∧ expiredAt t expiresAt

namespace Alike

variable {t : Time} {live redone : Option (NeedleAddr × Int64)}

theorem refl (entry : Option (NeedleAddr × Int64)) : Alike t entry entry :=
  .inl rfl

/-- An expired entry may be removed. -/
theorem remove (alike : Alike t live redone)
    (expired : ∀ addr expiresAt, live = some (addr, expiresAt) → expiredAt t expiresAt) :
    Alike t none redone := by
  rcases alike with rfl | ⟨rfl, gone⟩
  · cases live with
    | none => exact refl none
    | some entry => exact .inr ⟨rfl, entry.1, entry.2, rfl, expired _ _ rfl⟩
  · exact .inr ⟨rfl, gone⟩

/-- Redoing the same records keeps entries alike. -/
theorem redo {before after : Index.Content} (entries : List WalEntry)
    (alike : ∀ key, Alike t (before key) (after key)) (key : Key) :
    Alike t (WalEntry.redo before entries key) (WalEntry.redo after entries key) := by
  unfold WalEntry.redo
  rw [KeyLog.run_apply, KeyLog.run_apply]
  cases KeyLog.last (entries.map WalEntry.update) key with
  | none => exact alike key
  | some entry => exact refl _

end Alike

namespace DB

/-- The log of `db` is a complete redo log, for readers at `t`: it has the given
records, and their addresses hold values. -/
structure Redoable (db : DB) (rows : Rows) (t : Time) (entries : List WalEntry) : Prop where
  log_eq : db.log = entries.map .entry
  held : ∀ e ∈ entries, e.type = .set → ∃ value, db.volumes.localVM.Holds e.addr value
  alike : ∀ key, Alike t (rows.content key) (WalEntry.redo (fun _ => none) entries key)

section

variable {db next : DB} {rows after : Rows} {t : Time} {entries : List WalEntry}

/-- Records whose effect is in the index keep the log complete. -/
theorem Redoable.append (redoable : db.Redoable rows t entries) {new : List WalEntry}
    (logEq : next.log = db.log ++ new.map .entry)
    (keeps : db.volumes.localVM.Extends next.volumes.localVM)
    (contentEq : after.content = WalEntry.redo rows.content new)
    (held : ∀ e ∈ new, e.type = .set → ∃ value, next.volumes.localVM.Holds e.addr value) :
    next.Redoable after t (entries ++ new) := by
  constructor
  · rw [logEq, redoable.log_eq, List.map_append]
  · intro e mem isSet
    rcases List.mem_append.mp mem with earlier | isNew
    · rcases redoable.held e earlier isSet with ⟨value, holds⟩
      exact ⟨value, keeps.holds _ _ holds⟩
    · exact held e isNew isSet
  · intro key
    rw [contentEq, WalEntry.redo_append]
    exact Alike.redo new redoable.alike key

/-- Removing expired rows keeps the log complete. -/
theorem Redoable.remove (redoable : db.Redoable rows t entries) (logEq : next.log = db.log)
    (keeps : db.volumes.localVM.Extends next.volumes.localVM)
    (sheds : rows.Sheds after t) : next.Redoable after t entries := by
  constructor
  · rw [logEq, redoable.log_eq]
  · intro e mem isSet
    rcases redoable.held e mem isSet with ⟨value, holds⟩
    exact ⟨value, keeps.holds _ _ holds⟩
  · intro key
    rcases sheds key with same | ⟨gone, expired⟩
    · rw [show after.content key = rows.content key by simp only [Rows.content, same]]
      exact redoable.alike key
    · rw [Rows.content_eq_none.mpr gone]
      apply (redoable.alike key).remove
      intro addr expiresAt found
      rcases Rows.content_eq_some.mp found with ⟨row, isRow, entryEq⟩
      rw [← (Prod.mk.inj entryEq).2]
      exact expired row isRow

/-- Redoing what compaction writes gives the index it has compacted. -/
theorem redo_visits {nowNs : Int64} {content : Index.Content} {calls : List Index.Visit}
    (enumerates : Enumerates nowNs content calls)
    (unexpired : ∀ key addr expiresAt, content key = some (addr, expiresAt) →
      ¬ Expired nowNs expiresAt) :
    WalEntry.redo (fun _ => none) (calls.map visitEntry) = content := by
  funext key
  unfold WalEntry.redo
  rw [KeyLog.run_apply, List.map_map]
  have nodup : ((calls.map (WalEntry.update ∘ visitEntry)).map Prod.fst).Nodup := by
    rw [List.map_map]
    exact enumerates.nodup
  cases found : content key with
  | none =>
      rw [KeyLog.last_eq_none]
      · rfl
      · intro u mem isKey
        rcases List.mem_map.mp mem with ⟨visit, isCall, rfl⟩
        have stored := ((enumerates.mem_iff visit).mp isCall).1
        rw [show visit.key = key from isKey, found] at stored
        cases stored
  | some entry =>
      have isCall : (⟨key, entry.1, entry.2⟩ : Index.Visit) ∈ calls :=
        (enumerates.mem_iff _).mpr ⟨found, unexpired key entry.1 entry.2 found⟩
      have isUpdate : (key, some entry) ∈ calls.map (WalEntry.update ∘ visitEntry) :=
        List.mem_map_of_mem isCall
      rw [KeyLog.last_of_mem nodup isUpdate]
      rfl

/-- The records that are still queued are the last ones of the log. -/
theorem Redoable.queued (redoable : db.Redoable rows t entries) :
    ∃ written, entries = written ++ db.walCh := by
  have split : entries.map WalLine.entry = db.walFile ++ db.walCh.map .entry :=
    redoable.log_eq.symm
  rcases List.map_eq_append_iff.mp split with ⟨written, queued, rfl, -, same⟩
  have injective : Function.Injective WalLine.entry := fun _ _ => WalLine.entry.inj
  exact ⟨written, by rw [List.map_injective_iff.mpr injective same]⟩

/-- Compaction makes the log complete again if nothing is queued, and keeps it
complete in any case. -/
theorem Compacted.redoable {nowNs : Int64} (compacted : Compacted db next rows nowNs)
    (le : Time.ofNano nowNs ≤ t)
    (complete : db.walCh = [] ∨ ∃ entries, db.Redoable rows t entries) :
    ∃ entries, next.Redoable (rows.prune (Time.ofNano nowNs)) t entries := by
  rcases compacted.log_eq with ⟨calls, enumerates, fileEq⟩
  have snapshot := redo_visits enumerates (by
    intro key addr expiresAt found
    rcases Rows.content_eq_some.mp found with ⟨row, isRow, entryEq⟩
    rw [← (Prod.mk.inj entryEq).2, ← expiredAt_ofNano]
    exact (Rows.prune_eq_some.mp isRow).2)
  refine ⟨calls.map visitEntry ++ db.walCh, ?_, ?_, ?_⟩
  · rw [log, fileEq, compacted.queue_eq, List.map_nil, List.append_nil]
  · intro e mem isSet
    rcases List.mem_append.mp mem with isVisit | isQueued
    · rcases List.mem_map.mp isVisit with ⟨visit, isCall, rfl⟩
      rcases Rows.content_eq_some.mp ((enumerates.mem_iff visit).mp isCall).1 with
        ⟨row, isRow, entryEq⟩
      refine ⟨row.value, ?_⟩
      rw [visitEntry, WalEntry.ofSet_addr, ← (Prod.mk.inj entryEq).1]
      exact compacted.models.holds visit.key row isRow
    · rcases complete with empty | ⟨entries, redoable⟩
      · rw [empty] at isQueued
        cases isQueued
      · rcases redoable.queued with ⟨written, rfl⟩
        rw [compacted.volumes_eq]
        exact redoable.held e (List.mem_append_right _ isQueued) isSet
  · intro key
    rw [WalEntry.redo_append, snapshot]
    unfold WalEntry.redo
    rw [KeyLog.run_apply]
    -- A queued record of the key is the last one of the old log as well.
    cases queued : KeyLog.last (db.walCh.map WalEntry.update) key with
    | none => exact Alike.refl _
    | some entry =>
        rcases complete with empty | ⟨entries, redoable⟩
        · rw [empty] at queued
          cases queued
        · rcases redoable.queued with ⟨written, rfl⟩
          have alike := (redoable.remove rfl (.refl _) (rows.sheds_prune le)).alike key
          rw [WalEntry.redo_append, WalEntry.redo, KeyLog.run_apply, queued] at alike
          exact alike

end

/-- Entries that are alike are read alike, if no blob has been lost. -/
theorem Models.read_alike {live db : DB} {rows after : Rows} (liveModels : live.Models rows)
    (models : db.Models after)
    (keeps : ∀ addr data, live.volumes.localVM.Holds addr data →
      db.volumes.localVM.Holds addr data) {t : Time} {key : Key}
    (alike : Alike t (rows.content key) (after.content key)) :
    visible t (after key) = visible t (rows key) ∧
      rowTTL t (after key) = rowTTL t (rows key) := by
  rcases alike with same | ⟨gone, addr, expiresAt, redone, expired⟩
  · cases isRow : rows key with
    | none =>
        rw [Rows.content_eq_none.mpr isRow] at same
        rw [Rows.content_eq_none.mp same.symm]
        exact ⟨rfl, rfl⟩
    | some row =>
        rw [Rows.content_eq_some.mpr ⟨row, isRow, rfl⟩] at same
        rcases Rows.content_eq_some.mp same.symm with ⟨other, isOther, entryEq⟩
        rcases Prod.mk.inj entryEq with ⟨addrEq, expiresAtEq⟩
        have held := models.holds key other isOther
        rw [addrEq] at held
        have valueEq : other.value = row.value := VolumePool.holds_unique held
          (keeps _ _ (liveModels.holds key row isRow))
        rw [isOther]
        simp only [visible, rowTTL, Option.map_some, addrEq, expiresAtEq, valueEq, and_self]
  · rcases Rows.content_eq_some.mp redone with ⟨other, isOther, entryEq⟩
    rw [← (Prod.mk.inj entryEq).2] at expired
    have passed : Session.untilInstant (Time.ofNano other.expiresAt) t ≤ 0 := by
      have before : Time.ofNano other.expiresAt - t ≤ (0 : Int) := sub_nonpos.mpr expired.2.le
      exact max_le (by norm_num) ((min_le_right _ _).trans before)
    rw [Rows.content_eq_none.mp gone, isOther]
    simp only [visible, rowTTL, Option.map_some, Option.map_none, Session.entryTTL,
      Session.remaining, if_pos expired, if_pos expired.1, if_pos passed, and_self]

end DB

/-! ## Steps and runs -/

/-- A `Persist` removes no expiry: the key has none in the index, or is pending in
the transaction of the session. -/
def Event.KeepsExpiry (w : World) : Event → Prop
  | .call session (.persist key) =>
      (((w.sessions session).head?.bind fun active => active.store.lookup key).isSome) ∨
        ∀ addr expiresAt, Index.get w.db.hindex key = .ok (some (addr, expiresAt)) → expiresAt = 0
  | _ => True

/-- Whether the event is `Compact`. -/
def Event.IsCompact : Event → Prop
  | .compact _ _ => True
  | _ => False

theorem Call.updates_persist {w : World} {rows : Rows} (models : w.Models rows) {session : Nat}
    {key : Key} (keeps : (Event.call session (.persist key)).KeepsExpiry w) (now : Time) :
    (Call.persist key).updates now rows.values (w.sessions session) = [] := by
  by_cases inside : ((w.sessions session).head?.bind fun active => active.store.lookup key).isSome
  · exact if_pos inside
  · rcases keeps with pending | noExpiry
    · exact absurd pending inside
    · refine (if_neg inside).trans ?_
      cases isRow : rows key with
      | none => simp [Rows.values, isRow]
      | some row =>
          have found : Index.get w.db.hindex key = .ok (some (row.addr, row.expiresAt)) := by
            rw [models.db.index.get_eq]
            exact congrArg _ (Rows.content_eq_some.mpr ⟨row, isRow, rfl⟩)
          simp [Rows.values, isRow, noExpiry _ _ found]

/-- Every step but an effective `Persist` keeps the log complete. -/
theorem Event.redoable {event : Event} {now : Clock} {w next : World} {rows after : Rows}
    {t : Time} {entries : List WalEntry} (models : w.Models rows)
    (outcome : event.Outcome now w next rows after) (keeps : event.KeepsExpiry w)
    (le : now.1 ≤ t) (redoable : w.db.Redoable rows t entries) :
    ∃ entries, next.db.Redoable after t entries := by
  cases event with
  | call session c =>
      rcases outcome with ⟨-, stepped⟩
      rcases stepped.logged with ⟨new, logEq, contentEq, silent, held⟩
      by_cases isPersist : c.IsPersist
      · cases c with
        | persist key =>
            rw [silent (not_not.mpr isPersist)] at logEq
            rw [stepped.unchanged (Call.updates_persist models keeps now)]
            exact ⟨entries, redoable.remove (by simpa using logEq) stepped.keeps fun _ => .inl rfl⟩
        | _ => cases isPersist
      · exact ⟨entries ++ new, redoable.append logEq stepped.keeps (contentEq isPersist) held⟩
  | evict order =>
      rcases outcome with ⟨-, rfl, change, effect, -, noLog, -⟩
      have logEq := effect.log_eq
      rw [noLog] at logEq
      exact ⟨entries, redoable.remove (by simpa using logEq) effect.keeps
        (models.db.sheds_evictions order le)⟩
  | compact indexOrder logOrder =>
      rcases outcome with ⟨-, rfl, compacted⟩
      have complete := compacted.redoable (by rw [Clock.ofNano_unixNano]; exact le)
        (.inr ⟨entries, redoable⟩)
      rw [Clock.ofNano_unixNano] at complete
      exact complete
  | flush =>
      rcases outcome with ⟨-, rfl, dbEq⟩
      rw [dbEq]
      refine ⟨entries, redoable.remove ?_ (.refl _) fun _ => .inl rfl⟩
      simp [DB.drained, DB.log]

/-! ## Replaying the log into an empty index -/

/-- The database with its index files removed, before it is opened again. -/
def DB.withoutIndex (db : DB) : DB :=
  { db with
    hindex := Index.HashIndex.ofFiles [] []
    expiry := fun _ => ∅ }

theorem DB.withoutIndex_closed {db : DB} {rows : Rows} (models : db.Models rows) :
    db.withoutIndex.Closed :=
  ⟨models.pool, rfl, models.logOK.walErr_eq, models.logOK.writer_eq, models.logOK.always⟩

/-- Opening a database without its index replays the log; readers find what they
found before. -/
theorem DB.Redoable.replay {db : DB} {rows : Rows} {t : Time} {entries : List WalEntry}
    (redoable : db.Redoable rows t entries) (models : db.Models rows) (flushed : db.walCh = [])
    {now : Time} (order : RangeOrder Key) {room : Prop}
    (replays : ∀ e, WalLine.entry e ∈ db.walFile → DB.Replays now e)
    (roomy : room → DB.freshBytes + DB.entriesCost entries ≤ File.maxSize ∧
      db.volumes.Room (DB.entriesCost entries)) :
    (DB.newBriseDB now order).Returns room db.withoutIndex fun _ next =>
      ∃ after, next.Models after ∧
        after.content = WalEntry.redo (fun _ => none) entries ∧
        db.volumes.localVM.Extends next.volumes.localVM := by
  have fileEq : db.walFile = entries.map .entry := by
    have logEq := redoable.log_eq
    rwa [DB.log, flushed, List.map_nil, List.append_nil] at logEq
  have allReplay : ∀ e ∈ entries, DB.Replays now e := by
    intro e mem
    apply replays e
    rw [fileEq]
    exact List.mem_map_of_mem mem
  have keptEq := DB.kept_eq_self allReplay
  have held := redoable.held
  rw [← keptEq] at held roomy
  refine .mono (DB.newBriseDB_replays order (withoutIndex_closed models) rfl fileEq
    (fun e mem => (allReplay e mem).readsBack) held roomy) ?_
  rintro _ next ⟨_, _, change, effect, contentEq, _⟩
  rw [keptEq] at contentEq
  exact ⟨change.rows, effect.models, contentEq, effect.keeps⟩

/-- If no `Persist` removes an expiry, replaying the log into an empty index gives
the same answers as the live index. -/
theorem History.replay_eq_live {h : History} (regular : h.Regular) (sound : h.RemotesSound)
    (idsLeft : h.IdsLeft)
    (keepsExpiry : h.Along fun step w => step.2.KeepsExpiry w)
    (flushed : h.final.db.walCh = []) {now : Time} (order : RangeOrder Key)
    (replays : ∀ e, WalLine.entry e ∈ h.final.db.walFile → DB.Replays now e) {faults : List Fault}
    (clean : (DB.newBriseDB now order h.final.db.withoutIndex faults).failed = false) :
    (DB.newBriseDB now order h.final.db.withoutIndex faults).res = .ok () ∧
      ∀ t, (∀ step ∈ h.run, step.1.1 ≤ t) → ∀ key,
        (Session.get key t
            ⟨(DB.newBriseDB now order h.final.db.withoutIndex faults).state, []⟩ []).res =
          (Session.get key t ⟨h.final.db, []⟩ []).res ∧
        (Session.ttl key t
            ⟨(DB.newBriseDB now order h.final.db.withoutIndex faults).state, []⟩ []).res =
          (Session.ttl key t ⟨h.final.db, []⟩ []).res := by
  -- For each reader, the log is complete along the whole run.
  have complete : ∀ t, (∀ step ∈ h.run, step.1.1 ≤ t) →
      ∃ rows, h.final.Models rows ∧ ∃ entries, h.final.db.Redoable rows t entries := by
    intro t later
    refine (History.induction regular sound idsLeft
      (fun _ w rows => ∃ entries, w.db.Redoable rows t entries) ?_ ?_).2
    · intro db fresh
      exact ⟨[], fresh.log_eq, nofun, fun _ => .refl none⟩
    · rintro before now event rest next rows rows' split models ⟨entries, redoable⟩ - outcome
      have isStep : (now, event) ∈ h.run := by simp [split]
      exact Event.redoable models outcome (keepsExpiry before _ rest split) (later _ isStep)
        redoable
  have replayed : ∀ t, (∀ step ∈ h.run, step.1.1 ≤ t) →
      ∃ rows after, h.final.Models rows ∧
        (DB.newBriseDB now order h.final.db.withoutIndex faults).res = .ok () ∧
        (DB.newBriseDB now order h.final.db.withoutIndex faults).state.Models after ∧
        ∀ key, DB.visible t (after key) = DB.visible t (rows key) ∧
          DB.rowTTL t (after key) = DB.rowTTL t (rows key) := by
    intro t later
    rcases complete t later with ⟨rows, models, entries, redoable⟩
    rcases (redoable.replay models.db flushed order replays False.elim).correct faults clean with
      ⟨_, resEq, after, afterModels, contentEq, keeps⟩
    refine ⟨rows, after, models, resEq, afterModels, fun key => ?_⟩
    apply models.db.read_alike afterModels keeps.holds
    rw [contentEq]
    exact redoable.alike key
  constructor
  · rcases replayed (2 ^ 63) fun step _ => step.1.2.2.le with ⟨_, _, _, resEq, _⟩
    exact resEq
  · intro t later key
    rcases replayed t later with ⟨rows, after, models, -, afterModels, same⟩
    rw [Session.get_res afterModels, Session.get_res models.db, Session.ttl_res afterModels,
      Session.ttl_res models.db, (same key).1, (same key).2]
    exact ⟨rfl, rfl⟩

/-! ## Two short histories -/

/-- 10 ^ 18 ns after the epoch, in September 2001. -/
def Clock.sample : Clock :=
  ⟨10 ^ 18, by decide⟩

/-- The index has one key, with the expiry `live`, and the log has it with the expiry
`logged`. -/
structure DB.HoldsOne (db : DB) (addr : NeedleAddr) (live logged : Int64) : Prop where
  models : db.Models (Function.update (fun _ => none) [107] (some ⟨addr, live, [118]⟩))
  file_eq : db.walFile = [WalEntry.ofSet [107] addr logged].map .entry
  always : db.fsyncMode = .always
  room : db.Room 100

section

variable {db : DB} {addr : NeedleAddr} {live logged : Int64}

theorem DB.HoldsOne.flushed (one : db.HoldsOne addr live logged) : db.walCh = [] :=
  (one.models.logOK.always one.always).1

theorem DB.HoldsOne.replays (one : db.HoldsOne addr live logged) {now : Time}
    (kept : ¬ (0 < logged ∧ Time.ofSeconds logged < now)) (e : WalEntry)
    (mem : WalLine.entry e ∈ db.walFile) :
    DB.Replays now e := by
  rw [one.file_eq, List.map_singleton, List.mem_singleton] at mem
  rw [WalLine.entry.inj mem]
  exact ⟨WalEntry.ofSet_readsBack (by decide) (by decide) addr _, fun skips => kept skips.2⟩

theorem DB.HoldsOne.replay (one : db.HoldsOne addr live logged) {now : Time}
    (kept : ¬ (0 < logged ∧ Time.ofSeconds logged < now)) (order : RangeOrder Key) :
    (DB.newBriseDB now order).Returns True db.withoutIndex fun _ next =>
      ∃ rows, next.Models rows ∧ rows.content [107] = some (addr, logged) := by
  have replays : ∀ e ∈ [WalEntry.ofSet [107] addr logged], DB.Replays now e := by
    intro e mem
    apply one.replays kept
    rw [one.file_eq]
    exact List.mem_map_of_mem mem
  have keptEq := DB.kept_eq_self replays
  refine .mono (DB.newBriseDB_replays order (DB.withoutIndex_closed one.models) rfl
    one.file_eq (fun e mem => (replays e mem).readsBack) ?_ ?_) ?_
  · rw [keptEq]
    intro e mem _
    rw [List.mem_singleton.mp mem]
    exact ⟨[118], one.models.holds [107] _ (Function.update_self ..)⟩
  · rw [keptEq]
    intro _
    have cost : DB.entriesCost [.ofSet [107] addr logged] ≤ 100 := by
      change DB.indexCost [107] + 0 ≤ 100
      decide
    have fits : DB.freshBytes + 100 ≤ File.maxSize := by decide +kernel
    exact ⟨(Nat.add_le_add_left cost _).trans fits, (one.room.mono cost).2⟩
  · rintro _ next ⟨_, _, change, effect, contentEq, _⟩
    rw [keptEq] at contentEq
    exact ⟨change.rows, effect.models, by rw [contentEq, WalEntry.redo_ofSet]⟩

/-- A write of the key to a new database with `FsyncAlways`. -/
theorem DB.HoldsOne.of_published {opt : DBOptions} {next : DB} {cached : Option Time}
    (fresh : DB.Fresh db [] opt) (always : opt.fsync = .always) (single : opt.replicationFactor ≤ 1)
    (effect : DB.Effect db next
      (.published db (fun _ => none) [107] ⟨addr, live, [118]⟩ cached)) :
    next.HoldsOne addr live live ∧ next.Room 1000 := by
  have room : db.Room 2000 := fresh.roomAlone 2000 (by decide +kernel)
  have cost : db.volumes.cost [118] + DB.indexCost [107] ≤ 1000 := by
    rw [fresh.cost single]
    decide
  have models : next.Models (Function.update (fun _ => none) [107] (some ⟨addr, live, [118]⟩)) :=
    effect.models
  have nextAlways := effect.mode_eq.trans (fresh.mode_eq.trans always)
  have flushed := (models.logOK.always nextAlways).1
  have nextRoom := effect.room 1000 (room.mono (Nat.add_le_add_right cost 1000))
  refine ⟨⟨models, ?_, nextAlways, nextRoom.mono (by decide)⟩, nextRoom⟩
  have logEq := effect.log_eq
  rw [fresh.log_eq, DB.log, flushed] at logEq
  simpa [DB.Change.published, DB.Change.write] using logEq

/-- `SetEX` of the key for a second. -/
theorem DB.Fresh.setEX {opt : DBOptions} (fresh : DB.Fresh db [] opt)
    (always : opt.fsync = .always) (single : opt.replicationFactor ≤ 1) :
    ((Event.call 0 (.setEX [107] [118] (10 ^ 9))).run Clock.sample).Returns True (World.ofDB db)
      fun _ w => ∃ next addr, w = World.ofDB next ∧
        next.HoldsOne addr (10 ^ 18 + 10 ^ 9) (10 ^ 18 + 10 ^ 9) ∧ next.Room 1000 := by
  have positive : (0 : Time) < Clock.sample.1 + (10 ^ 9 : Int64).toInt := by decide
  have expiresAtEq : Time.unixNano (Clock.sample.1 + (10 ^ 9 : Int64).toInt) =
      10 ^ 18 + 10 ^ 9 := by decide
  have roomy : db.Room (db.volumes.cost [118] + DB.indexCost [107]) := by
    refine fresh.roomAlone _ ?_
    rw [fresh.cost single]
    decide +kernel
  refine .mono (Call.Direct.event (Call.direct_setEX (by decide)
    (DB.setEXNow_returns fresh.models (by decide) (fun _ => roomy) positive)) 0) ?_
  rintro _ _ ⟨next, rfl, addr, effect⟩
  rw [expiresAtEq] at effect
  exact ⟨next, addr, rfl, DB.HoldsOne.of_published fresh always single effect⟩

/-- `Persist` of the key. -/
theorem DB.HoldsOne.persist (one : db.HoldsOne addr live logged) (hasExpiry : live ≠ 0)
    (roomy : db.Room 1000) :
    (Session.persistLocked [107]).Returns True db fun _ next => next.HoldsOne addr 0 logged := by
  have isRow : (Function.update (fun _ => none) [107] (some ⟨addr, live, [118]⟩) : Rows) [107] =
      some ⟨addr, live, [118]⟩ :=
    Function.update_self ..
  refine .mono (DB.persistLocked_removes one.models isRow hasExpiry
    fun _ => roomy.mono (by decide)) ?_
  intro _ next effect
  have models := effect.models
  change next.Models (Function.update (Function.update _ _ _) _ _) at models
  rw [Function.update_idem] at models
  have always := effect.mode_eq.trans one.always
  have cost : DB.indexCost [107] + 100 ≤ 1000 := by decide
  refine ⟨models, ?_, always, effect.room 100 (roomy.mono cost)⟩
  have logEq := effect.log_eq
  rw [DB.log, DB.log, (models.logOK.always always).1, one.flushed] at logEq
  rw [← one.file_eq]
  simpa [DB.Change.row] using logEq

end

/-- A database with `FsyncAlways` in which one key is set. -/
def History.durableSet : History :=
  .undisturbed ⟨0, 0, 1, 0, .always⟩ [(.sample, .call 0 (.set [107] [118]))]

theorem History.durableSet_returns {db : DB} (fresh : DB.Fresh db [] History.durableSet.opt) :
    History.durableSet.run.exec.Returns True (World.ofDB db) fun _ w =>
      ∃ addr, w.db.HoldsOne addr 0 0 ∧ w.db.hindex.entryCount.toInt = 1 := by
  refine .bind (Call.Direct.event (Call.direct_set (DB.setNow_returns fresh.models
    (by decide) fun _ => fresh.roomAlone _ ?_)) 0) ?_
  · rw [fresh.cost (by decide)]
    decide +kernel
  · rintro _ _ ⟨next, rfl, addr, effect⟩
    refine .pure ⟨addr, (DB.HoldsOne.of_published fresh rfl (by decide) effect).1, ?_⟩
    exact effect.count_eq.trans (congrArg (· + 1) fresh.count_eq)

theorem History.replay_eq_live_durableSet :
    (DB.newBriseDB 5 (.asStored _) History.durableSet.final.db.withoutIndex []).res = .ok () ∧
      ∀ t, (∀ step ∈ History.durableSet.run, step.1.1 ≤ t) → ∀ key,
        (Session.get key t ⟨(DB.newBriseDB 5 (.asStored _)
            History.durableSet.final.db.withoutIndex []).state, []⟩ []).res =
          (Session.get key t ⟨History.durableSet.final.db, []⟩ []).res ∧
        (Session.ttl key t ⟨(DB.newBriseDB 5 (.asStored _)
            History.durableSet.final.db.withoutIndex []).state, []⟩ []).res =
          (Session.ttl key t ⟨History.durableSet.final.db, []⟩ []).res := by
  have small : History.durableSet.Small .always := rfl
  rcases small.final fun _ => History.durableSet_returns with
    ⟨opened, ran, addr, one, -⟩
  have kept : ¬ (0 < (0 : Int64) ∧ Time.ofSeconds 0 < 5) := by decide
  have keepsExpiry : History.durableSet.Along fun step w => step.2.KeepsExpiry w :=
    History.along_single rfl (by trivial)
  exact History.replay_eq_live ⟨opened, ran, by decide⟩ small.remotesSound
    (History.idsLeft_of_noStream small.idsLeft (by decide)) keepsExpiry one.flushed (.asStored _)
    (one.replays kept) ((one.replay kept _).undisturbed trivial).1

/-- A key that expires after a second is made permanent. -/
def History.persisted : History :=
  .undisturbed ⟨0, 0, 1, 0, .always⟩
    [(.sample, .call 0 (.setEX [107] [118] (10 ^ 9))), (.sample, .call 0 (.persist [107]))]

theorem History.persisted_returns {db : DB} (fresh : DB.Fresh db [] History.persisted.opt) :
    History.persisted.run.exec.Returns True (World.ofDB db) fun _ w =>
      ∃ addr, w.db.HoldsOne addr 0 (10 ^ 18 + 10 ^ 9) := by
  have hasExpiry : (10 ^ 18 + 10 ^ 9 : Int64) ≠ 0 := by decide
  refine .bind (fresh.setEX rfl (by decide)) ?_
  rintro _ _ ⟨next, addr, rfl, one, roomy⟩
  refine .bind (Call.Direct.event (Call.direct_persist (one.persist hasExpiry roomy)) 0) ?_
  rintro _ _ ⟨last, rfl, persisted⟩
  exact .pure ⟨addr, persisted⟩

/-- After `Persist` the live database still answers when the replayed one does not. -/
theorem History.replay_misses_persist :
    History.persisted.Regular ∧ History.persisted.final.db.walCh = [] ∧
      (∀ e, WalLine.entry e ∈ History.persisted.final.db.walFile →
        DB.Replays (10 ^ 18 + 2 * 10 ^ 9) e) ∧
      (DB.newBriseDB (10 ^ 18 + 2 * 10 ^ 9) (.asStored _)
        History.persisted.final.db.withoutIndex []).failed = false ∧
      (Session.get [107] (10 ^ 18 + 2 * 10 ^ 9)
        ⟨(DB.newBriseDB (10 ^ 18 + 2 * 10 ^ 9) (.asStored _)
          History.persisted.final.db.withoutIndex []).state, []⟩ []).res = .ok none ∧
      (Session.get [107] (10 ^ 18 + 2 * 10 ^ 9) ⟨History.persisted.final.db, []⟩ []).res =
        .ok (some [118]) := by
  have small : History.persisted.Small .always := rfl
  rcases small.final fun _ => History.persisted_returns with
    ⟨opened, ran, addr, one⟩
  have kept : ¬ (0 < (10 ^ 18 + 10 ^ 9 : Int64) ∧
      Time.ofSeconds (10 ^ 18 + 10 ^ 9) < 10 ^ 18 + 2 * 10 ^ 9) := by decide
  have clean := ((one.replay kept (.asStored _)).undisturbed trivial).1
  rcases (one.replay kept (.asStored _)).correct [] clean with ⟨_, _, rows, models, found⟩
  refine ⟨⟨opened, ran, by decide⟩, one.flushed, one.replays kept, clean,
    Session.get_expired models found (by decide), ?_⟩
  rw [Session.get_res one.models]
  rfl

end BriseDB
