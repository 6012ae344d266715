import BriseDB.Store.Run

/-!
# Reads return the last write

`lastWrites` says what a run of writes, deletes and background work is for: it
remembers the last value written to each key and when it expires.  `Get` answers
from it, however eviction and compaction interleave with the calls.  Volume ids
are 32 bits wide, and `History.IdsLeft` is the assumption that they do not run out.
-/

namespace BriseDB

open Session (expiredAt blobExpiry blobExpiresAt)

/-- What is remembered of the keys: the last value and its expiry, 0 if it never
expires. -/
abbrev LastWrites :=
  Key → Option (Bytes × Time)

/-- What a reader sees at `t`. -/
def shown (t : Time) : Option (Bytes × Time) → Option Bytes
  | none => none
  | some (value, expiry) => if expiry = 0 ∨ t ≤ expiry then some value else none

namespace Call

/-- The writes and deletes, and reads between them. -/
def IsPlain : Call → Prop
  | persist _ | begin | commit _ | rollback => False
  | _ => True

/-- The expiry of the written value is representable in `int64` nanoseconds. -/
def ExpiryFits (now : Time) : Call → Prop
  | setEX _ _ ttl | setBlob _ _ ttl | setBlobStream _ _ _ ttl => now + ttl.toInt < 2 ^ 63
  | _ => True

instance : DecidablePred IsPlain
  | persist _ | begin | commit _ | rollback => inferInstanceAs (Decidable False)
  | set _ _ | setEX _ _ _ | setBlob _ _ _ | setBlobStream _ _ _ _ | delete _ | get _ =>
      inferInstanceAs (Decidable True)

instance (now : Time) : DecidablePred (ExpiryFits now)
  | setEX _ _ _ | setBlob _ _ _ | setBlobStream _ _ _ _ => inferInstanceAs (Decidable (_ < _))
  | set _ _ | delete _ | persist _ | get _ | begin | commit _ | rollback =>
      inferInstanceAs (Decidable True)

/-- What a call changes in the last writes.  A lifetime that is not positive is
refused by `SetEX` and means none for blobs. -/
def remember (now : Time) (writes : LastWrites) : Call → LastWrites
  | set key value => Function.update writes key (some (value, 0))
  | setEX key value ttl =>
      if ttl ≤ 0 then writes else Function.update writes key (some (value, now + ttl.toInt))
  | setBlob key data ttl =>
      Function.update writes key (some (data, if 0 < ttl then now + ttl.toInt else 0))
  | setBlobStream key r _ ttl =>
      Function.update writes key (some (r.data, if 0 < ttl then now + ttl.toInt else 0))
  | delete key => Function.update writes key none
  | _ => writes

end Call

namespace Event

/-- Plain calls and background work. -/
def IsPlain : Event → Prop
  | call _ c => c.IsPlain
  | _ => True

/-- Expiries are representable. -/
def ExpiryFits (now : Time) : Event → Prop
  | call _ c => c.ExpiryFits now
  | _ => True

instance : DecidablePred IsPlain
  | call _ c => inferInstanceAs (Decidable c.IsPlain)
  | evict _ | compact _ _ | flush => inferInstanceAs (Decidable True)

instance (now : Time) : DecidablePred (ExpiryFits now)
  | call _ c => inferInstanceAs (Decidable (c.ExpiryFits now))
  | evict _ | compact _ _ | flush => inferInstanceAs (Decidable True)

/-- Background work changes nothing in the last writes. -/
def remember (now : Time) (writes : LastWrites) : Event → LastWrites
  | call _ c => c.remember now writes
  | _ => writes

end Event

/-- The last writes of a run. -/
def Run.lastWrites (run : Run) : LastWrites :=
  run.foldl (fun writes step => step.2.remember step.1 writes) fun _ => none

theorem Run.lastWrites_append (run : Run) (step : Clock × Event) :
    Run.lastWrites (run ++ [step]) = step.2.remember step.1 run.lastWrites := by
  simp [lastWrites]

/-! ## One step -/

/-- What `Get` shows of a value with an expiry. -/
def visibleEntry (t : Time) : Option (Bytes × Int64) → Option Bytes
  | none => none
  | some (value, expiresAt) => if expiredAt t expiresAt then none else some value

theorem visible_eq (t : Time) (rows : Rows) (key : Key) :
    DB.visible t (rows key) = visibleEntry t (rows.values key) := by
  unfold Rows.values
  cases rows key <;> rfl

theorem rowTTL_eq (t : Time) (rows : Rows) (key : Key) :
    DB.rowTTL t (rows key) =
      Session.entryTTL t ((rows.values key).map fun entry => (⟨0, 0, 0⟩, entry.2)) := by
  unfold Rows.values
  cases rows key <;> rfl

theorem visibleEntry_zero (t : Time) (value : Bytes) :
    visibleEntry t (some (value, 0)) = shown t (some (value, 0)) := by
  have never : ¬ expiredAt t 0 := fun expired => absurd expired.1 (by decide)
  simp [visibleEntry, shown, never]

theorem visibleEntry_unixNano (t : Time) (value : Bytes) {expiry : Time} (positive : 0 < expiry)
    (fits : expiry < 2 ^ 63) :
    visibleEntry t (some (value, Time.unixNano expiry)) = shown t (some (value, expiry)) := by
  have back : Time.ofNano (Time.unixNano expiry) = expiry :=
    Time.ofNano_unixNano (le_trans (by norm_num) positive.le) fits
  have stored : 0 < Time.unixNano expiry := by
    rw [Int64.lt_iff_toInt_lt, show (Time.unixNano expiry).toInt = expiry from back]
    exact positive
  have expired_iff : expiredAt t (Time.unixNano expiry) ↔ expiry < t := by
    unfold expiredAt
    rw [back]
    exact and_iff_right stored
  by_cases passed : expiry < t
  · simp [visibleEntry, shown, expired_iff, passed, positive.ne']
  · simp [visibleEntry, shown, expired_iff, passed, not_lt.mp passed]

theorem visibleEntry_blob (t : Time) (value : Bytes) (now : Clock) {ttl : Int64}
    (fits : now.1 + ttl.toInt < 2 ^ 63) :
    visibleEntry t (some (value, blobExpiresAt (blobExpiry ttl now))) =
      shown t (some (value, if 0 < ttl then now.1 + ttl.toInt else 0)) := by
  by_cases lifetime : 0 < ttl
  · have positive := Session.expiry_pos now lifetime
    have notZero : now.1 + ttl.toInt ≠ Time.zero :=
      fun same => absurd (same ▸ positive) (by decide)
    rw [if_pos lifetime, blobExpiry, if_pos ⟨lifetime, notZero⟩]
    exact visibleEntry_unixNano t value positive fits
  · rw [if_neg lifetime, blobExpiry, if_neg fun both => lifetime both.1]
    exact visibleEntry_zero t value

/-- Values and last writes show the same to a reader at `t`. -/
def Agree (t : Time) (values : Values) (writes : LastWrites) : Prop :=
  ∀ key, visibleEntry t (values key) = shown t (writes key)

theorem Agree.update {t : Time} {values : Values} {writes : LastWrites}
    (agree : Agree t values writes) (key : Key) {entry : Option (Bytes × Int64)}
    {write : Option (Bytes × Time)} (same : visibleEntry t entry = shown t write) :
    Agree t (Function.update values key entry) (Function.update writes key write) := by
  intro other
  by_cases isKey : other = key
  · subst isKey
    simpa using same
  · simpa [isKey] using agree other

theorem Call.agree {c : Call} {now : Clock} {t : Time} {values : Values} {writes : LastWrites}
    (plain : c.IsPlain) (fits : c.ExpiryFits now) (agree : Agree t values writes) :
    Agree t (KeyLog.run values (c.updates now values [])) (c.remember now writes) := by
  cases c with
  | set key value => exact agree.update key (visibleEntry_zero t value)
  | setEX key value ttl =>
      by_cases refused : ttl ≤ 0
      · simpa [updates, remember, refused] using agree
      · have positive := Session.expiry_pos now (Int64.not_le.mp refused)
        simpa [updates, remember, refused, KeyLog.apply] using
          agree.update key (visibleEntry_unixNano t value positive fits)
  | setBlob key data ttl => exact agree.update key (visibleEntry_blob t data now fits)
  | setBlobStream key r size ttl => exact agree.update key (visibleEntry_blob t r.data now fits)
  | delete key =>
      have removed := agree.update key (show visibleEntry t none = shown t none from rfl)
      cases stored : values key with
      | none =>
          rw [Function.update_eq_self_iff.mpr stored.symm] at removed
          simpa [updates, remember, stored] using removed
      | some entry => simpa [updates, remember, stored, KeyLog.apply] using removed
  | get key => exact agree
  | persist key => exact plain.elim
  | begin => exact plain.elim
  | commit order => exact plain.elim
  | rollback => exact plain.elim

theorem Call.stack_plain {c : Call} (plain : c.IsPlain) (now : Time) : c.stack now [] = [] := by
  cases c with
  | begin => exact plain.elim
  | _ => rfl

/-- Removing rows that have expired shows nothing. -/
theorem Agree.of_sheds {t : Time} {rows after : Rows} {writes : LastWrites}
    (agree : Agree t rows.values writes) (sheds : rows.Sheds after t) :
    Agree t after.values writes := by
  intro key
  rw [← agree key, ← visible_eq, ← visible_eq]
  rcases sheds key with same | ⟨gone, expired⟩
  · rw [same]
  · rw [gone]
    cases isRow : rows key with
    | none => rfl
    | some row => simp [DB.visible, expired row isRow]

/-- A step keeps values and last writes in agreement for readers after it. -/
theorem Event.agree {event : Event} {now : Clock} {w next : World} {rows after : Rows}
    {writes : LastWrites} {t : Time} (plain : event.IsPlain) (fits : event.ExpiryFits now)
    (le : now.1 ≤ t) (models : w.Models rows) (noTx : ∀ session, w.sessions session = [])
    (agree : Agree t rows.values writes) (outcome : event.Outcome now w next rows after) :
    (∀ session, next.sessions session = []) ∧
      Agree t after.values (event.remember now writes) := by
  cases event with
  | call session c =>
      obtain ⟨sessionsEq, stepped⟩ := outcome
      rw [noTx session] at sessionsEq stepped
      refine ⟨fun other => ?_, ?_⟩
      · rw [sessionsEq, Call.stack_plain plain]
        by_cases same : other = session
        · rw [same, Function.update_self]
        · rw [Function.update_of_ne same, noTx other]
      · rw [stepped.values_eq]
        exact Call.agree plain fits agree
  | evict order =>
      obtain ⟨sessionsEq, rfl, _⟩ := outcome
      exact ⟨fun other => sessionsEq ▸ noTx other,
        agree.of_sheds (models.db.sheds_evictions order le)⟩
  | compact indexOrder logOrder =>
      obtain ⟨sessionsEq, rfl, _⟩ := outcome
      exact ⟨fun other => sessionsEq ▸ noTx other, agree.of_sheds (rows.sheds_prune le)⟩
  | flush =>
      obtain ⟨sessionsEq, rfl, _⟩ := outcome
      exact ⟨fun other => sessionsEq ▸ noTx other, agree⟩

/-! ## Whole runs -/

/-- `Get` returns the last write of a key, unless it has been deleted or has
expired. -/
theorem History.get_eq_lastWrites {h : History} (regular : h.Regular)
    (single : h.opt.replicationFactor ≤ 1) (plain : ∀ step ∈ h.run, step.2.IsPlain)
    (expiryFits : ∀ step ∈ h.run, step.2.ExpiryFits step.1) (idsLeft : h.IdsLeft) {t : Time}
    (later : ∀ step ∈ h.run, step.1.1 ≤ t) (session : Nat) (key : Key) :
    (Session.get key t ⟨h.final.db, h.final.sessions session⟩ []).res =
      .ok (shown t (h.run.lastWrites key)) := by
  have sound : h.RemotesSound := fun replicated => absurd replicated (not_lt.mpr single)
  obtain ⟨-, rows, models, noTx, agree⟩ := History.induction regular sound idsLeft
    (fun before w rows => (∀ session, w.sessions session = []) ∧
      Agree t rows.values before.lastWrites)
    (fun _ _ => ⟨fun _ => rfl, fun _ => rfl⟩)
    (by
      rintro before now event later' next rows rows' split models ⟨noTx, agree⟩ - outcome
      have isStep : (now, event) ∈ h.run := by simp [split]
      rw [Run.lastWrites_append]
      exact Event.agree (plain _ isStep) (expiryFits _ isStep) (later _ isStep) models noTx agree
        outcome)
  rw [noTx session, Session.get_res models.db, visible_eq, agree key]

/-- A database in which one key is set. -/
def History.oneSet : History :=
  .undisturbed ⟨0, 0, 1, 0, .no⟩ [(.epoch, .call 0 (.set [107] [118]))]

theorem History.get_eq_lastWrites_oneSet :
    (Session.get [107] 5 ⟨History.oneSet.final.db, History.oneSet.final.sessions 1⟩ []).res =
      .ok (some [118]) := by
  have small : History.oneSet.Small .no := rfl
  obtain ⟨opened, ran, -⟩ := @History.Small.final _ _ small (fun _ => True) (by
      intro db fresh
      refine .bind (Call.Direct.event (Call.direct_set (DB.setNow_returns fresh.models
        (by decide) fun _ => fresh.roomAlone _ ?_)) 0) fun _ _ _ => .pure trivial
      rw [fresh.cost (by decide)]
      decide +kernel)
  exact History.get_eq_lastWrites ⟨opened, ran, by decide⟩ (by decide) (by decide) (by decide)
    (History.idsLeft_of_noStream small.idsLeft (by decide)) (by decide) 1 [107]

end BriseDB
