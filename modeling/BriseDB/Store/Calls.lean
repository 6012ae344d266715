import BriseDB.Store.Recovery

/-!
# What the calls of a session do

`Call` lists the calls of a session.  `Call.updates` and `Call.stack` say what a
call is for: which keys it updates, and what it does to the stack of open
transactions.  `Call.run_returns` connects this with the calls themselves, and
adds what the log and the replicas are told.
-/

namespace BriseDB

open Session (PendingSet blobExpiry blobExpiresAt)

/-- Values and expiries of the stored keys. -/
abbrev Values :=
  Key → Option (Bytes × Int64)

/-- The part of the rows that does not depend on where blobs are stored. -/
def Rows.values (rows : Rows) : Values :=
  fun key => (rows key).map fun row => (row.value, row.expiresAt)

theorem Rows.values_update (rows : Rows) (key : Key) (row : Option Row) :
    Rows.values (Function.update rows key row) =
      Function.update rows.values key (row.map fun row => (row.value, row.expiresAt)) := by
  funext other
  by_cases same : other = key
  · subst same
    simp [values]
  · simp [values, Function.update_of_ne same]

/-- A key gets a value with an expiry, or is removed. -/
abbrev Update :=
  KeyUpdate Key (Bytes × Int64)

/-- The record that tells a replica of an update. -/
def Update.sent (u : Update) : WalEntry :=
  match u.2 with
  | some (value, expiresAt) => WalEntry.ofValue u.1 value expiresAt
  | none => WalEntry.ofDelete u.1

/-- The updates made by the outermost commit of a transaction. -/
def Transaction.updates (tx : Transaction) (order : CommitOrder) : List Update :=
  (tx.store.range order.store).map (fun entry => ⟨entry.1, some (entry.2, tx.expiresAt entry.1)⟩) ++
    (tx.deleted.range order.logged).map fun entry => ⟨entry.1, none⟩

/-- A call of a session. -/
inductive Call where
  | set (key : Key) (value : Bytes)
  | setEX (key : Key) (value : Bytes) (ttl : Int64)
  | setBlob (key : Key) (data : Bytes) (ttl : Int64)
  | setBlobStream (key : Key) (r : Reader) (size ttl : Int64)
  | delete (key : Key)
  | persist (key : Key)
  | get (key : Key)
  | begin
  | commit (order : CommitOrder)
  | rollback

namespace Call

/-- Carry out a call at a reading of the clock.  Its answer is dropped. -/
def run (now : Time) : Call → Exec Session Unit
  | set key value => Session.set key value
  | setEX key value ttl => Session.setEX key value ttl now
  | setBlob key data ttl => Session.setBlob key data ttl now
  | setBlobStream key r size ttl => Session.setBlobStream key r size ttl now
  | delete key => Session.delete key
  | persist key => Session.persist key >>= fun _ => pure ()
  | get key => Session.get key now >>= fun _ => pure ()
  | begin => Session.beginTransaction
  | commit order => Session.commitTransaction order
  | rollback => Session.rollbackTransaction

/-- Keys have at most 65535 bytes, and a reader yields exactly the announced
number of bytes. -/
def Fits : Call → Prop
  | set key _ => key.length ≤ 65535
  | setEX key _ _ => key.length ≤ 65535
  | setBlob key _ _ => key.length ≤ 65535
  | setBlobStream key r size _ =>
      key.length ≤ 65535 ∧ r.error = none ∧ (r.data.length : Int) = size.toInt
  | _ => True

instance : DecidablePred Fits
  | set _ _ | setEX _ _ _ | setBlob _ _ _ => inferInstanceAs (Decidable (_ ≤ _))
  | setBlobStream _ _ _ _ => inferInstanceAs (Decidable (_ ∧ _ ∧ _))
  | delete _ | persist _ | get _ | begin | commit _ | rollback => inferInstanceAs (Decidable True)

/-- Whether the call is `SetBlobStream`. -/
def IsStream : Call → Prop
  | setBlobStream _ _ _ _ => True
  | _ => False

instance : DecidablePred IsStream
  | setBlobStream _ _ _ _ => inferInstanceAs (Decidable True)
  | set _ _ | setEX _ _ _ | setBlob _ _ _ | delete _ | persist _ | get _ | begin | commit _
  | rollback => inferInstanceAs (Decidable False)

/-- Whether the call is `Persist`. -/
def IsPersist : Call → Prop
  | persist _ => True
  | _ => False

/-- What a call does to the stack of open transactions. -/
def stack (now : Time) : Call → List Transaction → List Transaction
  | set key value, active :: rest => active.put key value Time.zero :: rest
  | setEX key value ttl, active :: rest =>
      if ttl ≤ 0 then active :: rest else active.put key value (now + ttl.toInt) :: rest
  | delete key, active :: rest => active.remove key :: rest
  | persist key, active :: rest =>
      if (active.store.lookup key).isSome then
        { active with expiry := active.expiry.insert key Time.zero } :: rest
      else active :: rest
  | begin, stack => Transaction.empty :: stack
  | commit order, active :: parent :: rest => active.mergeInto order parent :: rest
  | commit _, [_] => []
  | rollback, _ :: rest => rest
  | _, stack => stack

/-- The keys a call updates in the shared database. -/
def updates (now : Time) (values : Values) : Call → List Transaction → List Update
  | set key value, [] => [⟨key, some (value, 0)⟩]
  | setEX key value ttl, [] =>
      if ttl ≤ 0 then [] else [⟨key, some (value, Time.unixNano (now + ttl.toInt))⟩]
  | setBlob key data ttl, _ => [⟨key, some (data, blobExpiresAt (blobExpiry ttl now))⟩]
  | setBlobStream key r _ ttl, _ => [⟨key, some (r.data, blobExpiresAt (blobExpiry ttl now))⟩]
  | delete key, [] => if (values key).isSome then [⟨key, none⟩] else []
  | persist key, stack =>
      if (stack.head?.bind fun active => active.store.lookup key).isSome then []
      else
        match values key with
        | none => []
        | some (value, expiresAt) => if expiresAt = 0 then [] else [⟨key, some (value, 0)⟩]
  | commit order, [tx] => tx.updates order
  | _, _ => []

end Call

namespace DB

/-- `next` is `db` after the given updates.  `logs` tells whether they are in the log,
and `sends` whether the replicas have been told. -/
structure Stepped (db next : DB) (rows after : Rows) (updates : List Update)
    (logs sends : Prop) : Prop where
  models : next.Models after
  values_eq : after.values = KeyLog.run rows.values updates
  unchanged : updates = [] → after = rows
  keeps : db.volumes.localVM.Extends next.volumes.localVM
  mode_eq : next.fsyncMode = db.fsyncMode
  logged : ∃ entries : List WalEntry, next.log = db.log ++ entries.map .entry ∧
    (logs → after.content = WalEntry.redo rows.content entries) ∧
    (¬ logs → entries = []) ∧
    ∀ e ∈ entries, e.type = .set → ∃ value, next.volumes.localVM.Holds e.addr value
  told : sends → next.replicas =
    db.replicas.map fun ch => (updates.map Update.sent).foldl (fun ch e => ch.push e) ch
  untold : ¬ sends → next.replicas = db.replicas

section

variable {db next : DB} {rows : Rows} {logs sends : Prop} {key : Key} {row : Row}
  {cached : Option Time}

theorem Stepped.refl (models : db.Models rows) : Stepped db db rows rows [] logs sends where
  models := models
  values_eq := rfl
  unchanged _ := rfl
  keeps := .refl _
  mode_eq := rfl
  logged := ⟨[], by simp, fun _ => rfl, fun _ => rfl, nofun⟩
  told _ := by simp
  untold _ := rfl

/-- An effect that changes no row. -/
theorem Effect.stepped_idle (effect : Effect db next (.idle rows db.expiry)) :
    Stepped db next rows rows [] logs sends where
  models := effect.models
  values_eq := rfl
  unchanged _ := rfl
  keeps := effect.keeps
  mode_eq := effect.mode_eq
  logged := ⟨[], by simpa [Change.idle] using effect.log_eq, fun _ => rfl, fun _ => rfl, nofun⟩
  told _ := by simpa [Change.idle] using effect.replicas_eq
  untold _ := by simpa [Change.idle] using effect.replicas_eq

/-- An effect that writes one row and logs it. -/
theorem Effect.stepped_write {sent : List WalEntry}
    (effect : Effect db next (.write db rows key row cached sent)) (isLogged : logs)
    (isTold : sends → sent = [WalEntry.ofValue key row.value row.expiresAt])
    (isUntold : ¬ sends → sent = []) :
    Stepped db next rows (Function.update rows key (some row))
      [⟨key, some (row.value, row.expiresAt)⟩] logs sends where
  models := effect.models
  values_eq := Rows.values_update rows key (some row)
  unchanged := nofun
  keeps := effect.keeps
  mode_eq := effect.mode_eq
  logged := by
    refine ⟨_, effect.log_eq, fun _ => Rows.content_update rows key (some row),
      fun notLogged => absurd isLogged notLogged, ?_⟩
    intro e mem _
    obtain rfl := List.mem_singleton.mp mem
    exact ⟨row.value, effect.models.holds key row (Function.update_self ..)⟩
  told tells := by rw [effect.replicas_eq, Change.write, isTold tells]; rfl
  untold silent := by
    rw [effect.replicas_eq, Change.write, isUntold silent]
    exact List.map_id' _

theorem Effect.stepped_published
    (effect : Effect db next (.published db rows key row cached)) (isLogged : logs)
    (isSent : sends) :
    Stepped db next rows (Function.update rows key (some row))
      [⟨key, some (row.value, row.expiresAt)⟩] logs sends :=
  effect.stepped_write isLogged (fun _ => rfl) (fun silent => absurd isSent silent)

theorem Effect.stepped_removed (effect : Effect db next (.removed db rows key))
    (isLogged : logs) (isSent : sends) :
    Stepped db next rows (Function.update rows key none) [⟨key, none⟩] logs sends where
  models := effect.models
  values_eq := Rows.values_update rows key none
  unchanged := nofun
  keeps := effect.keeps
  mode_eq := effect.mode_eq
  logged := by
    refine ⟨_, effect.log_eq, fun _ => Rows.content_update rows key none,
      fun notLogged => absurd isLogged notLogged, ?_⟩
    intro e mem isSet
    obtain rfl := List.mem_singleton.mp mem
    cases isSet
  told _ := effect.replicas_eq
  untold silent := absurd isSent silent

/-- Removing an expiry is neither logged nor sent. -/
theorem Effect.stepped_row
    (effect : Effect db next (.row db rows key (some row) cached)) (notLogged : ¬ logs)
    (notSent : ¬ sends) :
    Stepped db next rows (Function.update rows key (some row))
      [⟨key, some (row.value, row.expiresAt)⟩] logs sends where
  models := effect.models
  values_eq := Rows.values_update rows key (some row)
  unchanged := nofun
  keeps := effect.keeps
  mode_eq := effect.mode_eq
  logged := ⟨[], effect.log_eq, fun isLogged => absurd isLogged notLogged, fun _ => rfl, nofun⟩
  told isSent := absurd isSent notSent
  untold _ := by
    rw [effect.replicas_eq]
    exact List.map_id' _

end

end DB

/-! ## Commits -/

namespace Rows

theorem values_putAll (rows : Rows) (sets : List PendingSet) :
    (rows.putAll sets).values =
      KeyLog.run rows.values
        (sets.map fun ps => (ps.key, some (ps.value, ps.expiresAt))) := by
  induction sets generalizing rows with
  | nil => rfl
  | cons ps rest ih =>
      rw [List.map_cons, KeyLog.run_cons]
      change (Rows.putAll (Function.update rows ps.key (some ps.row)) rest).values = _
      rw [ih, values_update]
      rfl

theorem content_putAll (rows : Rows) (sets : List PendingSet) :
    (rows.putAll sets).content =
      WalEntry.redo rows.content
        (sets.map fun ps => WalEntry.ofSet ps.key ps.addr ps.expiresAt) := by
  induction sets generalizing rows with
  | nil => rfl
  | cons ps rest ih =>
      rw [List.map_cons, WalEntry.redo_cons]
      change (Rows.putAll (Function.update rows ps.key (some ps.row)) rest).content = _
      rw [ih, content_update]
      rfl

theorem values_removeAll (rows : Rows) (keys : List Key) :
    (rows.removeAll keys).values =
      KeyLog.run rows.values (keys.map fun key => (key, none)) := by
  induction keys generalizing rows with
  | nil => rfl
  | cons key rest ih =>
      rw [List.map_cons, KeyLog.run_cons]
      change (Rows.removeAll (Function.update rows key none) rest).values = _
      rw [ih, values_update]
      rfl

theorem content_removeAll (rows : Rows) (keys : List Key) :
    (rows.removeAll keys).content =
      WalEntry.redo rows.content (keys.map WalEntry.ofDelete) := by
  induction keys generalizing rows with
  | nil => rfl
  | cons key rest ih =>
      rw [List.map_cons, WalEntry.redo_cons]
      change (Rows.removeAll (Function.update rows key none) rest).content = _
      rw [ih, content_update]
      rfl

/-- The order in which rows are removed does not matter. -/
theorem removeAll_congr (rows : Rows) {first second : List Key}
    (same : ∀ key, key ∈ first ↔ key ∈ second) : rows.removeAll first = rows.removeAll second := by
  funext key
  simp only [removeAll_apply, same]

end Rows

/-- Keys in a transaction have at most 65535 bytes. -/
def Transaction.Fits (tx : Transaction) : Prop :=
  ∀ key value, tx.store.lookup key = some value → key.length ≤ 65535

namespace DB

/-- An outermost commit carries out the updates of its transaction. -/
theorem commitNow_stepped {db : DB} {rows : Rows} {tx : Transaction} (order : CommitOrder)
    (models : db.Models rows) (fits : tx.Fits) {logs sends : Prop} (isLogged : logs)
    (isSent : sends) :
    (Session.commitNow tx order).Returns False db fun _ next =>
      ∃ after, Stepped db next rows after (tx.updates order) logs sends := by
  refine .mono (commitNow_returns order models fits False.elim) ?_
  rintro _ next ⟨sets, entriesEq, stored, change, effect, rowsEq, loggedEq, sentEq, -⟩
  set deletes := (tx.deleted.range order.logged).map Prod.fst with deletesDef
  have sameKeys : ∀ key, key ∈ (tx.deleted.range order.deleted).map Prod.fst ↔ key ∈ deletes := by
    intro key
    simp only [deletesDef, List.mem_map, Prod.exists, Table.mem_range, exists_and_right]
  have updatesEq : tx.updates order =
      (sets.map fun ps => (ps.key, some (ps.value, ps.expiresAt))) ++
        deletes.map fun key => (key, none) := by
    unfold Transaction.updates
    rw [← entriesEq, List.map_map, deletesDef, List.map_map]
    congr 1
    refine List.map_congr_left fun ps mem => ?_
    simp only [Function.comp_apply, (stored ps mem).1]
  rw [Rows.removeAll_congr _ sameKeys] at rowsEq
  have models' : next.Models ((rows.putAll sets).removeAll deletes) := rowsEq ▸ effect.models
  refine ⟨_, models', ?_, ?_, effect.keeps, effect.mode_eq, ⟨_, effect.log_eq, fun _ => ?_,
    fun notLogged => absurd isLogged notLogged, ?_⟩, fun _ => ?_,
    fun silent => absurd isSent silent⟩
  · rw [Rows.values_removeAll, Rows.values_putAll, updatesEq, KeyLog.run_append]
  · intro noUpdates
    rw [updatesEq, List.append_eq_nil_iff, List.map_eq_nil_iff, List.map_eq_nil_iff] at noUpdates
    rw [noUpdates.1, noUpdates.2]
    rfl
  · rw [Rows.content_removeAll, Rows.content_putAll, loggedEq, commitLogged,
      WalEntry.redo_append]
  · rw [loggedEq]
    intro e mem isSet
    rcases List.mem_append.mp mem with isPut | isDelete
    · obtain ⟨ps, psMem, rfl⟩ := List.mem_map.mp isPut
      exact ⟨ps.value, (stored ps psMem).2⟩
    · obtain ⟨key, _, rfl⟩ := List.mem_map.mp isDelete
      cases isSet
  · have sameSent : (tx.updates order).map Update.sent = change.sent := by
      rw [sentEq, updatesEq, List.map_append]
      simp only [List.map_map, commitSent]
      rfl
    rw [effect.replicas_eq, sameSent]

end DB

/-! ## All calls -/

/-- The clock has not gone behind the epoch, so a positive lifetime ends after it. -/
theorem Session.expiry_pos (now : Clock) {ttl : Int64} (positive : 0 < ttl) :
    0 < now.1 + ttl.toInt := by
  have lifetime : (0 : Int) < ttl.toInt := Int64.lt_iff_toInt_lt.mp positive
  have epoch : (0 : Int) ≤ now.1 := now.2.1
  change (0 : Int) < now.1 + ttl.toInt
  omega

theorem Session.blobExpiry_pos (now : Clock) {ttl : Int64} {instant : Time}
    (isExpiry : blobExpiry ttl now = some instant) : 0 < instant := by
  unfold blobExpiry at isExpiry
  split at isExpiry
  · next both =>
    obtain rfl := Option.some.inj isExpiry
    exact expiry_pos now both.1
  · cases isExpiry

namespace Call

open DB (Stepped)

/-- The outside view of a call: the stack it leaves, and its updates. -/
def Outcome (now : Time) (call : Call) (s next : Session) (rows : Rows) : Prop :=
  next.transactions = call.stack now s.transactions ∧
    ∃ after, Stepped s.db next.db rows after (call.updates now rows.values s.transactions)
      (¬ call.IsPersist) (¬ call.IsPersist ∧ ¬ call.IsStream)

section

variable {s : Session} {rows : Rows} {now : Clock}

/-- A call that goes to the database. -/
theorem outcome_onDB {call : Call} {α : Type} {inner : Exec DB α}
    (stackEq : call.stack now s.transactions = s.transactions)
    (returns : inner.Returns False s.db fun _ next =>
      ∃ after, Stepped s.db next rows after (call.updates now rows.values s.transactions)
        (¬ call.IsPersist) (¬ call.IsPersist ∧ ¬ call.IsStream)) :
    (Session.onDB inner).Returns False s fun _ next => call.Outcome now s next rows := by
  refine .mono (.zoom returns) ?_
  rintro _ _ ⟨next, rfl, after, stepped⟩
  exact ⟨stackEq.symm, after, stepped⟩

/-- A call that only touches the stack. -/
theorem outcome_stack {call : Call} (models : s.db.Models rows)
    (noUpdates : call.updates now rows.values s.transactions = []) {stack : List Transaction}
    (stackEq : call.stack now s.transactions = stack) :
    call.Outcome now s { s with transactions := stack } rows :=
  ⟨stackEq.symm, rows, noUpdates ▸ .refl models⟩

theorem attempt_outcome {call : Call}
    (returns : (call.run now).Returns False s fun _ next => call.Outcome now s next rows) :
    (Exec.attempt (call.run now)).Returns False s fun _ next => call.Outcome now s next rows :=
  .mono (.attempt returns) fun _ _ ⟨_, _, outcome⟩ => outcome

/-- A call that is refused. -/
theorem attempt_refused {call : Call} (message : String)
    (refused : (call.run now).Fails s message) (outcome : call.Outcome now s s rows) :
    (Exec.attempt (call.run now)).Returns False s fun _ next => call.Outcome now s next rows :=
  .of_eq refused.attempt outcome

variable (models : s.db.Models rows)

include models

theorem set_outcome {key : Key} (keyFits : key.length ≤ 65535) (value : Bytes) :
    (Session.set key value).Returns False s fun _ next =>
      (Call.set key value).Outcome now s next rows := by
  obtain ⟨db, transactions⟩ := s
  unfold Session.set
  refine .bind_state ?_
  cases transactions with
  | cons active rest => exact .modify (outcome_stack models rfl rfl)
  | nil =>
      refine outcome_onDB rfl (.mono (DB.setNow_returns models keyFits False.elim) ?_)
      rintro _ next ⟨addr, effect⟩
      exact ⟨_, effect.stepped_published id ⟨id, id⟩⟩

theorem setEX_outcome {key : Key} (keyFits : key.length ≤ 65535) (value : Bytes) {ttl : Int64}
    (positive : ¬ ttl ≤ 0) :
    (Session.setEX key value ttl now).Returns False s fun _ next =>
      (Call.setEX key value ttl).Outcome now s next rows := by
  obtain ⟨db, transactions⟩ := s
  unfold Session.setEX
  rw [if_neg positive]
  refine .bind_state ?_
  cases transactions with
  | cons active rest =>
      refine .modify (outcome_stack models rfl ?_)
      exact if_neg positive
  | nil =>
      have updatesEq : (Call.setEX key value ttl).updates now rows.values [] =
          [⟨key, some (value, Time.unixNano (now.1 + ttl.toInt))⟩] := if_neg positive
      refine outcome_onDB rfl (.mono (DB.setEXNow_returns models keyFits False.elim
        (Session.expiry_pos now (Int64.not_le.mp positive))) ?_)
      rintro _ next ⟨addr, effect⟩
      rw [updatesEq]
      exact ⟨_, effect.stepped_published id ⟨id, id⟩⟩

theorem setBlob_outcome {key : Key} (keyFits : key.length ≤ 65535) (data : Bytes) (ttl : Int64) :
    (Session.setBlob key data ttl now).Returns False s fun _ next =>
      (Call.setBlob key data ttl).Outcome now s next rows := by
  refine outcome_onDB rfl (.mono (DB.setBlobNow_returns models keyFits False.elim
    fun _ isExpiry => Session.blobExpiry_pos now isExpiry) ?_)
  rintro _ next ⟨addr, effect⟩
  exact ⟨_, effect.stepped_published id ⟨id, id⟩⟩

theorem setBlobStream_outcome {key : Key} {r : Reader} {size : Int64} (ttl : Int64)
    (fits : (Call.setBlobStream key r size ttl).Fits)
    (unused : s.db.volumes.localVM.volumes.lookup VolumeManager.lastID = none) :
    (Session.setBlobStream key r size ttl now).Returns False s fun _ next =>
      (Call.setBlobStream key r size ttl).Outcome now s next rows := by
  obtain ⟨keyFits, noError, sizeEq⟩ := fits
  obtain ⟨data, _⟩ := r
  obtain rfl : _ = none := noError
  refine outcome_onDB rfl (.mono (DB.setBlobStreamNow_returns models keyFits
    False.elim (fun _ isExpiry => Session.blobExpiry_pos now isExpiry) sizeEq unused) ?_)
  rintro _ next ⟨addr, effect⟩
  exact ⟨_, effect.stepped_write id (fun sends => absurd trivial sends.2) fun _ => rfl⟩

theorem delete_outcome (key : Key) :
    (Session.delete key).Returns False s fun _ next =>
      (Call.delete key).Outcome now s next rows := by
  obtain ⟨db, transactions⟩ := s
  unfold Session.delete
  refine .bind_state ?_
  cases transactions with
  | cons active rest => exact .modify (outcome_stack models rfl rfl)
  | nil =>
      refine outcome_onDB rfl (.mono (DB.deleteNow_returns models False.elim) ?_)
      intro _ next holds
      cases isRow : rows key with
      | none =>
          have updatesEq : (Call.delete key).updates now rows.values [] = [] := by
            simp [updates, Rows.values, isRow]
          rw [isRow] at holds
          rw [updatesEq, show next = db from holds]
          exact ⟨rows, .refl models⟩
      | some row =>
          have updatesEq : (Call.delete key).updates now rows.values [] = [⟨key, none⟩] := by
            simp [updates, Rows.values, isRow]
          rw [isRow] at holds
          have effect : DB.Effect db next (.removed db rows key) := holds
          rw [updatesEq]
          exact ⟨_, effect.stepped_removed id ⟨id, id⟩⟩

theorem persistLocked_outcome {key : Key}
    (outside : (s.transactions.head?.bind fun active => active.store.lookup key).isSome = false) :
    (Session.onDB (Session.persistLocked key)).Returns False s fun _ next =>
      (Call.persist key).Outcome now s next rows := by
  have stackEq : (Call.persist key).stack now s.transactions = s.transactions := by
    cases transactionsEq : s.transactions with
    | nil => rfl
    | cons active rest =>
        rw [transactionsEq] at outside
        simp only [List.head?_cons, Option.bind_some] at outside
        simp [stack, outside]
  refine outcome_onDB stackEq (.mono (DB.persistLocked_returns models False.elim) ?_)
  rintro _ next (⟨-, row, isRow, hasExpiry, effect⟩ | ⟨-, noExpiry, rfl⟩)
  · have updatesEq : (Call.persist key).updates now rows.values s.transactions =
        [⟨key, some (row.value, 0)⟩] := by
      simp [updates, outside, Rows.values, isRow, hasExpiry]
    rw [updatesEq]
    exact ⟨_, effect.stepped_row (fun logs => logs trivial) fun sends => sends.1 trivial⟩
  · have updatesEq : (Call.persist key).updates now rows.values s.transactions = [] := by
      cases isRow : rows key with
      | none => simp [updates, outside, Rows.values, isRow]
      | some row => simp [updates, outside, Rows.values, isRow, noExpiry row isRow]
    rw [updatesEq]
    exact ⟨rows, .refl models⟩

theorem persist_outcome (key : Key) :
    ((Call.persist key).run now).Returns False s fun _ next =>
      (Call.persist key).Outcome now s next rows := by
  refine .bind (.bind_state ?_) fun _ _ outcome => .pure outcome
  cases transactionsEq : s.transactions with
  | nil => exact persistLocked_outcome models (by rw [transactionsEq]; rfl)
  | cons active rest =>
      dsimp only
      by_cases inside : (active.store.lookup key).isSome
      · rw [if_pos inside]
        refine .bind_modify (.pure ?_)
        rw [transactionsEq]
        refine outcome_stack models ?_ ?_
        · rw [transactionsEq]
          exact if_pos inside
        · rw [transactionsEq]
          exact if_pos inside
      · rw [if_neg inside]
        refine persistLocked_outcome models ?_
        rw [transactionsEq]
        simpa using inside

theorem get_outcome (key : Key) :
    ((Call.get key).run now).Returns False s fun _ next =>
      (Call.get key).Outcome now s next rows := by
  refine .bind (.bind_state ?_) fun _ _ outcome => .pure outcome
  have stackEq : (Call.get key).stack now s.transactions = s.transactions := by
    cases s.transactions <;> rfl
  have updatesEq : (Call.get key).updates now rows.values s.transactions = [] := by
    cases s.transactions <;> rfl
  cases Session.overlay s.transactions key with
  | some found => exact .pure (outcome_stack models updatesEq stackEq)
  | none =>
      refine outcome_onDB stackEq (.mono (DB.getNow_returns models now) ?_)
      rintro _ next ⟨-, effect⟩
      exact ⟨rows, updatesEq ▸ effect.stepped_idle⟩

theorem commit_outcome (order : CommitOrder) (fits : ∀ tx ∈ s.transactions, tx.Fits)
    (isOpen : s.transactions ≠ []) :
    (Session.commitTransaction order).Returns False s fun _ next =>
      (Call.commit order).Outcome now s next rows := by
  obtain ⟨db, transactions⟩ := s
  unfold Session.commitTransaction Session.popTransaction
  refine .bind_state ?_
  match transactions, isOpen with
  | active :: parent :: rest, _ =>
      exact .bind_put (.bind_state (.put (outcome_stack models rfl rfl)))
  | [active], _ =>
      have isLogged : ¬ (Call.commit order).IsPersist := id
      have isSent : ¬ (Call.commit order).IsPersist ∧ ¬ (Call.commit order).IsStream := ⟨id, id⟩
      refine .bind_zoom (DB.commitNow_stepped order models
        (fits active List.mem_cons_self) isLogged isSent) ?_
      rintro _ next ⟨after, stepped⟩
      exact .bind_state (.put ⟨rfl, after, stepped⟩)

/-- Every call makes the updates and leaves the stack that it is meant to. -/
theorem run_returns {call : Call} (fits : call.Fits) (txFits : ∀ tx ∈ s.transactions, tx.Fits)
    (unused : call.IsStream →
      s.db.volumes.localVM.volumes.lookup VolumeManager.lastID = none) :
    (Exec.attempt (call.run now)).Returns False s fun _ next => call.Outcome now s next rows := by
  cases call with
  | set key value => exact attempt_outcome (set_outcome models fits value)
  | setEX key value ttl =>
      by_cases refused : ttl ≤ 0
      · refine attempt_refused _ (fun faults => by
          change (if ttl ≤ 0 then _ else _ : Exec Session Unit) s faults = _
          rw [if_pos refused]; rfl) (outcome_stack models ?_ ?_)
        · cases s.transactions with
          | nil => exact if_pos refused
          | cons => rfl
        · cases s.transactions with
          | nil => rfl
          | cons => exact if_pos refused
      · exact attempt_outcome (setEX_outcome models fits value refused)
  | setBlob key data ttl => exact attempt_outcome (setBlob_outcome models fits data ttl)
  | setBlobStream key r size ttl =>
      exact attempt_outcome (setBlobStream_outcome models ttl fits (unused trivial))
  | delete key => exact attempt_outcome (delete_outcome models key)
  | persist key => exact attempt_outcome (persist_outcome models key)
  | get key => exact attempt_outcome (get_outcome models key)
  | begin =>
      refine attempt_outcome (.modify (outcome_stack models ?_ ?_))
      · cases s.transactions <;> rfl
      · cases s.transactions <;> rfl
  | commit order =>
      by_cases isOpen : s.transactions = []
      · refine attempt_refused "INFO: Nothing to commit" (fun faults => ?_)
          (outcome_stack models (by rw [isOpen]; rfl) (by rw [isOpen]; rfl))
        obtain ⟨db, transactions⟩ := s
        obtain rfl : transactions = [] := isOpen
        rfl
      · exact attempt_outcome (commit_outcome models order txFits isOpen)
  | rollback =>
      obtain ⟨db, transactions⟩ := s
      cases transactions with
      | nil =>
          exact attempt_refused "ERROR: No Active Transactions" (fun faults => rfl)
            (outcome_stack models rfl rfl)
      | cons active rest =>
          exact attempt_outcome (.bind_state (.put
            (outcome_stack models rfl rfl)))

end

end Call

end BriseDB
