import BriseDB.Store.RedoLog
import BriseDB.Store.Replication

/-!
# A primary and its replica

The primary pushes records into the channel of the replica, the connection takes
them from there, and the replica applies them in the order in which they come.
A step of the pair is a call on the primary or one of the two moves of a record.

As long as every call tells the replica what it does, the records on their way
make up the difference between the two databases (`Pair.Synced`).
-/

namespace BriseDB

open DB (Stepped)

/-- A primary, the records on the connection, and the replica.  The channel of the
replica is the first one the primary knows. -/
structure Pair where
  primary : World
  wire : List WalEntry
  replica : DB

namespace Pair

/-- The channel of the replica. -/
def channel (p : Pair) : Option ReplicaChannel :=
  p.primary.db.replicas.head?

/-- The records that wait in the channel. -/
def queue (p : Pair) : List WalEntry :=
  (p.channel.map ReplicaChannel.queue).getD []

/-- One step of the pair. -/
inductive Step where
  | call (now : Clock) (session : Nat) (c : Call)
  | transmit
  | receive

/-- Let the primary do something. -/
def onPrimary {α : Type} (act : Exec World α) : Exec Pair α :=
  Exec.zoom primary (fun w p => { p with primary := w }) act

/-- Let the replica do something. -/
def onReplica {α : Type} (act : Exec DB α) : Exec Pair α :=
  Exec.zoom replica (fun db p => { p with replica := db }) act

/-- The connection takes a record from the channel. -/
def transmit (p : Pair) : Pair :=
  match p.primary.db.replicas with
  | ⟨capacity, e :: rest⟩ :: others =>
      { p with
        primary := { p.primary with
          db := { p.primary.db with replicas := ⟨capacity, rest⟩ :: others } }
        wire := p.wire ++ [e] }
  | _ => p

/-- Carry out a step. -/
def Step.run : Step → Exec Pair Unit
  | call now session c => onPrimary ((Event.call session c).run now)
  | transmit => Exec.modify Pair.transmit
  | receive => do
      let p ← Exec.state
      match p.wire with
      | [] => pure ()
      | e :: rest =>
          Exec.put { p with wire := rest }
          onReplica (DB.applyReplicationEntry e)

/-- Carry out steps one after the other. -/
def exec (steps : List Step) : Exec Pair Unit :=
  Exec.each steps Step.run

end Pair

/-- The number of records a call offers to the replicas. -/
def Call.fanouts (db : DB) : Call → List Transaction → Nat
  | set _ _, [] => 1
  | setEX _ _ ttl, [] => if ttl ≤ 0 then 0 else 1
  | setBlob _ _ _, _ => 1
  | delete key, [] =>
      match Index.get db.hindex key with
      | .ok (some _) => 1
      | _ => 0
  | commit _, [tx] => tx.store.keys.length + tx.deleted.keys.length
  | _, _ => 0

/-- A call that tells the replicas offers one record for each of its updates. -/
theorem Call.length_updates {c : Call} {db : DB} {rows : Rows} (models : db.Models rows)
    (notStream : ¬ c.IsStream) (notPersist : ¬ c.IsPersist) (now : Time)
    (stack : List Transaction) :
    (c.updates now rows.values stack).length = c.fanouts db stack := by
  cases c with
  | set key value => cases stack <;> rfl
  | setEX key value ttl =>
      cases stack with
      | nil =>
          change (if ttl ≤ 0 then _ else _ : List Update).length = if ttl ≤ 0 then 0 else 1
          split <;> rfl
      | cons => rfl
  | setBlob => rfl
  | setBlobStream => exact absurd trivial notStream
  | delete key =>
      cases stack with
      | nil =>
          change (if (rows.values key).isSome then _ else _ : List Update).length =
            match Index.get db.hindex key with
            | .ok (some _) => 1
            | _ => 0
          rw [DB.get_index_eq models, Rows.values]
          cases rows key <;> rfl
      | cons => rfl
  | persist => exact absurd trivial notPersist
  | get => cases stack <;> rfl
  | begin => cases stack <;> rfl
  | commit order =>
      rcases stack with _ | ⟨tx, _ | ⟨parent, others⟩⟩
      · rfl
      · change ((tx.store.range order.store).map _ ++ (tx.deleted.range order.logged).map _).length
          = tx.store.keys.length + tx.deleted.keys.length
        rw [List.length_append, List.length_map, List.length_map, Table.length_range,
          Table.length_range]
      · rfl
  | rollback => cases stack <;> rfl

/-- A channel with enough room takes all records that are pushed. -/
theorem ReplicaChannel.push_all {ch : ReplicaChannel} {entries : List WalEntry}
    (roomy : ch.queue.length + entries.length ≤ ch.capacity) :
    entries.foldl (fun ch e => ch.push e) ch = { ch with queue := ch.queue ++ entries } := by
  induction entries generalizing ch with
  | nil => simp
  | cons e rest ih =>
      rw [List.length_cons] at roomy
      have pushed : ch.push e = { ch with queue := ch.queue ++ [e] } :=
        if_pos (show ch.queue.length < ch.capacity by omega)
      rw [List.foldl_cons, pushed, ih (by simp; omega)]
      simp

namespace Pair

/-- What is assumed of a step: the key fits, the call tells the replica what it does,
the channel has room, and records come as they were sent. -/
def Step.Told (p : Pair) : Step → Prop
  | call _ session c =>
      c.Fits ∧ ¬ c.IsStream ∧ (Event.call session c).KeepsExpiry p.primary ∧
        ∀ ch ∈ p.channel,
          ch.queue.length + c.fanouts p.primary.db (p.primary.sessions session) ≤ ch.capacity
  | transmit => True
  | receive => ∀ e ∈ p.wire.head?, e.Decodes ∧ e.key.length ≤ 65535

/-- The records on their way make up the difference between primary and replica. -/
structure Synced (p : Pair) (rows held : Rows) : Prop where
  primary : p.primary.Models rows
  replica : p.replica.Models held
  registered : p.channel.isSome
  values_eq : KeyLog.run held.values ((p.wire ++ p.queue).map WalEntry.received) = rows.values

variable {p : Pair} {rows held : Rows}

/-- What a call does to the channel of the replica. -/
theorem Synced.queue_call {db next : DB} {rows after : Rows} {c : Call} {now : Time}
    {stack : List Transaction} (models : db.Models rows)
    (stepped : Stepped db next rows after (c.updates now rows.values stack) (¬ c.IsPersist)
      (¬ c.IsPersist ∧ ¬ c.IsStream))
    (notStream : ¬ c.IsStream) (silent : c.IsPersist → c.updates now rows.values stack = [])
    (roomy : ∀ ch ∈ db.replicas.head?, ch.queue.length + c.fanouts db stack ≤ ch.capacity) :
    next.replicas.head? = db.replicas.head?.map fun ch =>
      { ch with queue := ch.queue ++ (c.updates now rows.values stack).map Update.sent } := by
  by_cases isPersist : c.IsPersist
  · rw [stepped.untold fun sends => sends.1 isPersist, silent isPersist]
    simp
  · rw [stepped.told ⟨isPersist, notStream⟩, List.head?_map]
    cases first : db.replicas.head? with
    | none => rfl
    | some ch =>
        have enough := roomy ch first
        rw [← c.length_updates models notStream isPersist now] at enough
        refine congrArg some (ReplicaChannel.push_all ?_)
        rw [List.length_map]
        exact enough

theorem Synced.call (synced : p.Synced rows held) {now : Clock} {session : Nat} {c : Call}
    (told : (Step.call now session c).Told p) :
    (Step.call now session c).run.Returns False p fun _ next =>
      ∃ rows held, next.Synced rows held := by
  rcases told with ⟨fits, notStream, keeps, roomy⟩
  have returns := @Event.run_returns p.primary rows synced.primary (.call session c) fits
    (fun isStream => absurd isStream notStream) now
  change (onPrimary _).Returns False p _
  refine .mono (.zoom returns) ?_
  rintro _ _ ⟨w, rfl, after, models, -, stepped⟩
  have silent : c.IsPersist →
      c.updates now rows.values (p.primary.sessions session) = [] := by
    intro isPersist
    cases c with
    | persist key => exact Call.updates_persist synced.primary keeps now
    | _ => cases isPersist
  have channelEq := Synced.queue_call synced.primary.db stepped notStream silent roomy
  rcases Option.isSome_iff_exists.mp synced.registered with ⟨ch, isChannel⟩
  have queueEq : p.queue = ch.queue := by rw [queue, isChannel]; rfl
  rw [show p.primary.db.replicas.head? = some ch from isChannel, Option.map_some] at channelEq
  have nextQueue : ({ p with primary := w } : Pair).queue =
      p.queue ++ (c.updates now rows.values (p.primary.sessions session)).map Update.sent := by
    rw [queueEq, queue, channel, channelEq]
    rfl
  refine ⟨after, held, models, synced.replica, ?_, ?_⟩
  · rw [channel, channelEq]
    rfl
  · rw [nextQueue, ← List.append_assoc, List.map_append, KeyLog.run_append, synced.values_eq,
      stepped.values_eq, List.map_map]
    congr 1
    exact (List.map_congr_left fun u _ => u.received_sent).trans (List.map_id _)

theorem Synced.transmit (synced : p.Synced rows held) : p.transmit.Synced rows held := by
  unfold Pair.transmit
  split
  · next capacity e rest others replicasEq =>
    have queueEq : p.queue = e :: rest := by
      rw [queue, channel, replicasEq]
      rfl
    have models : ({ p.primary.db with replicas := ⟨capacity, rest⟩ :: others } : DB).Models rows :=
      synced.primary.db.with_replicas _
    refine ⟨⟨models, synced.primary.fits⟩, synced.replica, rfl, ?_⟩
    rw [← synced.values_eq, queueEq]
    simp [queue, channel]
  · exact synced

theorem Synced.receive (synced : p.Synced rows held) (told : Step.receive.Told p) :
    Step.receive.run.Returns False p fun _ next => ∃ rows held, next.Synced rows held := by
  refine .bind_state ?_
  cases wireEq : p.wire with
  | nil => exact .pure ⟨rows, held, synced⟩
  | cons e rest =>
      rcases told e (by rw [wireEq]; rfl) with ⟨decodes, keyFits⟩
      refine .bind_put ?_
      have returns : (DB.applyReplicationEntry e).Returns False p.replica _ :=
        DB.applyReplicationEntry_returns synced.replica (by rw [decodes]; exact keyFits) False.elim
      refine .mono (.zoom returns) ?_
      rintro _ _ ⟨db, rfl, applied⟩
      rcases applied.models with ⟨next, nextModels, valuesEq⟩
      refine ⟨rows, next, synced.primary, nextModels, synced.registered, ?_⟩
      rw [valuesEq, ← synced.values_eq, decodes, wireEq]
      rfl

/-- No step that meets the conditions takes primary and replica apart. -/
theorem Synced.step (synced : p.Synced rows held) {step : Step} (told : step.Told p) :
    step.run.Returns False p fun _ next => ∃ rows held, next.Synced rows held := by
  cases step with
  | call now session c => exact synced.call told
  | transmit => exact .modify ⟨rows, held, synced.transmit⟩
  | receive => exact synced.receive told

/-- Nor does any run of such steps. -/
theorem Synced.exec (start : p.Synced rows held) {steps : List Step} {faults : List Fault}
    (clean : (Pair.exec steps p faults).failed = false)
    (told : ∀ before step later, steps = before ++ step :: later →
      step.Told (Pair.exec before p faults).state) :
    ∃ rows held, (Pair.exec steps p faults).state.Synced rows held := by
  refine (@Exec.Returns.each_run _ _ _ False steps Step.run
    (fun _ p => ∃ rows held, p.Synced rows held) faults ?_ ⟨rows, held, start⟩ clean).2
  rintro before step later split ⟨rows, held, synced⟩
  exact synced.step (told before step later split)

/-- Once everything has arrived, the replica answers as the primary. -/
theorem replica_eq_primary {rows held : Rows} (models : p.primary.Models rows)
    (replicaModels : p.replica.Models held) (same : held.values = rows.values)
    {capacity : Nat} (registered : p.channel = some ⟨capacity, []⟩) (nothingSent : p.wire = [])
    (steps : List Step) (faults : List Fault) (clean : (exec steps p faults).failed = false)
    (told : ∀ before step later, steps = before ++ step :: later →
      step.Told (exec before p faults).state)
    (delivered : (exec steps p faults).state.queue = [] ∧ (exec steps p faults).state.wire = []) :
    ∀ t key,
      (Session.get key t ⟨(exec steps p faults).state.replica, []⟩ []).res =
          (Session.get key t ⟨(exec steps p faults).state.primary.db, []⟩ []).res ∧
        (Session.ttl key t ⟨(exec steps p faults).state.replica, []⟩ []).res =
          (Session.ttl key t ⟨(exec steps p faults).state.primary.db, []⟩ []).res := by
  have start : p.Synced rows held := by
    refine ⟨models, replicaModels, by rw [registered]; rfl, ?_⟩
    rw [nothingSent, queue, registered]
    exact same
  rcases start.exec clean told with ⟨rows, held, synced⟩
  have valuesEq := synced.values_eq
  rw [delivered.1, delivered.2] at valuesEq
  intro t key
  rw [Session.get_res synced.replica, Session.get_res synced.primary.db,
    Session.ttl_res synced.replica, Session.ttl_res synced.primary.db, visible_eq, visible_eq,
    rowTTL_eq, rowTTL_eq, ← valuesEq]
  exact ⟨rfl, rfl⟩

/-! ## Two runs -/

/-- One more step. -/
theorem exec_concat {room : Prop} {steps : List Step} {step : Step} {middle post : Pair → Prop}
    (first : (exec steps).Returns room p fun _ q => middle q)
    (next : ∀ q, middle q → step.run.Returns room q fun _ last => post last) :
    (exec (steps ++ [step])).Returns room p fun _ last => post last := by
  unfold exec
  rw [Exec.each_concat]
  exact .bind first fun _ q holds => next q holds

/-- A single call on the primary. -/
theorem exec_call {room : Prop} {now : Clock} {session : Nat} {c : Call} {post : World → Prop}
    (returns : ((Event.call session c).run now).Returns room p.primary fun _ w => post w) :
    (exec [.call now session c]).Returns room p fun _ q =>
      ∃ w, q = { p with primary := w } ∧ post w := by
  have stepped : (onPrimary ((Event.call session c).run now)).Returns room p fun _ q =>
      ∃ w, q = { p with primary := w } ∧ post w := .zoom returns
  exact .bind stepped fun _ _ holds => .pure holds

/-- A primary with a replica, whose channel has the size the server gives it. -/
def joined (db : DB) : Pair :=
  ⟨World.ofDB { db with replicas := [⟨4096, []⟩] }, [], db⟩

/-- A key is set on the primary, and the record reaches the replica. -/
def oneSet : List Step :=
  [.call .sample 0 (.set [107] [118]), .transmit, .receive]

/-- A blob is streamed to the primary. -/
def oneStream : List Step :=
  [.call .sample 0 (.setBlobStream [107] ⟨[118], none⟩ 1 0)]

theorem joined_channel (db : DB) : (joined db).channel = some ⟨4096, []⟩ :=
  rfl

theorem joined_wire (db : DB) : (joined db).wire = [] :=
  rfl

section

variable {db : DB} (new : DB.Fresh db [] History.unsynced.opt)

include new

theorem joined_replica : (joined db).replica.Models fun _ => none :=
  new.models

theorem joined_models : (joined db).primary.Models fun _ => none :=
  ⟨new.models.with_replicas _, fun _ => nofun⟩

theorem joined_room : ({ db with replicas := [⟨4096, []⟩] } : DB).Room
    (db.volumes.cost [118] + DB.indexCost [107]) := by
  refine new.roomAlone _ ?_
  rw [new.cost (le_refl 1)]
  decide +kernel

theorem oneSet_called : (exec [.call .sample 0 (.set [107] [118])]).Returns True (joined db)
    fun _ q => q.replica = db ∧ q.wire = [] ∧
      q.primary.db.replicas = [⟨4096, [WalEntry.ofValue [107] [118] 0]⟩] := by
  have called := Call.Direct.event (@Call.direct_set _ True _ Clock.sample.1 [107] [118]
    (DB.setNow_returns (new.models.with_replicas [⟨4096, []⟩]) (by decide)
      fun _ => joined_room new)) 0
  refine .mono (@exec_call (joined db) _ _ _ _ _ called) ?_
  rintro _ _ ⟨_, rfl, next, rfl, addr, effect⟩
  exact ⟨rfl, rfl, effect.replicas_eq⟩

theorem oneSet_transmitted :
    (exec [.call .sample 0 (.set [107] [118]), .transmit]).Returns True (joined db)
      fun _ q => q.replica = db ∧ q.wire = [WalEntry.ofValue [107] [118] 0] ∧ q.queue = [] := by
  refine exec_concat (oneSet_called new) ?_
  rintro q ⟨replicaEq, wireEq, replicasEq⟩
  refine .modify ?_
  rw [Pair.transmit, replicasEq, wireEq]
  exact ⟨replicaEq, rfl, rfl⟩

theorem oneSet_received : (exec oneSet).Returns True (joined db)
    fun _ q => q.queue = [] ∧ q.wire = [] := by
  refine exec_concat (oneSet_transmitted new) ?_
  rintro q ⟨replicaEq, wireEq, queueEq⟩
  refine .bind_state ?_
  rw [wireEq]
  refine .bind_put ?_
  have applied : (DB.applyReplicationEntry (WalEntry.ofValue [107] [118] 0)).Returns True q.replica
      fun _ _ => True := by
    rw [replicaEq]
    refine .mono (DB.applyReplicationEntry_returns new.models (by decide +kernel)
      fun _ => ?_) fun _ _ _ => trivial
    have costEq : db.receiveCost (WalEntry.ofValue [107] [118] 0).wire =
        db.volumes.cost [118] + DB.indexCost [107] := by
      rw [show (WalEntry.ofValue [107] [118] 0).wire = WalEntry.ofValue [107] [118] 0 by
        decide +kernel]
      rfl
    rw [costEq]
    exact joined_room new
  refine .mono (.zoom applied) ?_
  rintro _ _ ⟨replica, rfl, -⟩
  exact ⟨queueEq, rfl⟩

theorem oneSet_told {before later : List Step} {step : Step}
    (split : oneSet = before ++ step :: later) : step.Told (exec before (joined db) []).state := by
  have transmitted := oneSet_transmitted new
  rcases transmitted.correct [] (transmitted.undisturbed trivial).1 with ⟨_, -, -, wireEq, -⟩
  rcases before with _ | ⟨first, _ | ⟨second, _ | ⟨third, more⟩⟩⟩
  · obtain rfl : _ = step := (List.cons.inj split).1
    refine ⟨by decide, id, trivial, ?_⟩
    intro ch isChannel
    obtain rfl : _ = ch := Option.some.inj isChannel
    exact (by decide : 0 + 1 ≤ 4096)
  · obtain rfl : _ = step := (List.cons.inj (List.cons.inj split).2).1
    trivial
  · simp only [oneSet, List.cons_append, List.nil_append, List.cons.injEq] at split
    rcases split with ⟨rfl, rfl, rfl, -⟩
    intro e isHead
    rw [wireEq] at isHead
    obtain rfl : _ = e := Option.some.inj isHead
    decide +kernel
  · simp [oneSet] at split

theorem oneStream_called : (exec oneStream).Returns True (joined db) fun _ q =>
    q.replica = db ∧ q.wire = [] ∧ q.queue = [] ∧
      ∃ rows, q.primary.db.Models rows ∧
        rows.values = Function.update (fun _ => none) [107] (some ([118], 0)) := by
  have unused : ({ db with replicas := [⟨4096, []⟩] } : DB).volumes.localVM.volumes.lookup
      VolumeManager.lastID = none := by
    change db.volumes.localVM.volumes.lookup VolumeManager.lastID = none
    rw [new.localVM_eq]
    decide +kernel
  have called := Call.Direct.event (@Call.direct_setBlobStream _ True _ Clock.sample.1 [107]
    ⟨[118], none⟩ 1 0 (DB.setBlobStreamNow_returns (new.models.with_replicas [⟨4096, []⟩])
      (by decide) (fun _ => joined_room new) (by decide) (by decide) unused)) 0
  refine .mono (@exec_call (joined db) _ _ _ _ _ called) ?_
  rintro _ _ ⟨_, rfl, next, rfl, addr, effect⟩
  refine ⟨rfl, rfl, ?_, _, effect.models, Rows.values_update _ _ _⟩
  change ((next.replicas.head?).map ReplicaChannel.queue).getD [] = []
  rw [effect.replicas_eq]
  rfl

end

theorem replica_eq_primary_oneSet :
    (exec oneSet (joined History.unsynced.opened.state) []).failed = false ∧ ∀ t key,
      (Session.get key t
          ⟨(exec oneSet (joined History.unsynced.opened.state) []).state.replica, []⟩ []).res =
        (Session.get key t
          ⟨(exec oneSet (joined History.unsynced.opened.state) []).state.primary.db, []⟩ []).res ∧
      (Session.ttl key t
          ⟨(exec oneSet (joined History.unsynced.opened.state) []).state.replica, []⟩ []).res =
        (Session.ttl key t
          ⟨(exec oneSet (joined History.unsynced.opened.state) []).state.primary.db, []⟩
            []).res := by
  have new := History.unsynced_fresh
  have received := oneSet_received new
  have clean := (received.undisturbed trivial).1
  rcases received.correct [] clean with ⟨_, -, delivered⟩
  exact ⟨clean, replica_eq_primary (joined_models new) (joined_replica new) rfl (joined_channel _)
    (joined_wire _) oneSet [] clean (fun _ _ _ => oneSet_told new) delivered⟩

/-- A streamed blob never reaches the replica. -/
theorem replica_misses_stream :
    (exec oneStream (joined History.unsynced.opened.state) []).failed = false ∧
      (exec oneStream (joined History.unsynced.opened.state) []).state.queue = [] ∧
      (exec oneStream (joined History.unsynced.opened.state) []).state.wire = [] ∧
      (Session.get [107] 5
          ⟨(exec oneStream (joined History.unsynced.opened.state) []).state.replica, []⟩ []).res =
        .ok none ∧
      (Session.get [107] 5
          ⟨(exec oneStream (joined History.unsynced.opened.state) []).state.primary.db, []⟩
            []).res =
        .ok (some [118]) := by
  have new := History.unsynced_fresh
  have called := oneStream_called new
  have clean := (called.undisturbed trivial).1
  rcases called.correct [] clean with ⟨_, -, replicaEq, wireEq, queueEq, rows, models, valuesEq⟩
  refine ⟨clean, queueEq, wireEq, ?_, ?_⟩
  · rw [replicaEq, Session.get_res new.models]
    rfl
  · rw [Session.get_res models, visible_eq, valuesEq, Function.update_self]
    rfl

end Pair

end BriseDB
