import BriseDB.Store.RedoLog

/-!
# Isolation of transactions

Between `BeginTransaction` and the matching `RollbackTransaction` a session works
on its own transactions.  The committed index and the expiry cache stay as they
are, and so do the transactions around the one that is rolled back, as long as no
`Persist` finds an expiry in the index: it looks for the key in the active
transaction only and then changes the index.

Nothing is assumed of the database, and writes may fail.
-/

namespace BriseDB

open Session (CountOrder)

/-- The commands of a session that respect its transactions. -/
inductive Command where
  | set (key : Key) (value : Bytes)
  | setEX (key : Key) (value : Bytes) (ttl : Int64)
  | delete (key : Key)
  | persist (key : Key)
  | get (key : Key)
  | ttl (key : Key)
  | count (value : Bytes) (order : CountOrder)
  | begin
  | commit (order : CommitOrder)
  | rollback

namespace Command

/-- Carry out a command at `now`, whatever its answer. -/
def run (now : Time) : Command → Exec Session Unit
  | set key value => Session.set key value
  | setEX key value lifetime => Session.setEX key value lifetime now
  | delete key => Session.delete key
  | persist key => do let _ ← Session.persist key
  | get key => do let _ ← Session.get key now
  | ttl key => do let _ ← Session.ttl key now
  | count value order => do let _ ← Session.count value now order
  | begin => Session.beginTransaction
  | commit order => Session.commitTransaction order
  | rollback => Session.rollbackTransaction

/-- Carry out a command; an error does not end the session. -/
def step (command : Time × Command) : Exec Session Unit := do
  let _ ← Exec.attempt (command.2.run command.1)

/-- Carry out commands one after the other. -/
def runAll (commands : List (Time × Command)) : Exec Session Unit :=
  Exec.each commands step

theorem runAll_cons (command : Time × Command) (rest : List (Time × Command)) :
    runAll (command :: rest) = Exec.bind (step command) fun _ => runAll rest :=
  rfl

theorem runAll_concat (commands : List (Time × Command)) (command : Time × Command) :
    runAll (commands ++ [command]) = Exec.bind (runAll commands) fun _ => step command :=
  Exec.each_concat commands command step

/-- The number of transactions that are open inside the one that was begun first, after
a command; none if the command ends that one. -/
def depth (inner : Nat) (step : Time × Command) : Option Nat :=
  match step.2 with
  | begin => some (inner + 1)
  | commit _ | rollback => if inner = 0 then none else some (inner - 1)
  | _ => some inner

/-- What is assumed of a command: a `Persist` finds its key in the active transaction, or
no expiry in the index. -/
def Contained (s : Session) : Command → Prop
  | persist key =>
      (∃ active ∈ s.transactions.head?, (active.store.lookup key).isSome) ∨
        ∀ addr expiresAt, Index.get s.db.hindex key = .ok (some (addr, expiresAt)) → expiresAt = 0
  | _ => True

end Command

namespace Session

/-- The committed state: the index and the expiry cache. -/
def committed (s : Session) : Index.HashIndex × (Fin numShards → Table Key Time) :=
  (s.db.hindex, s.db.expiry)

/-- The session is inside a transaction that was begun when `outer` were open: it has
changed nothing that is committed, and `inner` more transactions are open. -/
structure Inside (start s : Session) (inner : Nat) : Prop where
  committed_eq : s.committed = start.committed
  stack_eq : ∃ opened, opened.length = inner + 1 ∧ s.transactions = opened ++ start.transactions

/-! ## Commands that only read -/

/-- What a call on the database can change without touching the committed state. -/
def dbCommitted (db : DB) : Index.HashIndex × (Fin numShards → Table Key Time) :=
  (db.hindex, db.expiry)

theorem keeps_onVolumes {α : Type} (call : Exec VolumePool α) :
    Exec.Keeps dbCommitted (DB.onVolumes call) :=
  .zoom fun _ _ => rfl

theorem keeps_getNow (key : Key) (now : Time) : Exec.Keeps dbCommitted (getNow key now) := by
  refine .bind (.ask _) fun found => ?_
  cases found with
  | none => exact .ret none
  | some entry =>
      dsimp only
      split
      · exact .ret none
      · refine .bind (.attempt (keeps_onVolumes _)) fun result => ?_
        cases result with
        | ok data => exact .ret _
        | error cause => exact .ret _

theorem keeps_ttlNow (key : Key) (now : Time) : Exec.Keeps dbCommitted (ttlNow key now) :=
  .bind (.ask _) fun _ => .ret _

theorem keeps_countStored (value : Bytes) (visits : List Index.Visit) :
    Exec.Keeps dbCommitted (countStored value visits) := by
  induction visits with
  | nil => exact .ret 0
  | cons visit rest ih =>
      refine .bind (.attempt (keeps_onVolumes _)) fun result => ?_
      refine .bind ih fun others => ?_
      cases result with
      | ok data => exact .ret _
      | error cause => exact .ret _

/-- A call on the database that keeps the committed state keeps what the session sees of
it, and its transactions. -/
theorem keeps_onDB {α : Type} {call : Exec DB α} (keeps : Exec.Keeps dbCommitted call) :
    Exec.Keeps (fun s : Session => (s.committed, s.transactions)) (onDB call) :=
  .zoom_keeps keeps fun _ _ same => congrArg₂ Prod.mk same rfl

theorem keeps_get (key : Key) (now : Time) :
    Exec.Keeps (fun s : Session => (s.committed, s.transactions)) (get key now) := by
  refine .bind (fun _ _ => rfl) fun s => ?_
  cases overlay s.transactions key with
  | none => exact keeps_onDB (keeps_getNow key now)
  | some found => exact .ret found

theorem keeps_ttl (key : Key) (now : Time) :
    Exec.Keeps (fun s : Session => (s.committed, s.transactions)) (ttl key now) := by
  refine .bind (fun _ _ => rfl) fun s => ?_
  cases overlayTTL now s.transactions key with
  | none => exact keeps_onDB (keeps_ttlNow key now)
  | some answer => exact .ret answer

theorem keeps_count (value : Bytes) (now : Time) (order : CountOrder) :
    Exec.Keeps (fun s : Session => (s.committed, s.transactions)) (count value now order) := by
  refine .bind (fun _ _ => rfl) fun s => ?_
  refine .bind (.ask _) fun visits => ?_
  refine .bind (keeps_onDB (keeps_countStored value _)) fun stored => ?_
  exact .ret _

/-! ## One command -/

variable {start s : Session} {inner : Nat}

/-- A command that keeps the committed state and the transactions. -/
theorem Inside.of_keeps (inside : Inside start s inner) {α : Type} {call : Exec Session α}
    (keeps : Exec.Keeps (fun s : Session => (s.committed, s.transactions)) call)
    (faults : List Fault) : Inside start (call s faults).state inner := by
  rcases Prod.mk.inj (keeps s faults) with ⟨committedEq, stackEq⟩
  rcases inside.stack_eq with ⟨opened, lengthEq, openedEq⟩
  exact ⟨committedEq.trans inside.committed_eq, opened, lengthEq, stackEq.trans openedEq⟩

/-- The session has an active transaction. -/
theorem Inside.active (inside : Inside start s inner) :
    ∃ active more, s.transactions = active :: (more ++ start.transactions) ∧
      more.length = inner := by
  rcases inside.stack_eq with ⟨opened, lengthEq, stackEq⟩
  cases opened with
  | nil => cases lengthEq
  | cons active more => exact ⟨active, more, stackEq, Nat.succ.inj lengthEq⟩

/-- Changing the active transaction only. -/
theorem Inside.onActive (inside : Inside start s inner) (change : Transaction → Transaction)
    (faults : List Fault) : Inside start (Session.onActive change s faults).state inner := by
  rcases inside.active with ⟨active, more, stackEq, lengthEq⟩
  have stateEq : (Session.onActive change s faults).state =
      { s with transactions := change active :: (more ++ start.transactions) } := by
    simp only [Session.onActive, Exec.modify, stackEq]
  rw [stateEq]
  exact ⟨inside.committed_eq, change active :: more, by simp [lengthEq], rfl⟩

theorem Inside.popTransaction (inside : Inside start s (inner + 1)) (faults : List Fault) :
    Inside start (popTransaction s faults).state inner := by
  rcases inside.active with ⟨active, more, stackEq, lengthEq⟩
  have stateEq : (Session.popTransaction s faults).state =
      { s with transactions := more ++ start.transactions } := by
    unfold Session.popTransaction
    rw [Exec.bind_state_apply]
    simp only [stackEq, Exec.put]
  rw [stateEq]
  exact ⟨inside.committed_eq, more, lengthEq, rfl⟩

/-- `Persist` of a key that is pending, or that has no expiry in the index. -/
theorem Inside.persist (inside : Inside start s inner) {key : Key}
    (contained : (Command.persist key).Contained s) (faults : List Fault) :
    Inside start (persist key s faults).state inner := by
  rcases inside.active with ⟨active, more, stackEq, lengthEq⟩
  unfold Session.persist
  rw [Exec.bind_state_apply]
  simp only [stackEq]
  split
  · exact inside.onActive _ faults
  · next notPending =>
    have noExpiry : ∀ addr expiresAt,
        Index.get s.db.hindex key = .ok (some (addr, expiresAt)) → expiresAt = 0 := by
      rcases contained with ⟨found, isActive, pending⟩ | noExpiry
      · rw [stackEq] at isActive
        obtain rfl : active = found := Option.some.inj isActive
        exact absurd pending notPending
      · exact noExpiry
    have unchanged : (persistLocked key s.db faults).state = s.db := by
      unfold persistLocked
      cases found : Index.get s.db.hindex key with
      | ok entry =>
          rw [Exec.bind_of_ok (show Exec.ask (fun db : DB => Index.get db.hindex key) s.db faults =
            ⟨.ok entry, s.db, faults, false⟩ by simp [Exec.ask, found])]
          rcases entry with _ | ⟨addr, expiresAt⟩
          · rfl
          · simp only [noExpiry addr expiresAt found, if_true]
            rfl
      | _ => simp [bind, Exec.bind, Exec.ask, found]
    have stateEq : (onDB (persistLocked key) s faults).state = s := by
      change { s with db := (persistLocked key s.db faults).state } = s
      rw [unchanged]
    rw [stateEq]
    exact inside

/-- No command inside a transaction touches what is around it. -/
theorem Inside.command (inside : Inside start s inner) {now : Time} {command : Command}
    {after : Nat} (isDepth : Command.depth inner (now, command) = some after)
    (contained : command.Contained s) (faults : List Fault) :
    Inside start (command.run now s faults).state after := by
  rcases inside.active with ⟨active, more, stackEq, lengthEq⟩
  cases command with
  | set key value =>
      obtain rfl : inner = after := Option.some.inj isDepth
      change Inside start (Session.set key value s faults).state inner
      unfold Session.set
      rw [Exec.bind_state_apply]
      simp only [stackEq]
      exact inside.onActive _ faults
  | setEX key value lifetime =>
      obtain rfl : inner = after := Option.some.inj isDepth
      change Inside start (Session.setEX key value lifetime now s faults).state inner
      unfold Session.setEX
      split
      · exact inside
      · rw [Exec.bind_state_apply]
        simp only [stackEq]
        exact inside.onActive _ faults
  | delete key =>
      obtain rfl : inner = after := Option.some.inj isDepth
      change Inside start (Session.delete key s faults).state inner
      unfold Session.delete
      rw [Exec.bind_state_apply]
      simp only [stackEq]
      exact inside.onActive _ faults
  | persist key =>
      obtain rfl : inner = after := Option.some.inj isDepth
      change Inside start ((Session.persist key >>= fun _ => pure ()) s faults).state inner
      rw [Exec.drop_state]
      exact inside.persist contained faults
  | get key =>
      obtain rfl : inner = after := Option.some.inj isDepth
      exact inside.of_keeps (.bind (keeps_get key now) fun _ => .ret _) faults
  | ttl key =>
      obtain rfl : inner = after := Option.some.inj isDepth
      exact inside.of_keeps (.bind (keeps_ttl key now) fun _ => .ret _) faults
  | count value order =>
      obtain rfl : inner = after := Option.some.inj isDepth
      exact inside.of_keeps (.bind (keeps_count value now order)
        fun _ => .ret _) faults
  | begin =>
      obtain rfl : inner + 1 = after := Option.some.inj isDepth
      refine ⟨inside.committed_eq, Transaction.empty :: active :: more, by simp [lengthEq], ?_⟩
      change Transaction.empty :: s.transactions = _
      rw [stackEq]
      rfl
  | commit order =>
      cases inner with
      | zero => cases isDepth
      | succ outer =>
          obtain rfl : outer = after := Option.some.inj isDepth
          cases more with
          | nil => cases lengthEq
          | cons parent others =>
              have merged : Inside start
                  { s with transactions := active :: active.mergeInto order parent ::
                      (others ++ start.transactions) } (outer + 1) :=
                ⟨inside.committed_eq, active :: active.mergeInto order parent :: others,
                  congrArg Nat.succ lengthEq, rfl⟩
              change Inside start (Session.commitTransaction order s faults).state outer
              unfold Session.commitTransaction
              rw [Exec.bind_state_apply]
              simp only [stackEq, List.cons_append]
              rw [Exec.bind_of_ok rfl]
              exact merged.popTransaction faults
  | rollback =>
      cases inner with
      | zero => cases isDepth
      | succ outer =>
          obtain rfl : outer = after := Option.some.inj isDepth
          exact inside.popTransaction faults

/-! ## All commands -/

/-- Inside a transaction, commands touch nothing around it, also when one of them never
ends or ends the process. -/
theorem Inside.commands {commands : List (Time × Command)} {after : Nat} {faults : List Fault}
    (inside : Inside start s inner) (isDepth : commands.foldlM Command.depth inner = some after)
    (contained : ∀ before step later, commands = before ++ step :: later →
      step.2.Contained (Command.runAll before s faults).state) :
    ∃ reached, Inside start (Command.runAll commands s faults).state reached ∧
      ((Command.runAll commands s faults).res = .ok () → reached = after) := by
  induction commands generalizing s inner faults with
  | nil => exact ⟨inner, inside, fun _ => Option.some.inj isDepth⟩
  | cons step rest ih =>
      rw [List.foldlM_cons] at isDepth
      rcases Option.bind_eq_some_iff.mp isDepth with ⟨middle, stepDepth, restDepth⟩
      have next : Inside start (Command.step step s faults).state middle := by
        rw [Command.step, Exec.drop_state, Exec.attempt_state]
        exact inside.command stepDepth (contained [] step rest rfl) faults
      by_cases returned : (Command.step step s faults).res = .ok ()
      · rcases Exec.bind_after_ok returned fun _ => Command.runAll rest with ⟨stateEq, resEq⟩
        rw [Command.runAll_cons, stateEq, resEq]
        apply ih next restDepth
        intro before later more split
        have held := contained (step :: before) later more (by rw [split]; rfl)
        rwa [Command.runAll_cons, (Exec.bind_after_ok returned _).1] at held
      · rcases Exec.bind_after_stop returned fun _ => Command.runAll rest with
          ⟨stateEq, resEq⟩
        rw [Command.runAll_cons, stateEq, resEq]
        exact ⟨middle, next, fun isOk => absurd isOk returned⟩

/-- A transaction that is rolled back changes nothing that is committed, neither while it
is open nor afterwards, and leaves the transactions around it as they were. -/
theorem rollback_isolates (s : Session) (opening closing : Time)
    (commands : List (Time × Command)) (faults : List Fault)
    (balanced : commands.foldlM Command.depth 0 = some 0)
    (contained : ∀ before step later, commands = before ++ step :: later →
      step.2.Contained (Command.runAll ((opening, .begin) :: before) s faults).state) :
    (∀ before later, commands = before ++ later →
      (Command.runAll ((opening, .begin) :: before) s faults).state.committed = s.committed ∧
        ∃ opened, (Command.runAll ((opening, .begin) :: before) s faults).state.transactions =
          opened ++ s.transactions) ∧
      (Command.runAll ((opening, .begin) :: (commands ++ [(closing, .rollback)])) s
        faults).state.committed = s.committed ∧
      ((Command.runAll ((opening, .begin) :: (commands ++ [(closing, .rollback)])) s
          faults).res = .ok () →
        (Command.runAll ((opening, .begin) :: (commands ++ [(closing, .rollback)])) s
          faults).state.transactions = s.transactions) := by
  set begun : Session := { s with transactions := Transaction.empty :: s.transactions } with begunEq
  have begins : ∀ rest, (Command.runAll ((opening, .begin) :: rest) s faults).state =
        (Command.runAll rest begun faults).state ∧
      (Command.runAll ((opening, .begin) :: rest) s faults).res =
        (Command.runAll rest begun faults).res :=
    fun _ => ⟨rfl, rfl⟩
  have inside : Inside s begun 0 := ⟨rfl, [Transaction.empty], rfl, rfl⟩
  have containedInside : ∀ before step later, commands = before ++ step :: later →
      step.2.Contained (Command.runAll before begun faults).state := by
    intro before step later split
    rw [← (begins before).1]
    exact contained before step later split
  refine ⟨fun before later split => ?_, ?_⟩
  · rw [(begins before).1]
    rw [split, List.foldlM_append] at balanced
    rcases Option.bind_eq_some_iff.mp balanced with ⟨middle, beforeDepth, -⟩
    rcases inside.commands beforeDepth (fun earlier step rest splitBefore =>
      containedInside earlier step (rest ++ later) (by simp [split, splitBefore])) with
      ⟨reached, still, -⟩
    rcases still.stack_eq with ⟨opened, -, stackEq⟩
    exact ⟨still.committed_eq, opened, stackEq⟩
  · rw [(begins _).1, (begins _).2]
    rcases inside.commands balanced containedInside with ⟨reached, still, returned⟩
    rw [Command.runAll_concat]
    by_cases isOk : (Command.runAll commands begun faults).res = .ok ()
    · rcases Exec.bind_after_ok isOk fun _ => Command.step (closing, .rollback) with
        ⟨stateEq, resEq⟩
      obtain rfl : reached = 0 := returned isOk
      rcases still.active with ⟨active, more, stackEq, lengthEq⟩
      obtain rfl : more = [] := List.length_eq_zero_iff.mp lengthEq
      have popped : (Command.step (closing, .rollback)
          (Command.runAll commands begun faults).state
          (Command.runAll commands begun faults).faults).state =
          { (Command.runAll commands begun faults).state with transactions := s.transactions } := by
        rw [Command.step, Exec.drop_state, Exec.attempt_state]
        change (popTransaction _ _).state = _
        unfold Session.popTransaction
        rw [Exec.bind_state_apply]
        simp only [stackEq, Exec.put, List.nil_append]
      rw [stateEq, popped]
      exact ⟨still.committed_eq, fun _ => rfl⟩
    · rcases Exec.bind_after_stop isOk fun _ => Command.step (closing, .rollback) with
        ⟨stateEq, resEq⟩
      rw [stateEq, resEq]
      exact ⟨still.committed_eq, fun ended => absurd ended isOk⟩

/-! ## Two runs -/

/-- A key is set, made permanent and deleted in a nested transaction. -/
def pendingPersist : List (Time × Command) :=
  [(5, .set [107] [118]), (5, .persist [107]), (5, .begin), (5, .delete [107]), (5, .rollback)]

theorem rollback_isolates_pendingPersist :
    (Command.runAll ((5, .begin) :: (pendingPersist ++ [(5, .rollback)]))
        ⟨DB.start (DB.Directory.empty []) ⟨0, 0, 1, 0, .no⟩ (.asStored _), []⟩ []).res = .ok () ∧
      (Command.runAll ((5, .begin) :: (pendingPersist ++ [(5, .rollback)]))
        ⟨DB.start (DB.Directory.empty []) ⟨0, 0, 1, 0, .no⟩ (.asStored _), []⟩
          []).state.transactions = [] := by
  refine ⟨rfl, (rollback_isolates _ 5 5 pendingPersist [] rfl ?_).2.2 rfl⟩
  refine Exec.forall_splits_cons trivial ?_
  refine Exec.forall_splits_cons (.inl ⟨_, rfl, rfl⟩) ?_
  refine Exec.forall_splits_cons trivial ?_
  refine Exec.forall_splits_cons trivial ?_
  exact Exec.forall_splits_cons trivial Exec.forall_splits_nil

end Session

/-- A key with an expiry in the index is made permanent in a transaction that is rolled
back. -/
theorem DB.HoldsOne.leaks {db : DB} {addr : NeedleAddr} {live logged : Int64}
    (one : db.HoldsOne addr live logged) (hasExpiry : live ≠ 0) (roomy : db.Room 1000) :
    Index.get (Command.runAll [(5, .begin), (5, .persist [107]), (5, .rollback)] ⟨db, []⟩
      []).state.db.hindex [107] = .ok (some (addr, 0)) := by
  have persists := one.persist hasExpiry roomy
  have clean := (persists.undisturbed trivial).1
  rcases persists.correct [] clean with ⟨changed, returned, after⟩
  have stepped : Command.step (5, .persist [107]) ⟨db, [Transaction.empty]⟩ [] =
      ⟨.ok (), ⟨(Session.persistLocked [107] db []).state, [Transaction.empty]⟩,
        (Session.persistLocked [107] db []).faults, false⟩ := by
    have called : Session.persist [107] ⟨db, [Transaction.empty]⟩ [] =
        ⟨.ok changed, ⟨(Session.persistLocked [107] db []).state, [Transaction.empty]⟩,
          (Session.persistLocked [107] db []).faults, false⟩ := by
      change Session.onDB (Session.persistLocked [107]) ⟨db, [Transaction.empty]⟩ [] = _
      simp [Session.onDB, Exec.zoom, returned, clean]
    simp [Command.step, Command.run, bind, pure, Exec.bind, Exec.ret, Exec.attempt, called]
  have stateEq : (Command.runAll [(5, .begin), (5, .persist [107]), (5, .rollback)] ⟨db, []⟩
      []).state.db = (Session.persistLocked [107] db []).state := by
    change ((Command.step (5, .persist [107]) >>= fun _ => Command.runAll [(5, .rollback)])
      ⟨db, [Transaction.empty]⟩ []).state.db = _
    rw [Exec.bind_of_ok stepped]
    rfl
  rw [stateEq, after.models.index.get_eq]
  rfl

/-- A database in which one key is set that expires after a second. -/
def History.expiring : History :=
  .undisturbed ⟨0, 0, 1, 0, .always⟩ [(.sample, .call 0 (.setEX [107] [118] (10 ^ 9)))]

theorem History.expiring_returns {db : DB} (fresh : DB.Fresh db [] History.expiring.opt) :
    History.expiring.run.exec.Returns True (World.ofDB db) fun _ w =>
      w = World.ofDB w.db ∧
        ∃ addr, w.db.HoldsOne addr (10 ^ 18 + 10 ^ 9) (10 ^ 18 + 10 ^ 9) ∧ w.db.Room 1000 := by
  refine .bind (fresh.setEX rfl (by decide)) ?_
  rintro _ _ ⟨next, addr, rfl, one⟩
  exact .pure ⟨rfl, addr, one⟩

/-- The expiry of the key is gone although the transaction is rolled back. -/
theorem Session.rollback_leaks :
    ∃ addr, Index.get History.expiring.final.db.hindex [107] =
        .ok (some (addr, 10 ^ 18 + 10 ^ 9)) ∧
      Index.get (Command.runAll [(5, .begin), (5, .persist [107]), (5, .rollback)]
        ⟨History.expiring.final.db, []⟩ []).state.db.hindex [107] = .ok (some (addr, 0)) := by
  have small : History.expiring.Small .always := rfl
  rcases small.final fun _ => History.expiring_returns with
    ⟨-, -, -, addr, one, roomy⟩
  refine ⟨addr, ?_, one.leaks (by decide) roomy⟩
  rw [one.models.index.get_eq]
  rfl

end BriseDB
