import BriseDB.Store.Faulty
import BriseDB.Store.Isolation
import BriseDB.Store.Restart

/-!
# Entries that have expired

An entry whose expiry has passed stays in the index until it is evicted or compacted
away.  `Get` checks the clock, and no other call makes such an entry visible again, with
one exception: `Persist` looks at the entry but not at the clock.
-/

namespace BriseDB

open Index (Content)

/-- The index has an entry of the key whose expiry has passed. -/
def DB.HasExpired (db : DB) (now : Time) (key : Key) : Prop :=
  ∃ entry, Index.get db.hindex key = .ok (some entry) ∧ Session.expiredAt now entry.2

/-- What is assumed of an event: in addition to `Sound`, a `Persist` does not find an entry
whose expiry has passed. -/
def Event.Careful (now : Time) (w : World) (event : Event) : Prop :=
  event.Sound w ∧ ∀ session c key, event = .call session c →
    c.Persists (w.sessions session) key → ¬ w.db.HasExpired now key

/-- Whether the event writes the key to the database, or puts it into a transaction of the
reading session. -/
def Event.Rewrites (w : World) (reader : Nat) (key : Key) (event : Event) : Prop :=
  ∃ session c, event = .call session c ∧
    (c.Stores (w.sessions session) key ∨ session = reader ∧ c.Writes key)

/-! ## Entries that cannot be seen -/

/-- The map has nothing for the key that has not expired. -/
def Dead (now : Time) (key : Key) (content : Content) : Prop :=
  ∀ entry, content key = some entry → Session.expiredAt now entry.2

theorem Dead.lasting (now : Time) (key : Key) : DB.Lasting (· ≠ key) (Dead now key) where
  set content other entry different dead found isFound := by
    rw [Function.update_of_ne (Ne.symm different)] at isFound
    exact dead found isFound
  delete content other dead found isFound := by
    by_cases same : key = other
    · rw [same, Function.update_self] at isFound
      cases isFound
    · rw [Function.update_of_ne same] at isFound
      exact dead found isFound
  prune content nowNs dead found isFound := dead found (Index.prune_eq_some.mp isFound).1

/-- What the transactions of a session say about a key that none of them stores. -/
theorem Session.overlay_of_absent {stack : List Transaction} {key : Key}
    (absent : ∀ tx ∈ stack, tx.store.lookup key = none) :
    Session.overlay stack key = none ∨ Session.overlay stack key = some none := by
  induction stack with
  | nil => exact .inl rfl
  | cons tx rest ih =>
      rw [Session.overlay, absent tx List.mem_cons_self]
      split
      · exact .inr rfl
      · exact ih fun other mem => absent other (List.mem_cons_of_mem _ mem)

theorem Session.absent_of_overlay {stack : List Transaction} {key : Key}
    (unmentioned : Session.overlay stack key = none) :
    ∀ tx ∈ stack, tx.store.lookup key = none := by
  induction stack with
  | nil => exact fun _ mem => absurd mem List.not_mem_nil
  | cons tx rest ih =>
      rw [Session.overlay] at unmentioned
      split at unmentioned
      · cases unmentioned
      · cases isStored : tx.store.lookup key with
        | some value =>
            rw [isStored] at unmentioned
            cases unmentioned
        | none =>
            rw [isStored] at unmentioned
            exact List.forall_mem_cons.mpr ⟨isStored, ih unmentioned⟩

/-- A call that puts no value for the key into a transaction. -/
theorem Call.stack_absent {c : Call} {key : Key} (notWritten : ¬ c.Writes key) (now : Time)
    {stack : List Transaction} (absent : ∀ tx ∈ stack, tx.store.lookup key = none) :
    ∀ tx ∈ c.stack now stack, tx.store.lookup key = none := by
  refine @Call.stack_all (fun tx => tx.store.lookup key = none) c rfl ?_ ?_ (fun _ _ _ => id) ?_ now
    stack absent
  · intro tx other value expiry written isAbsent
    have different : key ≠ other := fun same => notWritten (same ▸ written)
    exact (AList.lookup_insert_ne different).trans isAbsent
  · intro tx other isAbsent
    change (tx.store.erase other).lookup key = none
    by_cases same : key = other
    · rw [same, AList.lookup_erase]
    · rw [AList.lookup_erase_ne same]
      exact isAbsent
  · intro order active parent isAbsent parentAbsent
    rw [Transaction.mergeInto_store, isAbsent, parentAbsent]
    exact ite_self none

/-- `Get` of a key for which neither the transactions nor the index have anything that can be
seen. -/
theorem Session.get_dead {db : DB} {stack : List Transaction} {key : Key} {now : Time}
    (dead : db.Meets (Dead now key)) (absent : ∀ tx ∈ stack, tx.store.lookup key = none)
    (faults : List Fault) : (Session.get key now ⟨db, stack⟩ faults).res = .ok none := by
  unfold Session.get
  rw [Exec.bind_state_apply]
  rcases Session.overlay_of_absent absent with isNone | isSome
  · rcases dead with ⟨content, holding, isDead⟩
    have answer := holding.index.get_eq key
    have found : (Session.getNow key now db faults).res = .ok none := by
      unfold Session.getNow
      cases isEntry : content key with
      | none =>
          rw [isEntry] at answer
          simp only [bind, Exec.bind, Exec.ask, answer]
          rfl
      | some entry =>
          rw [isEntry] at answer
          simp only [bind, Exec.bind, Exec.ask, answer, if_pos (isDead entry isEntry)]
          rfl
    simp only [isNone]
    exact found
  · simp only [isSome]
    rfl

/-! ## Courses -/

/-- In every course in which no `Persist` finds an expired entry, keys are short and
`Compact` finds no temporary file: once the expiry of a key's entry has passed, and no open
transaction of the reading session mentions the key, `Get` reports the key absent until it
is written again, whatever writes fail. -/
theorem Course.expired_stays_absent {c : Course} (opened : c.start.Meets fun _ => True)
    (careful : c.Along fun step w => step.2.Careful step.1 w) {before middle later : Run}
    (split : c.run = before ++ (middle ++ later)) {reader : Nat} {key : Key} {now : Clock}
    (ordered : ∀ step ∈ middle, (now : Time) ≤ step.1)
    (expired : (c.after before).db.HasExpired now key)
    (unmentioned : Session.overlay ((c.after before).sessions reader) key = none)
    (quiet : ∀ first step rest, middle = first ++ step :: rest →
      ¬ step.2.Rewrites (c.after (before ++ first)) reader key)
    {t : Clock} (notBefore : (now : Time) ≤ t) (faults : List Fault) :
    (Session.get key t ⟨(c.after (before ++ middle)).db,
      (c.after (before ++ middle)).sessions reader⟩ faults).res = .ok none := by
  have reached := meets_true opened (fun first step rest isSplit =>
    (careful first step rest isSplit).1) split
  have kept : (c.after (before ++ middle)).Meets (Dead now key) ∧
      ∀ tx ∈ (c.after (before ++ middle)).sessions reader, tx.store.lookup key = none := by
    refine @after_induction c before middle (fun w => w.Meets (Dead now key) ∧
      ∀ tx ∈ w.sessions reader, tx.store.lookup key = none)
      ⟨⟨?_, reached.fits⟩, Session.absent_of_overlay unmentioned⟩ ?_
    · rcases reached.db with ⟨content, holding, _⟩
      rcases expired with ⟨entry, isEntry, passed⟩
      refine ⟨content, holding, fun found isFound => ?_⟩
      rw [holding.index.get_eq, isFound] at isEntry
      obtain rfl : found = entry := Option.some.inj (Res.ok.inj isEntry)
      exact passed
    · rintro first ⟨reading, event⟩ rest isSplit ⟨meets, absent⟩
      have notEarlier : (now : Time) ≤ reading := ordered (reading, event) (by simp [isSplit])
      rcases careful (before ++ first) (reading, event) (rest ++ later)
        (by rw [split, isSplit]; simp) with ⟨sound, persists⟩
      have notRewritten := quiet first (reading, event) rest isSplit
      have stillDead : ∀ session call other, event = .call session call →
          call.Persists ((c.after (before ++ first)).sessions session) other →
          ∀ content addr expiresAt,
            Index.Stores (c.after (before ++ first)).db.hindex content →
            Dead now key content → content other = some (addr, expiresAt) → expiresAt ≠ 0 →
            Dead now key (Function.update content other (some (addr, 0))) := by
        intro session call other isCall isPersist content addr expiresAt stores dead isEntry _
        by_cases same : key = other
        · subst same
          have passed := Session.expiredAt.mono notEarlier (dead _ isEntry)
          exact absurd ⟨_, by rw [stores.get_eq, isEntry], passed⟩
            (persists session call key isCall isPersist)
        · intro found isFound
          rw [Function.update_of_ne same] at isFound
          exact dead found isFound
      have ends : (event.run reading).Ends _ _ _ :=
        Event.run_meets (Dead.lasting now key) meets sound
          (fun session call other isCall stores same =>
            notRewritten ⟨session, call, isCall, .inl (same ▸ stores)⟩) stillDead
      rcases Exec.Ends.leaves ends _ with ⟨nextMeets, changed⟩
      refine ⟨nextMeets, ?_⟩
      rcases changed reader with unchanged | ⟨call, isCall, stackEq⟩
      · rw [unchanged]
        exact absent
      · rw [stackEq]
        exact Call.stack_absent (fun written =>
          notRewritten ⟨reader, call, isCall, .inr ⟨rfl, written⟩⟩) reading absent
  rcases kept with ⟨⟨⟨content, holding, dead⟩, _⟩, absent⟩
  exact Session.get_dead ⟨content, holding, fun entry isEntry =>
    Session.expiredAt.mono notBefore (dead entry isEntry)⟩ absent faults

/-! ## A key that expires -/

/-- A key is set that expires after a second, and then other steps are taken. -/
def History.expiredThen (more : Run) : History :=
  .undisturbed ⟨0, 0, 1, 0, .always⟩ (History.expiring.run ++ more)

theorem History.expiredThen_fresh (more : Run) :
    DB.Fresh (History.expiredThen more).course.start [] History.expiring.opt := by
  rw [History.course_start]
  exact History.alwaysSynced_fresh (History.expiring.run ++ more)

/-- The world after the key has been set. -/
theorem History.expiredThen_after (more : Run) :
    ∃ db addr, (History.expiredThen more).course.after History.expiring.run = World.ofDB db ∧
      db.HoldsOne addr (10 ^ 18 + 10 ^ 9) (10 ^ 18 + 10 ^ 9) ∧ db.Room 1000 := by
  rcases Course.after_of_returns rfl
    (History.expiring_returns (History.expiredThen_fresh more)) with ⟨same, addr, one, room⟩
  exact ⟨_, addr, same, one, room⟩

theorem DB.HoldsOne.hasExpired {db : DB} {addr : NeedleAddr} {logged : Int64}
    (one : db.HoldsOne addr (10 ^ 18 + 10 ^ 9) logged) : db.HasExpired Clock.later [107] := by
  have passed : Session.expiredAt Clock.later (10 ^ 18 + 10 ^ 9) := by decide
  refine ⟨(addr, 10 ^ 18 + 10 ^ 9), ?_, passed⟩
  rw [one.models.index.get_eq]
  rfl

theorem DB.Models.meets {db : DB} {rows : Rows} (models : db.Models rows) :
    db.Meets fun _ => True :=
  ⟨rows.content, ⟨models.index.stores, models.cached⟩, trivial⟩

/-- Another key is deleted, and the expired one is evicted. -/
def Run.sweeping : Run :=
  [(.later, .call 1 (.delete [108])), (.later, .evict fun _ => .asStored _)]

theorem Course.expired_stays_absent_sweeping :
    (Session.get [107] Clock.later
      ⟨((History.expiredThen .sweeping).course.after (History.expiring.run ++ .sweeping)).db,
        ((History.expiredThen .sweeping).course.after
          (History.expiring.run ++ .sweeping)).sessions 0⟩ []).res = .ok none := by
  have opened := (History.expiredThen_fresh .sweeping).models.meets
  rcases History.expiredThen_after .sweeping with ⟨db, addr, afterEq, one, _⟩
  have expired : ((History.expiredThen .sweeping).course.after History.expiring.run).db.HasExpired
      Clock.later [107] := by
    rw [afterEq]
    exact one.hasExpired
  have unmentioned : Session.overlay (((History.expiredThen .sweeping).course.after
      History.expiring.run).sessions 0) [107] = none := by
    rw [afterEq]
    rfl
  refine Course.expired_stays_absent opened ?_ (List.append_nil _).symm ?_ expired unmentioned ?_
    le_rfl []
  · intro before step later split
    have isStep : step ∈ History.expiring.run ++ Run.sweeping := by
      rw [show History.expiring.run ++ Run.sweeping = _ from split]
      simp
    simp only [History.expiring, History.undisturbed, Run.sweeping, List.cons_append,
      List.nil_append, List.mem_cons, List.not_mem_nil, or_false] at isStep
    rcases isStep with rfl | rfl | rfl
    · refine ⟨?_, ?_⟩
      · rintro _ rfl
        decide
      · rintro _ _ _ ⟨⟩ ⟨⟩
    · refine ⟨?_, ?_⟩
      · rintro _ ⟨⟩
      · rintro _ _ _ ⟨⟩ ⟨⟩
    · refine ⟨trivial, ?_⟩
      rintro _ _ _ ⟨⟩
  · decide
  · intro first step rest split
    have isStep : step ∈ Run.sweeping := by
      rw [split]
      simp
    simp only [Run.sweeping, List.mem_cons, List.not_mem_nil, or_false] at isStep
    rcases isStep with rfl | rfl
    · rintro ⟨_, _, ⟨⟩, stores | ⟨_, ⟨⟩⟩⟩
      exact stores
    · rintro ⟨_, _, ⟨⟩, _⟩

/-- A `Persist` two seconds after the key was set. -/
def Run.persisting : Run :=
  [(.later, .call 0 (.persist [107]))]

/-- `Persist` makes an entry permanent that has expired a second ago, and `Get` finds the
value again. -/
theorem Session.persist_revives :
    (Session.get [107] Clock.later
      ⟨((History.expiredThen .persisting).course.after History.expiring.run).db, []⟩ []).res =
        .ok none ∧
    (Session.get [107] Clock.later
      ⟨(History.expiredThen .persisting).course.final.db, []⟩ []).res = .ok (some [118]) := by
  rcases History.expiredThen_after .persisting with ⟨db, addr, afterEq, one, _⟩
  have returns : (History.expiring.run ++ Run.persisting).exec.Returns True
      (World.ofDB (History.expiredThen .persisting).course.start) fun _ w =>
        ∃ addr, w.db.HoldsOne addr 0 (10 ^ 18 + 10 ^ 9) := by
    unfold Run.exec
    rw [Exec.each_append]
    refine .bind (History.expiring_returns (History.expiredThen_fresh .persisting)) ?_
    rintro _ w ⟨isWorld, addr, one, room⟩
    rw [isWorld]
    refine .bind (Call.Direct.event (Call.direct_persist (.mono
      (one.persist (by decide) room) fun _ _ after => after)) 0) ?_
    rintro _ _ ⟨next, rfl, after⟩
    exact .pure ⟨addr, after⟩
  have passed : Session.expiredAt Clock.later (10 ^ 18 + 10 ^ 9) := by decide
  refine ⟨?_, ?_⟩
  · rw [afterEq]
    exact Session.get_expired one.models (Rows.content_eq_some.mpr
      ⟨_, Function.update_self .., rfl⟩) passed
  · rcases Course.after_of_returns rfl returns with ⟨found, after⟩
    rw [show (History.expiredThen .persisting).course.final =
      (History.expiredThen .persisting).course.after (History.expiring.run ++ .persisting) from rfl,
      Session.get_res after.models, Function.update_self]
    rfl

end BriseDB
