import BriseDB.Store.LongKeys

/-!
# Nested transactions

A transaction is described by what it says about each key: nothing, that it is
deleted, or its new value and expiry.  Writes inside a transaction change that
description key by key, a nested commit puts the description of the inner
transaction over that of the outer one, and the outermost commit carries it out.
So a committed program does what its operations outside rolled-back blocks do one
by one.

The three maps of a transaction fit together as `Sound` says.  An expiry may be
left behind for a key that is deleted; it is never looked at.
-/

namespace BriseDB

/-! ## What a transaction says about a key -/

namespace Transaction

variable {tx active parent : Transaction} {order : CommitOrder} {key : Key}

/-- The maps of a transaction fit together: a key is not both written and deleted, every
written key has an entry for its expiry, and only keys that are written or deleted
have one. -/
structure Sound (tx : Transaction) : Prop where
  disjoint : ∀ key, (tx.deleted.lookup key).isSome → tx.store.lookup key = none
  expiring : ∀ key, (tx.store.lookup key).isSome → (tx.expiry.lookup key).isSome
  mentioned : ∀ key, tx.deleted.lookup key = none → tx.store.lookup key = none →
    tx.expiry.lookup key = none

/-- What the outermost commit makes of a key: nothing, or a new value with its expiry,
or its removal. -/
def pending (tx : Transaction) (key : Key) : Option (Option (Bytes × Int64)) :=
  if (tx.deleted.lookup key).isSome then some none
  else (tx.store.lookup key).map fun value => some (value, tx.expiresAt key)

theorem sound_empty : empty.Sound :=
  ⟨fun _ _ => rfl, fun _ found => absurd found (by simp [empty]), fun _ _ _ => rfl⟩

theorem Sound.put (sound : tx.Sound) (key : Key) (value : Bytes) (expiry : Time) :
    (tx.put key value expiry).Sound := by
  refine ⟨fun other gone => ?_, fun other found => ?_, fun other notGone notFound => ?_⟩
  · change ((tx.deleted.erase key).lookup other).isSome at gone
    change (tx.store.insert key value).lookup other = none
    by_cases same : other = key
    · rw [same, AList.lookup_erase] at gone
      cases gone
    · rw [AList.lookup_erase_ne same] at gone
      rw [AList.lookup_insert_ne same]
      exact sound.disjoint other gone
  · change ((tx.store.insert key value).lookup other).isSome at found
    change ((tx.expiry.insert key expiry).lookup other).isSome
    by_cases same : other = key
    · rw [same, AList.lookup_insert]
      rfl
    · rw [AList.lookup_insert_ne same] at found ⊢
      exact sound.expiring other found
  · change (tx.deleted.erase key).lookup other = none at notGone
    change (tx.store.insert key value).lookup other = none at notFound
    change (tx.expiry.insert key expiry).lookup other = none
    by_cases same : other = key
    · rw [same, AList.lookup_insert] at notFound
      cases notFound
    · rw [AList.lookup_erase_ne same] at notGone
      rw [AList.lookup_insert_ne same] at notFound ⊢
      exact sound.mentioned other notGone notFound

theorem Sound.remove (sound : tx.Sound) (key : Key) : (tx.remove key).Sound := by
  refine ⟨fun other gone => ?_, fun other found => ?_, fun other notGone notFound => ?_⟩
  · change ((tx.deleted.insert key ()).lookup other).isSome at gone
    change (tx.store.erase key).lookup other = none
    by_cases same : other = key
    · rw [same, AList.lookup_erase]
    · rw [AList.lookup_insert_ne same] at gone
      rw [AList.lookup_erase_ne same]
      exact sound.disjoint other gone
  · change ((tx.store.erase key).lookup other).isSome at found
    change ((tx.expiry.erase key).lookup other).isSome
    by_cases same : other = key
    · rw [same, AList.lookup_erase] at found
      cases found
    · rw [AList.lookup_erase_ne same] at found ⊢
      exact sound.expiring other found
  · change (tx.deleted.insert key ()).lookup other = none at notGone
    change (tx.store.erase key).lookup other = none at notFound
    change (tx.expiry.erase key).lookup other = none
    by_cases same : other = key
    · rw [same, AList.lookup_insert] at notGone
      cases notGone
    · rw [AList.lookup_insert_ne same] at notGone
      rw [AList.lookup_erase_ne same] at notFound ⊢
      exact sound.mentioned other notGone notFound

/-- `Persist` of a key that is written. -/
theorem Sound.persist (sound : tx.Sound) (isStored : (tx.store.lookup key).isSome) :
    { tx with expiry := tx.expiry.insert key Time.zero }.Sound := by
  refine ⟨sound.disjoint, fun other found => ?_, fun other notGone notFound => ?_⟩
  · change ((tx.expiry.insert key Time.zero).lookup other).isSome
    by_cases same : other = key
    · rw [same, AList.lookup_insert]
      rfl
    · rw [AList.lookup_insert_ne same]
      exact sound.expiring other found
  · have different : other ≠ key := by
      rintro rfl
      rw [show tx.store.lookup other = none from notFound] at isStored
      cases isStored
    exact (AList.lookup_insert_ne different).trans (sound.mentioned other notGone notFound)

theorem Sound.mergeInto (sound : active.Sound) (parentSound : parent.Sound) (order : CommitOrder) :
    (active.mergeInto order parent).Sound := by
  refine ⟨fun key gone => ?_, fun key found => ?_, fun key notGone notFound => ?_⟩
  · rw [mergeInto_deleted] at gone
    rw [mergeInto_store]
    cases isDeleted : active.deleted.lookup key with
    | some _ => rfl
    | none =>
        rw [isDeleted] at gone
        cases isStored : active.store.lookup key with
        | some _ =>
            rw [isStored] at gone
            cases gone
        | none =>
            rw [isStored] at gone
            exact parentSound.disjoint key gone
  · rw [mergeInto_store] at found
    rw [mergeInto_expiry]
    split at found
    · cases found
    · cases isStored : active.store.lookup key with
      | some value =>
          have has := sound.expiring key (by rw [isStored]; rfl)
          simp [Option.isSome_or, has]
      | none =>
          rw [isStored] at found
          have has := parentSound.expiring key found
          simp [Option.isSome_or, has]
  · rw [mergeInto_deleted, Option.or_eq_none_iff] at notGone
    rw [mergeInto_store, notGone.1, Option.isSome_none, if_neg Bool.false_ne_true,
      Option.or_eq_none_iff] at notFound
    have parentNotGone : parent.deleted.lookup key = none := by
      have rest := notGone.2
      rwa [notFound.1, Option.isSome_none, if_neg Bool.false_ne_true] at rest
    rw [mergeInto_expiry, sound.mentioned key notGone.1 notFound.1,
      parentSound.mentioned key parentNotGone notFound.2]
    rfl

/-! ## What the operations make of it -/

theorem pending_empty (key : Key) : empty.pending key = none :=
  rfl

theorem pending_put (tx : Transaction) (key : Key) (value : Bytes) (expiry : Time) (other : Key) :
    (tx.put key value expiry).pending other =
      if other = key then
        some (some (value, if expiry = Time.zero then 0 else Time.unixNano expiry))
      else tx.pending other := by
  unfold pending expiresAt put
  dsimp only
  by_cases same : other = key
  · rw [if_pos same, same, AList.lookup_erase, AList.lookup_insert, AList.lookup_insert]
    rfl
  · rw [if_neg same, AList.lookup_erase_ne same, AList.lookup_insert_ne same,
      AList.lookup_insert_ne same]

theorem pending_remove (tx : Transaction) (key other : Key) :
    (tx.remove key).pending other = if other = key then some none else tx.pending other := by
  unfold pending expiresAt remove
  dsimp only
  by_cases same : other = key
  · rw [if_pos same, same, AList.lookup_insert]
    rfl
  · rw [if_neg same, AList.lookup_insert_ne same, AList.lookup_erase_ne same,
      AList.lookup_erase_ne same]

/-- A nested commit puts what the inner transaction says over what the outer one
says. -/
theorem pending_mergeInto (sound : active.Sound) (order : CommitOrder) (parent : Transaction)
    (key : Key) :
    (active.mergeInto order parent).pending key = (active.pending key).or (parent.pending key) := by
  unfold pending expiresAt
  rw [mergeInto_deleted, mergeInto_store, mergeInto_expiry]
  cases isDeleted : active.deleted.lookup key with
  | some _ => rfl
  | none =>
      cases isStored : active.store.lookup key with
      | some value =>
          rcases Option.isSome_iff_exists.mp (sound.expiring key (by rw [isStored]; rfl)) with
            ⟨instant, isExpiry⟩
          rw [isExpiry]
          rfl
      | none =>
          rw [sound.mentioned key isDeleted isStored]
          rfl

/-- The updates of an outermost commit are what the transaction says. -/
theorem last_updates (tx : Transaction) (order : CommitOrder) (key : Key) :
    KeyLog.last (tx.updates order) key = tx.pending key := by
  unfold updates pending
  rw [KeyLog.last_append, Table.last_range order.logged tx.deleted fun _ => none,
    Table.last_range order.store tx.store fun entry => some (entry.2, tx.expiresAt entry.1)]
  cases tx.deleted.lookup key <;> rfl

end Transaction

/-! ## Reading through a nested commit -/

namespace Session

variable {active parent : Transaction} {db : DB} {key : Key} {now : Time} {faults : List Fault}
  {stack : List Transaction}

theorem overlay_mergeInto (order : CommitOrder) (active parent : Transaction)
    (rest : List Transaction) (key : Key) :
    overlay (active.mergeInto order parent :: rest) key =
      overlay (active :: parent :: rest) key := by
  simp only [overlay, Transaction.mergeInto_deleted, Transaction.mergeInto_store]
  cases active.deleted.lookup key with
  | some _ => rfl
  | none => cases active.store.lookup key <;> rfl

theorem overlayTTL_mergeInto (sound : active.Sound) (order : CommitOrder) (parent : Transaction)
    (rest : List Transaction) (key : Key) :
    overlayTTL now (active.mergeInto order parent :: rest) key =
      overlayTTL now (active :: parent :: rest) key := by
  simp only [overlayTTL, Transaction.mergeInto_deleted, Transaction.mergeInto_store,
    Transaction.mergeInto_expiry]
  cases isDeleted : active.deleted.lookup key with
  | some _ => rfl
  | none =>
      cases isStored : active.store.lookup key with
      | some value =>
          rcases Option.isSome_iff_exists.mp (sound.expiring key (by rw [isStored]; rfl)) with
            ⟨instant, isExpiry⟩
          rw [isExpiry]
          rfl
      | none =>
          rw [sound.mentioned key isDeleted isStored]
          rfl

theorem collect_values (order : CountOrder) (seen : Table Key Bytes × Table Key Unit)
    (tx : Transaction) (key : Key) :
    (collect order seen tx).1.lookup key =
      (seen.1.lookup key).or (if (seen.2.lookup key).isNone then tx.store.lookup key else none) :=
  Table.lookup_insertNew order.store tx.store seen.1 (fun key => (seen.2.lookup key).isNone) key

theorem collect_deleted (order : CountOrder) (seen : Table Key Bytes × Table Key Unit)
    (tx : Transaction) (key : Key) :
    (collect order seen tx).2.lookup key = (seen.2.lookup key).or (tx.deleted.lookup key) := by
  have inserted := Table.lookup_insertNew order.deleted tx.deleted seen.2 (fun _ => True) key
  simp only [and_true, if_true] at inserted
  exact inserted

/-- What `Count` has collected from a stack, on top of what it had before. -/
theorem overrides_foldl (order : CountOrder)
    (sound : ∀ tx ∈ stack, tx.Sound) (key : Key) (seen : Table Key Bytes × Table Key Unit) :
    ((stack.foldl (collect order) seen).1.lookup key =
        (seen.1.lookup key).or
          (if (seen.2.lookup key).isNone then (overlay stack key).join else none)) ∧
      ((stack.foldl (collect order) seen).2.lookup key = none ↔
        seen.2.lookup key = none ∧ ∀ tx ∈ stack, tx.deleted.lookup key = none) := by
  induction stack generalizing seen with
  | nil => simp [overlay]
  | cons tx rest ih =>
      rcases ih (fun other member => sound other (List.mem_cons_of_mem tx member))
        (collect order seen tx) with ⟨values, deleted⟩
      rw [List.foldl_cons]
      constructor
      · rw [values, collect_values, collect_deleted, overlay]
        cases isSeen : seen.1.lookup key with
        | some value => rfl
        | none =>
            cases isGone : seen.2.lookup key with
            | some _ => rfl
            | none =>
                cases isDeleted : tx.deleted.lookup key with
                | some _ =>
                    rw [(sound tx List.mem_cons_self).disjoint key (by rw [isDeleted]; rfl)]
                    rfl
                | none => cases tx.store.lookup key <;> rfl
      · rw [deleted, collect_deleted, Option.or_eq_none_iff, List.forall_mem_cons, and_assoc]

/-- `Count` takes its values from the top of the stack. -/
theorem overrides_values (order : CountOrder) (sound : ∀ tx ∈ stack, tx.Sound) (key : Key) :
    (overrides order stack).1.lookup key = (overlay stack key).join := by
  rw [overrides, (overrides_foldl order sound key _).1]
  rfl

theorem overlay_eq_none {key : Key} :
    overlay stack key = none ↔
      ∀ tx ∈ stack, tx.deleted.lookup key = none ∧ tx.store.lookup key = none := by
  induction stack with
  | nil => simp [overlay]
  | cons tx rest ih =>
      rw [overlay, List.forall_mem_cons, ← ih]
      cases tx.deleted.lookup key with
      | some _ => simp
      | none => cases tx.store.lookup key <;> simp

theorem deleted_of_overlay {key : Key}
    (gone : overlay stack key = some none) : ∃ tx ∈ stack, tx.deleted.lookup key ≠ none := by
  induction stack with
  | nil => cases gone
  | cons tx rest ih =>
      cases isDeleted : tx.deleted.lookup key with
      | some _ => exact ⟨tx, List.mem_cons_self, by rw [isDeleted]; exact nofun⟩
      | none =>
          rw [overlay, isDeleted] at gone
          cases isStored : tx.store.lookup key with
          | some value =>
              rw [isStored] at gone
              cases gone
          | none =>
              rw [isStored] at gone
              rcases ih gone with ⟨other, member, isGone⟩
              exact ⟨other, List.mem_cons_of_mem tx member, isGone⟩

/-- `Count` passes over the index entries of the keys that an open transaction
mentions. -/
theorem overrides_passes (order : CountOrder) (sound : ∀ tx ∈ stack, tx.Sound) (key : Key) :
    (((overrides order stack).2.lookup key).isNone ∧
        ((overrides order stack).1.lookup key).isNone) ↔
      overlay stack key = none := by
  have deleted : (overrides order stack).2.lookup key = none ↔
      ∀ tx ∈ stack, tx.deleted.lookup key = none := by
    rw [overrides, (overrides_foldl order sound key _).2]
    simp
  rw [overrides_values order sound, Option.isNone_iff_eq_none, Option.isNone_iff_eq_none, deleted]
  constructor
  · rintro ⟨notDeleted, notStored⟩
    cases isOverlay : overlay stack key with
    | none => rfl
    | some found =>
        cases found with
        | some value =>
            rw [isOverlay] at notStored
            cases notStored
        | none =>
            rcases deleted_of_overlay isOverlay with ⟨tx, member, isGone⟩
            exact absurd (notDeleted tx member) isGone
  · intro notMentioned
    rw [notMentioned]
    exact ⟨fun tx member => (overlay_eq_none.mp notMentioned tx member).1, rfl⟩

theorem count_res (value : Bytes) (now : Time) (order : CountOrder) (db : DB)
    (stack : List Transaction) (faults : List Fault) :
    (count value now order ⟨db, stack⟩ faults).res =
      (Index.forEach db.hindex now order.index).bind fun visits =>
        ((countStored value (visits.calls.filter fun visit =>
            ((overrides order stack).2.lookup visit.key).isNone ∧
              ((overrides order stack).1.lookup visit.key).isNone)) db faults).res.bind
                fun stored =>
          .ok (stored + ((overrides order stack).1.range order.override).countP
            fun entry => entry.2 = value) := by
  unfold count
  rw [Exec.bind_state_apply, Exec.bind_res]
  congr 1
  funext visits
  rw [Exec.bind_res]
  rfl

/-- Tables with the same entries have the same values, in some order. -/
theorem countP_range_congr {first second : Table Key Bytes}
    (same : ∀ key, first.lookup key = second.lookup key) (order : RangeOrder Key)
    (test : Key × Bytes → Bool) :
    (first.range order).countP test = (second.range order).countP test := by
  refine List.Perm.countP_eq test ((List.perm_ext_iff_of_nodup ?_ ?_).mpr ?_)
  · exact (Table.nodup_range order first).of_map _
  · exact (Table.nodup_range order second).of_map _
  · rintro ⟨key, value⟩
    rw [Table.mem_range, Table.mem_range, same key]

/-- `Count` only depends on what the open transactions say about the keys. -/
theorem count_congr {first second : List Transaction} (firstSound : ∀ tx ∈ first, tx.Sound)
    (secondSound : ∀ tx ∈ second, tx.Sound)
    (same : ∀ key, overlay first key = overlay second key) (value : Bytes) (now : Time)
    (order : CountOrder) (db : DB) (faults : List Fault) :
    (count value now order ⟨db, first⟩ faults).res =
      (count value now order ⟨db, second⟩ faults).res := by
  have passes : ∀ visit : Index.Visit,
      (((overrides order first).2.lookup visit.key).isNone ∧
          ((overrides order first).1.lookup visit.key).isNone) ↔
        (((overrides order second).2.lookup visit.key).isNone ∧
          ((overrides order second).1.lookup visit.key).isNone) := by
    intro visit
    rw [overrides_passes order firstSound, overrides_passes order secondSound, same]
  have values : ∀ key, (overrides order first).1.lookup key =
      (overrides order second).1.lookup key := by
    intro key
    rw [overrides_values order firstSound, overrides_values order secondSound, same]
  rw [count_res, count_res]
  simp only [passes, countP_range_congr values]

/-- `Get`, `TTL` and `Count` answer the same in both states. -/
structure AnswersAlike (first second : Session) : Prop where
  get_eq : ∀ key now, (get key now first []).res = (get key now second []).res
  ttl_eq : ∀ key now, (ttl key now first []).res = (ttl key now second []).res
  count_eq : ∀ value now order,
    (count value now order first []).res = (count value now order second []).res

/-- A nested commit by itself changes no answer of the session. -/
theorem nestedCommit_unseen {active parent : Transaction} {rest : List Transaction}
    (sound : ∀ tx ∈ active :: parent :: rest, tx.Sound) (order : CommitOrder) (db : DB)
    (faults : List Fault) :
    ∃ next, commitTransaction order ⟨db, active :: parent :: rest⟩ faults =
        ⟨.ok (), next, faults, false⟩ ∧ AnswersAlike next ⟨db, active :: parent :: rest⟩ := by
  have activeSound := sound active List.mem_cons_self
  refine ⟨⟨db, active.mergeInto order parent :: rest⟩, rfl, fun key now => ?_, fun key now => ?_,
    fun value now countOrder => ?_⟩
  · unfold get
    rw [Exec.bind_state_apply, Exec.bind_state_apply]
    dsimp only
    rw [overlay_mergeInto]
    cases overlay (active :: parent :: rest) key <;> rfl
  · unfold ttl
    rw [Exec.bind_state_apply, Exec.bind_state_apply]
    dsimp only
    rw [overlayTTL_mergeInto activeSound]
    cases overlayTTL now (active :: parent :: rest) key <;> rfl
  · refine count_congr ?_ sound (fun key => overlay_mergeInto order active parent rest key)
      _ _ _ _ _
    refine List.forall_mem_cons.mpr ⟨activeSound.mergeInto (sound parent (by simp)) order, ?_⟩
    exact fun tx member => sound tx (by simp [member])

end Session

/-! ## Programs -/

namespace Call

/-- `Set`, `SetEX` and `Delete`. -/
def IsWrite : Call → Prop
  | set _ _ | setEX _ _ _ | delete _ => True
  | _ => False

/-- Carry out calls one after the other, whatever they return. -/
def runAll (calls : List (Clock × Call)) : Exec Session Unit :=
  Exec.each calls fun step => Exec.attempt (step.2.run step.1) >>= fun _ => pure ()

/-- What a call is meant to do to the keys. -/
def wanted (now : Time) : Call → List Update
  | set key value => [⟨key, some (value, 0)⟩]
  | setEX key value ttl =>
      if ttl ≤ 0 then [] else [⟨key, some (value, Time.unixNano (now + ttl.toInt))⟩]
  | delete key => [⟨key, none⟩]
  | _ => []

/-- What calls are meant to do to the keys, one after the other. -/
def wantedAll (calls : List (Clock × Call)) : List Update :=
  calls.flatMap fun step => step.2.wanted step.1

end Call

/-- A well-nested program of a session inside a transaction.  A block ends with a
commit, which visits the maps in the given order, or with a rollback. -/
inductive Program where
  | done
  | write (now : Clock) (c : Call) (isWrite : c.IsWrite) (rest : Program)
  | block (body : Program) (ending : Option CommitOrder) (rest : Program)

namespace Program

/-- A reading of the clock for calls that do not look at it. -/
def anyTime : Clock :=
  .epoch

/-- The call that ends a block. -/
def closing : Option CommitOrder → Call
  | some order => .commit order
  | none => .rollback

/-- The calls a program makes. -/
def calls : Program → List (Clock × Call)
  | done => []
  | write now c _ rest => (now, c) :: rest.calls
  | block body ending rest =>
      (anyTime, .begin) :: (body.calls ++ (anyTime, closing ending) :: rest.calls)

/-- The writes that are not inside a block that is rolled back. -/
def kept : Program → List (Clock × Call)
  | done => []
  | write now c _ rest => (now, c) :: rest.kept
  | block body (some _) rest => body.kept ++ rest.kept
  | block _ none rest => rest.kept

/-- The program inside one outermost transaction that is committed. -/
def transaction (p : Program) (order : CommitOrder) : List (Clock × Call) :=
  (anyTime, .begin) :: (p.calls ++ [(anyTime, .commit order)])

end Program

namespace Call

variable {db : DB} {faults : List Fault} {stack : List Transaction}

/-- The stack after some calls. -/
def stackAfter (calls : List (Clock × Call)) (stack : List Transaction) : List Transaction :=
  calls.foldl (fun stack step => step.2.stack step.1 stack) stack

/-- The number of open nested blocks after a call of a program, from the number before
it. -/
def depth (open_ : Nat) (step : Clock × Call) : Option Nat :=
  match step.2 with
  | .set _ _ | .setEX _ _ _ | .delete _ => some open_
  | .begin => some (open_ + 1)
  | .commit _ | .rollback =>
      match open_ with
      | 0 => none
      | outer + 1 => some outer
  | _ => none

/-- The transactions of a session stay sound, whatever it calls. -/
theorem stack_sound (c : Call) (now : Time)
    (sound : ∀ tx ∈ stack, tx.Sound) : ∀ tx ∈ c.stack now stack, tx.Sound :=
  Call.stack_all Transaction.sound_empty
    (fun _ key value expiry _ tx => Transaction.Sound.put tx key value expiry)
    (fun _ key tx => Transaction.Sound.remove tx key)
    (fun _ _ isStored tx => Transaction.Sound.persist tx isStored)
    (fun order _ _ active parent => Transaction.Sound.mergeInto active parent order) now sound

/-- A call inside a transaction only changes the stack. -/
theorem inside_step {step : Clock × Call} {open_ after : Nat}
    (isDepth : depth open_ step = some after) (lengthEq : stack.length = open_ + 1) :
    (Exec.attempt (step.2.run step.1) >>= fun _ => pure ()) ⟨db, stack⟩ faults =
        ⟨.ok (), ⟨db, step.2.stack step.1 stack⟩, faults, false⟩ ∧
      (step.2.stack step.1 stack).length = after + 1 := by
  rcases step with ⟨now, c⟩
  cases stack with
  | nil => simp at lengthEq
  | cons active rest =>
      have restLength : rest.length = open_ := by simpa using lengthEq
      cases c with
      | set key value =>
          obtain rfl : open_ = after := Option.some.inj isDepth
          exact ⟨rfl, lengthEq⟩
      | setEX key value ttl =>
          obtain rfl : open_ = after := Option.some.inj isDepth
          by_cases refused : ttl ≤ 0
          · have runEq : (Call.setEX key value ttl).run now = Exec.throw "TTL must be positive" :=
              if_pos refused
            have stackEq : (Call.setEX key value ttl).stack now (active :: rest) = active :: rest :=
              if_pos refused
            dsimp only
            rw [runEq, stackEq]
            exact ⟨rfl, lengthEq⟩
          · have runEq : (Call.setEX key value ttl).run now = _ := if_neg refused
            have stackEq : (Call.setEX key value ttl).stack now (active :: rest) = _ :=
              if_neg refused
            dsimp only
            rw [runEq, stackEq]
            exact ⟨rfl, lengthEq⟩
      | delete key =>
          obtain rfl : open_ = after := Option.some.inj isDepth
          exact ⟨rfl, lengthEq⟩
      | begin =>
          obtain rfl : open_ + 1 = after := Option.some.inj isDepth
          exact ⟨rfl, by simpa [stack] using lengthEq⟩
      | commit order =>
          cases open_ with
          | zero => cases isDepth
          | succ outer =>
              obtain rfl : outer = after := Option.some.inj isDepth
              cases rest with
              | nil => cases restLength
              | cons parent others => exact ⟨rfl, restLength⟩
      | rollback =>
          cases open_ with
          | zero => cases isDepth
          | succ outer =>
              obtain rfl : outer = after := Option.some.inj isDepth
              exact ⟨rfl, restLength⟩
      | setBlob | setBlobStream | persist | get => cases isDepth

/-- Calls inside a transaction only change the stack. -/
theorem inside_run {calls : List (Clock × Call)} {open_ after : Nat}
    (isDepth : calls.foldlM depth open_ = some after) (lengthEq : stack.length = open_ + 1)
    (sound : ∀ tx ∈ stack, tx.Sound) :
    (∀ later, runAll (calls ++ later) ⟨db, stack⟩ faults =
        runAll later ⟨db, stackAfter calls stack⟩ faults) ∧
      (stackAfter calls stack).length = after + 1 ∧
      ∀ tx ∈ stackAfter calls stack, tx.Sound := by
  induction calls generalizing open_ stack with
  | nil =>
      obtain rfl : open_ = after := Option.some.inj isDepth
      exact ⟨fun later => rfl, lengthEq, sound⟩
  | cons step calls ih =>
      rw [List.foldlM_cons] at isDepth
      rcases Option.bind_eq_some_iff.mp isDepth with ⟨middle, stepDepth, laterDepth⟩
      rcases @inside_step db faults _ _ _ _ stepDepth lengthEq with ⟨stepEq, nextLength⟩
      rcases ih laterDepth nextLength (step.2.stack_sound step.1 sound) with ⟨runEq, rest⟩
      exact ⟨fun later => (Exec.bind_of_ok stepEq).trans (runEq later), rest⟩

end Call

namespace Program

open Call (depth wanted wantedAll stackAfter)

/-- A program closes the blocks it opens, and no others. -/
theorem depth_calls (p : Program) (open_ : Nat) : p.calls.foldlM depth open_ = some open_ := by
  induction p generalizing open_ with
  | done => rfl
  | write now c isWrite rest ih =>
      rw [calls, List.foldlM_cons]
      cases c with
      | set => exact ih open_
      | setEX => exact ih open_
      | delete => exact ih open_
      | _ => exact isWrite.elim
  | block body ending rest bodyIH restIH =>
      rw [calls, List.foldlM_cons]
      change (body.calls ++ (anyTime, closing ending) :: rest.calls).foldlM depth (open_ + 1) = _
      rw [List.foldlM_append, bodyIH]
      change ((anyTime, closing ending) :: rest.calls).foldlM depth (open_ + 1) = _
      rw [List.foldlM_cons]
      cases ending with
      | some order => exact restIH open_
      | none => exact restIH open_

/-- Inside a transaction a write puts what it is meant to do over what the transaction
says. -/
theorem stack_write {now : Clock} {c : Call} (isWrite : c.IsWrite) {active : Transaction}
    (sound : active.Sound) (outer : List Transaction) :
    ∃ next : Transaction, c.stack now (active :: outer) = next :: outer ∧ next.Sound ∧
      ∀ key, next.pending key = (KeyLog.last (c.wanted now) key).or (active.pending key) := by
  have single : ∀ (u : Update) (key : Key) (before : Option (Option (Bytes × Int64))),
      (if key = u.1 then some u.2 else before) = (KeyLog.last [u] key).or before := by
    intro u key before
    by_cases same : key = u.1
    · simp [KeyLog.last, same]
    · simp [KeyLog.last, same, Ne.symm same]
  cases c with
  | set key value =>
      refine ⟨_, rfl, sound.put key value _, fun other => ?_⟩
      rw [Transaction.pending_put, if_pos rfl]
      exact single ⟨key, some (value, 0)⟩ other _
  | setEX key value ttl =>
      by_cases refused : ttl ≤ 0
      · refine ⟨active, if_pos refused, sound, fun other => ?_⟩
        rw [wanted, if_pos refused]
        rfl
      · refine ⟨_, if_neg refused, sound.put key value _, fun other => ?_⟩
        have notZero : now.1 + ttl.toInt ≠ Time.zero :=
          ne_of_gt (lt_trans (by decide) (Session.expiry_pos now (Int64.not_le.mp refused)))
        rw [Transaction.pending_put, if_neg notZero, wanted, if_neg refused]
        exact single ⟨key, some (value, Time.unixNano (now.1 + ttl.toInt))⟩ other _
  | delete key =>
      refine ⟨_, rfl, sound.remove key, fun other => ?_⟩
      rw [Transaction.pending_remove]
      exact single ⟨key, none⟩ other _
  | _ => exact isWrite.elim

/-- Inside a transaction a program puts what it keeps over what the transaction says. -/
theorem stackAfter_calls (p : Program) {active : Transaction} (sound : active.Sound)
    (outer : List Transaction) :
    ∃ next : Transaction, stackAfter p.calls (active :: outer) = next :: outer ∧ next.Sound ∧
      ∀ key, next.pending key = (KeyLog.last (wantedAll p.kept) key).or (active.pending key) := by
  induction p generalizing active outer with
  | done => exact ⟨active, rfl, sound, fun _ => rfl⟩
  | write now c isWrite rest ih =>
      rcases @stack_write now c isWrite active sound outer with
        ⟨middle, middleEq, middleSound, middleSays⟩
      rcases ih middleSound outer with ⟨next, nextEq, nextSound, nextSays⟩
      refine ⟨next, ?_, nextSound, fun key => ?_⟩
      · change stackAfter rest.calls (c.stack now (active :: outer)) = _
        rw [middleEq, nextEq]
      · change _ = (KeyLog.last (c.wanted now ++ wantedAll rest.kept) key).or _
        rw [nextSays, middleSays, KeyLog.last_append, Option.or_assoc]
  | block body ending rest bodyIH restIH =>
      rcases bodyIH Transaction.sound_empty (active :: outer) with
        ⟨inner, innerEq, innerSound, innerSays⟩
      have split : stackAfter (block body ending rest).calls (active :: outer) =
          stackAfter rest.calls ((closing ending).stack anyTime (inner :: active :: outer)) := by
        rw [← innerEq]
        exact List.foldl_append
      cases ending with
      | none =>
          rcases restIH sound outer with ⟨next, nextEq, nextSound, nextSays⟩
          exact ⟨next, split.trans nextEq, nextSound, nextSays⟩
      | some order =>
          rcases restIH (innerSound.mergeInto sound order) outer with
            ⟨next, nextEq, nextSound, nextSays⟩
          refine ⟨next, split.trans nextEq, nextSound, fun key => ?_⟩
          have keptEq : wantedAll (block body (some order) rest).kept =
              wantedAll body.kept ++ wantedAll rest.kept := List.flatMap_append
          rw [nextSays, Transaction.pending_mergeInto innerSound, innerSays,
            Transaction.pending_empty, Option.or_none, keptEq, KeyLog.last_append, Option.or_assoc]

/-- What a program keeps are some of its writes. -/
theorem kept_subset {p : Program} {step : Clock × Call} (isKept : step ∈ p.kept) :
    step ∈ p.calls ∧ step.2.IsWrite := by
  induction p with
  | done => cases isKept
  | write now c isWrite rest ih =>
      rcases List.mem_cons.mp isKept with rfl | later
      · exact ⟨List.mem_cons_self, isWrite⟩
      · exact ⟨List.mem_cons_of_mem _ (ih later).1, (ih later).2⟩
  | block body ending rest bodyIH restIH =>
      have split : step ∈ body.kept ∨ step ∈ rest.kept := by
        cases ending with
        | some order => exact List.mem_append.mp isKept
        | none => exact .inr isKept
      rcases split with inner | later
      · exact ⟨by simp [calls, (bodyIH inner).1], (bodyIH inner).2⟩
      · exact ⟨by simp [calls, (restIH later).1], (restIH later).2⟩

end Program

namespace Call

variable {db : DB} {rows : Rows}

/-- Outside transactions a write does what it is meant to. -/
theorem run_updates_direct {c : Call} (isWrite : c.IsWrite) (now : Time) (values : Values) :
    KeyLog.run values (c.updates now values []) = KeyLog.run values (c.wanted now) := by
  cases c with
  | set => rfl
  | setEX => rfl
  | delete key =>
      change KeyLog.run values (if (values key).isSome then _ else _) = _
      split
      · rfl
      · next absent =>
        exact (Function.update_eq_self_iff.mpr (Option.not_isSome_iff_eq_none.mp absent).symm).symm
  | _ => exact isWrite.elim

/-- A call that succeeds, and the calls after it. -/
theorem runAll_cons {room : Prop} {s : Session} {now : Clock} {c : Call}
    {rest : List (Clock × Call)} {middle post : Session → Prop}
    (returns : (c.run now).Returns room s fun _ next => middle next)
    (later : ∀ next, middle next → (runAll rest).Returns room next fun _ last => post last) :
    (runAll ((now, c) :: rest)).Returns room s fun _ last => post last :=
  .bind (.bind_attempt returns fun _ _ holds => .pure holds)
    fun _ next holds => later next holds

/-- Outside transactions writes do one after the other what they are meant to. -/
theorem runAll_direct (models : db.Models rows) {calls : List (Clock × Call)}
    (writes : ∀ step ∈ calls, step.2.Fits ∧ step.2.IsWrite) :
    (runAll calls).Returns False ⟨db, []⟩ fun _ s =>
      ∃ after, s.db.Models after ∧ after.values = KeyLog.run rows.values (wantedAll calls) := by
  refine .mono (.each (fun before s => s.transactions = [] ∧ ∃ after, s.db.Models after ∧
      after.values = KeyLog.run rows.values (wantedAll before)) ?_ ⟨rfl, rows, models, rfl⟩)
    fun _ _ holds => holds.2
  rintro before ⟨now, c⟩ later ⟨current, transactions⟩ split ⟨rfl, middle, middleModels, valuesEq⟩
  rcases writes (now, c) (by simp [split]) with ⟨fits, isWrite⟩
  have notStream : c.IsStream → False := by
    intro isStream
    cases c <;> first | exact isStream | exact isWrite
  refine .bind (run_returns middleModels fits nofun fun isStream =>
    (notStream isStream).elim) ?_
  rintro _ next ⟨stackEq, after, stepped⟩
  refine .pure ⟨?_, after, stepped.models, ?_⟩
  · rw [stackEq]
    cases c <;> first | rfl | exact isWrite.elim
  · have wantedEq : wantedAll (before ++ [(now, c)]) = wantedAll before ++ c.wanted now := by
      simp [wantedAll]
    rw [stepped.values_eq, run_updates_direct isWrite, valuesEq, wantedEq, KeyLog.run_append]

/-- Short keys stay short in nested blocks. -/
theorem stackAfter_fits {calls : List (Clock × Call)} (fits : ∀ step ∈ calls, step.2.Fits)
    {stack : List Transaction} (txFits : ∀ tx ∈ stack, tx.Fits) :
    ∀ tx ∈ stackAfter calls stack, tx.Fits := by
  induction calls generalizing stack with
  | nil => exact txFits
  | cons step rest ih =>
      rcases List.forall_mem_cons.mp fits with ⟨stepFits, restFits⟩
      exact ih restFits (stack_fits stepFits.writes step.1 txFits)

end Call

namespace Program

open Call (runAll depth wantedAll stackAfter)

variable {db : DB} {rows : Rows}

/-- Inside the outermost transaction a program only builds up a stack. -/
theorem runAll_inside (p : Program) {before later : List (Clock × Call)}
    (split : p.calls = before ++ later) (rest : List (Clock × Call)) (faults : List Fault) :
    runAll ((anyTime, .begin) :: (before ++ rest)) ⟨db, []⟩ faults =
        runAll rest ⟨db, stackAfter before [.empty]⟩ faults ∧
      (∀ tx ∈ stackAfter before [.empty], tx.Sound) ∧
      ∃ open_, before.foldlM depth 0 = some open_ ∧ later.foldlM depth open_ = some 0 ∧
        (stackAfter before [.empty]).length = open_ + 1 := by
  have whole := p.depth_calls 0
  rw [split, List.foldlM_append] at whole
  rcases Option.bind_eq_some_iff.mp whole with ⟨open_, beforeDepth, laterDepth⟩
  rcases @Call.inside_run db faults [.empty] _ _ _ beforeDepth rfl
    (by simpa using Transaction.sound_empty) with ⟨runEq, lengthEq, sound⟩
  exact ⟨runEq rest, sound, open_, beforeDepth, laterDepth, lengthEq⟩

/-- An outermost transaction stores what its program keeps. -/
theorem transaction_returns (models : db.Models rows) (p : Program)
    (fits : ∀ step ∈ p.calls, step.2.Fits) (order : CommitOrder) :
    (runAll (p.transaction order)).Returns False ⟨db, []⟩ fun _ s =>
      ∃ after, s.db.Models after ∧ after.values = KeyLog.run rows.values (wantedAll p.kept) := by
  rcases p.stackAfter_calls Transaction.sound_empty [] with ⟨tx, stackEq, -, pendingEq⟩
  have txFits : ∀ other ∈ [tx], other.Fits := by
    rw [← stackEq]
    exact Call.stackAfter_fits fits (by simpa using Transaction.fits_empty)
  have commits : (runAll [(anyTime, .commit order)]).Returns False ⟨db, [tx]⟩ fun _ s =>
      ∃ after, s.db.Models after ∧ after.values = KeyLog.run rows.values (wantedAll p.kept) := by
    refine .bind (.bind (Call.run_returns models trivial txFits nofun) ?_)
      fun _ _ holds => .pure holds
    rintro _ next ⟨-, after, stepped⟩
    refine .pure ⟨after, stepped.models, ?_⟩
    rw [stepped.values_eq]
    funext key
    rw [KeyLog.run_apply, KeyLog.run_apply]
    change (KeyLog.last (tx.updates order) key).getD _ = _
    rw [Transaction.last_updates, pendingEq, Transaction.pending_empty, Option.or_none]
  have runEq : ∀ faults, runAll (p.transaction order) ⟨db, []⟩ faults =
      runAll [(anyTime, .commit order)] ⟨db, [tx]⟩ faults := by
    intro faults
    have inside := (@p.runAll_inside db _ [] (List.append_nil p.calls).symm
      [(anyTime, .commit order)] faults).1
    rw [stackEq] at inside
    exact inside
  refine ⟨fun faults clean => ?_, False.elim⟩
  rw [runEq] at clean ⊢
  exact commits.correct faults clean

/-- A nested commit finds the transaction it is merged into. -/
theorem stackAfter_commit (p : Program) {before after : List (Clock × Call)} {now : Clock}
    {nested : CommitOrder} (split : p.calls = before ++ (now, .commit nested) :: after)
    (faults : List Fault) :
    ∃ active parent rest, (∀ tx ∈ active :: parent :: rest, tx.Sound) ∧
      (runAll ((anyTime, .begin) :: before) ⟨db, []⟩ faults).state =
        ⟨db, active :: parent :: rest⟩ := by
  rcases @runAll_inside db p before _ split [] faults with
    ⟨runEq, sound, open_, -, laterDepth, lengthEq⟩
  have stateEq : (runAll ((anyTime, .begin) :: before) ⟨db, []⟩ faults).state =
      ⟨db, stackAfter before [.empty]⟩ := by
    rw [List.append_nil] at runEq
    rw [runEq]
    rfl
  rw [stateEq]
  rw [List.foldlM_cons] at laterDepth
  generalize stackAfter before [.empty] = stack at sound lengthEq
  match stack, open_ with
  | [], _ => cases lengthEq
  | [_], 0 => cases laterDepth
  | [_], _ + 1 => simp at lengthEq
  | active :: parent :: rest, _ => exact ⟨active, parent, rest, sound, rfl⟩

/-- A committed program stores, for every key, the value and the expiry that its
operations outside rolled-back blocks store one by one, and no nested commit is seen
by the session. -/
theorem transaction_eq_direct (models : db.Models rows) (p : Program)
    (fits : ∀ step ∈ p.calls, step.2.Fits) (order : CommitOrder) (faults directFaults : List Fault)
    (clean : (runAll (p.transaction order) ⟨db, []⟩ faults).failed = false)
    (directClean : (runAll p.kept ⟨db, []⟩ directFaults).failed = false) :
    (∀ key, (runAll (p.transaction order) ⟨db, []⟩ faults).state.db.stored key =
        (runAll p.kept ⟨db, []⟩ directFaults).state.db.stored key) ∧
      ∀ before now nested after, p.calls = before ++ (now, .commit nested) :: after →
        ∃ next, Session.commitTransaction nested
            (runAll ((anyTime, .begin) :: before) ⟨db, []⟩ faults).state faults =
            ⟨.ok (), next, faults, false⟩ ∧
          Session.AnswersAlike next
            (runAll ((anyTime, .begin) :: before) ⟨db, []⟩ faults).state := by
  constructor
  · intro key
    rcases (transaction_returns models p fits order).correct faults clean with
      ⟨_, _, committed, committedModels, committedValues⟩
    rcases (Call.runAll_direct models fun step isKept =>
      ⟨fits step (kept_subset isKept).1, (kept_subset isKept).2⟩).correct directFaults
        directClean with
      ⟨_, _, direct, directModels, directValues⟩
    rw [DB.stored_eq committedModels, DB.stored_eq directModels, committedValues, directValues]
  · intro before now nested after split
    rcases @stackAfter_commit db p _ _ _ _ split faults with ⟨active, parent, rest, sound, stateEq⟩
    rw [stateEq]
    exact Session.nestedCommit_unseen sound nested db faults

/-- The orders of the loops of a commit, as the maps are stored. -/
def asStored : CommitOrder :=
  ⟨.asStored _, .asStored _, .asStored _, .asStored _⟩

/-- A key is set in a nested block that is committed, and its deletion in another one is
rolled back. -/
def rolledBack : Program :=
  .block (.write anyTime (.set [107] [118]) trivial .done) (some asStored)
    (.block (.write anyTime (.delete [107]) trivial .done) none .done)

/-- The outermost commit of a program, from a database with room for it. -/
theorem transaction_clean {tx : Transaction} (models : db.Models rows) (p : Program)
    (stackEq : stackAfter p.calls [.empty] = [tx]) (fits : tx.Fits) (order : CommitOrder)
    (roomy : db.Room (db.commitCost tx order)) :
    (runAll (p.transaction order) ⟨db, []⟩ []).failed = false := by
  have inside := (@runAll_inside db p _ [] (List.append_nil p.calls).symm
    [(anyTime, .commit order)] []).1
  rw [stackEq] at inside
  have commits : (runAll [(anyTime, .commit order)]).Returns True ⟨db, [tx]⟩ fun _ _ => True := by
    have committed : (Session.commitTransaction order).Returns True ⟨db, [tx]⟩ fun _ _ => True :=
      Exec.Returns.bind_state (.bind_zoom
        (DB.commitNow_returns order models fits fun _ => roomy) fun _ _ _ =>
          Exec.Returns.bind_state (.put trivial))
    exact Call.runAll_cons committed fun _ _ => .pure trivial
  change (runAll ((anyTime, .begin) :: (p.calls ++ [(anyTime, .commit order)])) _ _).failed = false
  rw [inside]
  exact (commits.undisturbed trivial).1

theorem transaction_eq_direct_rolledBack :
    (∀ key, (runAll (rolledBack.transaction asStored) ⟨History.unsynced.opened.state, []⟩
        []).state.db.stored key =
        (runAll rolledBack.kept ⟨History.unsynced.opened.state, []⟩ []).state.db.stored key) ∧
      ∀ before now nested after, rolledBack.calls = before ++ (now, .commit nested) :: after →
        ∃ next, Session.commitTransaction nested
            (runAll ((anyTime, .begin) :: before) ⟨History.unsynced.opened.state, []⟩ []).state [] =
            ⟨.ok (), next, [], false⟩ ∧
          Session.AnswersAlike next
            (runAll ((anyTime, .begin) :: before) ⟨History.unsynced.opened.state, []⟩
              []).state := by
  have fresh := History.unsynced_fresh
  refine transaction_eq_direct fresh.models rolledBack (by decide) asStored [] [] ?_ ?_
  · have stackEq : stackAfter rolledBack.calls [.empty] =
        [Transaction.empty.put [107] [118] Time.zero] := rfl
    refine transaction_clean fresh.models rolledBack stackEq
      (Transaction.fits_empty.put (by decide) _ _) asStored (fresh.roomAlone _ ?_)
    have costEq : ∀ db : DB, db.commitCost (Transaction.empty.put [107] [118] Time.zero) asStored =
        db.volumes.cost [118] + 40 := fun _ => rfl
    rw [costEq, fresh.cost (by decide)]
    decide +kernel
  · have direct : (Call.set [107] [118]).Direct anyTime True History.unsynced.opened.state _ :=
      Call.direct_set (DB.setNow_returns fresh.models (by decide) fun _ => fresh.roomAlone _ (by
        rw [fresh.cost (by decide)]
        decide +kernel))
    have returns : (runAll rolledBack.kept).Returns True ⟨History.unsynced.opened.state, []⟩
        fun _ _ => True :=
      Call.runAll_cons direct fun _ _ => .pure trivial
    exact (returns.undisturbed trivial).1

/-! ## A key that is too long -/

/-- The empty key is set, and then the long one. -/
def tooLong : Program :=
  .write anyTime (.set [] [1]) trivial (.write anyTime (.set Index.longKey [2]) trivial .done)

/-- Done directly, the long key hides the empty one. -/
theorem tooLong_direct (fresh : DB.Fresh db [] History.unsynced.opt) :
    (runAll tooLong.kept).Returns True ⟨db, []⟩ fun _ s => s.db.stored [] = .ok none := by
  have serves := fresh.models.serves rfl fresh.mode_eq
  have single : History.unsynced.opt.replicationFactor ≤ 1 := by decide
  have roomy : db.Room ((db.volumes.cost [1] + DB.indexCost []) +
      (db.volumes.cost [2] + DB.indexCost Index.longKey)) := by
    refine fresh.roomAlone _ ?_
    rw [fresh.cost single, fresh.cost single, DB.indexCost, DB.indexCost, Index.length_longKey]
    decide +kernel
  refine Call.runAll_cons (Call.direct_set (serves.setNow (.inl rfl) fun _ =>
    roomy.mono (Nat.le_add_right _ _))) ?_
  rintro ⟨next, _⟩ ⟨rfl, first⟩
  have costEq : next.volumes.cost [2] = db.volumes.cost [2] := by
    rw [VolumePool.cost, first.factor_eq]
    rfl
  refine Call.runAll_cons (Call.direct_set (first.serves.setNow (.inr rfl) fun _ => ?_)) ?_
  · rw [costEq]
    exact first.room _ roomy
  · rintro ⟨last, _⟩ ⟨rfl, second⟩
    refine .pure ?_
    rw [second.serves.stored, DB.answer_longKey]
    rfl

/-- Committed with the long key first, the empty key is found. -/
theorem tooLong_committed (fresh : DB.Fresh db [] History.unsynced.opt) :
    (runAll (tooLong.transaction asStored) ⟨db, []⟩ []).failed = false ∧
      (runAll (tooLong.transaction asStored) ⟨db, []⟩ []).state.db.stored [] =
        .ok (some ([1], 0)) := by
  set tx := (Transaction.empty.put [] [1] Time.zero).put Index.longKey [2] Time.zero with txDef
  have single : History.unsynced.opt.replicationFactor ≤ 1 := by decide
  have storeEq : tx.store.range asStored.store = [(Index.longKey, [2]), ([], [1])] :=
    Table.range_pair DB.longKey_ne _ _
  have noExpiry : ∀ key, tx.expiresAt key = 0 := by
    intro key
    have lookups : tx.expiry.lookup key = none ∨ tx.expiry.lookup key = some Time.zero := by
      have expiryEq : tx.expiry =
          ((∅ : Table Key Time).insert [] Time.zero).insert Index.longKey Time.zero := rfl
      rw [expiryEq]
      by_cases isLong : key = Index.longKey
      · exact .inr (by rw [isLong, AList.lookup_insert])
      · rw [AList.lookup_insert_ne isLong]
        by_cases isEmpty : key = []
        · exact .inr (by rw [isEmpty, AList.lookup_insert])
        · exact .inl (by rw [AList.lookup_insert_ne isEmpty]; rfl)
    unfold Transaction.expiresAt
    rcases lookups with found | found <;> rw [found]
    exact if_pos rfl
  have roomy : db.Room (db.commitCost tx asStored) := by
    refine fresh.roomAlone _ ?_
    rw [DB.commitCost, storeEq]
    simp only [DB.blobsCost, DB.keysCost, List.map_cons, List.map_nil, List.sum_cons, List.sum_nil,
      fresh.cost single, DB.indexCost, Index.length_longKey]
    decide +kernel
  have commits : (runAll [(anyTime, .commit asStored)]).Returns True ⟨db, [tx]⟩ fun _ s =>
      s.db.stored [] = .ok (some ([1], 0)) := by
    have committed : (Session.commitTransaction asStored).Returns True ⟨db, [tx]⟩ fun _ s =>
        s.db.stored [] = .ok (some ([1], 0)) := by
      refine .bind_state (.bind_zoom (fresh.models.serves_commit rfl
        fresh.mode_eq (by simp [storeEq]) noExpiry rfl fun _ => roomy) fun _ next serves => ?_)
      refine .bind_state (.put ?_)
      rw [storeEq] at serves
      exact serves.stored
    exact Call.runAll_cons committed fun _ found => .pure found
  have inside := (@runAll_inside db tooLong _ [] (List.append_nil tooLong.calls).symm
    [(anyTime, .commit asStored)] []).1
  have clean := (commits.undisturbed trivial).1
  rcases commits.correct [] clean with ⟨_, _, found⟩
  change (runAll ((anyTime, .begin) :: (tooLong.calls ++ [(anyTime, .commit asStored)])) _
    _).failed = false ∧ (runAll ((anyTime, .begin) ::
      (tooLong.calls ++ [(anyTime, .commit asStored)])) _ _).state.db.stored [] = _
  rw [inside]
  exact ⟨clean, found⟩

/-- With a key that is too long, the order in which a commit visits its map decides
what the empty key stands for. -/
theorem transaction_ne_direct :
    (∃ rows, History.unsynced.opened.state.Models rows) ∧
      (runAll (tooLong.transaction asStored) ⟨History.unsynced.opened.state, []⟩ []).failed =
        false ∧
      (runAll tooLong.kept ⟨History.unsynced.opened.state, []⟩ []).failed = false ∧
      (runAll (tooLong.transaction asStored) ⟨History.unsynced.opened.state, []⟩
        []).state.db.stored [] = .ok (some ([1], 0)) ∧
      (runAll tooLong.kept ⟨History.unsynced.opened.state, []⟩ []).state.db.stored [] =
        .ok none := by
  have fresh := History.unsynced_fresh
  have clean := ((tooLong_direct fresh).undisturbed trivial).1
  rcases (tooLong_direct fresh).correct [] clean with ⟨_, _, found⟩
  rcases tooLong_committed fresh with ⟨committedClean, committedFound⟩
  exact ⟨⟨_, fresh.models⟩, committedClean, clean, committedFound, found⟩

end Program

end BriseDB
