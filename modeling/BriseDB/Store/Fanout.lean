import BriseDB.Store.DB

/-!
# The channels of the replicas

`fanout` holds the lock of the replication manager and offers its entry to one registered
channel after the other, in an order the language does not fix.  It never waits: an entry
that a channel has no room for is dropped.  The receivers take no lock, so a channel may
change between two offers.

A `Feed` records what was offered to its channel and what was put on it since it was
registered; no step looks at the two lists.
-/

namespace BriseDB

/-- A channel with its receiver, which may be blocked because the channel is empty. -/
structure Feed where
  channel : ReplicaChannel
  isWaiting : Bool
  offered : List WalEntry
  put : List WalEntry
  deriving DecidableEq, Repr

namespace Feed

/-- An entry can be put on the channel without waiting. -/
def HasRoom (f : Feed) : Prop :=
  f.isWaiting = true ∨ f.channel.queue.length < f.channel.capacity

instance (f : Feed) : Decidable f.HasRoom :=
  inferInstanceAs (Decidable (_ ∨ _))

/-- The body of the loop of `fanout`.  A receiver that waits is handed the entry. -/
def offer (e : WalEntry) (f : Feed) : Feed :=
  if f.isWaiting then
    { f with isWaiting := false, offered := f.offered ++ [e], put := f.put ++ [e] }
  else if f.channel.queue.length < f.channel.capacity then
    { f with channel := f.channel.push e, offered := f.offered ++ [e], put := f.put ++ [e] }
  else { f with offered := f.offered ++ [e] }

/-- The receiver takes the next entry or begins to wait for it. -/
def receive (f : Feed) : Feed :=
  match f.channel.queue with
  | [] => { f with isWaiting := true }
  | _ :: rest => { f with channel := { f.channel with queue := rest } }

/-- Nothing was offered yet. -/
def anew (f : Feed) : Feed :=
  { f with offered := [], put := [] }

variable {e : WalEntry} {f : Feed}

@[simp]
theorem offer_offered : (f.offer e).offered = f.offered ++ [e] := by
  unfold offer
  split_ifs <;> rfl

theorem offer_put (hasRoom : f.HasRoom) : (f.offer e).put = f.put ++ [e] := by
  unfold offer
  by_cases waits : f.isWaiting = true
  · rw [if_pos waits]
  · rw [if_neg waits, if_pos (hasRoom.resolve_left waits)]

theorem offer_dropped (full : ¬ f.HasRoom) : (f.offer e).put = f.put := by
  rcases not_or.mp full with ⟨notWaiting, noSpace⟩
  rw [offer, if_neg notWaiting, if_neg noSpace]

@[simp]
theorem receive_offered : f.receive.offered = f.offered := by
  unfold receive
  split <;> rfl

@[simp]
theorem receive_put : f.receive.put = f.put := by
  unfold receive
  split <;> rfl

end Feed

/-- `replicationManager` with the channels it may come to know.  While a `fanout` holds
the lock, `sending` has its entry and the channels it has still to reach. -/
structure ReplicationManager (ι : Type) where
  replicas : Table ι Unit
  feeds : ι → Feed
  sending : Option (WalEntry × List ι)

/-- One step: a call of `Register` or `Unregister`, the beginning of a `fanout`, its next
offer (or its end), or a receive. -/
inductive ReplicationStep (ι : Type) where
  | register (ch : ι)
  | unregister (ch : ι)
  | fanout (e : WalEntry) (order : RangeOrder ι)
  | offer
  | receive (ch : ι)

namespace ReplicationManager

variable {ι : Type} [DecidableEq ι]

/-- `newReplicationManager`. -/
def start (feeds : ι → Feed) : ReplicationManager ι :=
  ⟨∅, feeds, none⟩

/-- `Register`. -/
def register (ch : ι) (rm : ReplicationManager ι) : ReplicationManager ι :=
  if ch ∈ rm.replicas then rm
  else
    { rm with
      replicas := rm.replicas.insert ch ()
      feeds := Function.update rm.feeds ch (rm.feeds ch).anew }

/-- The next offer of the `fanout` that holds the lock.  After the last one the lock is
released. -/
def offer (rm : ReplicationManager ι) : ReplicationManager ι :=
  match rm.sending with
  | none => rm
  | some (_, []) => { rm with sending := none }
  | some (e, ch :: rest) =>
      { rm with
        feeds := Function.update rm.feeds ch ((rm.feeds ch).offer e)
        sending := some (e, rest) }

/-- Carry out a step.  The calls that need the lock wait until it is free. -/
def step (rm : ReplicationManager ι) : ReplicationStep ι → ReplicationManager ι
  | .register ch => if rm.sending.isSome then rm else rm.register ch
  | .unregister ch =>
      if rm.sending.isSome then rm else { rm with replicas := rm.replicas.erase ch }
  | .fanout e order =>
      if rm.sending.isSome then rm
      else { rm with sending := some (e, (rm.replicas.range order).map Prod.fst) }
  | .offer => rm.offer
  | .receive ch => { rm with feeds := Function.update rm.feeds ch (rm.feeds ch).receive }

/-- Carry out steps one after the other. -/
def run (rm : ReplicationManager ι) (steps : List (ReplicationStep ι)) : ReplicationManager ι :=
  steps.foldl step rm

/-- The offers of a `fanout` that nothing interrupts. -/
theorem run_offers {rm : ReplicationManager ι} {e : WalEntry} {todo : List ι} (nodup : todo.Nodup)
    (isSending : rm.sending = some (e, todo)) :
    rm.run (List.replicate (todo.length + 1) .offer) =
      { rm with
        feeds := fun ch => if ch ∈ todo then (rm.feeds ch).offer e else rm.feeds ch
        sending := none } := by
  induction todo generalizing rm with
  | nil => simp [run, step, offer, isSending]
  | cons ch rest ih =>
      rcases List.nodup_cons.mp nodup with ⟨once, nodupRest⟩
      have offered : rm.step .offer =
          { rm with
            feeds := Function.update rm.feeds ch ((rm.feeds ch).offer e)
            sending := some (e, rest) } := by
        simp only [step, offer, isSending]
      calc
        rm.run (List.replicate ((ch :: rest).length + 1) .offer) =
            (rm.step .offer).run (List.replicate (rest.length + 1) .offer) := rfl
        _ = _ := by
          rw [offered, ih nodupRest rfl]
          congr 1
          funext other
          by_cases isChannel : other = ch
          · rw [isChannel]
            simp [once]
          · simp [isChannel]

/-- The steps of a `fanout` offer its entry to every registered channel once, and to no
other one. -/
theorem run_fanout {rm : ReplicationManager ι} (idle : rm.sending = none) (e : WalEntry)
    (order : RangeOrder ι) :
    rm.run (.fanout e order :: List.replicate (rm.replicas.keys.length + 1) .offer) =
      { rm with
        feeds := fun ch => if ch ∈ rm.replicas then (rm.feeds ch).offer e else rm.feeds ch } := by
  have keysEq : (rm.replicas.range order).map Prod.fst = order.arrange rm.replicas.keys :=
    Table.map_fst_range order rm.replicas
  have begun : rm.step (.fanout e order) =
      { rm with sending := some (e, order.arrange rm.replicas.keys) } := by
    simp only [step, idle, Option.isSome_none, Bool.false_eq_true, if_false, keysEq]
  have perm := order.perm rm.replicas.keys
  calc
    rm.run (.fanout e order :: List.replicate (rm.replicas.keys.length + 1) .offer) =
        (rm.step (.fanout e order)).run
          (List.replicate ((order.arrange rm.replicas.keys).length + 1) .offer) := by
      rw [perm.length_eq]
      rfl
    _ = _ := by
      rw [begun, run_offers (perm.nodup_iff.mpr rm.replicas.keys_nodup) rfl]
      simp only [perm.mem_iff, AList.mem_keys, idle]

/-- Every registered channel was given all that was offered to it. -/
def Complete (rm : ReplicationManager ι) : Prop :=
  ∀ ch ∈ rm.replicas, (rm.feeds ch).put = (rm.feeds ch).offered

/-- What is asked of a step: an offer finds room. -/
def HasRoom (rm : ReplicationManager ι) : ReplicationStep ι → Prop
  | .offer => ∀ e ch rest, rm.sending = some (e, ch :: rest) → (rm.feeds ch).HasRoom
  | _ => True

/-- A `fanout` has only registered channels left. -/
def Reaching (rm : ReplicationManager ι) : Prop :=
  ∀ e todo, rm.sending = some (e, todo) → ∀ ch ∈ todo, ch ∈ rm.replicas

variable {rm : ReplicationManager ι}

theorem Reaching.step (reaching : rm.Reaching) (turn : ReplicationStep ι) :
    (rm.step turn).Reaching := by
  cases turn with
  | register ch =>
      simp only [ReplicationManager.step]
      split
      · exact reaching
      · next idle =>
        intro e todo sending
        rw [Option.not_isSome_iff_eq_none] at idle
        have sendingEq : (rm.register ch).sending = rm.sending := by
          unfold register
          split <;> rfl
        rw [sendingEq, idle] at sending
        cases sending
  | unregister ch =>
      simp only [ReplicationManager.step]
      split
      · exact reaching
      · next idle =>
        intro e todo sending
        rw [Option.not_isSome_iff_eq_none] at idle
        cases idle.symm.trans sending
  | fanout e order =>
      simp only [ReplicationManager.step]
      split
      · exact reaching
      · rintro other todo sending ch mem
        cases sending
        rcases List.mem_map.mp mem with ⟨⟨_, _⟩, isEntry, rfl⟩
        rw [Table.mem_range] at isEntry
        exact AList.lookup_isSome.mp (by rw [isEntry]; rfl)
  | offer =>
      simp only [ReplicationManager.step, offer]
      split
      · exact reaching
      · intro e todo sending
        cases sending
      · next e ch rest isSending =>
        intro other todo sending
        cases sending
        exact fun later mem => reaching e _ isSending later (List.mem_cons_of_mem _ mem)
  | receive ch => exact reaching

theorem Complete.update (complete : rm.Complete) {ch : ι} {feed : Feed}
    (same : ch ∈ rm.replicas → feed.put = feed.offered) :
    Complete { rm with feeds := Function.update rm.feeds ch feed } := by
  intro other isRegistered
  change (Function.update rm.feeds ch feed other).put = _
  by_cases isChannel : other = ch
  · rw [isChannel] at isRegistered ⊢
    simpa using same isRegistered
  · simpa [Function.update_of_ne isChannel] using complete other isRegistered

/-- An offer that finds room leaves no gap. -/
theorem Complete.step (complete : rm.Complete) {turn : ReplicationStep ι}
    (hasRoom : rm.HasRoom turn) : (rm.step turn).Complete := by
  cases turn with
  | register ch =>
      simp only [ReplicationManager.step, register]
      split
      · exact complete
      · split
        · exact complete
        · intro other isRegistered
          change (Function.update rm.feeds ch (rm.feeds ch).anew other).put = _
          by_cases isChannel : other = ch
          · rw [isChannel]
            simp [Feed.anew]
          · simp only [Function.update_of_ne isChannel]
            exact complete other (by simpa [isChannel] using isRegistered)
  | unregister ch =>
      simp only [ReplicationManager.step]
      split
      · exact complete
      · intro other isRegistered
        exact complete other (AList.mem_erase.mp isRegistered).2
  | fanout e order =>
      simp only [ReplicationManager.step]
      split
      · exact complete
      · exact complete
  | offer =>
      simp only [ReplicationManager.step, offer]
      split
      · exact complete
      · exact complete
      · next e ch rest isSending =>
        refine Complete.update complete fun isRegistered => ?_
        rw [Feed.offer_put (hasRoom e ch rest isSending), Feed.offer_offered,
          complete ch isRegistered]
  | receive ch =>
      refine Complete.update complete fun isRegistered => ?_
      rw [Feed.receive_put, Feed.receive_offered, complete ch isRegistered]

/-- An offer that finds no room leaves one. -/
theorem Complete.step_full (complete : rm.Complete) (reaching : rm.Reaching)
    {turn : ReplicationStep ι} (full : ¬ rm.HasRoom turn) : ¬ (rm.step turn).Complete := by
  cases turn with
  | offer =>
      simp only [HasRoom, not_forall] at full
      rcases full with ⟨e, ch, rest, isSending, noRoom⟩
      have isRegistered := reaching e _ isSending ch List.mem_cons_self
      have offered : rm.step .offer =
          { rm with
            feeds := Function.update rm.feeds ch ((rm.feeds ch).offer e)
            sending := some (e, rest) } := by
        simp only [ReplicationManager.step, offer, isSending]
      intro stillComplete
      have same := stillComplete ch (by rwa [offered])
      rw [offered] at same
      simp only [Function.update_self, Feed.offer_dropped noRoom, Feed.offer_offered,
        complete ch isRegistered] at same
      simpa using congrArg List.length same
  | register | unregister | fanout | receive => exact absurd trivial full

omit [DecidableEq ι] in
theorem start_complete (feeds : ι → Feed) : (start feeds).Complete :=
  fun _ isRegistered => absurd isRegistered (AList.notMem_empty _)

omit [DecidableEq ι] in
theorem start_reaching (feeds : ι → Feed) : (start feeds).Reaching :=
  fun _ _ sending => by cases sending

/-- The channels that are registered have everything that was offered to them since their
registration, in every state of a run, exactly if every offer of the run finds room. -/
theorem complete_iff_hasRoom (feeds : ι → Feed) (steps : List (ReplicationStep ι)) :
    (∀ before later, steps = before ++ later → ((start feeds).run before).Complete) ↔
      ∀ before turn later, steps = before ++ turn :: later →
        ((start feeds).run before).HasRoom turn := by
  exact Exec.foldl_iff (fun rm => Complete rm ∧ Reaching rm)
    ⟨start_complete feeds, start_reaching feeds⟩
    (fun _ holds => holds.1)
    (fun _ turn holds hasRoom => ⟨holds.1.step hasRoom, holds.2.step turn⟩)
    (fun _ _ holds full => holds.1.step_full holds.2 full) steps

/-- A channel with a buffer of one entry, which nobody reads. -/
def slowReplica : ReplicationManager Unit :=
  (start fun _ => ⟨⟨1, []⟩, false, [], []⟩).run
    [.register (), .fanout (.ofDelete [107]) (.asStored _), .offer, .offer,
      .fanout (.ofDelete [108]) (.asStored _), .offer]

/-- The second entry is dropped, and the channel stays registered. -/
theorem slowReplica_misses :
    () ∈ slowReplica.replicas ∧ (slowReplica.feeds ()).put = [.ofDelete [107]] ∧
      (slowReplica.feeds ()).offered = [.ofDelete [107], .ofDelete [108]] := by
  decide

end ReplicationManager

end BriseDB
