import BriseDB.Index.Torn
import BriseDB.Store.Run

/-!
# Runs in which writes fail

`Models` holds as long as no write has failed.  What is left when writes fail is the map
in the index: `Holding db content` says which map it is, and holds after every call
however the writes of the call end.  A condition on the map that survives writes to
certain keys, deletions and compactions survives every run whose calls write only such
keys; `Event.run_meets` says this for one event.
-/

namespace BriseDB

open Index (Content HashIndex)

namespace DB

/-- The open index stands for `content`, and the keys in the expiry cache are short and in
their shards. -/
structure Holding (db : DB) (content : Content) : Prop where
  index : Index.Stores db.hindex content
  cached : ∀ shard key, ((db.expiry shard).lookup key).isSome →
    shard = shardIndex key ∧ key.length ≤ 65535

/-- The database stands for a map that meets a condition. -/
def Meets (P : Content → Prop) (db : DB) : Prop :=
  ∃ content, db.Holding content ∧ P content

/-- The index and the expiry cache are the same. -/
def Same (db next : DB) : Prop :=
  next.hindex = db.hindex ∧ next.expiry = db.expiry

theorem Same.refl (db : DB) : Same db db :=
  ⟨rfl, rfl⟩

theorem Same.holding {db next : DB} {content : Content} (same : Same db next)
    (holding : db.Holding content) : next.Holding content := by
  rcases same with ⟨indexEq, expiryEq⟩
  exact ⟨indexEq ▸ holding.index, expiryEq ▸ holding.cached⟩

theorem Same.meets {P : Content → Prop} {db next : DB} (same : Same db next) (meets : db.Meets P) :
    next.Meets P := by
  rcases meets with ⟨content, holding, holds⟩
  exact ⟨content, same.holding holding, holds⟩

/-- Only the log and the channels of the replicas have changed. -/
def Logged (db next : DB) : Prop :=
  Same db next ∧ next.volumes = db.volumes

theorem Logged.refl (db : DB) : Logged db db :=
  ⟨.refl db, rfl⟩

/-! ## Volumes and log -/

theorem onVolumes_same {α : Type} (call : Exec VolumePool α) (db : DB) :
    (onVolumes call).Ends db (fun _ => Same db) (Same db) :=
  .of_leaves fun _ => ⟨rfl, rfl⟩

theorem flushBatch_logged (batch : List WalEntry) (db : DB) :
    (flushBatch batch).Ends db (fun _ => Logged db) (Logged db) := by
  refine .bind_state ?_
  split
  · exact .throw (.refl db)
  · refine .bind_outcome fun written => ?_
    split
    · exact .bind_put (.throw ⟨⟨rfl, rfl⟩, rfl⟩)
    · refine .bind_put ?_
      split
      · refine .bind_outcome fun synced => ?_
        split
        · exact .throw ⟨⟨rfl, rfl⟩, rfl⟩
        · exact .modify ⟨⟨rfl, rfl⟩, rfl⟩
      · exact .pure ⟨⟨rfl, rfl⟩, rfl⟩

theorem drain_logged (db : DB) : drain.Ends db (fun _ => Logged db) (Logged db) := by
  refine .bind_state ?_
  split
  · exact .pure (.refl db)
  · refine .bind_put (.andThen (.attempted (flushBatch_logged _ _)) ?_)
    intro result next logged
    split
    · exact .pure logged
    · exact .bind_modify (.pure logged)

theorem writeWAL_logged (op : WalEntry) (db : DB) :
    (writeWAL op).Ends db (fun _ => Logged db) (Logged db) := by
  refine .bind_state ?_
  split
  · refine .bind_put (.andThen (drain_logged _) fun result next logged => ?_)
    split
    · exact .pure logged
    · exact .throw logged
  · split
    · exact .put ⟨⟨rfl, rfl⟩, rfl⟩
    · refine .bind_put ?_
      split
      · exact .throw ⟨⟨rfl, rfl⟩, rfl⟩
      · exact .panic ⟨⟨rfl, rfl⟩, rfl⟩

theorem fanout_logged (e : WalEntry) (db : DB) :
    (fanout e).Ends db (fun _ => Logged db) (Logged db) :=
  .modify ⟨⟨rfl, rfl⟩, rfl⟩

theorem rewriteWAL_logged (now : Time) (order : RangeOrder Key) (db : DB) :
    (rewriteWAL now order).Ends db (fun _ => Logged db) (Logged db) := by
  refine .bind_modify (.bind_query ⟨⟨rfl, rfl⟩, rfl⟩ fun visits _ => ?_)
  dsimp only
  split
  · exact .bind_modify (.throw ⟨⟨rfl, rfl⟩, rfl⟩)
  · refine .bind_outcome fun flushed => ?_
    split
    · exact .bind_modify (.throw ⟨⟨rfl, rfl⟩, rfl⟩)
    · exact .modify ⟨⟨rfl, rfl⟩, rfl⟩

theorem swapWAL_logged (db : DB) : swapWAL.Ends db (fun _ => Logged db) (Logged db) := by
  refine .andThen (drain_logged db) fun _ next logged => ?_
  refine .bind_state (.bind_put ?_)
  split
  · exact .throw logged
  · split
    · exact .pure logged
    · refine .bind_outcome fun synced => ?_
      split
      · exact .throw logged
      · exact .modify logged

/-! ## Index and expiry cache -/

/-- A condition on the map that survives writes to the keys `writes`, deletions and
compactions. -/
structure Lasting (writes : Key → Prop) (P : Content → Prop) : Prop where
  set : ∀ content key entry, writes key → P content →
    P (Function.update content key (some entry))
  delete : ∀ content key, P content → P (Function.update content key none)
  prune : ∀ content nowNs, P content → P (Index.prune nowNs content)

section

variable {writes : Key → Prop} {P : Content → Prop} {db : DB} {key : Key}

/-- A call on the index after which it stands for such a map. -/
theorem onIndex_meets {α : Type} {call : Exec HashIndex α} (meets : db.Meets P)
    (ends : ∀ content, Index.Stores db.hindex content → P content → call.Ends db.hindex
      (fun _ hi => ∃ after, Index.Stores hi after ∧ P after)
      fun hi => ∃ after, Index.Stores hi after ∧ P after) :
    (onIndex call).Ends db (fun _ => Meets P) (Meets P) := by
  rcases meets with ⟨content, holding, holds⟩
  refine .zoom (.mono (ends content holding.index holds) ?_ ?_)
  · rintro _ _ ⟨after, stores, holdsAfter⟩
    exact ⟨after, ⟨stores, holding.cached⟩, holdsAfter⟩
  · rintro _ ⟨after, stores, holdsAfter⟩
    exact ⟨after, ⟨stores, holding.cached⟩, holdsAfter⟩

theorem set_meets (meets : db.Meets P) (keyFits : key.length ≤ 65535) {addr : NeedleAddr}
    {expiresAt : Int64}
    (kept : ∀ content, Index.Stores db.hindex content → P content →
      P (Function.update content key (some (addr, expiresAt)))) :
    (onIndex (Index.set key addr expiresAt)).Ends db (fun _ => Meets P) (Meets P) := by
  refine onIndex_meets meets fun content stores holds => ?_
  refine .mono (stores.set_ends keyFits addr expiresAt) ?_ ?_
  · rintro _ _ ⟨_, after⟩
    exact ⟨_, after, kept content stores holds⟩
  · rintro _ ⟨_, unchanged | after⟩
    · exact ⟨content, unchanged, holds⟩
    · exact ⟨_, after, kept content stores holds⟩

theorem delete_meets (lasting : Lasting writes P) (meets : db.Meets P)
    (keyFits : key.length ≤ 65535) :
    (onIndex (Index.delete key)).Ends db (fun _ => Meets P) (Meets P) := by
  refine onIndex_meets meets fun content stores holds => ?_
  refine .mono (stores.delete_ends keyFits) ?_ ?_
  · rintro _ _ ⟨_, after⟩
    exact ⟨_, after, lasting.delete content key holds⟩
  · rintro _ ⟨_, unchanged | after⟩
    · exact ⟨content, unchanged, holds⟩
    · exact ⟨_, after, lasting.delete content key holds⟩

theorem Holding.cacheIn {content : Content} (holding : db.Holding content)
    (shard : Fin numShards) (cached : Option Time)
    (fits : cached.isSome → shard = shardIndex key ∧ key.length ≤ 65535) :
    (DB.cacheIn shard key cached db).Holding content := by
  refine ⟨holding.index, fun other found isCached => ?_⟩
  change ((Function.update db.expiry shard _ other).lookup found).isSome at isCached
  by_cases sameShard : other = shard
  · subst sameShard
    rw [Function.update_self] at isCached
    by_cases sameKey : found = key
    · subst sameKey
      cases cached with
      | some instant => exact fits rfl
      | none =>
          rw [AList.lookup_erase] at isCached
          cases isCached
    · cases cached with
      | some instant =>
          rw [AList.lookup_insert_ne sameKey] at isCached
          exact holding.cached other found isCached
      | none =>
          rw [AList.lookup_erase_ne sameKey] at isCached
          exact holding.cached other found isCached
  · rw [Function.update_of_ne sameShard] at isCached
    exact holding.cached other found isCached

theorem Meets.cacheIn (meets : db.Meets P) (shard : Fin numShards) (cached : Option Time)
    (fits : cached.isSome → shard = shardIndex key ∧ key.length ≤ 65535) :
    (DB.cacheIn shard key cached db).Meets P := by
  rcases meets with ⟨content, holding, holds⟩
  exact ⟨content, holding.cacheIn shard cached fits, holds⟩

theorem setExpiry_meets (meets : db.Meets P) (cached : Option Time)
    (fits : cached.isSome → key.length ≤ 65535) :
    (setExpiry key cached).Ends db (fun _ => Meets P) (Meets P) :=
  .modify (meets.cacheIn _ cached fun isSome => ⟨rfl, fits isSome⟩)

/-- A call that touches neither the index nor the expiry cache. -/
theorem Meets.of_same {α : Type} {call : Exec DB α} (meets : db.Meets P)
    (ends : call.Ends db (fun _ => Same db) (Same db)) :
    call.Ends db (fun _ => Meets P) (Meets P) :=
  .mono ends (fun _ _ same => same.meets meets) fun _ same => same.meets meets

theorem Meets.of_logged {α : Type} {call : Exec DB α} (meets : db.Meets P)
    (ends : call.Ends db (fun _ => Logged db) (Logged db)) :
    call.Ends db (fun _ => Meets P) (Meets P) :=
  meets.of_same ends.left

/-! ## Background work -/

theorem evictExpired_meets (lasting : Lasting writes P) (meets : db.Meets P) (now : Time)
    (order : Fin numShards → RangeOrder Key) :
    (evictExpired now order).Ends db (fun _ => Meets P) (Meets P) := by
  refine .each meets fun shard _ start startMeets => .bind_state ?_
  refine .each startMeets ?_
  rintro ⟨key, instant⟩ isEntry next nextMeets
  have keyFits : key.length ≤ 65535 := by
    rcases startMeets with ⟨_, holding, _⟩
    refine (holding.cached shard key ?_).2
    rw [(Table.mem_range _ _ _ _).mp isEntry]
    rfl
  dsimp only
  split
  · refine .andThen (.attempted (delete_meets lasting nextMeets keyFits)) ?_
    intro _ after afterMeets
    exact .modify (afterMeets.cacheIn shard none (by simp))
  · exact .pure nextMeets

theorem compact_meets (lasting : Lasting writes P) (meets : db.Meets P)
    (noTmp : db.hindex.tmp = []) (now : Clock) (indexOrder logOrder : RangeOrder Key) :
    (compact now indexOrder logOrder).Ends db (fun _ => Meets P) (Meets P) := by
  have compacted : (onIndex (Index.compact now indexOrder)).Ends db (fun _ => Meets P)
      (Meets P) := by
    refine onIndex_meets meets fun content stores holds => ?_
    have ends := stores.compact_ends noTmp (Time.unixNano now) indexOrder
    rw [Clock.ofNano_unixNano] at ends
    refine .mono ends ?_ ?_
    · exact fun _ _ after => ⟨_, after, lasting.prune content _ holds⟩
    · exact fun _ after => ⟨content, after, holds⟩
  refine .andThen (.wrap compacted) fun _ next nextMeets => ?_
  refine .andThen (nextMeets.of_logged (rewriteWAL_logged _ _ next)) fun _ after afterMeets => ?_
  exact afterMeets.of_logged (swapWAL_logged after)

end

end DB

/-! ## Calls -/

namespace Session

open DB (Meets Lasting)

variable {writes : Key → Prop} {P : Content → Prop} {db : DB} {key : Key}

theorem setIndexFirst_meets (lasting : Lasting writes P) (meets : db.Meets P)
    (keyFits : key.length ≤ 65535) (written : writes key) (context : String) (addr : NeedleAddr)
    (expiresAt : Int64) (cached : Option Time) :
    (setIndexFirst context key addr expiresAt cached).Ends db (fun _ => Meets P) (Meets P) := by
  refine .andThen (.wrap (DB.set_meets meets keyFits
    fun content _ => lasting.set content key _ written)) fun _ next nextMeets => ?_
  exact DB.setExpiry_meets nextMeets cached fun _ => keyFits

theorem setExpiryFirst_meets (lasting : Lasting writes P) (meets : db.Meets P)
    (keyFits : key.length ≤ 65535) (written : writes key) (context : String) (addr : NeedleAddr)
    (expiresAt : Int64) (cached : Option Time) :
    (setExpiryFirst context key addr expiresAt cached).Ends db (fun _ => Meets P) (Meets P) := by
  refine .andThen (DB.setExpiry_meets meets cached fun _ => keyFits) fun _ next nextMeets => ?_
  exact .wrap (DB.set_meets nextMeets keyFits fun content _ => lasting.set content key _ written)

/-- A record is logged and sent to the replicas. -/
theorem publish_meets (meets : db.Meets P) (logged sent : WalEntry) :
    (DB.writeWAL logged >>= fun _ => DB.fanout sent).Ends db (fun _ => Meets P) (Meets P) :=
  .andThen (meets.of_logged (DB.writeWAL_logged logged db)) fun _ next nextMeets =>
    nextMeets.of_logged (DB.fanout_logged sent next)

/-- The body that `Set`, `SetEX` and `SetBlob` share: the value, the locked section, and the
record. -/
theorem store_meets (meets : db.Meets P) {context : String} {value : Bytes}
    {locked : NeedleAddr → Exec DB Unit} {logged : NeedleAddr → WalEntry} {sent : WalEntry}
    (lockedMeets : ∀ addr next, next.Meets P →
      (locked addr).Ends next (fun _ => Meets P) (Meets P)) :
    (Exec.wrap context (DB.onVolumes (VolumePool.write value)) >>= fun addr =>
      locked addr >>= fun _ => DB.writeWAL (logged addr) >>= fun _ => DB.fanout sent).Ends db
      (fun _ => Meets P) (Meets P) := by
  refine .andThen (meets.of_same (.wrap (DB.onVolumes_same _ db))) fun addr next nextMeets => ?_
  exact .andThen (lockedMeets addr next nextMeets) fun _ after afterMeets =>
    publish_meets afterMeets _ _

theorem setNow_meets (lasting : Lasting writes P) (meets : db.Meets P)
    (keyFits : key.length ≤ 65535) (written : writes key) (value : Bytes) :
    (setNow key value).Ends db (fun _ => Meets P) (Meets P) :=
  store_meets meets fun addr _ nextMeets =>
    setIndexFirst_meets lasting nextMeets keyFits written _ addr 0 none

theorem setEXNow_meets (lasting : Lasting writes P) (meets : db.Meets P)
    (keyFits : key.length ≤ 65535) (written : writes key) (value : Bytes) (exp : Time) :
    (setEXNow key value exp).Ends db (fun _ => Meets P) (Meets P) :=
  store_meets meets fun addr _ nextMeets =>
    setIndexFirst_meets lasting nextMeets keyFits written _ addr _ (some exp)

theorem setBlobNow_meets (lasting : Lasting writes P) (meets : db.Meets P)
    (keyFits : key.length ≤ 65535) (written : writes key) (data : Bytes) (exp : Option Time) :
    (setBlobNow key data exp).Ends db (fun _ => Meets P) (Meets P) :=
  store_meets meets fun addr _ nextMeets =>
    setExpiryFirst_meets lasting nextMeets keyFits written _ addr _ exp

theorem setBlobStreamNow_meets (lasting : Lasting writes P) (meets : db.Meets P)
    (keyFits : key.length ≤ 65535) (written : writes key) (r : Reader) (size : Int64)
    (exp : Option Time) :
    (setBlobStreamNow key r size exp).Ends db (fun _ => Meets P) (Meets P) := by
  refine .andThen (meets.of_same (.wrap (DB.onVolumes_same _ db))) fun addr next nextMeets => ?_
  refine .andThen (setExpiryFirst_meets lasting nextMeets keyFits written _ addr _ exp)
    fun _ after afterMeets => ?_
  exact afterMeets.of_logged (DB.writeWAL_logged _ after)

/-- A key that the index knows is short. -/
theorem keyFits_of_get (meets : db.Meets P) {entry : NeedleAddr × Int64}
    (found : Index.get db.hindex key = .ok (some entry)) : key.length ≤ 65535 := by
  rcases meets with ⟨content, holding, _⟩
  rw [holding.index.get_eq] at found
  exact holding.index.key_fits (Res.ok.inj found)

theorem deleteNow_meets (lasting : Lasting writes P) (meets : db.Meets P) (key : Key) :
    (deleteNow key).Ends db (fun _ => Meets P) (Meets P) := by
  have locked : (deleteLocked key).Ends db (fun _ => Meets P) (Meets P) := by
    refine .bind_query meets fun found answer => ?_
    cases found with
    | none => exact .pure meets
    | some entry =>
        have keyFits := keyFits_of_get meets answer
        refine .andThen (.wrap (DB.delete_meets lasting meets keyFits)) fun _ next nextMeets => ?_
        exact .andThen (DB.setExpiry_meets nextMeets none fun _ => keyFits)
          fun _ after afterMeets => .pure afterMeets
  refine .andThen locked fun existed next nextMeets => ?_
  split
  · exact publish_meets nextMeets _ _
  · exact .pure nextMeets

/-- `Persist` keeps the condition if the map does after the expiry of the key is gone. -/
theorem persistLocked_meets (meets : db.Meets P)
    (kept : ∀ content addr expiresAt, Index.Stores db.hindex content → P content →
      content key = some (addr, expiresAt) → expiresAt ≠ 0 →
      P (Function.update content key (some (addr, 0)))) :
    (persistLocked key).Ends db (fun _ => Meets P) (Meets P) := by
  refine .bind_query meets fun found answer => ?_
  rcases found with _ | ⟨addr, expiresAt⟩
  · exact .pure meets
  · have keyFits := keyFits_of_get meets answer
    change (if expiresAt = 0 then _ else _ : Exec DB Bool).Ends db _ _
    split
    · exact .pure meets
    · next expires =>
      refine .andThen (.attempted (DB.set_meets meets keyFits ?_)) fun _ next nextMeets => ?_
      · intro content stores holds
        rw [stores.get_eq] at answer
        exact kept content addr expiresAt stores holds (Res.ok.inj answer) expires
      · exact .andThen (DB.setExpiry_meets nextMeets none fun _ => keyFits)
          fun _ after afterMeets => .pure afterMeets

theorem getNow_same (db : DB) (key : Key) (now : Time) :
    (getNow key now).Ends db (fun _ => DB.Same db) (DB.Same db) := by
  refine .bind_query (.refl db) fun found _ => ?_
  rcases found with _ | ⟨addr, expiresAt⟩
  · exact .pure (.refl db)
  · change (if expiredAt now expiresAt then _ else _ : Exec DB (Option Bytes)).Ends db _ _
    split
    · exact .pure (.refl db)
    · refine .andThen (.attempted (DB.onVolumes_same _ db)) fun result next same => ?_
      split
      · exact .pure same
      · exact .pure same

/-! ## Commits -/

/-- The first loop of a commit returns one pending write for each stored key. -/
theorem writeBlobs_same (db : DB) (tx : Transaction) (entries : List (Key × Bytes)) :
    (writeBlobs tx entries).Ends db
      (fun sets next => DB.Same db next ∧ sets.map PendingSet.key = entries.map Prod.fst)
      (DB.Same db) := by
  induction entries generalizing db with
  | nil => exact .pure ⟨.refl db, rfl⟩
  | cons entry rest ih =>
      refine .bind (.wrap (DB.onVolumes_same _ db)) ?_
      rintro addr next ⟨indexEq, expiryEq⟩
      refine .bind (.mono (ih next) (fun _ _ => id) ?_) ?_
      · exact fun _ same => ⟨same.1.trans indexEq, same.2.trans expiryEq⟩
      · rintro others after ⟨same, keysEq⟩
        exact .pure ⟨⟨same.1.trans indexEq, same.2.trans expiryEq⟩, congrArg (entry.1 :: ·) keysEq⟩

/-- The keys of the pending writes are stored in the transaction. -/
theorem PendingSet.stored {tx : Transaction} {order : RangeOrder Key} {sets : List PendingSet}
    (keysEq : sets.map PendingSet.key = (tx.store.range order).map Prod.fst) {ps : PendingSet}
    (mem : ps ∈ sets) : ∃ value, tx.store.lookup ps.key = some value := by
  have isKey : ps.key ∈ (tx.store.range order).map Prod.fst := keysEq ▸ List.mem_map_of_mem mem
  rcases List.mem_map.mp isKey with ⟨⟨_, value⟩, isEntry, keyEq⟩
  exact ⟨value, keyEq ▸ (Table.mem_range _ _ _ _).mp isEntry⟩

theorem commitNow_meets (lasting : Lasting writes P) (meets : db.Meets P) {tx : Transaction}
    (fits : tx.Fits) (written : ∀ key, (tx.store.lookup key).isSome → writes key)
    (order : CommitOrder) : (commitNow tx order).Ends db (fun _ => Meets P) (Meets P) := by
  refine .bind (.mono (writeBlobs_same db tx _) (fun _ _ => id) fun _ same => same.meets meets) ?_
  rintro sets next ⟨same, keysEq⟩
  have nextMeets := same.meets meets
  have locked : (commitLocked sets ((tx.deleted.range order.deleted).map Prod.fst)).Ends next
      (fun _ => Meets P) (Meets P) := by
    refine .andThen (.each nextMeets fun ps mem state stateMeets => ?_)
      fun _ after afterMeets => .each afterMeets fun key _ state stateMeets => ?_
    · rcases PendingSet.stored keysEq mem with ⟨value, isStored⟩
      exact setExpiryFirst_meets lasting stateMeets (fits ps.key value isStored)
        (written ps.key (by rw [isStored]; rfl)) _ _ _ _
    · refine .bind_query stateMeets fun found answer => ?_
      cases found with
      | none =>
          exact DB.setExpiry_meets stateMeets none (by simp)
      | some entry =>
          refine .andThen (.wrap
            (DB.delete_meets lasting stateMeets (keyFits_of_get stateMeets answer)))
            fun _ last lastMeets => ?_
          exact DB.setExpiry_meets lastMeets none (by simp)
  refine .andThen locked fun _ after afterMeets => ?_
  refine .andThen (.each afterMeets fun ps _ state stateMeets =>
    publish_meets stateMeets _ _) fun _ last lastMeets => ?_
  exact .each lastMeets fun key _ state stateMeets => publish_meets stateMeets _ _

end Session

/-- Whether the call writes the key to the database, given the open transactions of its
session. -/
def Call.Stores (stack : List Transaction) (key : Key) : Call → Prop
  | set written _ => stack = [] ∧ written = key
  | setEX written _ _ => stack = [] ∧ written = key
  | setBlob written _ _ => written = key
  | setBlobStream written _ _ _ => written = key
  | commit _ => ∃ active, stack = [active] ∧ (active.store.lookup key).isSome
  | _ => False

/-- Whether the call is a `Persist` that gets as far as the database, given the open
transactions of its session. -/
def Call.Persists (stack : List Transaction) (key : Key) : Call → Prop
  | persist found => found = key ∧ ¬ (stack.head?.bind fun tx => tx.store.lookup key).isSome
  | _ => False

/-- The database meets the condition, and the stack is the one after the call or the one
before it. -/
def Session.After (P : Content → Prop) (c : Call) (now : Time) (s next : Session) : Prop :=
  next.db.Meets P ∧
    (next.transactions = c.stack now s.transactions ∨ next.transactions = s.transactions)

section Calls

open DB (Meets Lasting)

variable {writes : Key → Prop} {P : Content → Prop} {s : Session}

theorem Session.onDB_after {α : Type} {call : Exec DB α}
    (ends : call.Ends s.db (fun _ => Meets P) (Meets P)) (c : Call) (now : Time) :
    (Session.onDB call).Ends s (fun _ => Session.After P c now s)
      (Session.After P c now s) :=
  .zoom (.mono ends (fun _ _ meets => ⟨meets, .inr rfl⟩)
    fun _ meets => ⟨meets, .inr rfl⟩)

/-- However the writes of a call end, the database meets the condition after it, if what it
writes may be written and a `Persist` keeps the condition. -/
theorem Call.run_after (lasting : Lasting writes P) (meets : s.db.Meets P)
    (fits : ∀ tx ∈ s.transactions, tx.Fits) {c : Call}
    (keyFits : ∀ key, c.Writes key → key.length ≤ 65535)
    (written : ∀ key, c.Stores s.transactions key → writes key)
    (persists : ∀ key, c.Persists s.transactions key → ∀ content addr expiresAt,
      Index.Stores s.db.hindex content → P content → content key = some (addr, expiresAt) →
      expiresAt ≠ 0 → P (Function.update content key (some (addr, 0)))) (now : Time) :
    (c.run now).Ends s (fun _ => Session.After P c now s) (Session.After P c now s) := by
  have unchanged : Session.After P c now s s := ⟨meets, .inr rfl⟩
  rcases s with ⟨db, stack⟩
  cases c with
  | set key value =>
      refine .bind_state ?_
      cases stack with
      | cons active rest => exact .modify ⟨meets, .inl rfl⟩
      | nil => exact Session.onDB_after (Session.setNow_meets lasting meets (keyFits key rfl)
          (written key ⟨rfl, rfl⟩) value) _ _
  | setEX key value ttl =>
      change (if ttl ≤ 0 then _ else _ : Exec Session Unit).Ends _ _ _
      split
      · exact .throw unchanged
      · next positive =>
        refine .bind_state ?_
        cases stack with
        | cons active rest => exact .modify ⟨meets, .inl (if_neg positive).symm⟩
        | nil => exact Session.onDB_after (Session.setEXNow_meets lasting meets (keyFits key rfl)
            (written key ⟨rfl, rfl⟩) value _) _ _
  | setBlob key data ttl =>
      exact Session.onDB_after (Session.setBlobNow_meets lasting meets (keyFits key rfl)
        (written key rfl) data _) _ _
  | setBlobStream key r size ttl =>
      exact Session.onDB_after (Session.setBlobStreamNow_meets lasting meets (keyFits key rfl)
        (written key rfl) r size _) _ _
  | delete key =>
      refine .bind_state ?_
      cases stack with
      | cons active rest => exact .modify ⟨meets, .inl rfl⟩
      | nil => exact Session.onDB_after (Session.deleteNow_meets lasting meets key) _ _
  | persist key =>
      refine .andThen (.bind_state ?_) fun _ _ holds => .pure holds
      cases stack with
      | nil =>
          exact Session.onDB_after (Session.persistLocked_meets meets
            (persists key ⟨rfl, by simp⟩)) _ _
      | cons active rest =>
          change (if (active.store.lookup key).isSome then _ else _ : Exec Session Bool).Ends _ _ _
          split
          · next isStored =>
            exact .bind_modify (.pure ⟨meets, .inl (if_pos isStored).symm⟩)
          · next notStored =>
            exact Session.onDB_after (Session.persistLocked_meets meets
              (persists key ⟨rfl, notStored⟩)) _ _
  | get key =>
      refine .andThen (.bind_state ?_) fun _ _ holds => .pure holds
      split
      · exact .pure unchanged
      · exact Session.onDB_after (meets.of_same (Session.getNow_same db key now)) _ _
  | begin => exact .modify ⟨meets, .inl rfl⟩
  | commit order =>
      refine .bind_state ?_
      rcases stack with _ | ⟨active, _ | ⟨parent, rest⟩⟩
      · exact .throw unchanged
      · have committed := Session.commitNow_meets lasting meets
          (fits active List.mem_cons_self) (fun key isStored => written key ⟨active, rfl, isStored⟩)
          order
        have ran : (Session.onDB (Session.commitNow active order)).Ends ⟨db, [active]⟩
            (fun _ next => next.db.Meets P ∧ next.transactions = [active])
            (Session.After P (.commit order) now ⟨db, [active]⟩) :=
          Exec.Ends.zoom (.mono committed (fun _ _ after => ⟨after, rfl⟩)
            fun _ after => ⟨after, .inr rfl⟩)
        refine .bind ran ?_
        rintro _ ⟨next, transactions⟩ ⟨after, rfl⟩
        exact .bind_state (.put ⟨after, .inl rfl⟩)
      · exact .bind_put (.bind_state (.put ⟨meets, .inl rfl⟩))
  | rollback =>
      refine .bind_state ?_
      cases stack with
      | nil => exact .throw unchanged
      | cons active rest => exact .put ⟨meets, .inl rfl⟩

end Calls

/-! ## Events -/

/-- The database meets the condition, and the keys in open transactions are short. -/
structure World.Meets (P : Content → Prop) (w : World) : Prop where
  db : w.db.Meets P
  fits : ∀ session, ∀ tx ∈ w.sessions session, tx.Fits

/-- What is assumed of an event in the world before it: keys have at most 65535 bytes, and
`Compact` finds no temporary file. -/
def Event.Sound (w : World) : Event → Prop
  | call _ c => ∀ key, c.Writes key → key.length ≤ 65535
  | compact _ _ => w.db.hindex.tmp = []
  | _ => True

/-- Each stack is as before, or a call of its session has changed it. -/
def Event.Stacks (now : Time) (w next : World) (event : Event) : Prop :=
  ∀ session, next.sessions session = w.sessions session ∨
    ∃ c, event = .call session c ∧ next.sessions session = c.stack now (w.sessions session)

section Events

open DB (Lasting)

variable {writes : Key → Prop} {P : Content → Prop} {w : World} {event : Event}

theorem World.onDB_meets {α : Type} {call : Exec DB α} (meets : w.Meets P)
    (ends : call.Ends w.db (fun _ => DB.Meets P) (DB.Meets P)) (now : Time) :
    (World.onDB call).Ends w (fun _ next => next.Meets P ∧ event.Stacks now w next)
      fun next => next.Meets P ∧ event.Stacks now w next :=
  .zoom (.mono ends
    (fun _ _ holds => ⟨⟨holds, meets.fits⟩, fun _ => .inl rfl⟩)
    fun _ holds => ⟨⟨holds, meets.fits⟩, fun _ => .inl rfl⟩)

/-- However the writes of an event end, the database meets the condition after it. -/
theorem Event.run_meets (lasting : Lasting writes P) (meets : w.Meets P) (sound : event.Sound w)
    (written : ∀ session c key, event = .call session c → c.Stores (w.sessions session) key →
      writes key) {now : Clock}
    (persists : ∀ session c key, event = .call session c → c.Persists (w.sessions session) key →
      ∀ content addr expiresAt, Index.Stores w.db.hindex content → P content →
      content key = some (addr, expiresAt) → expiresAt ≠ 0 →
      P (Function.update content key (some (addr, 0)))) :
    (event.run now).Ends w (fun _ next => next.Meets P ∧ event.Stacks now w next)
      fun next => next.Meets P ∧ event.Stacks now w next := by
  cases event with
  | call session c =>
      have called : (c.run now).Ends ⟨w.db, w.sessions session⟩
          (fun _ => Session.After P c now ⟨w.db, w.sessions session⟩)
          (Session.After P c now ⟨w.db, w.sessions session⟩) :=
        Call.run_after lasting meets.db (meets.fits session) sound
          (fun key => written session c key rfl) (fun key => persists session c key rfl) now
      have kept : ∀ next : Session, Session.After P c now ⟨w.db, w.sessions session⟩ next →
          World.Meets P ⟨next.db, Function.update w.sessions session next.transactions⟩ ∧
          (Event.call session c).Stacks now w
            ⟨next.db, Function.update w.sessions session next.transactions⟩ := by
        rintro next ⟨holds, changed⟩
        have nextFits : ∀ tx ∈ next.transactions, tx.Fits := by
          rcases changed with stackEq | stackEq
          · rw [stackEq]
            exact Call.stack_fits sound now (meets.fits session)
          · rw [stackEq]
            exact meets.fits session
        refine ⟨⟨holds, fun other => ?_⟩, fun other => ?_⟩
        · change ∀ tx ∈ Function.update w.sessions session next.transactions other, tx.Fits
          by_cases same : other = session
          · rw [same, Function.update_self]
            exact nextFits
          · rw [Function.update_of_ne same]
            exact meets.fits other
        · change Function.update w.sessions session next.transactions other = _ ∨
            ∃ _, _ ∧ Function.update w.sessions session next.transactions other = _
          by_cases same : other = session
          · subst same
            rw [Function.update_self]
            exact changed.symm.imp id fun stackEq => ⟨c, rfl, stackEq⟩
          · rw [Function.update_of_ne same]
            exact .inl rfl
      refine .andThen (.zoom ?_) fun _ _ holds => .pure holds
      exact .mono (.attempted called) (fun _ => kept) kept
  | evict order =>
      exact World.onDB_meets meets (DB.evictExpired_meets lasting meets.db now order) now
  | compact indexOrder logOrder =>
      refine .andThen (World.onDB_meets meets (.attempted
        (DB.compact_meets lasting meets.db sound now indexOrder logOrder)) now)
        fun _ _ holds => .pure holds
  | flush =>
      exact .andThen (World.onDB_meets meets (meets.db.of_logged (DB.drain_logged w.db)) now)
        fun _ _ holds => .pure holds

end Events

/-! ## Courses -/

/-- An open database, a run of events on it, and the outcomes of the writes in the run. -/
structure Course where
  start : DB
  run : Run
  faults : List Fault

namespace Course

/-- The world after the first steps. -/
def after (c : Course) (before : Run) : World :=
  (before.exec (World.ofDB c.start) c.faults).state

/-- The world at the end. -/
def final (c : Course) : World :=
  c.after c.run

/-- Every step is taken in a world that meets the condition. -/
def Along (c : Course) (condition : Clock × Event → World → Prop) : Prop :=
  ∀ before step later, c.run = before ++ step :: later → condition step (c.after before)

/-- The outcomes that are left for the writes after the first steps. -/
def left (c : Course) (before : Run) : List Fault :=
  (before.exec (World.ofDB c.start) c.faults).faults

/-- A step that is taken changes the world, and a run that has ended goes on no more. -/
theorem after_concat (c : Course) (before : Run) (step : Clock × Event) :
    c.after (before ++ [step]) = c.after before ∨
      c.after (before ++ [step]) = (step.2.run step.1 (c.after before) (c.left before)).state := by
  unfold after left Run.exec
  rw [Exec.each_concat]
  set first := Exec.each before fun step : Clock × Event => step.2.run step.1
  cases outcome : (first (World.ofDB c.start) c.faults).res with
  | ok value => exact .inr (by simp only [Exec.bind, outcome])
  | err | panic | hang => exact .inl (by simp only [Exec.bind, outcome])

/-- What every step keeps holds from some point of the run to a later one. -/
theorem after_induction (c : Course) {before middle : Run} {inv : World → Prop}
    (init : inv (c.after before))
    (keeps : ∀ first step rest, middle = first ++ step :: rest →
      inv (c.after (before ++ first)) →
      inv (step.2.run step.1 (c.after (before ++ first)) (c.left (before ++ first))).state) :
    inv (c.after (before ++ middle)) := by
  have reached : ∀ first rest, middle = first ++ rest → inv (c.after (before ++ first)) := by
    intro first
    induction first using List.reverseRecOn with
    | nil =>
        intro _ _
        rw [List.append_nil]
        exact init
    | append_singleton first step ih =>
        intro rest split
        rw [List.append_assoc] at split
        have holds := ih _ split
        rw [← List.append_assoc]
        rcases c.after_concat (before ++ first) step with same | next
        · rw [same]
          exact holds
        · rw [next]
          exact keeps first step rest split holds
  exact reached middle [] (List.append_nil middle).symm

/-- In every world of a course the index stands for some map. -/
theorem meets_true {c : Course} (opened : c.start.Meets fun _ => True)
    (sound : c.Along fun step w => step.2.Sound w) {before later : Run}
    (split : c.run = before ++ later) : (c.after before).Meets fun _ => True := by
  have lasting : DB.Lasting (fun _ => True) fun _ => True :=
    ⟨fun _ _ _ _ => id, fun _ _ => id, fun _ _ => id⟩
  refine @after_induction c [] before (World.Meets fun _ => True)
    ⟨opened, fun _ _ mem => absurd mem List.not_mem_nil⟩ ?_
  intro first step rest isSplit meets
  have isSound := sound first step (rest ++ later) (by rw [split, isSplit, List.append_assoc]; rfl)
  have ends : (step.2.run step.1).Ends _ _ _ := Event.run_meets lasting meets isSound
    (fun _ _ _ _ _ => trivial) fun _ _ _ _ _ _ _ _ _ _ _ _ => trivial
  exact (Exec.Ends.leaves ends _).1

/-- A course without faults, as far as there is room for everything. -/
theorem after_of_returns {c : Course} (noFaults : c.faults = []) {before : Run}
    {post : World → Prop}
    (returns : before.exec.Returns True (World.ofDB c.start) fun _ w => post w) :
    post (c.after before) := by
  unfold after
  rw [noFaults]
  rcases returns.correct [] (returns.undisturbed trivial).1 with ⟨_, _, holds⟩
  exact holds

end Course

/-- The course of a history. -/
def History.course (h : History) : Course :=
  ⟨h.opened.state, h.run, h.faults⟩

theorem History.course_start (h : History) : h.course.start = h.opened.state :=
  rfl

end BriseDB
