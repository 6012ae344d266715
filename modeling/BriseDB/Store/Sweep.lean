import BriseDB.Store.Expiry
import BriseDB.Store.LastWrite

/-!
# The expiry cache and the index

`evictExpired` decides by the expiry cache alone which keys it deletes.  `Set`, `SetEX`
and `Persist` change the index first and the cache second, the blob calls and commits the
cache first and the index second, and none of them undoes the first change if the second
fails.  So a failed write can leave a cached expiry for an entry that has none, or an
entry with an expiry that is not cached.

As long as no write to the index fails, index and cache agree on the expiry of every key in
the index, and eviction removes what has expired.  Writes to the volumes and to the log may
fail.
-/

namespace BriseDB

open Index (Content)

/-- What is left of a map without some keys. -/
def Index.Content.without (content : Content) (gone : List Key) : Content :=
  fun key => if key ∈ gone then none else content key

theorem Index.Content.without_nil (content : Content) : Content.without content [] = content := by
  funext key
  simp [Content.without]

theorem Index.Content.without_concat (content : Content) (gone : List Key) (key : Key) :
    Content.without content (gone ++ [key]) =
      Function.update (Content.without content gone) key none := by
  funext other
  by_cases same : other = key
  · simp [Content.without, same]
  · simp [Content.without, same]

namespace DB

/-- `next` is `db` after the given keys have been evicted. -/
structure Swept (db next : DB) (content : Content) (gone : List Key) : Prop where
  holding : next.Holding (content.without gone)
  elsewhere : ∀ shard, (∀ key ∈ gone, shardIndex key ≠ shard) →
    next.expiry shard = db.expiry shard
  others : ∀ key ∉ gone, next.expiring key = db.expiring key
  length : next.hindex.writePos = db.hindex.writePos + (gone.map indexCost).sum

theorem Holding.inShards {db : DB} {content : Content} (holding : db.Holding content) :
    db.CachedInShards :=
  fun shard key isCached => (holding.cached shard key isCached).1

/-- `evictExpired` deletes the keys whose cached expiry has passed, whatever writes have
failed before. -/
theorem evictExpired_sweeps {db : DB} {content : Content} {room : Prop}
    (holding : db.Holding content) (now : Time) (order : Fin numShards → RangeOrder Key)
    (roomy : room → db.hindex.writePos + ((db.evictions now order).map indexCost).sum ≤
      File.maxSize) :
    (evictExpired now order).Returns room db fun _ next =>
      Swept db next content (db.evictions now order) := by
  refine @evictExpired_along db room (fun gone mid => Swept db mid content gone) holding.inShards
    now order ⟨?_, fun _ _ => rfl, fun _ _ => rfl, rfl⟩ (fun _ _ swept => swept.elsewhere) ?_
  · rw [Index.Content.without_nil]
    exact holding
  · intro gone key later mid split swept
    obtain ⟨instant, cached, _⟩ := (mem_evictions holding.inShards now order key).mp
      (by simp [split])
    have keyFits := (holding.cached (shardIndex key) key
      (by rw [show (db.expiry (shardIndex key)).lookup key = _ from cached]; rfl)).2
    have midRoom : room → mid.hindex.writePos + indexCost key ≤ File.maxSize := by
      intro enough
      have total := roomy enough
      rw [split, List.map_append, List.sum_append, List.map_cons, List.sum_cons] at total
      rw [swept.length]
      omega
    have deleted : (onIndex (Index.delete key)).Returns room mid _ :=
      Exec.Returns.zoom (swept.holding.index.delete_returns keyFits midRoom)
    refine .bind_attempt deleted ?_
    rintro _ _ ⟨hindex, rfl, positionEq, stores⟩
    rw [← Index.Content.without_concat] at stores
    have held : { mid with hindex := hindex }.Holding (content.without (gone ++ [key])) :=
      ⟨stores, swept.holding.cached⟩
    refine .modify ⟨held.cacheIn _ none (by simp), fun shard others => ?_,
      fun other notGone => ?_, ?_⟩
    · have notKey := others key (List.mem_append_right _ List.mem_cons_self)
      change Function.update mid.expiry (shardIndex key) _ shard = _
      rw [Function.update_of_ne (Ne.symm notKey)]
      exact swept.elsewhere shard fun other mem => others other (List.mem_append_left _ mem)
    · rw [List.mem_append, List.mem_singleton, not_or] at notGone
      rw [cacheIn_expiring, if_neg notGone.2]
      exact swept.others other notGone.1
    · change hindex.writePos = _
      rw [positionEq, swept.length, List.map_append, List.sum_append, List.map_singleton,
        List.sum_singleton, Nat.add_assoc]
      rfl

/-! ## What eviction should remove -/

/-- Every key whose entry has expired is gone, and every other key has the entry it had. -/
def Evicts (now : Time) (db next : DB) : Prop :=
  ∀ key found, Index.get db.hindex key = .ok found →
    Index.get next.hindex key =
      .ok (found.filter fun entry => ¬ Session.expiredAt now entry.2)

end DB

/-! ## Keeping index and cache in agreement -/

namespace DB

/-- The cache has the expiry of every entry of the map, up to one key. -/
def TellsBut (except : Key) (db : DB) (content : Content) : Prop :=
  ∀ key addr expiresAt, key ≠ except → content key = some (addr, expiresAt) →
    db.expiring key = cachedFor expiresAt

/-- The cache has the expiry of every entry in the index. -/
def Agreed (db : DB) : Prop :=
  ∃ content, db.Holding content ∧ ∀ key addr expiresAt, content key = some (addr, expiresAt) →
    db.expiring key = cachedFor expiresAt

/-- Eviction then removes what has expired. -/
theorem Swept.evicts {db next : DB} {content : Content} (holding : db.Holding content)
    (tells : ∀ key addr expiresAt, content key = some (addr, expiresAt) →
      db.expiring key = cachedFor expiresAt) {now : Time} {order : Fin numShards → RangeOrder Key}
    (swept : Swept db next content (db.evictions now order)) : Evicts now db next := by
  intro key found isFound
  rw [holding.index.get_eq] at isFound
  obtain rfl := Res.ok.inj isFound
  rw [swept.holding.index.get_eq, Index.Content.without]
  cases isEntry : content key with
  | none => simp
  | some entry =>
      have gone : key ∈ db.evictions now order ↔ Session.expiredAt now entry.2 := by
        rw [mem_evictions holding.inShards, tells key _ _ isEntry, cachedFor, Session.expiredAt]
        by_cases expires : 0 < entry.2
        · simp [expires]
        · simp [expires]
      simp [gone, Option.filter]

theorem Same.agreed {db next : DB} (same : Same db next) (agreed : db.Agreed) : next.Agreed := by
  rcases agreed with ⟨content, holding, tells⟩
  refine ⟨content, same.holding holding, fun key addr expiresAt isEntry => ?_⟩
  rw [expiring, same.2]
  exact tells key addr expiresAt isEntry

/-- A call that touches neither the index nor the cache. -/
theorem Agreed.of_same {db : DB} {α : Type} {call : Exec DB α} (agreed : db.Agreed)
    (ends : call.Ends db (fun _ => Same db) (Same db)) :
    call.Ends db (fun _ => Agreed) Agreed :=
  .mono ends (fun _ _ same => same.agreed agreed) fun _ same => same.agreed agreed

section

variable {db : DB} {content : Content} {key : Key} {entry : NeedleAddr × Int64}

/-- Entering a key with the expiry that is cached for it. -/
theorem TellsBut.set (tells : db.TellsBut key content)
    (holding : db.Holding (Function.update content key (some entry)))
    (cached : db.expiring key = cachedFor entry.2) : db.Agreed := by
  refine ⟨_, holding, fun other addr expiresAt isEntry => ?_⟩
  by_cases same : other = key
  · subst same
    rw [Function.update_self] at isEntry
    rw [cached, Option.some.inj isEntry]
  · rw [Function.update_of_ne same] at isEntry
    exact tells other addr expiresAt same isEntry

theorem TellsBut.cacheIn (tells : db.TellsBut key content) (cached : Option Time) :
    (DB.cacheIn (shardIndex key) key cached db).TellsBut key content := by
  intro other addr expiresAt different isEntry
  rw [cacheIn_expiring, if_neg different]
  exact tells other addr expiresAt different isEntry

/-- Removing entries keeps the agreement. -/
theorem Agreed.fewer {next : DB} {after : Content} (holding : next.Holding after)
    (tells : ∀ key addr expiresAt, content key = some (addr, expiresAt) →
      db.expiring key = cachedFor expiresAt)
    (fewer : ∀ key found, after key = some found →
      content key = some found ∧ next.expiring key = db.expiring key) : next.Agreed := by
  refine ⟨after, holding, fun key addr expiresAt isEntry => ?_⟩
  rcases fewer key _ isEntry with ⟨wasEntry, same⟩
  rw [same]
  exact tells key addr expiresAt wasEntry

/-- Removing a key from the index, and maybe from the cache. -/
theorem Agreed.delete {hindex : Index.HashIndex} (holding : db.Holding content)
    (tells : ∀ key addr expiresAt, content key = some (addr, expiresAt) →
      db.expiring key = cachedFor expiresAt)
    (stores : Index.Stores hindex (Function.update content key none)) :
    { db with hindex := hindex }.Agreed ∧
      (DB.cacheIn (shardIndex key) key none { db with hindex := hindex }).Agreed := by
  have held : { db with hindex := hindex }.Holding (Function.update content key none) :=
    ⟨stores, holding.cached⟩
  have isOther : ∀ other found, Function.update content key none other = some found →
      other ≠ key ∧ content other = some found := by
    intro other found isEntry
    by_cases same : other = key
    · rw [same, Function.update_self] at isEntry
      cases isEntry
    · rw [Function.update_of_ne same] at isEntry
      exact ⟨same, isEntry⟩
  refine ⟨.fewer held tells fun other found isEntry => ⟨(isOther other found isEntry).2, rfl⟩,
    .fewer (held.cacheIn _ none (by simp)) tells fun other found isEntry => ?_⟩
  rcases isOther other found isEntry with ⟨different, wasEntry⟩
  rw [cacheIn_expiring, if_neg different]
  exact ⟨wasEntry, rfl⟩

theorem Agreed.uncache (agreed : db.Agreed) (absent : Index.get db.hindex key = .ok none) :
    (DB.cacheIn (shardIndex key) key none db).Agreed := by
  rcases agreed with ⟨content, holding, tells⟩
  refine .fewer (holding.cacheIn _ none (by simp)) tells fun other found isEntry => ⟨isEntry, ?_⟩
  rw [cacheIn_expiring, if_neg]
  rintro rfl
  rw [holding.index.get_eq, isEntry] at absent
  cases absent

end

/-! ### Background work -/

theorem evictExpired_agreed {db : DB} (agreed : db.Agreed) (now : Time)
    (order : Fin numShards → RangeOrder Key) :
    (evictExpired now order).Returns False db fun _ => Agreed := by
  rcases agreed with ⟨content, holding, tells⟩
  refine .mono (evictExpired_sweeps holding now order False.elim) ?_
  intro _ next swept
  refine .fewer swept.holding tells fun key found isEntry => ?_
  unfold Index.Content.without at isEntry
  split at isEntry
  · cases isEntry
  · next notGone => exact ⟨isEntry, swept.others key notGone⟩

theorem compact_agreed {db : DB} (agreed : db.Agreed) (noTmp : db.hindex.tmp = []) (now : Clock)
    (indexOrder logOrder : RangeOrder Key) :
    (compact now indexOrder logOrder).Ends db (fun _ => Agreed) Agreed := by
  have compacted : (onIndex (Index.compact now indexOrder)).Ends db (fun _ => Agreed) Agreed := by
    rcases agreed with ⟨content, holding, tells⟩
    have ends := holding.index.compact_ends noTmp (Time.unixNano now) indexOrder
    rw [Clock.ofNano_unixNano] at ends
    refine .zoom (.mono ends ?_ ?_)
    · exact fun _ _ stores => .fewer ⟨stores, holding.cached⟩ tells
        fun key found isEntry => ⟨(Index.prune_eq_some.mp isEntry).1, rfl⟩
    · exact fun _ stores => ⟨content, ⟨stores, holding.cached⟩, tells⟩
  refine .andThen (.wrap compacted) fun _ next nextAgreed => ?_
  refine .andThen (nextAgreed.of_same (rewriteWAL_logged _ _ next).left)
    fun _ after afterAgreed => ?_
  exact afterAgreed.of_same (swapWAL_logged after).left

end DB

/-! ### Locked sections -/

namespace Session

open DB (Agreed Same cachedFor)

variable {db : DB} {key : Key}

theorem setIndexFirst_agreed (agreed : db.Agreed) (keyFits : key.length ≤ 65535)
    (context : String) (addr : NeedleAddr) {expiresAt : Int64} {cached : Option Time}
    (cachedEq : cached = cachedFor expiresAt) :
    (setIndexFirst context key addr expiresAt cached).Returns False db fun _ => Agreed := by
  rcases agreed with ⟨content, holding, tells⟩
  refine .bind (.wrap (.zoom (holding.index.set_returns keyFits addr expiresAt))) ?_
  rintro _ _ ⟨hindex, rfl, stores⟩
  have held : { db with hindex := hindex }.Holding
      (Function.update content key (some (addr, expiresAt))) := ⟨stores, holding.cached⟩
  have tellsBut : { db with hindex := hindex }.TellsBut key content :=
    fun other addr expiresAt _ => tells other addr expiresAt
  refine .modify ((tellsBut.cacheIn cached).set (held.cacheIn _ cached fun _ => ⟨rfl, keyFits⟩) ?_)
  rw [DB.cacheIn_expiring, if_pos rfl, cachedEq]

theorem setExpiryFirst_agreed (agreed : db.Agreed) (keyFits : key.length ≤ 65535)
    (context : String) (addr : NeedleAddr) {expiresAt : Int64} {cached : Option Time}
    (cachedEq : cached = cachedFor expiresAt) :
    (setExpiryFirst context key addr expiresAt cached).Returns False db fun _ => Agreed := by
  rcases agreed with ⟨content, holding, tells⟩
  have held := holding.cacheIn (shardIndex key) cached fun _ => ⟨rfl, keyFits⟩
  have tellsBut : db.TellsBut key content :=
    fun other addr expiresAt _ => tells other addr expiresAt
  refine .bind_modify (.mono (.wrap (.zoom (held.index.set_returns keyFits addr expiresAt))) ?_)
  rintro _ _ ⟨hindex, rfl, stores⟩
  refine DB.TellsBut.set (tellsBut.cacheIn cached) ⟨stores, held.cached⟩ ?_
  change (DB.cacheIn (shardIndex key) key cached db).expiring key = _
  rw [DB.cacheIn_expiring, if_pos rfl, cachedEq]

theorem persistLocked_agreed (agreed : db.Agreed) (key : Key) :
    (persistLocked key).Returns False db fun _ => Agreed := by
  have whole := agreed
  rcases agreed with ⟨content, holding, tells⟩
  refine .bind_ask (holding.index.get_eq key) ?_
  rcases isEntry : content key with _ | ⟨addr, expiresAt⟩
  · exact .pure whole
  · have keyFits := holding.index.key_fits isEntry
    change (if expiresAt = 0 then _ else _ : Exec DB Bool).Returns False db _
    split
    · exact .pure whole
    · refine .bind_attempt (.zoom (holding.index.set_returns keyFits addr 0)) ?_
      rintro _ _ ⟨hindex, rfl, stores⟩
      have held : { db with hindex := hindex }.Holding
          (Function.update content key (some (addr, 0))) := ⟨stores, holding.cached⟩
      have tellsBut : { db with hindex := hindex }.TellsBut key content :=
        fun other addr expiresAt _ => tells other addr expiresAt
      refine .bind_modify (.pure ((tellsBut.cacheIn none).set (held.cacheIn _ none (by simp)) ?_))
      rw [DB.cacheIn_expiring, if_pos rfl]
      rfl

theorem commitDelete_agreed (agreed : db.Agreed) (key : Key) :
    (commitDelete key).Returns False db fun _ => Agreed := by
  have whole := agreed
  rcases agreed with ⟨content, holding, tells⟩
  have answer := holding.index.get_eq key
  refine .bind_ask answer ?_
  cases isEntry : content key with
  | none =>
      rw [isEntry] at answer
      exact .modify (whole.uncache answer)
  | some entry =>
      refine .bind (.wrap (.zoom
        (holding.index.delete_returns (holding.index.key_fits isEntry) False.elim))) ?_
      rintro _ _ ⟨hindex, rfl, _, stores⟩
      exact .modify (Agreed.delete holding tells stores).2

theorem commitLocked_agreed (agreed : db.Agreed) {sets : List PendingSet}
    (fits : ∀ ps ∈ sets, ps.key.length ≤ 65535) (deletes : List Key) :
    (commitLocked sets deletes).Returns False db fun _ => Agreed := by
  refine .bind (.each (fun _ => Agreed) ?_ agreed)
    fun _ next nextAgreed => .each (fun _ => Agreed) ?_ nextAgreed
  · intro _ ps _ state split stateAgreed
    exact setExpiryFirst_agreed stateAgreed (fits ps (by simp [split])) _ _ rfl
  · exact fun _ key _ state _ stateAgreed => commitDelete_agreed stateAgreed key

theorem publish_same (logged sent : WalEntry) (db : DB) :
    (DB.writeWAL logged >>= fun _ => DB.fanout sent).Ends db (fun _ => Same db) (Same db) := by
  refine .bind (DB.writeWAL_logged logged db).left fun _ next same => ?_
  exact .modify same

theorem deleteNow_agreed (agreed : db.Agreed) (key : Key) :
    (deleteNow key).Ends db (fun _ => Agreed) Agreed := by
  have locked : (deleteLocked key).Ends db (fun _ => Agreed) Agreed := by
    refine .bind_query agreed fun found answer => ?_
    cases found with
    | none => exact .pure agreed
    | some entry =>
        rcases id agreed with ⟨content, holding, tells⟩
        rw [holding.index.get_eq] at answer
        have ends := holding.index.delete_ends (holding.index.key_fits (Res.ok.inj answer))
        have deleted : (DB.onIndex (Index.delete key)).Ends db
            (fun _ next => (DB.cacheIn (shardIndex key) key none next).Agreed) Agreed := by
          refine .zoom (.mono ends ?_ ?_)
          · exact fun _ _ ended => (Agreed.delete holding tells ended.2).2
          · rintro hindex ⟨_, stores | stores⟩
            · exact ⟨content, ⟨stores, holding.cached⟩, tells⟩
            · exact (Agreed.delete holding tells stores).1
        refine .bind (.wrap deleted) fun _ next uncached => ?_
        exact .bind_modify (.pure uncached)
  refine .andThen locked fun existed next nextAgreed => ?_
  split
  · exact nextAgreed.of_same (publish_same _ _ next)
  · exact .pure nextAgreed

/-- A call in three parts: the first writes to the volumes, the second to the index and the
cache, the last to the log.  Only the writes of the second must not fail. -/
theorem parts_agreed {α β γ : Type} {first : Exec DB α} {locked : α → Exec DB β}
    {last : α → β → Exec DB γ} {found : α → Prop} (agreed : db.Agreed) {faults : List Fault}
    (stored : first.Ends db (fun value next => Same db next ∧ found value) (Same db))
    (entered : ∀ value next, found value → next.Agreed →
      (locked value).Returns False next fun _ => Agreed)
    (logged : ∀ value answer next,
      (last value answer).Ends next (fun _ => Same next) (Same next))
    (clean : first.CleanAfter locked db faults) :
    ((first >>= fun value => locked value >>= last value) db faults).state.Agreed := by
  have same : Same db (first db faults).state :=
    Exec.Ends.leaves (.mono stored (fun _ _ => And.left) fun _ => id) faults
  refine Exec.bind_leaves (same.agreed agreed) fun value returned => ?_
  rcases (entered value _ (stored.returned returned).2 (same.agreed agreed)).correct _
    (clean value returned) with ⟨answer, ended, lockedAgreed⟩
  refine Exec.bind_leaves lockedAgreed fun answer _ => ?_
  exact (lockedAgreed.of_same (logged value answer _)).leaves _

theorem cachedFor_unixNano {exp : Time} (positive : 0 < exp) (inRange : exp < 2 ^ 63) :
    some exp = cachedFor (Time.unixNano exp) := by
  have stored : Time.ofNano (Time.unixNano exp) = exp :=
    Time.ofNano_unixNano (le_trans (by norm_num) positive.le) inRange
  have isPositive : 0 < Time.unixNano exp :=
    Int64.lt_iff_toInt_lt.mpr (lt_of_lt_of_eq positive stored.symm)
  rw [cachedFor, if_pos isPositive, stored]

theorem cachedFor_blobExpiresAt {now : Clock} {ttl : Int64} (inRange : now + ttl.toInt < 2 ^ 63) :
    blobExpiry ttl now = cachedFor (blobExpiresAt (blobExpiry ttl now)) := by
  rcases isExpiry : blobExpiry ttl now with _ | instant
  · rfl
  · have positive := blobExpiry_pos now isExpiry
    unfold blobExpiry at isExpiry
    split at isExpiry
    · obtain rfl := Option.some.inj isExpiry
      exact cachedFor_unixNano positive inRange
    · cases isExpiry

theorem commitLog_same (sets : List PendingSet) (deletes : List Key) (db : DB) :
    (commitLog sets deletes).Ends db (fun _ => Same db) (Same db) := by
  have publishes : ∀ logged sent next, Same db next →
      (DB.writeWAL logged >>= fun _ => DB.fanout sent).Ends next (fun _ => Same db) (Same db) :=
    fun logged sent next same => .mono (publish_same logged sent next)
      (fun _ _ after => ⟨after.1.trans same.1, after.2.trans same.2⟩)
      fun _ after => ⟨after.1.trans same.1, after.2.trans same.2⟩
  refine .andThen (.each (.refl db) fun ps _ next same => publishes _ _ next same)
    fun _ next same => ?_
  exact .each same fun key _ next same => publishes _ _ next same

theorem commitNow_agreed (agreed : db.Agreed) {active : Transaction} (fits : active.Fits)
    {order : CommitOrder} {faults : List Fault}
    (written : (writeBlobs active (active.store.range order.store)).CleanAfter
      (fun sets => commitLocked sets ((active.deleted.range order.deleted).map Prod.fst))
      db faults) :
    (commitNow active order db faults).state.Agreed := by
  refine parts_agreed agreed (writeBlobs_same db active _)
    (fun sets next keysEq nextAgreed => commitLocked_agreed nextAgreed (fun ps mem => ?_) _)
    (fun sets _ => commitLog_same sets _) written
  rcases PendingSet.stored keysEq mem with ⟨value, isStored⟩
  exact fits ps.key value isStored

theorem popTransaction_agreed {s : Session} (agreed : s.db.Agreed) :
    popTransaction.Ends s (fun _ next => next.db.Agreed) fun next => next.db.Agreed := by
  refine .bind_state ?_
  split
  · exact .throw agreed
  · exact .put agreed

end Session

/-! ### Calls and events -/

section

open Session

/-- No write of the call to the index fails, if it comes to that: the part of a call that
holds the locks of the keys writes to the index only. -/
def Call.IndexWritten (now : Time) (s : Session) (faults : List Fault) : Call → Prop
  | set key value => s.transactions = [] →
      (Exec.wrap "set: write volume" (DB.onVolumes (VolumePool.write value))).CleanAfter
        (fun addr => setIndexFirst "set: update index" key addr 0 none) s.db faults
  | setEX key value ttl => ¬ ttl ≤ 0 → s.transactions = [] →
      (Exec.wrap "setex: write volume" (DB.onVolumes (VolumePool.write value))).CleanAfter
        (fun addr => setIndexFirst "setex: update index" key addr
          (Time.unixNano (now + ttl.toInt)) (some (now + ttl.toInt))) s.db faults
  | setBlob key data ttl =>
      (Exec.wrap "setblob: write volume" (DB.onVolumes (VolumePool.write data))).CleanAfter
        (fun addr => setExpiryFirst "setblob: update index" key addr
          (blobExpiresAt (blobExpiry ttl now)) (blobExpiry ttl now)) s.db faults
  | setBlobStream key r size ttl =>
      (Exec.wrap "setblobstream: write volume"
        (DB.onVolumes (VolumePool.writeStream r size))).CleanAfter
        (fun addr => setExpiryFirst "setblobstream: update index" key addr
          (blobExpiresAt (blobExpiry ttl now)) (blobExpiry ttl now)) s.db faults
  | persist key => (Call.persist key).Persists s.transactions key →
      (persistLocked key s.db faults).failed = false
  | commit order => ∀ active, s.transactions = [active] →
      (writeBlobs active (active.store.range order.store)).CleanAfter
        (fun sets => commitLocked sets ((active.deleted.range order.deleted).map Prod.fst))
        s.db faults
  | _ => True

variable {s : Session} {c : Call} {faults : List Fault}

theorem Call.run_agreed (agreed : s.db.Agreed) (fits : ∀ tx ∈ s.transactions, tx.Fits)
    (keyFits : ∀ key, c.Writes key → key.length ≤ 65535) {now : Clock}
    (expiryFits : c.ExpiryFits now) (written : c.IndexWritten now s faults) :
    (c.run now s faults).state.db.Agreed := by
  rcases s with ⟨db, stack⟩
  have stored : ∀ {context : String} {call : Exec VolumePool NeedleAddr},
      (Exec.wrap context (DB.onVolumes call)).Ends db (fun _ next => DB.Same db next ∧ True)
        (DB.Same db) :=
    fun {_ call} => .wrap (.mono (DB.onVolumes_same call db)
      (fun _ _ same => ⟨same, trivial⟩) fun _ => id)
  cases c with
  | set key value =>
      cases stack with
      | cons active rest => exact agreed
      | nil =>
          exact parts_agreed agreed stored
            (fun addr next _ nextAgreed => setIndexFirst_agreed nextAgreed (keyFits key rfl) _
              addr rfl)
            (fun _ _ => publish_same _ _) (written rfl)
  | setEX key value ttl =>
      change ((if ttl ≤ 0 then _ else _ : Exec Session Unit) _ _).state.db.Agreed
      split
      · exact agreed
      · next positive =>
        rw [Exec.bind_state_apply]
        cases stack with
        | cons active rest => exact agreed
        | nil =>
            exact parts_agreed agreed stored
              (fun addr next _ nextAgreed => setIndexFirst_agreed nextAgreed
                (keyFits key rfl) _ addr
                (cachedFor_unixNano (expiry_pos now (Int64.not_le.mp positive)) expiryFits))
              (fun _ _ => publish_same _ _) (written positive rfl)
  | setBlob key data ttl =>
      exact parts_agreed agreed stored
        (fun addr next _ nextAgreed => setExpiryFirst_agreed nextAgreed (keyFits key rfl) _ addr
          (cachedFor_blobExpiresAt expiryFits))
        (fun _ _ => publish_same _ _) written
  | setBlobStream key r size ttl =>
      exact parts_agreed agreed stored
        (fun addr next _ nextAgreed => setExpiryFirst_agreed nextAgreed (keyFits key rfl) _ addr
          (cachedFor_blobExpiresAt expiryFits))
        (fun _ _ next => (DB.writeWAL_logged _ next).left) written
  | delete key =>
      cases stack with
      | cons active rest => exact agreed
      | nil => exact (deleteNow_agreed agreed key).leaves faults
  | persist key =>
      have persisted : (Call.persist key).Persists stack key →
          (onDB (persistLocked key) ⟨db, stack⟩ faults).state.db.Agreed := by
        intro persists
        rcases (persistLocked_agreed agreed key).correct faults (written persists) with
          ⟨_, _, after⟩
        exact after
      change ((Session.persist key >>= fun _ => pure ()) _ _).state.db.Agreed
      rw [Exec.drop_state]
      cases stack with
      | nil => exact persisted ⟨rfl, by simp⟩
      | cons active rest =>
          change ((if (active.store.lookup key).isSome then _ else _ : Exec Session Bool)
            _ _).state.db.Agreed
          split
          · exact agreed
          · next notStored => exact persisted ⟨rfl, notStored⟩
  | get key =>
      have ends : (Session.get key now).Ends ⟨db, stack⟩ (fun _ next => next.db.Agreed)
          fun next => next.db.Agreed := by
        refine .bind_state ?_
        split
        · exact .pure agreed
        · exact .zoom (agreed.of_same (getNow_same db key now))
      change ((Session.get key now >>= fun _ => pure ()) _ _).state.db.Agreed
      rw [Exec.drop_state]
      exact ends.leaves faults
  | begin => exact agreed
  | commit order =>
      rcases stack with _ | ⟨active, _ | ⟨parent, rest⟩⟩
      · exact agreed
      · have committed : (commitNow active order db faults).state.Agreed :=
          commitNow_agreed agreed (fits active List.mem_cons_self) (written active rfl)
        have ended : ((onDB (commitNow active order) >>= fun _ => popTransaction)
            ⟨db, [active]⟩ faults).state.db.Agreed :=
          @Exec.bind_leaves _ _ _ _ _ _ _ (fun next : Session => next.db.Agreed) committed
            fun _ _ => (popTransaction_agreed committed).leaves _
        exact ended
      · exact agreed
  | rollback => exact (popTransaction_agreed agreed).leaves faults

/-- In particular, a call without any failed write. -/
theorem Call.indexWritten_of_clean {now : Time} (clean : (c.run now s faults).failed = false) :
    c.IndexWritten now s faults := by
  rcases s with ⟨db, stack⟩
  cases c with
  | set key value =>
      rintro rfl
      exact Exec.cleanAfter_of_bind clean
  | setEX key value ttl =>
      rintro positive rfl
      change ((if ttl ≤ 0 then _ else _ : Exec Session Unit) _ _).failed = false at clean
      rw [if_neg positive] at clean
      exact Exec.cleanAfter_of_bind clean
  | setBlob key data ttl => exact Exec.cleanAfter_of_bind clean
  | setBlobStream key r size ttl => exact Exec.cleanAfter_of_bind clean
  | persist key =>
      rintro ⟨_, notStored⟩
      have persisted := Exec.bind_failed_left clean
      cases stack with
      | nil => exact persisted
      | cons active rest =>
          change ¬ (active.store.lookup key).isSome at notStored
          change ((if (active.store.lookup key).isSome then _ else _ : Exec Session Bool)
            _ _).failed = false at persisted
          rw [if_neg notStored] at persisted
          exact persisted
  | commit order =>
      rintro active rfl
      have committed : ((onDB (commitNow active order) >>= fun _ => popTransaction)
          ⟨db, [active]⟩ faults).failed = false := clean
      have stored : (commitNow active order db faults).failed = false :=
        @Exec.bind_failed_left Session _ _ (onDB (commitNow active order)) _ _ _ committed
      exact Exec.cleanAfter_of_bind stored
  | delete | get | begin | rollback => trivial

/-- No write of the event to the index fails.  `Delete` and `Compact` may fail. -/
def Event.IndexWritten (now : Clock) (w : World) (faults : List Fault) : Event → Prop
  | call session c => c.IndexWritten now ⟨w.db, w.sessions session⟩ faults
  | evict order => (DB.evictExpired now order w.db faults).failed = false
  | _ => True

theorem Event.run_agreed {w : World} {event : Event} (agreed : w.db.Agreed)
    (fits : ∀ session, ∀ tx ∈ w.sessions session, tx.Fits) (sound : event.Sound w) {now : Clock}
    (expiryFits : event.ExpiryFits now) (written : event.IndexWritten now w faults) :
    (event.run now w faults).state.db.Agreed := by
  cases event with
  | call session c =>
      have called := Call.run_agreed agreed (fits session) sound expiryFits written
      change ((World.onSession session (Exec.attempt (c.run now)) >>= fun _ => pure ()) w
        faults).state.db.Agreed
      rw [Exec.drop_state]
      change (Exec.attempt (c.run now) ⟨w.db, w.sessions session⟩ faults).state.db.Agreed
      rw [Exec.attempt_state]
      exact called
  | evict order =>
      rcases (DB.evictExpired_agreed agreed now order).correct faults written with ⟨_, _, after⟩
      exact after
  | compact indexOrder logOrder =>
      change ((World.onDB (Exec.attempt (DB.compact now indexOrder logOrder)) >>= fun _ => pure ())
        w faults).state.db.Agreed
      rw [Exec.drop_state]
      change (Exec.attempt (DB.compact now indexOrder logOrder) w.db faults).state.Agreed
      rw [Exec.attempt_state]
      exact (DB.compact_agreed agreed sound now indexOrder logOrder).leaves faults
  | flush =>
      change ((World.onDB DB.drain >>= fun _ => pure ()) w faults).state.db.Agreed
      rw [Exec.drop_state]
      exact (agreed.of_same (DB.drain_logged w.db).left).leaves faults

theorem Event.indexWritten_of_clean {w : World} {event : Event} {now : Clock}
    (clean : (event.run now w faults).failed = false) : event.IndexWritten now w faults := by
  cases event with
  | call session c =>
      have called := Exec.bind_failed_left clean
      change (Exec.attempt (c.run now) ⟨w.db, w.sessions session⟩ faults).failed = false at called
      rw [(Exec.Returns.attempt_faults _ _ _).1] at called
      exact Call.indexWritten_of_clean called
  | evict order => exact clean
  | compact | flush => trivial

end

namespace Course

/-- No write to the index fails in the course. -/
def IndexWritten (c : Course) : Prop :=
  ∀ before step later, c.run = before ++ step :: later →
    step.2.IndexWritten step.1 (c.after before) (c.left before)

/-- Index and cache agree all along the course. -/
theorem agreed {c : Course} (opened : c.start.Agreed)
    (sound : c.Along fun step w => step.2.Sound w)
    (expiryFits : ∀ step ∈ c.run, step.2.ExpiryFits step.1) (written : c.IndexWritten)
    {before later : Run} (split : c.run = before ++ later) : (c.after before).db.Agreed := by
  have meets : c.start.Meets fun _ => True := by
    rcases opened with ⟨content, holding, _⟩
    exact ⟨content, holding, trivial⟩
  refine @after_induction c [] before (fun w => w.db.Agreed) opened ?_
  intro first step rest isSplit soFar
  have here : c.run = first ++ step :: (rest ++ later) := by
    rw [split, isSplit, List.append_assoc]
    rfl
  exact Event.run_agreed soFar (meets_true meets sound here).fits (sound first step _ here)
    (expiryFits step (by simp [here])) (written first step _ here)

theorem indexWritten_of_clean {c : Course}
    (returned : (c.run.exec (World.ofDB c.start) c.faults).res = .ok ())
    (clean : (c.run.exec (World.ofDB c.start) c.faults).failed = false) : c.IndexWritten := by
  intro before step later split
  unfold Run.exec at returned clean
  rw [split, Exec.each_append] at returned clean
  refine Event.indexWritten_of_clean ?_
  cases outcome : (Run.exec before (World.ofDB c.start) c.faults).res with
  | ok => exact Exec.cleanAfter_of_bind clean () outcome
  | err | panic | hang =>
      change (Exec.bind (Run.exec before) _ _ _).res = _ at returned
      simp [Exec.bind, outcome] at returned

end Course

/-- Eviction then finds room for the tombstone of the first key. -/
theorem DB.FirstDue.evict {db : DB} {rows : Rows} (due : db.FirstDue rows) :
    (DB.evictExpired Clock.later (fun _ => .asStored _) db []).failed = false := by
  have holding : db.Holding rows.content :=
    ⟨due.stocked.models.index.stores, due.stocked.models.cached⟩
  have perm : (db.evictions Clock.later fun _ => .asStored _).Perm [[97]] := by
    rw [List.perm_ext_iff_of_nodup (DB.nodup_evictions due.stocked.models _ _) (by decide)]
    intro key
    rw [DB.mem_evictions holding.inShards, due.due, List.mem_singleton]
  have sweeps : (DB.evictExpired Clock.later fun _ => .asStored _).Returns True db _ :=
    DB.evictExpired_returns due.stocked.models Clock.later (fun _ => .asStored _)
      fun _ => due.stocked.room.mono (by
        rw [(perm.map DB.indexCost).sum_eq]
        decide)
  exact (sweeps.undisturbed trivial).1

theorem DB.FirstDue.evicted {db next : DB} {rows : Rows} (due : db.FirstDue rows)
    (evicts : DB.Evicts Clock.later db next) :
    Index.get next.hindex [97] = .ok none ∧
      ∃ first second, Index.get db.hindex [97] = .ok (some (first, 10 ^ 18 + 10 ^ 9)) ∧
        Index.get next.hindex [99] = .ok (some (second, 10 ^ 18 + 10 ^ 10)) := by
  rcases due.first with ⟨first, firstRow⟩
  rcases due.second with ⟨second, secondRow⟩
  have firstEq := DB.get_index_eq due.stocked.models [97]
  have secondEq := DB.get_index_eq due.stocked.models [99]
  rw [firstRow, Option.map_some] at firstEq
  rw [secondRow, Option.map_some] at secondEq
  have passed : Session.expiredAt Clock.later (10 ^ 18 + 10 ^ 9) := by decide
  have live : ¬ Session.expiredAt Clock.later (10 ^ 18 + 10 ^ 10) := by decide
  refine ⟨?_, first, second, firstEq, ?_⟩
  · rw [evicts _ _ firstEq, Option.filter_some, if_neg (by simpa using passed)]
  · rw [evicts _ _ secondEq, Option.filter_some, if_pos (by simpa using live)]

/-- A new directory is opened without a failing write. -/
theorem History.opened_empty {h : History} (noFaults : h.openFaults = []) :
    h.opened.res = .ok () ∧ ∃ hindex, h.opened.state = { h.start with hindex := hindex } ∧
      Index.Represents hindex (fun _ => none) ∧ hindex.f.length = DB.freshBytes := by
  have opens : (DB.newBriseDB h.openedAt h.keyOrder).Returns True h.start _ :=
    DB.newBriseDB_empty h.openedAt h.volumeOrder h.keyOrder
  rcases opens.correct [] (opens.undisturbed trivial).1 with
    ⟨_, returned, hindex, openedEq, represents, _, lengthEq⟩
  unfold History.opened
  rw [noFaults]
  exact ⟨returned, hindex, openedEq, represents, lengthEq⟩

theorem Out.eq_mk {σ α : Type} {out : Out σ α} {res : Res α} {rest : List Fault} {failed : Bool}
    (fields : out.res = res ∧ out.faults = rest ∧ out.failed = failed) :
    out = ⟨res, out.state, rest, failed⟩ := by
  obtain ⟨rfl, rfl, rfl⟩ := fields
  rfl

/-- A call of the first session that is over when it has returned an answer or an error. -/
theorem Event.run_call_eq {c : Call} {now : Clock} {db next : DB} {faults rest : List Fault}
    {failed : Bool} {answer : Except String Unit}
    (called : Exec.attempt (c.run now) ⟨db, []⟩ faults = ⟨.ok answer, ⟨next, []⟩, rest, failed⟩) :
    (Event.call 0 c).run now (World.ofDB db) faults = ⟨.ok (), World.ofDB next, rest, failed⟩ := by
  have stackEq : Function.update (fun _ : Nat => ([] : List Transaction)) 0 [] = fun _ => [] :=
    Function.update_eq_self 0 _
  have answered : World.onSession 0 (Exec.attempt (c.run now)) (World.ofDB db) faults =
      ⟨.ok answer, World.ofDB next, rest, failed⟩ := by
    simp only [World.onSession, Exec.zoom, World.ofDB, called, stackEq]
  change (World.onSession 0 (Exec.attempt (c.run now)) >>= fun _ => pure ()) _ _ = _
  rw [Exec.bind_of_value answered]
  exact congrArg (Out.mk _ _ _) (Bool.or_false failed)

section

variable {db : DB} {key : Key} {value : Bytes} {addr : NeedleAddr} {pool : VolumePool}
  {hi : Index.HashIndex} {faults middle rest : List Fault}

/-- A record is queued when the flusher is not waited for and has reported no error. -/
theorem DB.writeWAL_queued (mode : db.fsyncMode = .no) (noError : db.walErr = none)
    (op : WalEntry) (faults : List Fault) :
    DB.writeWAL op db faults =
      ⟨.ok (), { db with walCh := db.walCh ++ [{ op with value := [] }] }, faults, false⟩ := by
  unfold DB.writeWAL
  rw [Exec.bind_state_apply, mode, if_neg (by decide), noError]
  rfl

/-- `Set` when its writes are carried out and the flusher is not waited for. -/
theorem Event.run_set (mode : db.fsyncMode = .no) (noError : db.walErr = none)
    (written : VolumePool.write value db.volumes faults = ⟨.ok addr, pool, middle, false⟩)
    (indexed : Index.set key addr 0 db.hindex middle = ⟨.ok (), hi, rest, false⟩) (now : Clock) :
    ∃ next, (Event.call 0 (.set key value)).run now (World.ofDB db) faults =
        ⟨.ok (), World.ofDB next, rest, false⟩ ∧
      next.volumes = pool ∧ next.hindex = hi ∧
      next.expiry = (db.cacheIn (shardIndex key) key none).expiry := by
  have stored : Exec.wrap "set: write volume" (DB.onVolumes (VolumePool.write value)) db faults =
      ⟨.ok addr, { db with volumes := pool }, middle, false⟩ :=
    Exec.wrap_of_ok _ (Exec.zoom_of_eq written)
  have entered : Exec.wrap "set: update index" (DB.onIndex (Index.set key addr 0))
      { db with volumes := pool } middle =
        ⟨.ok (), { db with volumes := pool, hindex := hi }, rest, false⟩ :=
    Exec.wrap_of_ok _ (Exec.zoom_of_eq indexed)
  have logged := @DB.writeWAL_queued
    (DB.cacheIn (shardIndex key) key none { db with volumes := pool, hindex := hi }) mode noError
    (WalEntry.ofSet key addr 0) rest
  have cached : Session.setIndexFirst "set: update index" key addr 0 none
      { db with volumes := pool } middle =
        ⟨.ok (), DB.cacheIn (shardIndex key) key none { db with volumes := pool, hindex := hi },
          rest, false⟩ :=
    (Exec.bind_of_ok entered).trans rfl
  have set : Session.setNow key value db faults = ⟨.ok (), _, rest, false⟩ :=
    (Exec.bind_of_ok stored).trans
      ((Exec.bind_of_ok cached).trans ((Exec.bind_of_ok logged).trans rfl))
  exact ⟨_, Event.run_call_eq (Exec.attempt_of_ok
    ((Exec.bind_state_apply _).trans (Exec.zoom_of_eq set))), rfl, rfl, rfl⟩

end

theorem History.course_final {h : History} {db : DB} (openedEq : h.opened.state = db) :
    h.course.final = (h.run.exec (World.ofDB db) h.faults).state := by
  subst openedEq
  rfl

namespace History

end History

end BriseDB
