import BriseDB.Volume.Blobs

/-!
# Runs of a pool without replicas

With replication factor 1 every group has the local manager as its only member.
A run writes blobs and streams, reads, registers volumes, and closes the pool and
opens it again.  Each address that is returned was not readable before, so no two
of them are equal, and each stays readable to the end of the run.
-/

namespace BriseDB

open VolumePool (Consulted)

/-- One step of a run. -/
inductive PoolEvent where
  | write (data : Bytes)
  | stream (r : Reader) (size : Int64)
  | read (addr : NeedleAddr)
  | ensure (id : UInt32)
  | reopen (maxVolumeSize cacheBytes : UInt64) (order : RangeOrder UInt32)

namespace PoolEvent

/-- Carry out a step.  A step that stores a blob returns its address together with
the payload. -/
def run : PoolEvent → Exec VolumePool (Option (NeedleAddr × Bytes))
  | write data => do
      let addr ← VolumePool.write data
      pure (some (addr, data))
  | stream r size => do
      let addr ← VolumePool.writeStream r size
      pure (some (addr, r.data))
  | read addr => do
      let _ ← VolumePool.read addr
      pure none
  | ensure id => do
      VolumePool.ensureVolume id
      pure none
  | reopen maxVolumeSize cacheBytes order => do
      VolumePool.writeRegistrySnap
      Exec.modify fun p =>
        VolumePool.newVolumePool
          (VolumeManager.newVolumeManager p.localVM.drives maxVolumeSize p.localVM.files)
          p.remotes p.registryFile p.replicationFactor cacheBytes order
      pure none

/-- A reader yields exactly the announced number of bytes. -/
def Fits : PoolEvent → Prop
  | stream r size => r.error = none ∧ (r.data.length : Int) = size.toInt
  | _ => True

instance : DecidablePred Fits
  | stream _ _ => inferInstanceAs (Decidable (_ ∧ _))
  | write _ | read _ | ensure _ | reopen _ _ _ => inferInstanceAs (Decidable True)

/-- The address a step has returned, if it has. -/
def stored (out : Out VolumePool (Option (NeedleAddr × Bytes))) : Option (NeedleAddr × Bytes) :=
  match out.res with
  | .ok found => found
  | _ => none

end PoolEvent

namespace VolumePool

/-- A pool on empty drives. -/
def onEmptyDrives (drives : Nat) (maxVolumeSize cacheBytes : UInt64) (remotes : List Remote)
    (order : RangeOrder UInt32) : VolumePool :=
  newVolumePool (VolumeManager.newVolumeManager drives maxVolumeSize ∅) remotes ∅ 1 cacheBytes order

/-- A run, each step with the outcomes of its file writes. -/
abbrev Run :=
  List (PoolEvent × List Fault)

/-- The pool after a run.  A step that ends with an error does not end the run. -/
def after : VolumePool → Run → VolumePool
  | p, [] => p
  | p, (event, faults) :: rest => after (event.run p faults).state rest

/-- The addresses returned in a run, with the payloads they were returned for. -/
def returned : VolumePool → Run → List (NeedleAddr × Bytes)
  | _, [] => []
  | p, (event, faults) :: rest =>
      let out := event.run p faults
      (PoolEvent.stored out).toList ++ returned out.state rest

/-- No write fails, readers yield what they announce, and the last volume id is not in
use when a step begins. -/
def Regular : VolumePool → Run → Prop
  | _, [] => True
  | p, (event, faults) :: rest =>
      event.Fits ∧ p.localVM.volumes.lookup VolumeManager.lastID = none ∧
        (event.run p faults).failed = false ∧ Regular (event.run p faults).state rest

instance decidableRegular : (p : VolumePool) → (run : Run) → Decidable (p.Regular run)
  | _, [] => inferInstanceAs (Decidable True)
  | p, (event, faults) :: rest =>
      have := decidableRegular (event.run p faults).state rest
      inferInstanceAs (Decidable (_ ∧ _ ∧ _ ∧ _))

/-! ## Groups without replicas -/

/-- The local manager is the only member of every group. -/
structure Unreplicated (p : VolumePool) : Prop where
  factor : p.replicationFactor = 1
  group : ∀ id g, p.registry.lookup id = some g → g.members = [⟨""⟩]
  file : ∀ id g, p.registryFile.lookup id = some g → g.members = [⟨""⟩]
  active : ∀ g, p.activeGroup = some g → g.members = [⟨""⟩]

variable {p : VolumePool} {room : Prop}

theorem lookup_insert_members {registry : Table UInt32 VolumeGroup} {g : VolumeGroup}
    (isLocal : g.members = [⟨""⟩])
    (group : ∀ id g, registry.lookup id = some g → g.members = [⟨""⟩]) :
    ∀ id other, (registry.insert g.id g).lookup id = some other → other.members = [⟨""⟩] := by
  intro id other found
  by_cases same : id = g.id
  · rw [same, AList.lookup_insert] at found
    rw [← Option.some.inj found]
    exact isLocal
  · rw [AList.lookup_insert_ne same] at found
    exact group id other found

theorem addLocal_unreplicated (alone : p.Unreplicated) (id : UInt32) :
    (p.addLocal id).Unreplicated := by
  unfold addLocal
  split
  · exact alone
  · exact ⟨alone.factor, lookup_insert_members rfl alone.group, alone.file, alone.active⟩

theorem getOrCreateGroup_unreplicated (alone : p.Unreplicated) :
    getOrCreateGroup.Returns room p fun group next =>
      next.Unreplicated ∧ group.members = [⟨""⟩] := by
  unfold getOrCreateGroup
  refine .bind_state ?_
  cases reusable : p.reusableGroup with
  | some group =>
      have active : p.activeGroup = some group := (Option.filter_eq_some_iff.mp reusable).1
      exact .pure ⟨alone, alone.active group active⟩
  | none =>
      have isLocal : p.allBackends.take p.replicationFactor = [⟨""⟩] := by
        rw [alone.factor]
        rfl
      have grown := lookup_insert_members
        (show (⟨p.nextID, p.allBackends.take p.replicationFactor⟩ : VolumeGroup).members = _
          from isLocal) alone.group
      refine .bind_put (.bind writeRegistrySnap_returns ?_)
      rintro _ _ rfl
      refine .pure ⟨⟨alone.factor, grown, grown, ?_⟩, isLocal⟩
      intro g isActive
      rw [← Option.some.inj isActive]
      exact isLocal

/-- A call of the local manager leaves the groups as they are. -/
theorem onLocal_unreplicated {α : Type} {call : Exec VolumeManager α}
    {post : α → VolumeManager → Prop} (alone : p.Unreplicated)
    (returns : call.Returns room p.localVM post) :
    (onLocal call).Returns room p fun _ next => next.Unreplicated := by
  refine .mono (.zoom returns) ?_
  rintro _ _ ⟨vm, rfl, -⟩
  exact ⟨alone.factor, alone.group, alone.file, alone.active⟩

theorem write_unreplicated (alone : p.Unreplicated) (inv : p.Inv) (data : Bytes) :
    (write data).Returns False p fun _ next => next.Unreplicated := by
  unfold write
  refine .bind (.both (getOrCreateGroup_returns inv) (getOrCreateGroup_unreplicated alone)) ?_
  rintro ⟨id, members⟩ q ⟨⟨consulted, -⟩, stillAlone, isLocal⟩
  obtain rfl : members = [⟨""⟩] := isLocal
  have stores : (VolumeManager.writeToVolume id data).Returns False q.localVM _ :=
    VolumeManager.writeToVolume_returns consulted.inv.localVM id False.elim
  have written := onLocal_unreplicated stillAlone stores
  dsimp only [writeToMember, replicate]
  exact .bind (.wrap written) fun _ _ nextAlone =>
    Exec.Returns.bind_pure (.pure nextAlone)

theorem writeStream_unreplicated (alone : p.Unreplicated) (inv : p.Inv)
    (unused : p.localVM.volumes.lookup VolumeManager.lastID = none) {data : Bytes} {size : Int64}
    (sizeEq : (data.length : Int) = size.toInt) :
    (writeStream ⟨data, none⟩ size).Returns False p fun _ next => next.Unreplicated := by
  unfold writeStream
  refine .bind (.both (getOrCreateGroup_returns inv) (getOrCreateGroup_unreplicated alone)) ?_
  rintro group q ⟨⟨consulted, -⟩, stillAlone, isLocal⟩
  rw [if_pos isLocal]
  exact onLocal_unreplicated stillAlone (VolumeManager.writeStream_returns consulted.inv.localVM
    (consulted.localVM_eq ▸ unused) sizeEq False.elim)

/-! ## Reading any address -/

/-- A read changes nothing, and returns only what the address holds. -/
theorem localRead_eq {vm : VolumeManager} (inv : vm.Inv) (addr : NeedleAddr)
    (faults : List Fault) :
    ∃ res, VolumeManager.read addr vm faults = ⟨res, vm, faults, false⟩ ∧
      ∀ data, res = .ok data → vm.Holds addr data := by
  obtain ⟨res, eq, cases⟩ := localEnsureVolume_eq inv addr.volumeID faults
  unfold VolumeManager.read
  rcases cases with rfl | ⟨message, rfl⟩
  · rw [Exec.bind_of_ok eq]
    refine ⟨_, rfl, ?_⟩
    intro data readEq
    dsimp only at readEq
    split at readEq
    · cases readEq
    · next drive known =>
      split at readEq
      · cases readEq
      · next v found => exact ⟨drive, v, known, found, readEq⟩
  · rw [Exec.bind_of_err eq]
    exact ⟨_, rfl, nofun⟩

theorem onLocal_read_eq (inv : p.Inv) (addr : NeedleAddr) (faults : List Fault) :
    ∃ res, onLocal (VolumeManager.read addr) p faults = ⟨res, p, faults, false⟩ ∧
      ∀ data, res = .ok data → p.localVM.Holds addr data := by
  obtain ⟨res, eq, holds⟩ := localRead_eq inv.localVM addr faults
  exact ⟨res, by simp only [onLocal, Exec.zoom, eq], holds⟩

theorem fetch_eq (alone : p.Unreplicated) (inv : p.Inv) (addr : NeedleAddr)
    (faults : List Fault) :
    ∃ res, fetch addr p faults = ⟨res, p, faults, false⟩ ∧
      ∀ data, res = .ok data → p.localVM.Holds addr data := by
  obtain ⟨res, eq, holds⟩ := onLocal_read_eq inv addr faults
  unfold fetch
  rw [Exec.bind_state_apply]
  cases isGroup : p.registry.lookup addr.volumeID with
  | none => exact ⟨res, eq, holds⟩
  | some group =>
      obtain ⟨id, members⟩ := group
      obtain rfl : members = [⟨""⟩] := alone.group _ _ isGroup
      obtain rfl : id = addr.volumeID := (inv.group _ _ isGroup).1
      change ∃ res, Exec.bind (Exec.attempt (onLocal (VolumeManager.read addr))) _ p faults = _ ∧ _
      simp only [Exec.bind, Exec.attempt, eq]
      cases res with
      | ok data => exact ⟨.ok data, rfl, holds⟩
      | err message => exact ⟨.err _, rfl, fun _ isOk => by cases isOk⟩
      | panic message => exact ⟨.panic message, rfl, fun _ isOk => by cases isOk⟩
      | hang => exact ⟨.hang, rfl, fun _ isOk => by cases isOk⟩

/-- The cache is the only thing a lookup changes. -/
theorem cached_eq (inv : p.Inv) (addr : NeedleAddr) (faults : List Fault) :
    ∃ hit cache, cached addr p faults = ⟨.ok hit, { p with cache := cache }, faults, false⟩ ∧
      Consulted p { p with cache := cache } := by
  obtain ⟨localVM, remotes, registry, nextID, activeGroup, factor, registryFile, cache⟩ := p
  cases cache with
  | none => exact ⟨none, none, rfl, .refl inv⟩
  | some cache =>
      obtain ⟨valid, coherent⟩ := inv.cache cache rfl
      obtain ⟨stillValid, sameStores, -⟩ := LruCache.get_spec valid addr
      exact ⟨_, _, rfl, consulted_cache inv stillValid fun other data stores =>
        coherent other data ((sameStores other data).mp stores)⟩

theorem remember_eq (inv : p.Inv) {addr : NeedleAddr} {data : Bytes}
    (holds : p.localVM.Holds addr data) (faults : List Fault) :
    ∃ cache, remember addr data p faults = ⟨.ok (), { p with cache := cache }, faults, false⟩ ∧
      Consulted p { p with cache := cache } := by
  obtain ⟨localVM, remotes, registry, nextID, activeGroup, factor, registryFile, cache⟩ := p
  cases cache with
  | none => exact ⟨none, rfl, .refl inv⟩
  | some cache =>
      obtain ⟨valid, coherent⟩ := inv.cache cache rfl
      obtain ⟨filled, setEq, stillValid, stores⟩ := LruCache.set_spec valid addr data
      refine ⟨some filled, ?_, consulted_cache inv stillValid ?_⟩
      · unfold remember
        rw [Exec.bind_state_apply]
        dsimp only
        rw [Exec.bind_of_ok (show Exec.ask (fun _ => cache.set addr data) _ faults = _ by
          rw [Exec.ask, setEq])]
        rfl
      · intro other found isStored
        rcases stores other found isStored with old | ⟨rfl, rfl⟩
        · exact coherent other found old
        · exact holds

/-- `Read` of any address changes nothing but the cache. -/
theorem read_eq (alone : p.Unreplicated) (inv : p.Inv) (addr : NeedleAddr)
    (faults : List Fault) :
    ∃ res cache, read addr p faults = ⟨res, { p with cache := cache }, faults, false⟩ ∧
      Consulted p { p with cache := cache } := by
  obtain ⟨hit, cache, hitEq, consulted⟩ := cached_eq inv addr faults
  have stillAlone : ({ p with cache := cache } : VolumePool).Unreplicated :=
    ⟨alone.factor, alone.group, alone.file, alone.active⟩
  unfold read
  rw [Exec.bind_of_ok hitEq]
  cases hit with
  | some data => exact ⟨.ok data, cache, rfl, consulted⟩
  | none =>
      dsimp only
      obtain ⟨res, fetched, holds⟩ := fetch_eq stillAlone consulted.inv addr faults
      cases res with
      | ok data =>
          obtain ⟨filled, remembered, again⟩ := remember_eq consulted.inv (holds data rfl) faults
          rw [Exec.bind_of_ok fetched, Exec.bind_of_ok remembered]
          exact ⟨.ok data, filled, rfl, consulted.trans again⟩
      | err message =>
          rw [Exec.bind_of_err fetched]
          exact ⟨_, cache, rfl, consulted⟩
      | panic message =>
          refine ⟨.panic message, cache, ?_, consulted⟩
          change Exec.bind _ _ _ _ = _
          simp only [Exec.bind, fetched]
      | hang =>
          refine ⟨.hang, cache, ?_, consulted⟩
          change Exec.bind _ _ _ _ = _
          simp only [Exec.bind, fetched]

/-! ## Opening again -/

theorem newVolumePool_unreplicated (localVM : VolumeManager) (remotes : List Remote)
    {registryFile : Table UInt32 VolumeGroup} (cacheBytes : UInt64) (order : RangeOrder UInt32)
    (file : ∀ id g, registryFile.lookup id = some g → g.members = [⟨""⟩]) :
    (newVolumePool localVM remotes registryFile 1 cacheBytes order).Unreplicated := by
  have loaded : ∀ (entries : List (UInt32 × VolumeGroup)) (p : VolumePool), p.Unreplicated →
      (∀ entry ∈ entries, entry.2.members = [⟨""⟩]) → Unreplicated
        (entries.foldl (fun p entry => p.addGroup { entry.2 with id := entry.1 }) p) := by
    intro entries
    induction entries with
    | nil => exact fun _ alone _ => alone
    | cons entry rest ih =>
        intro p alone members
        apply ih
        · exact ⟨alone.factor, lookup_insert_members (g := { entry.2 with id := entry.1 })
            (members entry List.mem_cons_self) alone.group, alone.file, alone.active⟩
        · exact fun other mem => members other (List.mem_cons_of_mem _ mem)
  have registered : ∀ (ids : List UInt32) (p : VolumePool), p.Unreplicated →
      (ids.foldl addLocal p).Unreplicated := by
    intro ids
    induction ids with
    | nil => exact fun _ alone => alone
    | cons id rest ih => exact fun p alone => ih _ (addLocal_unreplicated alone id)
  unfold newVolumePool loadRegistry
  apply registered
  apply loaded
  · exact ⟨rfl, by simp, file, nofun⟩
  · intro entry mem
    exact file entry.1 entry.2 ((Table.mem_range order _ _ _).mp mem)

/-! ## One step -/

/-- What every step leaves: the invariants, every readable blob, and a new blob at an
address that was not readable. -/
structure Advanced (p next : VolumePool) (blob : Option (NeedleAddr × Bytes)) : Prop where
  inv : next.Inv
  alone : next.Unreplicated
  keeps : ∀ addr data, p.localVM.Holds addr data → next.localVM.Holds addr data
  stores : ∀ addr data, blob = some (addr, data) →
    next.localVM.Holds addr data ∧ ∀ other, ¬ p.localVM.Holds addr other

theorem Consulted.advanced {next : VolumePool} (consulted : Consulted p next)
    (alone : next.Unreplicated) : Advanced p next none where
  inv := consulted.inv
  alone := alone
  keeps _ _ holds := consulted.localVM_eq ▸ holds
  stores := nofun

/-- A call that stores a blob. -/
theorem Stored.advanced {call : Exec VolumePool NeedleAddr} {data : Bytes} {faults : List Fault}
    (stores : call.Returns False p fun addr next => Stored p next addr data)
    (alone : call.Returns False p fun _ next => next.Unreplicated)
    (clean : ((call >>= fun addr => pure (some (addr, data))) p faults).failed = false) :
    Advanced p ((call >>= fun addr => pure (some (addr, data))) p faults).state
      (PoolEvent.stored ((call >>= fun addr => pure (some (addr, data))) p faults)) := by
  have returns : (call >>= fun addr => pure (some (addr, data))).Returns False p fun blob next =>
      Advanced p next blob := by
    refine .bind (.both stores alone) ?_
    rintro addr next ⟨stored, nextAlone⟩
    refine .pure ⟨stored.inv, nextAlone, stored.keeps.holds, ?_⟩
    rintro _ _ same
    obtain ⟨rfl, rfl⟩ := Prod.mk.inj (Option.some.inj same)
    exact ⟨stored.holds, stored.fresh⟩
  obtain ⟨blob, resEq, advanced⟩ := returns.correct faults clean
  rw [PoolEvent.stored, resEq]
  exact advanced

/-- Closing a pool and opening it again. -/
theorem reopen_advanced (alone : p.Unreplicated) (inv : p.Inv)
    (maxVolumeSize cacheBytes : UInt64) (order : RangeOrder UInt32) :
    Advanced p (newVolumePool
      (VolumeManager.newVolumeManager p.localVM.drives maxVolumeSize p.localVM.files)
      p.remotes p.registry p.replicationFactor cacheBytes order) none := by
  obtain ⟨localInv, -, holds, -⟩ := VolumeManager.newVolumeManager_files inv.localVM maxVolumeSize
  rw [alone.factor]
  obtain ⟨next, nextEq, nextInv, localEq, -, -⟩ := @newVolumePool_inv _ p.remotes _ 1
    cacheBytes order localInv (fun replicated => absurd replicated (by decide))
    fun id g found => (inv.group id g found).2
  have nextAlone := newVolumePool_unreplicated
    (VolumeManager.newVolumeManager p.localVM.drives maxVolumeSize p.localVM.files) p.remotes
    cacheBytes order alone.group
  change Advanced p (newVolumePool _ _ _ 1 _ _) none
  rw [nextEq] at nextAlone ⊢
  exact ⟨nextInv, nextAlone, fun addr data held => localEq ▸ holds addr data held, nofun⟩

/-- Every step keeps the invariants and what is stored. -/
theorem event_advanced {event : PoolEvent} {faults : List Fault} (alone : p.Unreplicated)
    (inv : p.Inv) (fits : event.Fits)
    (unused : p.localVM.volumes.lookup VolumeManager.lastID = none)
    (clean : (event.run p faults).failed = false) :
    Advanced p (event.run p faults).state (PoolEvent.stored (event.run p faults)) := by
  cases event with
  | write data =>
      exact Stored.advanced (write_returns inv False.elim) (write_unreplicated alone inv data) clean
  | stream r size =>
      obtain ⟨data, error⟩ := r
      obtain ⟨rfl, sizeEq⟩ : error = none ∧ (data.length : Int) = size.toInt := fits
      exact Stored.advanced (writeStream_returns inv unused sizeEq False.elim)
        (writeStream_unreplicated alone inv unused sizeEq) clean
  | read addr =>
      obtain ⟨res, cache, readEq, consulted⟩ := read_eq alone inv addr faults
      have nextAlone : ({ p with cache := cache } : VolumePool).Unreplicated :=
        ⟨alone.factor, alone.group, alone.file, alone.active⟩
      change Advanced p (Exec.bind (read addr) (fun _ => pure none) p faults).state
        (PoolEvent.stored (Exec.bind (read addr) (fun _ => pure none) p faults))
      simp only [Exec.bind, readEq]
      cases res <;> exact consulted.advanced nextAlone
  | ensure id =>
      obtain ⟨res, called, cases⟩ := ensureVolume_eq inv id faults
      have consulted := addLocal_consulted inv id
      change Advanced p (Exec.bind (ensureVolume id) (fun _ => pure none) p faults).state
        (PoolEvent.stored (Exec.bind (ensureVolume id) (fun _ => pure none) p faults))
      simp only [Exec.bind, called]
      rcases cases with rfl | ⟨message, rfl⟩ <;>
        exact consulted.advanced (addLocal_unreplicated alone id)
  | reopen maxVolumeSize cacheBytes order =>
      have returns : ((PoolEvent.reopen maxVolumeSize cacheBytes order).run).Returns False p
          fun blob next => Advanced p next blob := by
        refine .bind writeRegistrySnap_returns ?_
        rintro _ _ rfl
        exact .bind_modify (.pure (reopen_advanced alone inv maxVolumeSize cacheBytes order))
      obtain ⟨blob, resEq, advanced⟩ := returns.correct faults clean
      rw [PoolEvent.stored, resEq]
      exact advanced

/-! ## Runs -/

theorem Regular.of_append {before later : Run} (regular : p.Regular (before ++ later)) :
    p.Regular before := by
  induction before generalizing p with
  | nil => trivial
  | cons step before ih => exact ⟨regular.1, regular.2.1, regular.2.2.1, ih regular.2.2.2⟩

/-- Over a run, what was readable stays readable, and the returned addresses are new
and hold their payloads. -/
theorem Regular.holds {run : Run} (alone : p.Unreplicated) (inv : p.Inv)
    (regular : p.Regular run) :
    (p.after run).Inv ∧
      (∀ addr data, p.localVM.Holds addr data → (p.after run).localVM.Holds addr data) ∧
      (∀ blob ∈ p.returned run, (p.after run).localVM.Holds blob.1 blob.2) ∧
      (∀ blob ∈ p.returned run, ∀ other, ¬ p.localVM.Holds blob.1 other) ∧
      ((p.returned run).map Prod.fst).Nodup := by
  induction run generalizing p with
  | nil => exact ⟨inv, fun _ _ holds => holds, nofun, nofun, .nil⟩
  | cons step run ih =>
      rcases step with ⟨event, faults⟩
      rcases regular with ⟨fits, unused, clean, rest⟩
      have advanced := event_advanced alone inv fits unused clean
      simp only [after, returned]
      rcases ih advanced.alone advanced.inv rest with ⟨lastInv, keeps, laterHold, laterNew, nodup⟩
      have keepsAll : ∀ addr data, p.localVM.Holds addr data →
          ((event.run p faults).state.after run).localVM.Holds addr data :=
        fun addr data holds => keeps addr data (advanced.keeps addr data holds)
      have laterFresh : ∀ blob ∈ returned (event.run p faults).state run, ∀ other,
          ¬ p.localVM.Holds blob.1 other :=
        fun blob mem other holds => laterNew blob mem other (advanced.keeps _ _ holds)
      cases stored : PoolEvent.stored (event.run p faults) with
      | none => exact ⟨lastInv, keepsAll, laterHold, laterFresh, nodup⟩
      | some blob =>
          rcases blob with ⟨addr, data⟩
          rcases advanced.stores addr data stored with ⟨holds, fresh⟩
          refine ⟨lastInv, keepsAll, ?_, ?_, ?_⟩
          · intro other mem
            rcases List.mem_cons.mp mem with rfl | isLater
            · exact keeps addr data holds
            · exact laterHold other isLater
          · intro other mem
            rcases List.mem_cons.mp mem with rfl | isLater
            · exact fresh
            · exact laterFresh other isLater
          · change (addr :: (returned _ run).map Prod.fst).Nodup
            rw [List.nodup_cons]
            refine ⟨fun again => ?_, nodup⟩
            rcases List.mem_map.mp again with ⟨other, mem, sameAddr⟩
            exact laterNew other mem data (sameAddr ▸ holds)

/-- A pool on empty drives satisfies the invariants, unless the drives use up the
volume ids. -/
theorem onEmptyDrives_inv {drives : Nat} (positive : 0 < drives)
    (maxVolumeSize cacheBytes : UInt64) (remotes : List Remote) (order : RangeOrder UInt32)
    (unused : (onEmptyDrives drives maxVolumeSize cacheBytes remotes order).localVM.volumes.lookup
      VolumeManager.lastID = none) :
    (onEmptyDrives drives maxVolumeSize cacheBytes remotes order).Inv := by
  obtain ⟨registry, nextID, eq⟩ := newVolumePool_eq
    (VolumeManager.newVolumeManager drives maxVolumeSize ∅) remotes ∅ 1 cacheBytes order
  rw [onEmptyDrives, eq] at unused
  obtain ⟨localInv, -⟩ := VolumeManager.newVolumeManager_empty maxVolumeSize positive unused
  obtain ⟨p, poolEq, inv, -⟩ := @newVolumePool_inv _ remotes ∅ 1 cacheBytes order localInv
    (fun replicated => absurd replicated (by decide)) (by simp)
  rw [onEmptyDrives, poolEq]
  exact inv

/-- All addresses returned in a run are distinct, and each reads back as the payload it
was returned for, at every later point. -/
theorem returned_readable {drives : Nat} (positive : 0 < drives)
    (maxVolumeSize cacheBytes : UInt64) (remotes : List Remote) (order : RangeOrder UInt32)
    {run before later : Run}
    (regular : (onEmptyDrives drives maxVolumeSize cacheBytes remotes order).Regular run)
    (split : run = before ++ later) :
    (((onEmptyDrives drives maxVolumeSize cacheBytes remotes order).returned before).map
        Prod.fst).Nodup ∧
      ∀ blob ∈ (onEmptyDrives drives maxVolumeSize cacheBytes remotes order).returned before,
        (read blob.1
          ((onEmptyDrives drives maxVolumeSize cacheBytes remotes order).after before) []).res =
            .ok blob.2 := by
  have regularBefore := Regular.of_append (split ▸ regular)
  cases before with
  | nil => exact ⟨.nil, nofun⟩
  | cons step before =>
      have inv := onEmptyDrives_inv positive maxVolumeSize cacheBytes remotes order
        regularBefore.2.1
      have alone : (onEmptyDrives drives maxVolumeSize cacheBytes remotes order).Unreplicated :=
        newVolumePool_unreplicated _ remotes cacheBytes order (by simp)
      rcases regularBefore.holds alone inv with ⟨lastInv, -, holds, -, nodup⟩
      refine ⟨nodup, fun blob mem => ?_⟩
      have returns : (read blob.1).Returns True _ _ := read_returns lastInv (holds blob mem)
      rcases returns.correct [] (returns.undisturbed trivial).1 with ⟨_, resEq, rfl, -⟩
      exact resEq

/-- A pool with one drive is closed and opened again, and then stores three blobs. -/
def reopenAndWrite : Run :=
  [(.reopen 0 0 (.asStored _), []), (.write [7], []), (.write [8], []), (.stream ⟨[9], none⟩ 1, [])]

theorem returned_readable_reopenAndWrite :
    (onEmptyDrives 1 0 0 [] (.asStored _)).returned reopenAndWrite =
        [(⟨1, 0, 1⟩, [7]), (⟨1, 9, 1⟩, [8]), (⟨0, 0, 1⟩, [9])] ∧
      ∀ blob ∈ [((⟨1, 0, 1⟩ : NeedleAddr), ([7] : Bytes)), (⟨1, 9, 1⟩, [8]), (⟨0, 0, 1⟩, [9])],
        (read blob.1 ((onEmptyDrives 1 0 0 [] (.asStored _)).after reopenAndWrite) []).res =
          .ok blob.2 := by
  have regular : (onEmptyDrives 1 0 0 [] (.asStored _)).Regular reopenAndWrite := by
    decide +kernel
  have isReturned : (onEmptyDrives 1 0 0 [] (.asStored _)).returned reopenAndWrite =
      [(⟨1, 0, 1⟩, [7]), (⟨1, 9, 1⟩, [8]), (⟨0, 0, 1⟩, [9])] := by
    decide +kernel
  have readable := (returned_readable (by decide) 0 0 [] (.asStored _) regular
    (List.append_nil reopenAndWrite).symm).2
  rw [isReturned] at readable
  exact ⟨isReturned, readable⟩

/-- With two drives, the id counter of the pool is moved to the last id and the next
blob uses it.  The streams after it fill the second drive. -/
def wrapsAround : Run :=
  [(.ensure 4294967294, []), (.write [1], []), (.stream ⟨[7], none⟩ 1, []),
    (.stream ⟨List.replicate 12 0, none⟩ 12, []), (.stream ⟨[2], none⟩ 1, []),
    (.stream ⟨[8], none⟩ 1, [])]

/-- Sorting the ids of two drives. -/
theorem stats_twoDrives : (VolumeManager.newVolumeManager 2 20 ∅).stats = [0, 1] := by
  have keys : (VolumeManager.newVolumeManager 2 20 ∅).volumes.keys = [1, 0] := by decide +kernel
  rw [VolumeManager.stats, keys]
  simp [List.mergeSort, List.MergeSort.Internal.splitInTwo]

/-- With four ids in use and no write failing, two blobs get the same address, and the
first one is lost. -/
theorem wrapsAround_repeats :
    ((onEmptyDrives 2 20 0 [] (.asStored _)).after wrapsAround).registry.keys.length = 4 ∧
      (⟨0, 0, 1⟩, [7]) ∈ (onEmptyDrives 2 20 0 [] (.asStored _)).returned wrapsAround ∧
      (⟨0, 0, 1⟩, [8]) ∈ (onEmptyDrives 2 20 0 [] (.asStored _)).returned wrapsAround ∧
      (read ⟨0, 0, 1⟩ ((onEmptyDrives 2 20 0 [] (.asStored _)).after wrapsAround) []).res =
        .ok [8] := by
  unfold onEmptyDrives newVolumePool
  rw [stats_twoDrives]
  decide +kernel

end VolumePool

end BriseDB
