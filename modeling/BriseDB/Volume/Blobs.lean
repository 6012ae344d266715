import BriseDB.Base.Ends
import BriseDB.Volume.Open
import BriseDB.Volume.Pool

/-!
# What a volume pool stores

The first member of every group is the local volume manager, so a blob is
readable from the pool as soon as the local manager holds it.  `Inv` collects
what the pool relies on; the cache only repeats what the local manager holds.
-/

namespace BriseDB.VolumePool

open VolumeManager (lastID)

/-- The local manager comes first. -/
def LocalFirst (members : List VolumeMember) : Prop :=
  ∃ rest, members = ⟨""⟩ :: rest

/-- The pool can reach every member of a group. -/
def Reaches (p : VolumePool) (members : List VolumeMember) : Prop :=
  ∀ m ∈ members, m.serverURL = "" ∨
    1 < p.replicationFactor ∧ ∃ remote ∈ p.remotes, remote.baseURL = m.serverURL

/-- The invariant of an open pool.  The remote servers only matter when blobs are
replicated. -/
structure Inv (p : VolumePool) : Prop where
  localVM : p.localVM.Inv
  remote : 1 < p.replicationFactor → ∀ remote ∈ p.remotes, remote.server.Inv
  positive : 0 < p.replicationFactor
  group : ∀ id g, p.registry.lookup id = some g → g.id = id ∧ LocalFirst g.members
  file : ∀ id g, p.registryFile.lookup id = some g → LocalFirst g.members
  active : ∀ g, p.activeGroup = some g → LocalFirst g.members ∧ p.Reaches g.members ∧
    g.members.length ≤ p.replicationFactor
  cache : ∀ cache, p.cache = some cache → cache.Valid ∧
    ∀ addr data, cache.Stores addr data → p.localVM.Holds addr data

/-- Every volume file of the pool can grow by `bytes`. -/
def Room (p : VolumePool) (bytes : Nat) : Prop :=
  p.localVM.Room bytes ∧ ∀ remote ∈ p.remotes, remote.server.Room bytes

/-- The most bytes that storing a blob adds to a volume file. -/
def cost (p : VolumePool) (data : Bytes) : Nat :=
  p.replicationFactor * (8 + data.length)

/-- The effect of storing a blob in the pool. -/
structure Stored (p next : VolumePool) (addr : NeedleAddr) (data : Bytes) : Prop where
  inv : next.Inv
  keeps : p.localVM.Extends next.localVM
  holds : next.localVM.Holds addr data
  fresh : ∀ other, ¬ p.localVM.Holds addr other
  factor_eq : next.replicationFactor = p.replicationFactor
  room : ∀ bytes, p.Room (p.cost data + bytes) → next.Room bytes

/-- The effect of an operation that only consults the pool. -/
structure Consulted (p next : VolumePool) : Prop where
  inv : next.Inv
  localVM_eq : next.localVM = p.localVM
  remotes_eq : next.remotes = p.remotes
  factor_eq : next.replicationFactor = p.replicationFactor

theorem Room.mono {p : VolumePool} {more less : Nat} (le : less ≤ more) (roomy : p.Room more) :
    p.Room less :=
  ⟨roomy.1.mono le, fun remote mem => (roomy.2 remote mem).mono le⟩

theorem Consulted.room {p next : VolumePool} (consulted : Consulted p next) {bytes : Nat}
    (roomy : p.Room bytes) : next.Room bytes := by
  unfold Room
  rw [consulted.localVM_eq, consulted.remotes_eq]
  exact roomy

variable {p : VolumePool} {room : Prop} {data : Bytes} {addr : NeedleAddr} {vm : VolumeManager}

/-! ## Groups -/

theorem reaches_take (p : VolumePool) (positive : 0 < p.replicationFactor) :
    p.Reaches (p.allBackends.take p.replicationFactor) := by
  obtain ⟨fewer, factorEq⟩ := Nat.exists_eq_succ_of_ne_zero (Nat.pos_iff_ne_zero.mp positive)
  intro m mem
  rw [factorEq, allBackends, List.take_succ_cons] at mem
  rcases List.mem_cons.mp mem with rfl | inTail
  · exact .inl rfl
  · obtain ⟨remote, remoteMem, rfl⟩ := List.mem_map.mp (List.mem_of_mem_take inTail)
    have notNone : fewer ≠ 0 := by
      rintro rfl
      cases inTail
    exact .inr ⟨by omega, remote, remoteMem, rfl⟩

theorem localFirst_take (p : VolumePool) {count : Nat} (positive : 0 < count) :
    LocalFirst (p.allBackends.take count) := by
  obtain ⟨fewer, rfl⟩ := Nat.exists_eq_succ_of_ne_zero (Nat.pos_iff_ne_zero.mp positive)
  exact ⟨_, rfl⟩

theorem writeRegistrySnap_returns :
    writeRegistrySnap.Returns room p fun _ next => next = { p with registryFile := p.registry } :=
  .bind_outcome (.modify rfl)

theorem writeRegistrySnap_ends :
    writeRegistrySnap.Ends p (fun _ next => next = { p with registryFile := p.registry })
      (fun next => next = p) := by
  have same : Exec.outcome.Ends p (fun _ state => state = p) (fun next => next = p) :=
    .outcome fun _ => rfl
  refine .bind same ?_
  rintro result _ rfl
  cases result with
  | complete => exact .modify rfl
  | cut => exact .throw rfl

/-- `getOrCreateGroup` returns a group that starts with the local manager. -/
theorem getOrCreateGroup_returns (inv : p.Inv) :
    getOrCreateGroup.Returns room p fun group next =>
      Consulted p next ∧ LocalFirst group.members ∧ next.Reaches group.members ∧
        group.members.length ≤ p.replicationFactor := by
  unfold getOrCreateGroup
  refine .bind_state ?_
  cases reusable : p.reusableGroup with
  | some group =>
      have active : p.activeGroup = some group := (Option.filter_eq_some_iff.mp reusable).1
      exact .pure ⟨⟨inv, rfl, rfl, rfl⟩, inv.active group active⟩
  | none =>
      have isLocal := localFirst_take p inv.positive
      have reaches := reaches_take p inv.positive
      have lengthLe : (p.allBackends.take p.replicationFactor).length ≤ p.replicationFactor := by
        rw [List.length_take]
        exact Nat.min_le_left _ _
      refine .bind_put (.bind writeRegistrySnap_returns ?_)
      rintro _ _ rfl
      have grown : ∀ id g, (p.registry.insert p.nextID
          ⟨p.nextID, p.allBackends.take p.replicationFactor⟩).lookup id = some g →
          g.id = id ∧ LocalFirst g.members := by
        intro id g found
        by_cases same : id = p.nextID
        · rw [same, AList.lookup_insert] at found
          obtain rfl := Option.some.inj found
          exact ⟨same.symm, isLocal⟩
        · rw [AList.lookup_insert_ne same] at found
          exact inv.group id g found
      refine .pure ⟨⟨?_, rfl, rfl, rfl⟩, isLocal, reaches, lengthLe⟩
      refine ⟨inv.localVM, inv.remote, inv.positive, grown,
        fun id g found => (grown id g found).2, ?_, inv.cache⟩
      rintro g isActive
      obtain rfl := Option.some.inj isActive
      exact ⟨isLocal, reaches, lengthLe⟩

/-! ## Writing to the members of a group -/

/-- The effect of appends to members of a group, at most `size` bytes to each. -/
structure Replicated (p next : VolumePool) (size : Nat) : Prop where
  inv : next.Inv
  keeps : p.localVM.Extends next.localVM
  factor_eq : next.replicationFactor = p.replicationFactor
  reaches : ∀ members, p.Reaches members → next.Reaches members
  room : ∀ bytes, p.Room (size + bytes) → next.Room bytes

theorem Replicated.refl (inv : p.Inv) : Replicated p p 0 where
  inv := inv
  keeps := .refl _
  factor_eq := rfl
  reaches _ reaches := reaches
  room bytes roomy := (Nat.zero_add bytes) ▸ roomy

theorem Replicated.trans {first second third : VolumePool} {size more : Nat}
    (left : Replicated first second size) (right : Replicated second third more) :
    Replicated first third (size + more) where
  inv := right.inv
  keeps := left.keeps.trans right.keeps
  factor_eq := right.factor_eq.trans left.factor_eq
  reaches members reaches := right.reaches members (left.reaches members reaches)
  room bytes roomy := right.room bytes (left.room _ (by rwa [← Nat.add_assoc]))

theorem replicated_local (inv : p.Inv) (stored : VolumeManager.Stored p.localVM vm addr data) :
    Replicated p { p with localVM := vm } (8 + data.length) where
  inv := ⟨stored.inv, inv.remote, inv.positive, inv.group, inv.file, inv.active,
    fun cache isCache => ⟨(inv.cache cache isCache).1, fun addr data stores =>
      stored.keeps.holds addr data ((inv.cache cache isCache).2 addr data stores)⟩⟩
  keeps := stored.keeps
  factor_eq := rfl
  reaches _ reaches := reaches
  room bytes roomy := ⟨stored.room bytes roomy.1, fun remote mem =>
    (Room.mono (Nat.le_add_left _ _) roomy).2 remote mem⟩

theorem replicated_remote (inv : p.Inv) {idx : Nat} {remote : Remote} {server : VolumeManager}
    (isRemote : p.remotes[idx]? = some remote)
    (stored : VolumeManager.Stored remote.server server addr data) :
    Replicated p { p with remotes := p.remotes.set idx { remote with server := server } }
      (8 + data.length) := by
  have isMember : remote ∈ p.remotes := List.mem_of_getElem? isRemote
  have reaches : ∀ members, p.Reaches members → Reaches
      { p with remotes := p.remotes.set idx { remote with server := server } } members := by
    intro members reaches m mem
    rcases reaches m mem with isLocal | ⟨replicated, other, otherMem, urlEq⟩
    · exact .inl isLocal
    · refine .inr ⟨replicated, ?_⟩
      obtain ⟨otherIdx, isOther⟩ := List.mem_iff_getElem?.mp otherMem
      by_cases same : idx = otherIdx
      · subst same
        obtain rfl := Option.some.inj (isRemote.symm.trans isOther)
        exact ⟨_, List.mem_set (List.getElem?_eq_some_iff.mp isRemote).1 _, urlEq⟩
      · refine ⟨other, List.mem_of_getElem? (i := otherIdx) ?_, urlEq⟩
        rw [List.getElem?_set_ne same]
        exact isOther
  refine ⟨⟨inv.localVM, ?_, inv.positive, inv.group, inv.file, ?_, inv.cache⟩, .refl _, rfl,
    reaches, ?_⟩
  · intro replicated other mem
    rcases List.mem_or_eq_of_mem_set mem with old | rfl
    · exact inv.remote replicated other old
    · exact stored.inv
  · intro g isActive
    obtain ⟨isLocal, activeReaches, lengthLe⟩ := inv.active g isActive
    exact ⟨isLocal, reaches _ activeReaches, lengthLe⟩
  · intro bytes roomy
    have less := Room.mono (Nat.le_add_left bytes (8 + data.length)) roomy
    refine ⟨less.1, fun other mem => ?_⟩
    rcases List.mem_or_eq_of_mem_set mem with old | rfl
    · exact less.2 other old
    · exact stored.room bytes (roomy.2 remote isMember)

/-- A request to a server that has a client. -/
theorem onRemote_returns {α : Type} {url : String} {call : Exec VolumeManager α}
    (middle : VolumeManager → α → VolumeManager → Prop)
    (known : ∃ remote ∈ p.remotes, remote.baseURL = url)
    (returns : ∀ remote ∈ p.remotes, call.Returns room remote.server (middle remote.server)) :
    (onRemote url call).Returns room p fun value next =>
      ∃ idx remote server, p.remotes[idx]? = some remote ∧ middle remote.server value server ∧
        next = { p with remotes := p.remotes.set idx { remote with server := server } } := by
  obtain ⟨remote, mem, urlEq⟩ := known
  obtain ⟨idx, isFirst⟩ : ∃ idx, p.remotes.findIdx? (fun remote => remote.baseURL = url) =
      some idx :=
    Option.isSome_iff_exists.mp
      (List.findIdx?_isSome.trans (List.any_eq_true.mpr ⟨remote, mem, by simpa using urlEq⟩))
  obtain ⟨inRange, -⟩ := List.findIdx?_eq_some_iff_getElem.mp isFirst
  have isRemote : p.remotes[idx]? = some p.remotes[idx] := List.getElem?_eq_getElem inRange
  let remoteAt := p.remotes[idx]
  let store : VolumeManager → VolumePool → VolumePool := fun server q =>
    { q with remotes := q.remotes.set idx { remoteAt with server := server } }
  have eq : ∀ faults, onRemote url call p faults =
      Exec.zoom (fun _ => remoteAt.server) store call p faults := by
    intro faults
    simp only [onRemote, isFirst, isRemote, remoteAt, store]
  have zoomed : (Exec.zoom (fun _ => remoteAt.server) store call).Returns room p fun value next =>
      ∃ server, next = store server p ∧ middle remoteAt.server value server :=
    Exec.Returns.zoom (returns remoteAt (List.getElem_mem inRange))
  refine ⟨fun faults clean => ?_, fun enough => ?_⟩
  · rw [eq] at clean ⊢
    obtain ⟨value, resEq, server, nextEq, holds⟩ := zoomed.correct faults clean
    exact ⟨value, resEq, idx, remoteAt, server, isRemote, holds, nextEq⟩
  · rw [eq]
    exact zoomed.undisturbed enough

/-- A write to a reachable member; the local manager then holds the data. -/
theorem writeToMember_returns (inv : p.Inv) {m : VolumeMember} (id : UInt32)
    (reaches : m.serverURL = "" ∨
      1 < p.replicationFactor ∧ ∃ remote ∈ p.remotes, remote.baseURL = m.serverURL)
    (roomy : room → p.Room (8 + data.length)) :
    (writeToMember m id data).Returns room p fun addr next =>
      Replicated p next (8 + data.length) ∧
        (m.serverURL = "" → next.localVM.Holds addr data ∧ addr.volumeID = id ∧
          ∀ other, ¬ p.localVM.Holds addr other) := by
  unfold writeToMember
  split
  · refine .mono (.zoom
      (VolumeManager.writeToVolume_returns inv.localVM id fun enough => (roomy enough).1)) ?_
    rintro addr _ ⟨vm, rfl, stored, idEq⟩
    exact ⟨replicated_local inv stored, fun _ => ⟨stored.holds, idEq, stored.fresh⟩⟩
  · next notLocal =>
    obtain ⟨isReplicated, known⟩ := reaches.resolve_left notLocal
    refine .bind_outcome (.mono (onRemote_returns
      (fun server addr next => server.Stored next addr data ∧ addr.volumeID = id) known
      fun remote mem => VolumeManager.writeToVolume_returns (inv.remote isReplicated remote mem) id
        fun enough => (roomy enough).2 remote mem) ?_)
    rintro addr _ ⟨idx, remote, server, isRemote, ⟨stored, _⟩, rfl⟩
    exact ⟨replicated_remote inv isRemote stored, fun isLocal => absurd isLocal notLocal⟩

theorem replicate_returns {members : List VolumeMember} (inv : p.Inv) (reaches : p.Reaches members)
    (group : VolumeGroup) (idx : Nat) (roomy : room → p.Room (members.length * (8 + data.length))) :
    (replicate group data idx members).Returns room p fun failure next =>
      failure = none ∧ Replicated p next (members.length * (8 + data.length)) := by
  induction members generalizing p idx with
  | nil =>
      refine .pure ⟨rfl, ?_⟩
      rw [List.length_nil, Nat.zero_mul]
      exact .refl inv
  | cons m rest ih =>
      rw [List.length_cons, Nat.succ_mul, Nat.add_comm] at roomy ⊢
      refine .bind_attempt (writeToMember_returns inv group.id (reaches m List.mem_cons_self)
        fun enough => Room.mono (Nat.le_add_right _ _) (roomy enough)) ?_
      rintro addr written ⟨replicated, _⟩
      refine .bind (ih replicated.inv
        (replicated.reaches rest fun m mem => reaches m (List.mem_cons_of_mem _ mem)) (idx + 1)
        fun enough => replicated.room _ (roomy enough)) ?_
      rintro _ next ⟨rfl, later⟩
      exact .pure ⟨rfl, replicated.trans later⟩

/-! ## Blobs -/

/-- `Write` stores the blob on all members of a group. -/
theorem write_returns (inv : p.Inv) (roomy : room → p.Room (p.cost data)) :
    (write data).Returns room p fun addr next => Stored p next addr data := by
  unfold write
  refine .bind (getOrCreateGroup_returns inv) ?_
  rintro ⟨id, _⟩ q ⟨consulted, ⟨rest, rfl⟩, reaches, lengthLe⟩
  have costLe : (8 + data.length) + rest.length * (8 + data.length) ≤ p.cost data := by
    rw [Nat.add_comm, ← Nat.succ_mul]
    exact Nat.mul_le_mul_right _ lengthLe
  dsimp only
  refine .bind (.wrap (writeToMember_returns consulted.inv id (.inl rfl)
    fun enough => consulted.room (Room.mono (le_trans (Nat.le_add_right _ _) costLe)
      (roomy enough)))) ?_
  rintro addr written ⟨replicated, isLocal⟩
  obtain ⟨holds, idEq, fresh⟩ := isLocal rfl
  refine .bind (replicate_returns replicated.inv (replicated.reaches rest
    fun m mem => reaches m (List.mem_cons_of_mem _ mem)) _ 1 fun enough =>
      replicated.room _ (consulted.room (Room.mono costLe (roomy enough)))) ?_
  rintro _ next ⟨rfl, later⟩
  have all := replicated.trans later
  have addrEq : (⟨id, addr.offset, addr.size⟩ : NeedleAddr) = addr := by rw [← idEq]
  refine .pure ⟨all.inv, ?_, ?_, ?_, all.factor_eq.trans consulted.factor_eq, ?_⟩
  · exact consulted.localVM_eq ▸ all.keeps
  · rw [addrEq]
    exact later.keeps.holds addr data holds
  · rw [addrEq, ← consulted.localVM_eq]
    exact fresh
  · intro bytes enough
    exact all.room bytes (consulted.room (Room.mono (Nat.add_le_add_right costLe _) enough))

/-- `Write` after a call that only consulted the pool. -/
theorem Consulted.write_returns {q : VolumePool} (consulted : Consulted p q)
    (roomy : room → p.Room (p.cost data)) :
    (write data).Returns room q fun addr next => Stored p next addr data := by
  have costEq : q.cost data = p.cost data := by rw [cost, consulted.factor_eq, cost]
  refine .mono (VolumePool.write_returns consulted.inv
    fun enough => costEq ▸ consulted.room (roomy enough)) ?_
  rintro addr next stored
  exact ⟨stored.inv, consulted.localVM_eq ▸ stored.keeps, stored.holds,
    consulted.localVM_eq ▸ stored.fresh, stored.factor_eq.trans consulted.factor_eq,
    fun bytes enough => stored.room bytes (costEq ▸ consulted.room enough)⟩

/-- `WriteStream` stores the stream, unless the volume ids are used up. -/
theorem writeStream_returns (inv : p.Inv) (unused : p.localVM.volumes.lookup lastID = none)
    {size : Int64} (sizeEq : (data.length : Int) = size.toInt)
    (roomy : room → p.Room (p.cost data)) :
    (writeStream ⟨data, none⟩ size).Returns room p fun addr next => Stored p next addr data := by
  have single : 8 + data.length ≤ p.cost data := Nat.le_mul_of_pos_left _ inv.positive
  unfold writeStream
  refine .bind (getOrCreateGroup_returns inv) ?_
  rintro group q ⟨consulted, _⟩
  split
  · refine .mono (.zoom (VolumeManager.writeStream_returns
      consulted.inv.localVM (consulted.localVM_eq ▸ unused) sizeEq
      fun enough => (Room.mono single (consulted.room (roomy enough))).1)) ?_
    rintro addr _ ⟨vm, rfl, stored⟩
    have replicated := replicated_local consulted.inv stored
    exact ⟨replicated.inv, consulted.localVM_eq ▸ stored.keeps, stored.holds,
      consulted.localVM_eq ▸ stored.fresh, consulted.factor_eq,
      fun bytes enough => replicated.room bytes
        (consulted.room (Room.mono (Nat.add_le_add_right single _) enough))⟩
  · exact consulted.write_returns roomy

/-- Replacing the cache by one that repeats what the local manager holds. -/
theorem consulted_cache (inv : p.Inv) {cache : LruCache} (valid : cache.Valid)
    (coherent : ∀ addr data, cache.Stores addr data → p.localVM.Holds addr data) :
    Consulted p { p with cache := some cache } where
  inv := ⟨inv.localVM, inv.remote, inv.positive, inv.group, inv.file, inv.active, by
    rintro other isCache
    obtain rfl := Option.some.inj isCache
    exact ⟨valid, coherent⟩⟩
  localVM_eq := rfl
  remotes_eq := rfl
  factor_eq := rfl

theorem Consulted.trans {first second third : VolumePool} (left : Consulted first second)
    (right : Consulted second third) : Consulted first third where
  inv := right.inv
  localVM_eq := right.localVM_eq.trans left.localVM_eq
  remotes_eq := right.remotes_eq.trans left.remotes_eq
  factor_eq := right.factor_eq.trans left.factor_eq

theorem Consulted.refl (inv : p.Inv) : Consulted p p :=
  ⟨inv, rfl, rfl, rfl⟩

/-- What the cache answers is what the local manager holds. -/
theorem cached_returns (inv : p.Inv) (addr : NeedleAddr) :
    (cached addr).Returns room p fun hit next =>
      Consulted p next ∧ ∀ data, hit = some data → p.localVM.Holds addr data := by
  unfold cached
  refine .bind_state ?_
  cases isCache : p.cache with
  | none => exact .pure ⟨.refl inv, fun _ absent => by cases absent⟩
  | some cache =>
      obtain ⟨valid, coherent⟩ := inv.cache cache isCache
      obtain ⟨stillValid, sameStores, hit⟩ := LruCache.get_spec valid addr
      refine .bind_put (.pure ⟨consulted_cache inv stillValid ?_, ?_⟩)
      · exact fun other data stores => coherent other data ((sameStores other data).mp stores)
      · exact fun data isHit => coherent addr data (hit data isHit)

theorem remember_returns (inv : p.Inv) (holds : p.localVM.Holds addr data) :
    (remember addr data).Returns room p fun _ next => Consulted p next := by
  unfold remember
  refine .bind_state ?_
  cases isCache : p.cache with
  | none => exact .pure (.refl inv)
  | some cache =>
      obtain ⟨valid, coherent⟩ := inv.cache cache isCache
      obtain ⟨filled, setEq, stillValid, stores⟩ := LruCache.set_spec valid addr data
      refine .bind_ask setEq (.put (consulted_cache inv stillValid ?_))
      intro other found isStored
      rcases stores other found isStored with old | ⟨rfl, rfl⟩
      · exact coherent other found old
      · exact holds

/-- Calls of the local manager that leave it as it is. -/
theorem onLocal_returns {α : Type} {call : Exec VolumeManager α} {value : α}
    (returns : call.Returns room p.localVM fun found next => found = value ∧ next = p.localVM) :
    (onLocal call).Returns room p fun found next => found = value ∧ next = p := by
  refine .mono (.zoom returns) ?_
  rintro found _ ⟨_, rfl, foundEq, rfl⟩
  exact ⟨foundEq, rfl⟩

theorem readFromMembers_returns {members : List VolumeMember} (isLocal : LocalFirst members)
    (holds : p.localVM.Holds addr data) :
    (readFromMembers addr members).Returns room p fun result next =>
      result = .ok data ∧ next = p := by
  obtain ⟨rest, rfl⟩ := isLocal
  have member : (readFromMember ⟨""⟩ addr).Returns room p fun found next =>
      found = data ∧ next = p := by
    unfold readFromMember
    rw [if_pos rfl]
    exact onLocal_returns (VolumeManager.read_returns holds)
  cases rest with
  | nil =>
      refine .mono (.attempt member) ?_
      rintro _ _ ⟨_, rfl, rfl, rfl⟩
      exact ⟨rfl, rfl⟩
  | cons next rest =>
      refine .bind_attempt member ?_
      rintro _ _ ⟨rfl, rfl⟩
      exact .pure ⟨rfl, rfl⟩

theorem fetch_returns (inv : p.Inv) (holds : p.localVM.Holds addr data) :
    (fetch addr).Returns room p fun found next => found = data ∧ next = p := by
  unfold fetch
  refine .bind_state ?_
  cases isGroup : p.registry.lookup addr.volumeID with
  | none => exact onLocal_returns (VolumeManager.read_returns holds)
  | some group =>
      obtain ⟨idEq, isLocal⟩ := inv.group _ group isGroup
      have addrEq : { addr with volumeID := group.id } = addr := by rw [idEq]
      dsimp only
      rw [addrEq]
      refine .bind (readFromMembers_returns isLocal holds) ?_
      rintro _ _ ⟨rfl, rfl⟩
      exact .pure ⟨rfl, rfl⟩

/-- Two reads of one address agree. -/
theorem holds_unique {data other : Bytes}
    (left : vm.Holds addr data) (right : vm.Holds addr other) : data = other := by
  obtain ⟨drive, v, known, found, readEq⟩ := left
  obtain ⟨drive', v', known', found', readEq'⟩ := right
  obtain rfl := Option.some.inj (known.symm.trans known')
  obtain rfl := Option.some.inj (found.symm.trans found')
  exact Res.ok.inj (readEq.symm.trans readEq')

/-- `Read` returns what the local manager holds. -/
theorem read_returns (inv : p.Inv) (holds : p.localVM.Holds addr data) :
    (read addr).Returns room p fun found next => found = data ∧ Consulted p next := by
  unfold read
  refine .bind (cached_returns inv addr) ?_
  rintro hit q ⟨consulted, coherent⟩
  cases hit with
  | some found => exact .pure ⟨holds_unique (coherent found rfl) holds, consulted⟩
  | none =>
      have held : q.localVM.Holds addr data := consulted.localVM_eq ▸ holds
      refine .bind (fetch_returns consulted.inv held) ?_
      rintro _ _ ⟨rfl, rfl⟩
      refine .bind (remember_returns consulted.inv held) ?_
      intro _ next remembered
      exact .pure ⟨rfl, consulted.trans remembered⟩

/-! ## Registering local volumes -/

/-- `EnsureVolume` of the manager leaves it as it is: all its files are known. -/
theorem localEnsureVolume_eq (inv : vm.Inv) (id : UInt32) (faults : List Fault) :
    ∃ res, VolumeManager.ensureVolume id vm faults = ⟨res, vm, faults, false⟩ ∧
      (res = .ok () ∨ ∃ message, res = .err message) := by
  change ∃ res, (if (vm.volumes.lookup id).isSome then _ else _ : Exec VolumeManager Unit) vm faults
    = _ ∧ _
  split
  · exact ⟨_, rfl, .inl rfl⟩
  · next unknown =>
    have noFile : (List.range vm.drives).find?
        (fun drive => (vm.disk.lookup ⟨drive, id⟩).isSome) = none := by
      refine List.find?_eq_none.mpr fun drive _ isFile => unknown ?_
      obtain ⟨v, found⟩ := Option.isSome_iff_exists.mp isFile
      rw [(inv.file _ v found).2.2]
      rfl
    rw [noFile]
    exact ⟨_, rfl, .inr ⟨_, rfl⟩⟩

theorem addGroup_group {g : VolumeGroup} (isLocal : LocalFirst g.members)
    (group : ∀ id g, p.registry.lookup id = some g → g.id = id ∧ LocalFirst g.members) :
    ∀ id g', (p.addGroup g).registry.lookup id = some g' → g'.id = id ∧ LocalFirst g'.members := by
  intro id g' found
  change (p.registry.insert g.id g).lookup id = some g' at found
  by_cases same : id = g.id
  · rw [same, AList.lookup_insert] at found
    obtain rfl := Option.some.inj found
    exact ⟨same.symm, isLocal⟩
  · rw [AList.lookup_insert_ne same] at found
    exact group id g' found

theorem addLocal_group (id : UInt32)
    (group : ∀ id g, p.registry.lookup id = some g → g.id = id ∧ LocalFirst g.members) :
    ∀ other g, (p.addLocal id).registry.lookup other = some g →
      g.id = other ∧ LocalFirst g.members := by
  unfold addLocal
  split
  · exact group
  · exact addGroup_group ⟨[], rfl⟩ group

theorem addLocal_eq (p : VolumePool) (id : UInt32) :
    ∃ registry nextID, p.addLocal id = { p with registry := registry, nextID := nextID } := by
  unfold addLocal
  split
  · exact ⟨p.registry, p.nextID, rfl⟩
  · exact ⟨_, _, rfl⟩

theorem addLocal_consulted (inv : p.Inv) (id : UInt32) : Consulted p (p.addLocal id) := by
  have group := addLocal_group id inv.group
  obtain ⟨registry, nextID, eq⟩ := addLocal_eq p id
  rw [eq] at group ⊢
  exact ⟨⟨inv.localVM, inv.remote, inv.positive, group, inv.file, inv.active, inv.cache⟩,
    rfl, rfl, rfl⟩

/-- `EnsureVolume` registers the id, whether or not there is a file for it. -/
theorem ensureVolume_eq (inv : p.Inv) (id : UInt32) (faults : List Fault) :
    ∃ res, ensureVolume id p faults = ⟨res, p.addLocal id, faults, false⟩ ∧
      (res = .ok () ∨ ∃ message, res = .err message) := by
  obtain ⟨res, eq, cases⟩ :=
    localEnsureVolume_eq (addLocal_consulted inv id).inv.localVM id faults
  refine ⟨res, ?_, cases⟩
  change Exec.bind (Exec.modify fun p => p.addLocal id)
    (fun _ => onLocal (VolumeManager.ensureVolume id)) p faults = _
  simp only [Exec.bind, Exec.modify, onLocal, Exec.zoom, eq, Bool.false_or]

/-- Callers of `EnsureVolume` that ignore its error only see a registration. -/
theorem attempt_ensureVolume_returns (inv : p.Inv) (id : UInt32) :
    (Exec.attempt (ensureVolume id)).Returns room p fun _ next => Consulted p next := by
  have consulted := addLocal_consulted inv id
  have eq : ∀ faults, ∃ result, Exec.attempt (ensureVolume id) p faults =
      ⟨.ok result, p.addLocal id, faults, false⟩ := by
    intro faults
    obtain ⟨res, called, cases⟩ := ensureVolume_eq inv id faults
    rcases cases with rfl | ⟨message, rfl⟩
    · exact ⟨.ok (), by simp only [Exec.attempt, called]⟩
    · exact ⟨.error message, by simp only [Exec.attempt, called]⟩
  constructor
  · intro faults _
    obtain ⟨result, eq⟩ := eq faults
    exact ⟨result, by rw [eq], by rw [eq]; exact consulted⟩
  · intro _
    obtain ⟨result, eq⟩ := eq []
    rw [eq]
    exact ⟨rfl, rfl⟩

/-! ## Opening -/

/-- Opening a pool fills its registry and nothing else. -/
theorem newVolumePool_eq (localVM : VolumeManager) (remotes : List Remote)
    (registryFile : Table UInt32 VolumeGroup) (replicationFactor : Int) (cacheBytes : UInt64)
    (order : RangeOrder UInt32) :
    ∃ registry nextID,
      newVolumePool localVM remotes registryFile replicationFactor cacheBytes order =
        { localVM := localVM
          remotes := remotes
          registry := registry
          nextID := nextID
          activeGroup := none
          replicationFactor := if replicationFactor < 1 then 1 else replicationFactor.toNat
          registryFile := registryFile
          cache := LruCache.new cacheBytes } := by
  have loaded : ∀ (entries : List (UInt32 × VolumeGroup)) (p : VolumePool), ∃ registry nextID,
      entries.foldl (fun p entry => p.addGroup { entry.2 with id := entry.1 }) p =
        { p with registry := registry, nextID := nextID } := by
    intro entries
    induction entries with
    | nil => exact fun p => ⟨p.registry, p.nextID, rfl⟩
    | cons entry rest ih => exact fun p => ih (p.addGroup { entry.2 with id := entry.1 })
  have registered : ∀ (ids : List UInt32) (p : VolumePool), ∃ registry nextID,
      ids.foldl addLocal p = { p with registry := registry, nextID := nextID } := by
    intro ids
    induction ids with
    | nil => exact fun p => ⟨p.registry, p.nextID, rfl⟩
    | cons id rest ih =>
        intro p
        obtain ⟨registry, nextID, eq⟩ := addLocal_eq p id
        rw [List.foldl_cons, eq]
        exact ih _
  unfold newVolumePool loadRegistry
  dsimp only
  obtain ⟨registry, nextID, eq⟩ := loaded (registryFile.range order) _
  rw [eq]
  obtain ⟨registry, nextID, eq⟩ := registered localVM.stats _
  rw [eq]
  exact ⟨registry, nextID, rfl⟩

/-- Opening a pool over managers that satisfy their invariants. -/
theorem newVolumePool_inv {localVM : VolumeManager} {remotes : List Remote}
    {registryFile : Table UInt32 VolumeGroup} (replicationFactor : Int) (cacheBytes : UInt64)
    (order : RangeOrder UInt32) (localInv : localVM.Inv)
    (remoteInv : 1 < replicationFactor → ∀ remote ∈ remotes, remote.server.Inv)
    (file : ∀ id g, registryFile.lookup id = some g → LocalFirst g.members) :
    ∃ p, newVolumePool localVM remotes registryFile replicationFactor cacheBytes order = p ∧
      p.Inv ∧ p.localVM = localVM ∧ p.remotes = remotes ∧
      p.replicationFactor = (if replicationFactor < 1 then 1 else replicationFactor.toNat) := by
  refine ⟨_, rfl, ?_⟩
  unfold newVolumePool
  set empty : VolumePool :=
    { localVM := localVM
      remotes := remotes
      registry := ∅
      nextID := 0
      activeGroup := none
      replicationFactor := if replicationFactor < 1 then 1 else replicationFactor.toNat
      registryFile := registryFile
      cache := LruCache.new cacheBytes }
  have positive : 0 < empty.replicationFactor := by
    change 0 < if replicationFactor < 1 then 1 else replicationFactor.toNat
    split <;> omega
  have emptyInv : empty.Inv := by
    refine ⟨localInv, fun replicated => remoteInv ?_, positive, ?_, file, ?_, ?_⟩
    · change 1 < (if replicationFactor < 1 then 1 else replicationFactor.toNat) at replicated
      split at replicated <;> omega
    · intro id g found
      exact absurd found (by simp [empty])
    · intro g isActive
      cases isActive
    · intro cache isNew
      obtain ⟨valid, noEntries⟩ := LruCache.new_valid isNew
      exact ⟨valid, fun addr data stores => absurd stores (noEntries addr data)⟩
  have loaded : Consulted empty (loadRegistry order empty) := by
    unfold loadRegistry
    have entries : ∀ entry ∈ empty.registryFile.range order, LocalFirst entry.2.members :=
      fun entry mem => file entry.1 entry.2 ((Table.mem_range order _ _ _).mp mem)
    generalize empty.registryFile.range order = list at entries ⊢
    generalize empty = p at emptyInv ⊢
    induction list generalizing p with
    | nil => exact .refl emptyInv
    | cons entry rest ih =>
        have group := addGroup_group (g := { entry.2 with id := entry.1 })
          (entries entry List.mem_cons_self) emptyInv.group
        have added : Consulted p (p.addGroup { entry.2 with id := entry.1 }) :=
          ⟨⟨emptyInv.localVM, emptyInv.remote, emptyInv.positive, group, emptyInv.file,
            emptyInv.active, emptyInv.cache⟩, rfl, rfl, rfl⟩
        exact added.trans (ih (fun other mem => entries other (List.mem_cons_of_mem _ mem)) _
          added.inv)
  have registered : Consulted empty (localVM.stats.foldl addLocal (loadRegistry order empty)) := by
    generalize loadRegistry order empty = p at loaded ⊢
    induction localVM.stats generalizing p with
    | nil => exact loaded
    | cons id rest ih => exact ih _ (loaded.trans (addLocal_consulted loaded.inv id))
  exact ⟨registered.inv, registered.localVM_eq, registered.remotes_eq, registered.factor_eq⟩

end BriseDB.VolumePool
