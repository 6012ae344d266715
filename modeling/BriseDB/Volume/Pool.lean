import BriseDB.Volume.Lru
import BriseDB.Volume.Manager

/-!
# The volume pool

`VolumePool` distributes blobs over volume groups.  A group has one volume on
each of its members, the local volume manager first and remote volume servers
after it, and all of them are meant to receive the same appends.  Reads go to
the cache and then to the members in order.

The registry file is kept in decoded form and is replaced as a whole.  A remote
server is the volume manager behind it; a request that fails may or may not
have reached it.
-/

namespace BriseDB

/-- `volumeMember`: an empty URL stands for the local volume manager. -/
structure VolumeMember where
  serverURL : String
  deriving DecidableEq, Repr

/-- `volumeGroup`. -/
structure VolumeGroup where
  id : UInt32
  members : List VolumeMember
  deriving DecidableEq, Repr

/-- A client of a remote volume server together with that server. -/
structure Remote where
  baseURL : String
  server : VolumeManager

/-- `VolumePool` with its registry file. -/
structure VolumePool where
  localVM : VolumeManager
  remotes : List Remote
  registry : Table UInt32 VolumeGroup
  nextID : UInt32
  activeGroup : Option VolumeGroup
  replicationFactor : Nat
  registryFile : Table UInt32 VolumeGroup
  cache : Option LruCache

namespace VolumePool

/-! ## Opening and closing -/

/-- Add a group to the registry and move `nextID` behind it. -/
def addGroup (p : VolumePool) (group : VolumeGroup) : VolumePool :=
  { p with
    registry := p.registry.insert group.id group
    nextID := if p.nextID ≤ group.id then group.id + 1 else p.nextID }

/-- `loadRegistry`. -/
def loadRegistry (order : RangeOrder UInt32) (p : VolumePool) : VolumePool :=
  (p.registryFile.range order).foldl
    (fun p entry => p.addGroup { entry.2 with id := entry.1 }) p

/-- Register a local volume as a group of its own, unless its id is known. -/
def addLocal (p : VolumePool) (id : UInt32) : VolumePool :=
  if (p.registry.lookup id).isSome then p else p.addGroup ⟨id, [⟨""⟩]⟩

/-- `newVolumePool`.  `order` is the order in which the decoded registry is
visited. -/
def newVolumePool (localVM : VolumeManager) (remotes : List Remote)
    (registryFile : Table UInt32 VolumeGroup) (replicationFactor : Int) (cacheBytes : UInt64)
    (order : RangeOrder UInt32) : VolumePool :=
  let empty : VolumePool :=
    { localVM := localVM
      remotes := remotes
      registry := ∅
      nextID := 0
      activeGroup := none
      replicationFactor := if replicationFactor < 1 then 1 else replicationFactor.toNat
      registryFile := registryFile
      cache := LruCache.new cacheBytes }
  localVM.stats.foldl addLocal (loadRegistry order empty)

/-- `writeRegistrySnap`: the file is replaced by a complete new one or left as it
is. -/
def writeRegistrySnap : Exec VolumePool Unit := do
  let result ← Exec.outcome
  match result with
  | .complete => Exec.modify fun p => { p with registryFile := p.registry }
  | .cut _ => Exec.throw "write vol-registry"

/-! ## Groups -/

/-- `allBackends`: the local manager, then the remote servers. -/
def allBackends (p : VolumePool) : List VolumeMember :=
  ⟨""⟩ :: p.remotes.map fun remote => ⟨remote.baseURL⟩

/-- The active group, if it can take another blob. -/
def reusableGroup (p : VolumePool) : Option VolumeGroup :=
  p.activeGroup.filter fun group =>
    match group.members with
    | ⟨""⟩ :: _ =>
        match (p.localVM.volumes.lookup group.id).bind fun drive =>
            p.localVM.disk.lookup ⟨drive, group.id⟩ with
        | none => false
        | some v => v.size < p.localVM.maxVolumeSize
    | _ => true

/-- `getOrCreateGroup`. -/
def getOrCreateGroup : Exec VolumePool VolumeGroup := do
  let p ← Exec.state
  match p.reusableGroup with
  | some group => pure group
  | none =>
      let group : VolumeGroup := ⟨p.nextID, p.allBackends.take p.replicationFactor⟩
      Exec.put
        { p with
          registry := p.registry.insert group.id group
          nextID := p.nextID + 1
          activeGroup := some group }
      writeRegistrySnap
      pure group

/-! ## Members -/

/-- Call the local volume manager. -/
def onLocal {α : Type} (call : Exec VolumeManager α) : Exec VolumePool α :=
  Exec.zoom localVM (fun localVM p => { p with localVM := localVM }) call

/-- Call the server of the first client with the given URL, as `remoteByURL`
selects it. -/
def onRemote {α : Type} (url : String) (call : Exec VolumeManager α) : Exec VolumePool α :=
  fun p faults =>
    match p.remotes.findIdx? fun remote => remote.baseURL = url with
    | none => ⟨.err s!"no client for {url}", p, faults, false⟩
    | some idx =>
        match p.remotes[idx]? with
        | none => ⟨.panic "index out of range", p, faults, false⟩
        | some remote =>
            Exec.zoom (fun _ => remote.server)
              (fun server p =>
                { p with remotes := p.remotes.set idx { remote with server := server } })
              call p faults

/-- `client.WriteToVolume`.  A request can fail before or after the server has
handled it. -/
def requestWrite (url : String) (id : UInt32) (data : Bytes) : Exec VolumePool NeedleAddr := do
  let result ← Exec.outcome
  match result with
  | .complete => onRemote url (VolumeManager.writeToVolume id data)
  | .cut 0 => Exec.throw "volume client write-to-volume: request failed"
  | .cut _ => do
      let _ ← onRemote url (VolumeManager.writeToVolume id data)
      Exec.throw "volume client write-to-volume: response lost"

/-- `writeToMember`. -/
def writeToMember (m : VolumeMember) (groupID : UInt32) (data : Bytes) :
    Exec VolumePool NeedleAddr :=
  if m.serverURL = "" then onLocal (VolumeManager.writeToVolume groupID data)
  else requestWrite m.serverURL groupID data

/-- `readFromMember`. -/
def readFromMember (m : VolumeMember) (addr : NeedleAddr) : Exec VolumePool Bytes :=
  if m.serverURL = "" then onLocal (VolumeManager.read addr)
  else onRemote m.serverURL (VolumeManager.read addr)

/-! ## Blobs -/

/-- The replication part of `Write`: every member receives the blob, whatever
happens on the others.  Returns the first error.

The source has a goroutine for each replica and stops waiting for them at the
first error.  Here all appends are carried out before `Write` returns, in the
order of the members.  After an error with several replicas this is one of the
possible schedules: the appends of the others may also come later. -/
def replicate (group : VolumeGroup) (data : Bytes) :
    Nat → List VolumeMember → Exec VolumePool (Option String)
  | _, [] => pure none
  | idx, m :: rest => do
      let result ← Exec.attempt (writeToMember m group.id data)
      let later ← replicate group data (idx + 1) rest
      match result with
      | .error cause => pure (some s!"volume group {group.id} replica {idx} write: {cause}")
      | .ok _ => pure later

/-- `Write`. -/
def write (data : Bytes) : Exec VolumePool NeedleAddr := do
  let group ← getOrCreateGroup
  match group.members with
  | [] => Exec.panic "index out of range"
  | primary :: replicas =>
      let primaryAddr ← Exec.wrap s!"volume group {group.id} primary write"
        (writeToMember primary group.id data)
      let failure ← replicate group data 1 replicas
      match failure with
      | some message => Exec.throw message
      | none => pure ⟨group.id, primaryAddr.offset, primaryAddr.size⟩

/-- `WriteStream`: a single local member takes the stream, otherwise the data is
read first and written as a blob. -/
def writeStream (r : Reader) (size : Int64) : Exec VolumePool NeedleAddr := do
  let group ← getOrCreateGroup
  if group.members = [⟨""⟩] then
    onLocal (VolumeManager.writeStream r size)
  else
    match r.error with
    | some cause => Exec.throw s!"stream read for replication: {cause}"
    | none => write r.data

/-- Try the members of a group in order, until one answers. -/
def readFromMembers (addr : NeedleAddr) :
    List VolumeMember → Exec VolumePool (Except String Bytes)
  | [] => pure (.ok [])
  | [m] => Exec.attempt (readFromMember m addr)
  | m :: rest => do
      let result ← Exec.attempt (readFromMember m addr)
      match result with
      | .ok data => pure (.ok data)
      | .error _ => readFromMembers addr rest

/-- `Read` on a cache miss. -/
def fetch (addr : NeedleAddr) : Exec VolumePool Bytes := do
  let p ← Exec.state
  match p.registry.lookup addr.volumeID with
  | none => onLocal (VolumeManager.read addr)
  | some group =>
      let result ← readFromMembers { addr with volumeID := group.id } group.members
      match result with
      | .ok data => pure data
      | .error cause =>
          Exec.throw s!"volume group {addr.volumeID}: all members failed (last: {cause})"

/-- Put a blob into the cache, if there is one. -/
def remember (addr : NeedleAddr) (data : Bytes) : Exec VolumePool Unit := do
  let p ← Exec.state
  match p.cache with
  | none => pure ()
  | some cache =>
      let filled ← Exec.ask fun _ => cache.set addr data
      Exec.put { p with cache := some filled }

/-- Look a blob up in the cache. -/
def cached (addr : NeedleAddr) : Exec VolumePool (Option Bytes) := do
  let p ← Exec.state
  match p.cache with
  | none => pure none
  | some cache =>
      Exec.put { p with cache := some (cache.get addr).2 }
      pure (cache.get addr).1

/-- `Read`. -/
def read (addr : NeedleAddr) : Exec VolumePool Bytes := do
  let hit ← cached addr
  match hit with
  | some data => pure data
  | none =>
      let data ← fetch addr
      remember addr data
      pure data

/-- `EnsureVolume`. -/
def ensureVolume (id : UInt32) : Exec VolumePool Unit := do
  Exec.modify fun p => p.addLocal id
  onLocal (VolumeManager.ensureVolume id)

end VolumePool

end BriseDB
