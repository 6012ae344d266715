import BriseDB.Base.Matches
import BriseDB.Volume.PoolRun

/-!
# The cache is transparent

The cache of a pool is never invalidated.  It keeps what `Read` has returned, and that stays
right because files of volumes only grow, even when a write fails, and because the file that
belongs to a volume id does not change.

The last holds as long as the volume id 2³²-1 is not in use.  Behind it the id counter of the
manager wraps around, and the manager opens a new file for an id that is in use.

Runs of a pool with a cache and of a pool without one are compared; writes may fail, and
nothing is assumed of the volume files.
-/

namespace BriseDB

/-! ## Volumes -/

namespace Volume

variable {v : Volume}

/-- The file has grown, or is the same. -/
def Grown (v next : Volume) : Prop :=
  v.contents <+: next.contents

/-- What could be read can be read as long as the file grows. -/
theorem read_of_grown {next : Volume} {addr : NeedleAddr} {data : Bytes} (grown : v.Grown next)
    (readEq : read v addr = .ok data) : read next addr = .ok data := by
  rcases grown with ⟨more, contentsEq⟩
  have same : File.readAt next.contents addr.offset.toNat (8 + addr.size).toNat =
      File.readAt v.contents addr.offset.toNat (8 + addr.size).toNat := by
    rw [← contentsEq]
    exact File.readAt_append_of_full (full_of_read readEq).2 more
  refine readWithin_eq_ok.mpr ?_
  rw [same]
  exact readWithin_eq_ok.mp readEq

theorem appendFile_grown (data : Bytes) :
    (appendFile data).Ends v (fun _ => v.Grown) v.Grown := by
  have written : ∀ part : Bytes,
      v.Grown { v with contents := File.writeAt v.contents v.contents.length part } := by
    intro part
    rw [Grown, File.writeAt_end rfl]
    exact List.prefix_append _ _
  have result : (File.write v.contents v.contents.length data).Ends v
      (fun result state => state = v ∧ v.Grown { v with contents := result.1 }) v.Grown :=
    .write (fun _ => ⟨rfl, written data⟩) (fun count _ => ⟨rfl, written (data.take count)⟩)
      fun _ => ⟨rfl, List.prefix_refl _⟩
  refine .bind_state (.bind result ?_)
  rintro ⟨contents, error⟩ _ ⟨rfl, grown⟩
  refine .bind_put ?_
  cases error with
  | some cause => exact .throw grown
  | none => exact .pure grown

theorem Grown.trans {next last : Volume} (first : v.Grown next) (second : next.Grown last) :
    v.Grown last :=
  List.IsPrefix.trans first second

/-- Going on after a part of a file has been written. -/
theorem bind_append_grown {α : Type} (context : String) (data : Bytes) {next : Unit → Exec Volume α}
    (rest : ∀ state : Volume, v.Grown state → (next ()).Ends state (fun _ => v.Grown) v.Grown) :
    (Exec.wrap context (appendFile data) >>= next).Ends v (fun _ => v.Grown) v.Grown :=
  .bind (.wrap (appendFile_grown data)) fun _ state grown => rest state grown

theorem write_grown (data : Bytes) : (write data).Ends v (fun _ => v.Grown) v.Grown := by
  refine .bind_state (bind_append_grown _ _ fun state grown => ?_)
  refine .bind ((Exec.Ends.wrap (appendFile_grown data)).mono (fun _ _ => grown.trans)
    fun _ => grown.trans) fun _ last bothGrown => ?_
  exact .bind_modify (.pure bothGrown)

theorem writeStream_grown (r : Reader) (size : Int64) :
    (writeStream r size).Ends v (fun _ => v.Grown) v.Grown := by
  refine .bind_state (bind_append_grown _ _ fun state grown => ?_)
  refine .bind ((Exec.Ends.wrap (appendFile_grown r.data)).mono (fun _ _ => grown.trans)
    fun _ => grown.trans) fun _ last bothGrown => ?_
  split
  · exact .throw bothGrown
  · split
    · exact .throw bothGrown
    · exact .bind_modify (.pure bothGrown)

end Volume

/-! ## The volume manager -/

namespace VolumeManager

variable {vm : VolumeManager}

/-- Unless the last id is in use, the counter is ahead of the ids in use. -/
def Counted (vm : VolumeManager) : Prop :=
  vm.volumes.lookup lastID = none → ∀ id, (vm.volumes.lookup id).isSome → id < vm.nextID

/-- Ids keep their files, and files only grow. -/
structure Grows (vm next : VolumeManager) : Prop where
  registered : ∀ id drive, vm.volumes.lookup id = some drive → next.volumes.lookup id = some drive
  grown : ∀ path v, vm.disk.lookup path = some v →
    ∃ w, next.disk.lookup path = some w ∧ v.Grown w
  counted : vm.Counted → next.Counted

theorem Grows.refl (vm : VolumeManager) : vm.Grows vm :=
  ⟨fun _ _ known => known, fun _ v found => ⟨v, found, List.prefix_refl _⟩, id⟩

theorem Grows.trans {middle last : VolumeManager} (left : vm.Grows middle)
    (right : middle.Grows last) : vm.Grows last where
  registered id drive known := right.registered id drive (left.registered id drive known)
  grown path v found := by
    rcases left.grown path v found with ⟨w, foundThen, first⟩
    rcases right.grown path w foundThen with ⟨x, foundLast, second⟩
    exact ⟨x, foundLast, first.trans second⟩
  counted counted := right.counted (left.counted counted)

/-- What could be read can still be read. -/
theorem Grows.holds {next : VolumeManager} (grows : vm.Grows next) {addr : NeedleAddr}
    {data : Bytes}
    (holds : vm.Holds addr data) : next.Holds addr data := by
  rcases holds with ⟨drive, v, known, found, readEq⟩
  rcases grows.grown _ v found with ⟨w, foundThen, grown⟩
  exact ⟨drive, w, grows.registered _ _ known, foundThen, Volume.read_of_grown grown readEq⟩

/-- A new id. -/
theorem lookup_insert_unknown {volumes : Table UInt32 Nat} {id : UInt32}
    (unknown : volumes.lookup id = none) (drive : Nat) {other : UInt32} {place : Nat}
    (known : volumes.lookup other = some place) :
    (volumes.insert id drive).lookup other = some place := by
  rw [AList.lookup_insert_ne]
  · exact known
  · rintro rfl
    cases unknown.symm.trans known

/-- Opening a file leaves its contents. -/
theorem open_grown (drive : Nat) (id : UInt32) {path : VolumePath} {v : Volume}
    (found : vm.disk.lookup path = some v) : ∃ w, (vm.disk.insert ⟨drive, id⟩
      (Volume.openVolume id (vm.fileContents ⟨drive, id⟩))).lookup path = some w ∧ v.Grown w := by
  by_cases same : path = ⟨drive, id⟩
  · subst same
    refine ⟨_, AList.lookup_insert _, ?_⟩
    rw [Volume.Grown, fileContents, found]
    exact List.prefix_refl _
  · exact ⟨v, (AList.lookup_insert_ne same).trans found, List.prefix_refl _⟩

theorem Counted.insert (counted : vm.Counted) {id nextID : UInt32} (drive : Nat)
    (le : vm.nextID ≤ nextID ∨ id = lastID) (lt : id < nextID ∨ id = lastID)
    (unused : (vm.volumes.insert id drive).lookup lastID = none) {other : UInt32}
    (known : ((vm.volumes.insert id drive).lookup other).isSome) : other < nextID := by
  have notLast : id ≠ lastID := by
    rintro rfl
    rw [AList.lookup_insert] at unused
    cases unused
  by_cases same : other = id
  · rw [same]
    exact lt.resolve_right notLast
  · rw [AList.lookup_insert_ne same] at known
    rw [AList.lookup_insert_ne (Ne.symm notLast)] at unused
    exact UInt32.lt_of_lt_of_le (counted unused other known) (le.resolve_right notLast)

theorem Counted.register (counted : vm.Counted) (drive : Nat) (id : UInt32) (contents : Bytes) :
    (vm.register drive id contents).Counted := by
  refine fun unused _ known => counted.insert drive ?_ ?_ unused known
  · by_cases isLast : id = lastID
    · exact .inr isLast
    · refine .inl ?_
      unfold VolumeManager.register
      dsimp only
      split
      · next passed => exact UInt32.le_trans passed (UInt32.le_of_lt (lt_succ_of_ne_lastID isLast))
      · exact UInt32.le_refl _
  · by_cases isLast : id = lastID
    · exact .inr isLast
    · refine .inl ?_
      unfold VolumeManager.register
      dsimp only
      split
      · exact lt_succ_of_ne_lastID isLast
      · next notPassed => exact UInt32.not_le.mp notPassed

theorem Counted.createVolume (counted : vm.Counted) (drive : Nat) :
    (vm.createVolume drive).Counted := by
  refine fun unused _ known => counted.insert drive ?_ ?_ unused known
  · by_cases isLast : vm.nextID = lastID
    · exact .inr isLast
    · exact .inl (UInt32.le_of_lt (lt_succ_of_ne_lastID isLast))
  · by_cases isLast : vm.nextID = lastID
    · exact .inr isLast
    · exact .inl (lt_succ_of_ne_lastID isLast)

theorem newVolumeManager_counted (drives : Nat) (maxVolumeSize : UInt64)
    (files : Table VolumePath Bytes) : (newVolumeManager drives maxVolumeSize files).Counted := by
  unfold newVolumeManager
  refine List.foldlRecOn (motive := Counted) _ _ ?_ fun vm counted drive _ => ?_
  · refine List.foldlRecOn (motive := Counted) _ _ ?_ fun vm counted drive _ => ?_
    · intro _ id known
      cases known
    · unfold openDrive
      exact List.foldlRecOn (motive := Counted) _ _ counted fun vm counted id _ =>
        counted.register drive id _
  · unfold ensureCurrent
    split
    · exact counted.createVolume drive
    · exact counted

theorem register_grows {id : UInt32} (unknown : vm.volumes.lookup id = none) (drive : Nat) :
    vm.Grows (vm.register drive id (vm.fileContents ⟨drive, id⟩)) where
  registered _ _ known := lookup_insert_unknown unknown drive known
  grown _ _ found := open_grown drive id found
  counted counted := counted.register drive id _

/-- A call on a volume that lets its file grow. -/
theorem onVolume_grows {α : Type} {path : VolumePath} {call : Exec Volume α}
    (ends : ∀ v : Volume, call.Ends v (fun _ => v.Grown) v.Grown) :
    (onVolume path call).Ends vm (fun _ => vm.Grows) vm.Grows := by
  refine .of_leaves fun faults => ?_
  unfold onVolume
  cases found : vm.disk.lookup path with
  | none => exact .refl vm
  | some v =>
      have grown := (ends v).leaves faults
      refine ⟨fun _ _ known => known, fun other w isFile => ?_, id⟩
      by_cases same : other = path
      · subst same
        obtain rfl := Option.some.inj (found.symm.trans isFile)
        exact ⟨_, AList.lookup_insert _, grown⟩
      · exact ⟨w, (AList.lookup_insert_ne same).trans isFile, List.prefix_refl _⟩

theorem writeToVolume_grows (id : UInt32) (data : Bytes) :
    (writeToVolume id data).Ends vm (fun _ => vm.Grows) vm.Grows := by
  refine .bind_state ?_
  cases known : vm.volumes.lookup id with
  | some drive => exact onVolume_grows fun _ => Volume.write_grown data
  | none =>
      dsimp only
      split
      · exact .panic (.refl vm)
      · have registered := register_grows known 0
        exact .bind_put ((onVolume_grows fun _ => Volume.write_grown data).mono
          (fun _ _ => registered.trans) fun _ => registered.trans)

theorem nextVolume_grows (unused : vm.volumes.lookup lastID = none) (counted : vm.Counted) :
    nextVolume.Ends vm (fun _ => vm.Grows) vm.Grows := by
  have unknown : vm.volumes.lookup vm.nextID = none := by
    by_contra known
    exact UInt32.lt_irrefl _ (counted unused _ (Option.isSome_iff_ne_none.mpr known))
  have moved : vm.Grows { vm with driveIdx := vm.driveIdx + 1 } :=
    ⟨fun _ _ known => known, fun _ v found => ⟨v, found, List.prefix_refl _⟩, id⟩
  refine .bind_state ?_
  split
  · exact .panic (.refl vm)
  · dsimp only
    split
    · exact .panic (.refl vm)
    · split
      · exact .panic (.refl vm)
      · split
        · refine .bind_put (.pure ⟨fun _ _ known => ?_, fun _ _ found => ?_, fun counted => ?_⟩)
          · exact lookup_insert_unknown unknown _ known
          · exact open_grown _ vm.nextID found
          · exact (moved.counted counted).createVolume _
        · exact .bind_put (.pure moved)

theorem writeStream_grows (unused : vm.volumes.lookup lastID = none) (counted : vm.Counted)
    (r : Reader) (size : Int64) :
    (writeStream r size).Ends vm (fun _ => vm.Grows) vm.Grows := by
  refine .bind (nextVolume_grows unused counted) fun _ _ first => ?_
  exact (onVolume_grows fun _ => Volume.writeStream_grown r size).mono (fun _ _ => first.trans)
    fun _ => first.trans

theorem ensureVolume_grows (id : UInt32) :
    (ensureVolume id).Ends vm (fun _ => vm.Grows) vm.Grows := by
  refine .bind_state ?_
  split
  · exact .pure (.refl vm)
  · next unknown =>
      split
      · exact .put (register_grows (Option.not_isSome_iff_eq_none.mp unknown) _)
      · exact .throw (.refl vm)

/-- A read returns what the volumes hold then. -/
theorem read_grows (addr : NeedleAddr) :
    (read addr).Ends vm (fun data next => vm.Grows next ∧ next.Holds addr data) vm.Grows := by
  refine .bind (ensureVolume_grows addr.volumeID) fun _ next grows => .ask ?_ grows
  intro data readEq
  refine ⟨grows, ?_⟩
  split at readEq
  · cases readEq
  · next drive known =>
      split at readEq
      · cases readEq
      · next v found => exact ⟨drive, v, known, found, readEq⟩

/-- A read of what the volumes hold changes nothing. -/
theorem read_held {addr : NeedleAddr} {data : Bytes} (holds : vm.Holds addr data) :
    (read addr).Ends vm (fun found next => found = data ∧ next = vm) fun _ => False := by
  rcases holds with ⟨drive, v, known, isFile, readEq⟩
  have same : (ensureVolume addr.volumeID).Ends vm (fun _ next => next = vm) fun _ => False := by
    refine .bind_state ?_
    rw [if_pos (by rw [known]; rfl)]
    exact .pure rfl
  refine .bind same ?_
  rintro _ _ rfl
  intro faults
  simp only [Exec.ask, known, isFile, readEq, and_self]

end VolumeManager

/-! ## The pool -/

namespace VolumePool

open VolumeManager (lastID)

/-- The pool with another cache. -/
def withCache (cache : Option LruCache) (p : VolumePool) : VolumePool :=
  { p with cache := cache }

section Matching

variable {p : VolumePool} {cache : Option LruCache}

theorem onLocal_matches {α : Type} (call : Exec VolumeManager α) :
    Exec.Matches (withCache cache) (onLocal call) (onLocal call) p :=
  .zoom (fun _ => rfl) fun _ _ => rfl

theorem onRemote_matches {α : Type} (url : String) (call : Exec VolumeManager α) :
    Exec.Matches (withCache cache) (onRemote url call) (onRemote url call) p := by
  intro faults
  unfold onRemote
  rw [show (withCache cache p).remotes = p.remotes from rfl]
  split
  · rfl
  · split <;> rfl

theorem writeRegistrySnap_matches :
    Exec.Matches (withCache cache) writeRegistrySnap writeRegistrySnap p := by
  refine .bind .outcome fun result _ => ?_
  cases result with
  | complete => exact .modify fun _ => rfl
  | cut => exact .throw _

theorem getOrCreateGroup_matches :
    Exec.Matches (withCache cache) getOrCreateGroup getOrCreateGroup p := by
  refine .bind_state ?_
  have same : (withCache cache p).reusableGroup = p.reusableGroup := rfl
  rw [same]
  cases p.reusableGroup with
  | some group => exact .pure group
  | none =>
      exact @Exec.Matches.bind_put VolumePool VolumeGroup (withCache cache) p
        { p with
          registry := p.registry.insert p.nextID ⟨p.nextID, p.allBackends.take p.replicationFactor⟩
          nextID := p.nextID + 1
          activeGroup := some ⟨p.nextID, p.allBackends.take p.replicationFactor⟩ } _ _
        (.bind writeRegistrySnap_matches fun _ _ => .pure _)

theorem writeToMember_matches (m : VolumeMember) (id : UInt32) (data : Bytes) :
    Exec.Matches (withCache cache) (writeToMember m id data) (writeToMember m id data) p := by
  unfold writeToMember
  split
  · exact onLocal_matches _
  · refine .bind .outcome fun result _ => ?_
    rcases result with _ | (_ | count)
    · exact onRemote_matches _ _
    · exact .throw _
    · exact .bind (onRemote_matches _ _) fun _ _ => .throw _

theorem replicate_matches (group : VolumeGroup) (data : Bytes) (idx : Nat)
    (members : List VolumeMember) : Exec.Matches (withCache cache)
      (replicate group data idx members) (replicate group data idx members) p := by
  induction members generalizing p idx with
  | nil => exact .pure none
  | cons m rest ih =>
      refine .bind (.attempt (writeToMember_matches m group.id data)) fun result _ => ?_
      refine .bind (ih (idx + 1)) fun later _ => ?_
      cases result with
      | ok => exact .pure later
      | error => exact .pure _

theorem write_matches (data : Bytes) :
    Exec.Matches (withCache cache) (write data) (write data) p := by
  refine .bind getOrCreateGroup_matches fun group _ => ?_
  cases group.members with
  | nil => exact .panic _
  | cons primary replicas =>
      refine .bind (.wrap _ (writeToMember_matches primary group.id data)) fun addr _ => ?_
      refine .bind (replicate_matches group data 1 replicas) fun failure _ => ?_
      cases failure with
      | none => exact .pure _
      | some => exact .throw _

theorem writeStream_matches (r : Reader) (size : Int64) :
    Exec.Matches (withCache cache) (writeStream r size) (writeStream r size) p := by
  refine .bind getOrCreateGroup_matches fun group _ => ?_
  split
  · exact onLocal_matches _
  · split
    · exact .throw _
    · exact write_matches r.data

theorem readFromMember_matches (m : VolumeMember) (addr : NeedleAddr) :
    Exec.Matches (withCache cache) (readFromMember m addr) (readFromMember m addr) p := by
  unfold readFromMember
  split
  · exact onLocal_matches _
  · exact onRemote_matches _ _

theorem readFromMembers_matches (addr : NeedleAddr) (members : List VolumeMember) :
    Exec.Matches (withCache cache) (readFromMembers addr members)
      (readFromMembers addr members) p := by
  induction members generalizing p with
  | nil => exact .pure _
  | cons m rest ih =>
      cases rest with
      | nil => exact .attempt (readFromMember_matches m addr)
      | cons =>
          refine .bind (.attempt (readFromMember_matches m addr)) fun result _ => ?_
          cases result with
          | ok data => exact .pure _
          | error => exact ih

theorem fetch_matches (addr : NeedleAddr) :
    Exec.Matches (withCache cache) (fetch addr) (fetch addr) p := by
  refine .bind_state ?_
  rw [show (withCache cache p).registry = p.registry from rfl]
  split
  · exact onLocal_matches _
  · refine .bind (readFromMembers_matches _ _) fun result _ => ?_
    cases result with
    | ok data => exact .pure data
    | error => exact .throw _

end Matching

/-- The groups have the local manager as their only member, the cache agrees with the volumes,
and the id counter of the manager is ahead. -/
structure Coherent (p : VolumePool) : Prop where
  counted : p.localVM.Counted
  backends : p.allBackends.take p.replicationFactor = [⟨""⟩]
  group : ∀ id g, p.registry.lookup id = some g → g.id = id ∧ g.members = [⟨""⟩]
  active : ∀ g, p.activeGroup = some g → g.members = [⟨""⟩]
  cache : ∀ cache, p.cache = some cache →
    cache.Valid ∧ ∀ addr data, cache.Stores addr data → p.localVM.Holds addr data

variable {p : VolumePool} {addr : NeedleAddr} {data : Bytes}

theorem Coherent.grow (coherent : p.Coherent) {vm : VolumeManager} (grows : p.localVM.Grows vm) :
    Coherent { p with localVM := vm } where
  counted := grows.counted coherent.counted
  backends := coherent.backends
  group := coherent.group
  active := coherent.active
  cache cache isCache := by
    rcases coherent.cache cache isCache with ⟨valid, holds⟩
    exact ⟨valid, fun addr data stores => grows.holds (holds addr data stores)⟩

theorem Coherent.withCache (coherent : p.Coherent) {cache : LruCache} (valid : cache.Valid)
    (holds : ∀ addr data, cache.Stores addr data → p.localVM.Holds addr data) :
    (p.withCache (some cache)).Coherent where
  counted := coherent.counted
  backends := coherent.backends
  group := coherent.group
  active := coherent.active
  cache := by
    rintro _ ⟨⟩
    exact ⟨valid, holds⟩

/-- A call of the local manager. -/
theorem Coherent.onLocal {α : Type} {call : Exec VolumeManager α} (coherent : p.Coherent)
    (ends : call.Ends p.localVM (fun _ => p.localVM.Grows) p.localVM.Grows) :
    (onLocal call).Ends p (fun _ => Coherent) Coherent :=
  .zoom (ends.mono (fun _ _ => coherent.grow) fun _ => coherent.grow)

theorem getOrCreateGroup_coherent (coherent : p.Coherent) :
    getOrCreateGroup.Ends p
      (fun group next => next.Coherent ∧ next.localVM = p.localVM ∧ group.members = [⟨""⟩])
      Coherent := by
  refine .bind_state ?_
  cases reusable : p.reusableGroup with
  | some group =>
      have isActive : p.activeGroup = some group := (Option.filter_eq_some_iff.mp reusable).1
      exact .pure ⟨coherent, rfl, coherent.active group isActive⟩
  | none =>
      have grouped : ∀ id g, (p.registry.insert p.nextID
          ⟨p.nextID, p.allBackends.take p.replicationFactor⟩).lookup id = some g →
          g.id = id ∧ g.members = [⟨""⟩] := by
        intro id g found
        by_cases same : id = p.nextID
        · rw [same, AList.lookup_insert] at found
          obtain rfl := Option.some.inj found
          exact ⟨same.symm, coherent.backends⟩
        · rw [AList.lookup_insert_ne same] at found
          exact coherent.group id g found
      have allocated : ∀ registryFile, Coherent
          { p with
            registry := p.registry.insert p.nextID
              ⟨p.nextID, p.allBackends.take p.replicationFactor⟩
            nextID := p.nextID + 1
            activeGroup := some ⟨p.nextID, p.allBackends.take p.replicationFactor⟩
            registryFile := registryFile } := by
        refine fun _ => ⟨coherent.counted, coherent.backends, grouped, ?_, coherent.cache⟩
        rintro _ ⟨⟩
        exact coherent.backends
      refine .bind_put (.bind (writeRegistrySnap_ends.mono (fun _ _ saved => saved) ?_) ?_)
      · rintro _ rfl
        exact allocated _
      · rintro _ _ rfl
        exact .pure ⟨allocated _, rfl, coherent.backends⟩

theorem write_coherent (coherent : p.Coherent) (data : Bytes) :
    (write data).Ends p (fun _ => Coherent) Coherent := by
  refine .bind (getOrCreateGroup_coherent coherent) ?_
  rintro ⟨id, members⟩ next ⟨nextCoherent, -, rfl⟩
  refine .bind (.wrap (nextCoherent.onLocal (VolumeManager.writeToVolume_grows id data))) ?_
  intro _ last lastCoherent
  have nobody : (replicate ⟨id, [⟨""⟩]⟩ data 1 []).Ends last
      (fun failure state => failure = none ∧ state.Coherent) Coherent := .pure ⟨rfl, lastCoherent⟩
  refine .bind nobody ?_
  rintro _ _ ⟨rfl, stillCoherent⟩
  exact .pure stillCoherent

theorem writeStream_coherent (coherent : p.Coherent)
    (unused : p.localVM.volumes.lookup lastID = none) (r : Reader) (size : Int64) :
    (writeStream r size).Ends p (fun _ => Coherent) Coherent := by
  refine .bind (getOrCreateGroup_coherent coherent) ?_
  rintro group next ⟨nextCoherent, sameVM, isLocal⟩
  rw [if_pos isLocal]
  refine nextCoherent.onLocal ?_
  rw [sameVM]
  exact VolumeManager.writeStream_grows unused coherent.counted r size

/-! ## Reading -/

/-- With the local manager as the only member, a read on a cache miss is one of the local
manager. -/
theorem fetch_of_local {ok : Bytes → VolumePool → Prop}
    {stop : VolumePool → Prop} (coherent : p.Coherent)
    (ends : (onLocal (VolumeManager.read addr)).Ends p ok stop) : (fetch addr).Ends p ok stop := by
  refine .bind_state ?_
  cases isGroup : p.registry.lookup addr.volumeID with
  | none => exact ends
  | some group =>
      rcases group with ⟨id, members⟩
      rcases coherent.group _ _ isGroup with ⟨rfl, rfl⟩
      have tried : (readFromMembers addr [⟨""⟩]).Ends p
          (fun result next => (∀ data, result = .ok data → ok data next) ∧
            ∀ cause, result = .error cause → stop next) stop := by
        refine .attempt (ends.mono (fun data next holds => ?_) fun next stops => ?_)
        · refine ⟨?_, nofun⟩
          rintro _ ⟨⟩
          exact holds
        · exact ⟨stops, fun _ => ⟨nofun, fun _ _ => stops⟩⟩
      refine .bind tried fun result next both => ?_
      cases result with
      | ok data => exact .pure (both.1 data rfl)
      | error cause => exact .throw (both.2 cause rfl)

theorem fetch_coherent (coherent : p.Coherent) (addr : NeedleAddr) :
    (fetch addr).Ends p (fun data next => next.Coherent ∧ next.localVM.Holds addr data)
      Coherent := by
  refine fetch_of_local coherent (.zoom ((VolumeManager.read_grows addr).mono ?_ ?_))
  · rintro data vm ⟨grows, holds⟩
    exact ⟨coherent.grow grows, holds⟩
  · exact fun _ => coherent.grow

/-- A blob that is there is found, and nothing changes. -/
theorem fetch_held (coherent : p.Coherent) (holds : p.localVM.Holds addr data) :
    (fetch addr).Ends p (fun found next => found = data ∧ next = p) fun _ => False := by
  refine fetch_of_local coherent (.zoom ((VolumeManager.read_held holds).mono ?_ ?_))
  · rintro _ _ ⟨rfl, rfl⟩
    exact ⟨rfl, rfl⟩
  · exact fun _ => id

/-- `Read` after a cache miss. -/
def refill (addr : NeedleAddr) : Exec VolumePool Bytes := do
  let data ← fetch addr
  remember addr data
  pure data

theorem cached_of_none (isCache : p.cache = none) (addr : NeedleAddr) (faults : List Fault) :
    cached addr p faults = ⟨.ok none, p, faults, false⟩ := by
  unfold cached
  rw [Exec.bind_state_apply, isCache]
  rfl

theorem cached_of_some {cache : LruCache} (isCache : p.cache = some cache) (addr : NeedleAddr)
    (faults : List Fault) : cached addr p faults =
      ⟨.ok (cache.get addr).1, p.withCache (some (cache.get addr).2), faults, false⟩ := by
  unfold cached
  rw [Exec.bind_state_apply, isCache]
  rfl

theorem read_of_miss {faults : List Fault} {next : VolumePool}
    (missed : cached addr p faults = ⟨.ok none, next, faults, false⟩) :
    read addr p faults = refill addr next faults := by
  unfold read
  rw [Exec.bind_of_ok missed]
  rfl

theorem read_of_hit {faults : List Fault} {next : VolumePool}
    (hit : cached addr p faults = ⟨.ok (some data), next, faults, false⟩) :
    read addr p faults = ⟨.ok data, next, faults, false⟩ := by
  unfold read
  rw [Exec.bind_of_ok hit]
  rfl

/-- Without a cache, `Read` is a read on a cache miss. -/
theorem read_uncached (p : VolumePool) (addr : NeedleAddr) (faults : List Fault) :
    (read addr (p.withCache none) faults).res = (fetch addr p faults).res ∧
      (read addr (p.withCache none) faults).state = (fetch addr p faults).state.withCache none := by
  have missed : read addr (p.withCache none) faults = refill addr (p.withCache none) faults :=
    read_of_miss (cached_of_none rfl addr faults)
  have matched : fetch addr (p.withCache none) faults = _ := fetch_matches addr faults
  rw [missed]
  change (Exec.bind (fetch addr) _ (p.withCache none) faults).res = _ ∧
    (Exec.bind (fetch addr) _ (p.withCache none) faults).state = _
  cases outcome : (fetch addr p faults).res with
  | ok data =>
      have returned : (fetch addr (p.withCache none) faults).res = .ok data := by
        rw [matched]
        exact outcome
      rcases Exec.bind_after_ok returned fun data => remember addr data >>= fun _ => pure data with
        ⟨stateEq, resEq⟩
      rw [stateEq, resEq, matched]
      exact ⟨rfl, rfl⟩
  | err | panic | hang =>
      simp only [Exec.bind, matched, outcome, and_self]

theorem remember_coherent (coherent : p.Coherent)
    (holds : p.localVM.Holds addr data) (faults : List Fault) : ∃ cache,
      remember addr data p faults = ⟨.ok (), p.withCache cache, faults, false⟩ ∧
        (p.withCache cache).Coherent := by
  rcases p with ⟨localVM, remotes, registry, nextID, activeGroup, factor, registryFile, cache⟩
  cases cache with
  | none => exact ⟨none, rfl, coherent⟩
  | some cache =>
      rcases coherent.cache cache rfl with ⟨valid, held⟩
      rcases LruCache.set_spec valid addr data with ⟨filled, setEq, stillValid, stores⟩
      refine ⟨some filled, ?_, coherent.withCache stillValid ?_⟩
      · unfold remember
        rw [Exec.bind_state_apply]
        dsimp only
        rw [Exec.bind_of_ok (show Exec.ask (fun _ => cache.set addr data) _ faults = _ by
          rw [Exec.ask, setEq])]
        rfl
      · intro other found isStored
        rcases stores other found isStored with old | ⟨rfl, rfl⟩
        · exact held other found old
        · exact holds

theorem refill_coherent (coherent : p.Coherent) (addr : NeedleAddr) (faults : List Fault) :
    (refill addr p faults).res = (fetch addr p faults).res ∧
      (refill addr p faults).state.withCache none = (fetch addr p faults).state.withCache none ∧
      (refill addr p faults).state.Coherent := by
  have fetched := fetch_coherent coherent addr
  change (Exec.bind (fetch addr) _ p faults).res = _ ∧
    (Exec.bind (fetch addr) _ p faults).state.withCache none = _ ∧
    (Exec.bind (fetch addr) _ p faults).state.Coherent
  cases outcome : (fetch addr p faults).res with
  | ok data =>
      rcases fetched.returned outcome with ⟨nextCoherent, holds⟩
      rcases remember_coherent nextCoherent holds (fetch addr p faults).faults with
        ⟨cache, remembered, stillCoherent⟩
      rcases Exec.bind_after_ok outcome fun data => remember addr data >>= fun _ => pure data with
        ⟨stateEq, resEq⟩
      rw [stateEq, resEq, Exec.bind_of_ok remembered]
      exact ⟨rfl, rfl, stillCoherent⟩
  | err | panic | hang =>
      have stopped := fetched.stopped fun data returned => by
        rw [outcome] at returned
        cases returned
      simp only [Exec.bind, outcome]
      exact ⟨trivial, trivial, stopped⟩

/-- `Read` returns the same with and without the cache. -/
theorem read_coherent (coherent : p.Coherent) (addr : NeedleAddr) (faults : List Fault) :
    (read addr (p.withCache none) faults).res = (read addr p faults).res ∧
      (read addr (p.withCache none) faults).state = (read addr p faults).state.withCache none ∧
      (read addr p faults).state.Coherent := by
  rcases read_uncached p addr faults with ⟨uncachedRes, uncachedState⟩
  rw [uncachedRes, uncachedState]
  cases isCache : p.cache with
  | none =>
      rw [read_of_miss (cached_of_none isCache addr faults)]
      rcases refill_coherent coherent addr faults with ⟨resEq, stateEq, stillCoherent⟩
      exact ⟨resEq.symm, stateEq.symm, stillCoherent⟩
  | some cache =>
      rcases coherent.cache cache isCache with ⟨valid, held⟩
      rcases LruCache.get_spec valid addr with ⟨stillValid, sameStores, found⟩
      have touched := coherent.withCache stillValid fun other data stores =>
        held other data ((sameStores other data).mp stores)
      have looked := cached_of_some isCache addr faults
      cases hit : (cache.get addr).1 with
      | some data =>
          rw [hit] at looked
          rcases (fetch_held coherent (held addr data (found data hit))).exists_value faults with
            ⟨_, resEq, rfl, stateEq⟩
          rw [read_of_hit looked, resEq, stateEq]
          exact ⟨rfl, rfl, touched⟩
      | none =>
          rw [hit] at looked
          rcases refill_coherent touched addr faults with ⟨resEq, stateEq, stillCoherent⟩
          have matched : fetch addr (p.withCache (some (cache.get addr).2)) faults = _ :=
            fetch_matches addr faults
          rw [read_of_miss looked]
          refine ⟨?_, ?_, stillCoherent⟩
          · rw [resEq, matched]
          · rw [stateEq, matched]
            rfl

/-! ## Opening a pool -/

/-- What a pool is opened with, apart from the size of its cache. -/
structure Setting where
  drives : Nat
  maxVolumeSize : UInt64
  files : Table VolumePath Bytes
  remotes : List Remote
  registryFile : Table UInt32 VolumeGroup
  replicationFactor : Int
  order : RangeOrder UInt32

namespace Setting

/-- Open a pool. -/
def openPool (s : Setting) (cacheBytes : UInt64) : VolumePool :=
  newVolumePool (VolumeManager.newVolumeManager s.drives s.maxVolumeSize s.files) s.remotes
    s.registryFile s.replicationFactor cacheBytes s.order

/-- The local manager is the only member of all groups. -/
structure Alone (s : Setting) : Prop where
  backends : s.replicationFactor ≤ 1 ∨ s.remotes = []
  file : ∀ id g, s.registryFile.lookup id = some g → g.members = [⟨""⟩]

end Setting

theorem addLocal_withCache (cache : Option LruCache) (p : VolumePool) (id : UInt32) :
    (p.withCache cache).addLocal id = (p.addLocal id).withCache cache := by
  unfold addLocal
  rw [show (p.withCache cache).registry = p.registry from rfl]
  split <;> rfl

/-- The size of the cache concerns nothing but the cache. -/
theorem openPool_uncached (s : Setting) (cacheBytes : UInt64) :
    s.openPool 0 = (s.openPool cacheBytes).withCache none := by
  have loaded : ∀ (entries : List (UInt32 × VolumeGroup)) (p : VolumePool),
      entries.foldl (fun p entry => p.addGroup { entry.2 with id := entry.1 }) (p.withCache none) =
        withCache none
          (entries.foldl (fun p entry => p.addGroup { entry.2 with id := entry.1 }) p) := by
    intro entries
    induction entries with
    | nil => exact fun _ => rfl
    | cons entry rest ih => exact fun p => ih (p.addGroup { entry.2 with id := entry.1 })
  have registered : ∀ (ids : List UInt32) (p : VolumePool),
      ids.foldl addLocal (p.withCache none) = (ids.foldl addLocal p).withCache none := by
    intro ids
    induction ids with
    | nil => exact fun _ => rfl
    | cons id rest ih =>
        intro p
        rw [List.foldl_cons, addLocal_withCache]
        exact ih (p.addLocal id)
  unfold Setting.openPool newVolumePool loadRegistry
  dsimp only
  rw [← registered, ← loaded]
  rfl

/-- Every group has the local manager as its only member. -/
def Grouped (p : VolumePool) : Prop :=
  ∀ id g, p.registry.lookup id = some g → g.id = id ∧ g.members = [⟨""⟩]

theorem Grouped.addGroup (grouped : p.Grouped) {group : VolumeGroup}
    (isLocal : group.members = [⟨""⟩]) : (p.addGroup group).Grouped := by
  intro id g found
  by_cases same : id = group.id
  · rw [same, VolumePool.addGroup, AList.lookup_insert] at found
    obtain rfl := Option.some.inj found
    exact ⟨same.symm, isLocal⟩
  · exact grouped id g ((AList.lookup_insert_ne same).symm.trans found)

theorem openPool_grouped {s : Setting} (alone : s.Alone) (cacheBytes : UInt64) :
    (s.openPool cacheBytes).Grouped := by
  unfold Setting.openPool newVolumePool
  refine List.foldlRecOn (motive := Grouped) _ _ ?_ fun p grouped id _ => ?_
  · unfold loadRegistry
    refine List.foldlRecOn (motive := Grouped) _ _ ?_ fun p grouped entry mem => ?_
    · intro id g found
      cases found
    · exact grouped.addGroup (alone.file entry.1 entry.2 ((Table.mem_range s.order _ _ _).mp mem))
  · unfold addLocal
    split
    · exact grouped
    · exact grouped.addGroup rfl

theorem openPool_coherent {s : Setting} (alone : s.Alone) (cacheBytes : UInt64) :
    (s.openPool cacheBytes).Coherent := by
  have grouped := openPool_grouped alone cacheBytes
  rcases newVolumePool_eq (VolumeManager.newVolumeManager s.drives s.maxVolumeSize s.files)
    s.remotes s.registryFile s.replicationFactor cacheBytes s.order with ⟨registry, nextID, eq⟩
  rw [Setting.openPool, eq] at grouped ⊢
  refine ⟨VolumeManager.newVolumeManager_counted _ _ _, ?_, grouped, nofun, fun cache isNew => ?_⟩
  · rcases alone.backends with single | nobody
    · change List.take (if s.replicationFactor < 1 then 1 else s.replicationFactor.toNat) _ = _
      have one : (if s.replicationFactor < 1 then 1 else s.replicationFactor.toNat) = 1 := by
        split <;> omega
      rw [one]
      rfl
    · have positive : 1 ≤ if s.replicationFactor < 1 then 1 else s.replicationFactor.toNat := by
        split <;> omega
      rw [nobody]
      exact List.take_of_length_le positive
  · rcases LruCache.new_valid isNew with ⟨valid, noEntries⟩
    exact ⟨valid, fun addr data stores => absurd stores (noEntries addr data)⟩

/-! ## Runs -/

/-- A call on blobs. -/
inductive BlobCall where
  | write (data : Bytes)
  | stream (r : Reader) (size : Int64)
  | read (addr : NeedleAddr)

/-- The pool after a call, with the outcomes of its writes. -/
def BlobCall.after (p : VolumePool) (faults : List Fault) : BlobCall → VolumePool
  | write data => (VolumePool.write data p faults).state
  | stream r size => (VolumePool.writeStream r size p faults).state
  | read addr => (VolumePool.read addr p faults).state

/-- The pool after some calls.  An error does not end the run. -/
def afterCalls (p : VolumePool) (calls : List (BlobCall × List Fault)) : VolumePool :=
  calls.foldl (fun p call => call.1.after p call.2) p

/-- A call leads to the same with and without the cache. -/
theorem after_coherent (coherent : p.Coherent) (unused : p.localVM.volumes.lookup lastID = none)
    (call : BlobCall) (faults : List Fault) :
    call.after (p.withCache none) faults = (call.after p faults).withCache none ∧
      (call.after p faults).Coherent := by
  cases call with
  | write data =>
      have matched : write data (p.withCache none) faults = _ := write_matches data faults
      exact ⟨congrArg Out.state matched, (write_coherent coherent data).leaves faults⟩
  | stream r size =>
      have matched : writeStream r size (p.withCache none) faults = _ :=
        writeStream_matches r size faults
      exact ⟨congrArg Out.state matched, (writeStream_coherent coherent unused r size).leaves
        faults⟩
  | read addr =>
      rcases read_coherent coherent addr faults with ⟨-, stateEq, stillCoherent⟩
      exact ⟨stateEq, stillCoherent⟩

/-- As long as the volume id 2³²-1 is not in use when a call begins, a read with the cache
returns whatever it returns without one. -/
theorem cache_transparent {s : Setting} (alone : s.Alone) (cacheBytes : UInt64)
    {calls : List (BlobCall × List Fault)}
    (unused : ∀ before call later, calls = before ++ call :: later →
      ((s.openPool cacheBytes).afterCalls before).localVM.volumes.lookup lastID = none) :
    ∀ before addr faults later, calls = before ++ (.read addr, faults) :: later →
      ∀ data, (read addr ((s.openPool 0).afterCalls before) faults).res = .ok data →
        (read addr ((s.openPool cacheBytes).afterCalls before) faults).res = .ok data := by
  intro before addr faults later split data returned
  have along : (s.openPool 0).afterCalls before =
        ((s.openPool cacheBytes).afterCalls before).withCache none ∧
      ((s.openPool cacheBytes).afterCalls before).Coherent := by
    rw [openPool_uncached s cacheBytes]
    refine @Exec.foldl_along VolumePool _ _ _ (fun p _ => p.localVM.volumes.lookup lastID = none)
      (fun done p => ((s.openPool cacheBytes).withCache none).afterCalls done =
        p.withCache none ∧ p.Coherent)
      ⟨rfl, openPool_coherent alone cacheBytes⟩ ?_ before fun first call rest beforeEq =>
        unused first call (rest ++ (.read addr, faults) :: later) (by rw [split, beforeEq]; simp)
    rintro done call p ⟨same, coherent⟩ unusedThen
    rcases after_coherent coherent unusedThen call.1 call.2 with ⟨stillSame, stillCoherent⟩
    refine ⟨?_, stillCoherent⟩
    rw [afterCalls, List.foldl_append]
    change call.1.after (afterCalls _ done) call.2 = _
    rw [same, stillSame]
  rw [along.1] at returned
  rw [← (read_coherent along.2 addr faults).1]
  exact returned

/-- A pool on an empty drive. -/
def oneDrive : Setting :=
  ⟨1, 0, ∅, [], ∅, 1, .asStored _⟩

theorem cache_transparent_oneDrive :
    (read ⟨1, 0, 1⟩ ((oneDrive.openPool 100).afterCalls
      [(.write [7], []), (.read ⟨1, 0, 1⟩, [])]) []).res = .ok [7] := by
  have alone : oneDrive.Alone := ⟨.inl (Int.le_refl 1), nofun⟩
  refine cache_transparent alone 100
    (Exec.forall_splits_cons (by decide +kernel) (Exec.forall_splits_cons (by decide +kernel)
      (Exec.forall_splits_cons (by decide +kernel) Exec.forall_splits_nil)))
    [(.write [7], []), (.read ⟨1, 0, 1⟩, [])] ⟨1, 0, 1⟩ [] [] rfl [7] ?_
  decide +kernel

/-- Two empty drives, and a group that has used the id before the last one. -/
def lastIDNext : Setting :=
  ⟨2, 20, ∅, [], AList.insert 4294967294 ⟨4294967294, [⟨""⟩]⟩ ∅, 1, .asStored _⟩

/-- The blob gets the last id.  The streams fill the second drive, and the last one makes the
manager open a new file for id 0. -/
def wrapped : List (BlobCall × List Fault) :=
  [(.write [1], []), (.stream ⟨[7], none⟩ 1, []), (.stream ⟨List.replicate 12 0, none⟩ 12, []),
    (.read ⟨0, 0, 1⟩, []), (.stream ⟨[2], none⟩ 1, []), (.stream ⟨[8], none⟩ 1, [])]

theorem wrapped_stale : lastIDNext.Alone ∧
    (read ⟨0, 0, 1⟩ ((lastIDNext.openPool 0).afterCalls wrapped) []).res = .ok [8] ∧
      (read ⟨0, 0, 1⟩ ((lastIDNext.openPool 100).afterCalls wrapped) []).res = .ok [7] := by
  refine ⟨⟨.inl (Int.le_refl 1), fun id g found => ?_⟩, ?_⟩
  · by_cases same : id = 4294967294
    · rw [same, lastIDNext, AList.lookup_insert] at found
      rw [← Option.some.inj found]
    · rw [lastIDNext, AList.lookup_insert_ne same] at found
      cases found
  · unfold lastIDNext Setting.openPool newVolumePool
    dsimp only
    rw [stats_twoDrives]
    decide +kernel

end VolumePool

end BriseDB
