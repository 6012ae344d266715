import BriseDB.Volume.Blobs

/-!
# Ids of volume groups

The pool and the local volume manager take ids from two counters.  `WriteToVolume` and
`EnsureVolume` move the counter of the manager along, but nothing moves the counter of the
pool when a stream makes the manager rotate to a new volume.  The id of that volume may be
the one the pool will give to its next group.

Writes may fail; nothing is assumed of the volumes.
-/

namespace BriseDB

namespace VolumeManager

/-- No volume, open or in a file, has the id. -/
def Unused (vm : VolumeManager) (id : UInt32) : Prop :=
  vm.volumes.lookup id = none ∧ ∀ drive, vm.disk.lookup ⟨drive, id⟩ = none

/-- No volumes have appeared except with the ids in `touched`. -/
structure Spares (touched : UInt32 → Prop) (vm next : VolumeManager) : Prop where
  limit_eq : next.maxVolumeSize = vm.maxVolumeSize
  unused : ∀ id, ¬ touched id → vm.Unused id → next.Unused id

variable {vm : VolumeManager} {touched : UInt32 → Prop}

theorem Spares.refl (vm : VolumeManager) : Spares touched vm vm :=
  ⟨rfl, fun _ _ unused => unused⟩

theorem Spares.trans {middle last : VolumeManager} (left : Spares touched vm middle)
    (right : Spares touched middle last) : Spares touched vm last where
  limit_eq := right.limit_eq.trans left.limit_eq
  unused id spared unused := right.unused id spared (left.unused id spared unused)

theorem unused_register (drive : Nat) {id other : UInt32} (contents : Bytes) (ne : other ≠ id)
    (unused : vm.Unused other) : (vm.register drive id contents).Unused other := by
  refine ⟨?_, fun place => ?_⟩
  · exact (AList.lookup_insert_ne ne).trans unused.1
  · refine (AList.lookup_insert_ne ?_).trans (unused.2 place)
    exact fun same => ne (congrArg VolumePath.id same)

theorem unused_createVolume (drive : Nat) {other : UInt32} (ne : other ≠ vm.nextID)
    (unused : vm.Unused other) : (vm.createVolume drive).Unused other :=
  unused_register drive (vm.fileContents ⟨drive, vm.nextID⟩) ne unused

/-- A call on a volume that has its file. -/
theorem onVolume_spares {α : Type} {path : VolumePath} {call : Exec Volume α} :
    (onVolume path call).Ends vm (fun _ => Spares touched vm) (Spares touched vm) := by
  refine .of_leaves fun faults => ?_
  unfold onVolume
  cases found : vm.disk.lookup path with
  | none => exact .refl vm
  | some v =>
      refine ⟨rfl, fun id _ unused => ⟨unused.1, fun drive => ?_⟩⟩
      refine (AList.lookup_insert_ne ?_).trans (unused.2 drive)
      rintro rfl
      cases (unused.2 drive).symm.trans found

theorem writeToVolume_spares (id : UInt32) (data : Bytes) :
    (writeToVolume id data).Ends vm (fun _ => Spares (· = id) vm) (Spares (· = id) vm) := by
  unfold writeToVolume
  refine .bind_state ?_
  cases vm.volumes.lookup id with
  | some drive => exact onVolume_spares
  | none =>
      dsimp only
      split
      · exact .panic (.refl vm)
      · have registered : Spares (· = id) vm (vm.register 0 id (vm.fileContents ⟨0, id⟩)) :=
          ⟨rfl, fun _ ne => unused_register 0 _ ne⟩
        exact .bind_put (onVolume_spares.mono (fun _ _ => registered.trans) fun _ =>
          registered.trans)

/-- The next stream makes the manager create a volume. -/
def Rotates (vm : VolumeManager) : Prop :=
  ∃ id v, (vm.driveCurrent[vm.driveIdx % vm.drives]?).join = some id ∧
    vm.disk.lookup ⟨vm.driveIdx % vm.drives, id⟩ = some v ∧ vm.maxVolumeSize ≤ v.size

theorem rotates_iff : vm.Rotates ↔
    (((vm.driveCurrent[vm.driveIdx % vm.drives]?).join.bind fun id =>
      vm.disk.lookup ⟨vm.driveIdx % vm.drives, id⟩).any
        fun v => decide (vm.maxVolumeSize ≤ v.size)) = true := by
  rw [Option.any_eq_true]
  simp only [Option.bind_eq_some_iff, decide_eq_true_eq]
  constructor
  · rintro ⟨id, v, current, found, full⟩
    exact ⟨v, ⟨id, current, found⟩, full⟩
  · rintro ⟨v, ⟨id, current, found⟩, full⟩
    exact ⟨id, v, current, found, full⟩

instance : Decidable vm.Rotates :=
  decidable_of_iff _ rotates_iff.symm

/-- The id of the volume that the next stream creates, if it creates one. -/
def Created (vm : VolumeManager) (id : UInt32) : Prop :=
  vm.Rotates ∧ id = vm.nextID

theorem nextVolume_spares :
    nextVolume.Ends vm (fun _ => Spares vm.Created vm) (Spares vm.Created vm) := by
  unfold nextVolume
  refine .bind_state ?_
  by_cases noDrives : vm.drives = 0
  · rw [if_pos noDrives]
    exact .panic (.refl vm)
  · rw [if_neg noDrives]
    dsimp only
    cases current : (vm.driveCurrent[vm.driveIdx % vm.drives]?).join with
    | none => exact .panic (.refl vm)
    | some id =>
        dsimp only
        cases found : vm.disk.lookup ⟨vm.driveIdx % vm.drives, id⟩ with
        | none => exact .panic (.refl vm)
        | some v =>
            dsimp only
            by_cases full : vm.maxVolumeSize ≤ v.size
            · rw [if_pos full]
              refine .bind_put (.pure ⟨rfl, fun other spared unused => ?_⟩)
              refine unused_createVolume _ ?_ unused
              exact fun same => spared ⟨⟨id, v, current, found, full⟩, same⟩
            · rw [if_neg full]
              exact .bind_put (.pure ⟨rfl, fun _ _ unused => unused⟩)

theorem writeStream_spares (r : Reader) (size : Int64) :
    (writeStream r size).Ends vm (fun _ => Spares vm.Created vm) (Spares vm.Created vm) := by
  refine .bind nextVolume_spares fun path next moved => ?_
  exact onVolume_spares.mono (fun _ _ => moved.trans) fun _ => moved.trans

theorem ensureVolume_spares (id : UInt32) :
    (ensureVolume id).Ends vm (fun _ => Spares (fun _ => False) vm)
      (Spares (fun _ => False) vm) := by
  unfold ensureVolume
  refine .bind_state ?_
  split
  · exact .pure (.refl vm)
  · split
    · next drive isFound =>
      have isFile := List.find?_some isFound
      refine .put ⟨rfl, fun other _ unused => unused_register _ _ ?_ unused⟩
      rintro rfl
      simp [unused.2 drive] at isFile
    · exact .throw (.refl vm)

/-- Every volume file belongs to an open volume. -/
def Listed (vm : VolumeManager) : Prop :=
  ∀ path, (vm.disk.lookup path).isSome → (vm.volumes.lookup path.id).isSome

theorem Listed.insert (listed : vm.Listed) (path : VolumePath) (v : Volume) {other : VolumePath}
    (found : ((vm.disk.insert path v).lookup other).isSome) :
    ((vm.volumes.insert path.id path.drive).lookup other.id).isSome := by
  by_cases sameID : other.id = path.id
  · rw [sameID, AList.lookup_insert]
    rfl
  · rw [AList.lookup_insert_ne sameID]
    refine listed other ?_
    rwa [AList.lookup_insert_ne fun same => sameID (congrArg VolumePath.id same)] at found

theorem Listed.openDrive (listed : vm.Listed) (files : Table VolumePath Bytes) (drive : Nat) :
    (openDrive files vm drive).Listed := by
  have opened : ∀ (ids : List UInt32) (vm : VolumeManager), vm.Listed → (ids.foldl
      (fun vm id => vm.register drive id ((files.lookup ⟨drive, id⟩).getD [])) vm).Listed := by
    intro ids
    induction ids with
    | nil => exact fun _ listed => listed
    | cons id rest ih =>
        intro vm listed
        exact ih _ fun _ => listed.insert ⟨drive, id⟩ _
  exact opened (scanDrive files drive) vm listed

theorem Listed.ensureCurrent (listed : vm.Listed) (drive : Nat) :
    (vm.ensureCurrent drive).Listed := by
  unfold VolumeManager.ensureCurrent
  split
  · exact fun _ => listed.insert ⟨drive, vm.nextID⟩ _
  · exact listed

theorem newVolumeManager_listed (drives : Nat) (maxVolumeSize : UInt64)
    (files : Table VolumePath Bytes) : (newVolumeManager drives maxVolumeSize files).Listed := by
  unfold newVolumeManager
  refine List.foldlRecOn (motive := Listed) _ _ ?_ fun vm listed drive _ =>
    listed.ensureCurrent drive
  refine List.foldlRecOn (motive := Listed) _ _ ?_ fun vm listed drive _ =>
    listed.openDrive files drive
  intro path found
  cases found

theorem openDrive_limit (files : Table VolumePath Bytes) (vm : VolumeManager) (drive : Nat) :
    (openDrive files vm drive).maxVolumeSize = vm.maxVolumeSize := by
  unfold openDrive
  exact List.foldlRecOn (motive := fun (opened : VolumeManager) =>
    opened.maxVolumeSize = vm.maxVolumeSize) _ _ rfl fun _ same _ _ => same

theorem newVolumeManager_limit (drives : Nat) (maxVolumeSize : UInt64)
    (files : Table VolumePath Bytes) :
    0 < (newVolumeManager drives maxVolumeSize files).maxVolumeSize := by
  unfold newVolumeManager
  refine List.foldlRecOn (motive := fun (vm : VolumeManager) => 0 < vm.maxVolumeSize) _ _ ?_
    fun vm positive drive _ => ?_
  · refine List.foldlRecOn (motive := fun (vm : VolumeManager) => 0 < vm.maxVolumeSize) _ _ ?_
      fun vm positive drive _ => ?_
    · dsimp only
      split
      · decide
      · next nonzero => exact UInt64.pos_iff_ne_zero.mpr nonzero
    · rwa [openDrive_limit]
  · unfold ensureCurrent
    split <;> exact positive

/-- The open volume with an id. -/
def volumeOf (vm : VolumeManager) (id : UInt32) : Option Volume :=
  (vm.volumes.lookup id).bind fun drive => vm.disk.lookup ⟨drive, id⟩

end VolumeManager

namespace VolumePool

open VolumeManager (lastID Unused Spares)

/-- A call of the pool that may need a group, or that registers a volume. -/
inductive GroupCall where
  | write (data : Bytes)
  | stream (r : Reader) (size : Int64)
  | ensure (id : UInt32)

/-- The group that `getOrCreateGroup` chooses. -/
def chosen (p : VolumePool) : VolumeGroup :=
  p.reusableGroup.getD ⟨p.nextID, p.allBackends.take p.replicationFactor⟩

/-- The id of the group that `getOrCreateGroup` chooses. -/
def target (p : VolumePool) : UInt32 :=
  p.chosen.id

/-- The local volume with an id. -/
def localVolume (p : VolumePool) (id : UInt32) : Option Volume :=
  p.localVM.volumeOf id

/-- The state and the outcomes with which `WriteStream` goes on to `Write`, if it does. -/
def fallback (r : Reader) (p : VolumePool) (faults : List Fault) :
    Option (VolumePool × List Fault) :=
  let out := getOrCreateGroup p faults
  match out.res with
  | .ok group =>
      if group.members = [⟨""⟩] then none
      else if r.error.isSome then none
      else some (out.state, out.faults)
  | _ => none

/-- The group whose members a `Write` that begins in this state begins to write to. -/
def reached (p : VolumePool) (faults : List Fault) : List UInt32 :=
  match (getOrCreateGroup p faults).res with
  | .ok group => [group.id]
  | _ => []

namespace GroupCall

/-- Carry out a call. -/
def run : GroupCall → Exec VolumePool Unit
  | write data => do let _ ← VolumePool.write data
  | stream r size => do let _ ← VolumePool.writeStream r size
  | ensure id => VolumePool.ensureVolume id

/-- The states in which the call asks for a group. -/
def asks (p : VolumePool) (faults : List Fault) : GroupCall → List VolumePool
  | write _ => [p]
  | stream r _ => p :: ((fallback r p faults).map Prod.fst).toList
  | ensure _ => []

/-- The groups to which the call begins to write a blob. -/
def writes (p : VolumePool) (faults : List Fault) : GroupCall → List UInt32
  | write _ => p.reached faults
  | stream r _ => ((fallback r p faults).map fun next => next.1.reached next.2).getD []
  | ensure _ => []

/-- The ids of the groups that the call adds to the registry. -/
def created (p : VolumePool) (faults : List Fault) (call : GroupCall) : List UInt32 :=
  (call.asks p faults).filterMap fun asking =>
    if asking.reusableGroup = none then some asking.nextID else none

end GroupCall

/-- A pool with the groups that blobs have been written to, and those that have been added to
its registry. -/
structure Tracked where
  pool : VolumePool
  written : List UInt32
  created : List UInt32

namespace Tracked

/-- Carry out a call; an error does not end the run. -/
def step (s : Tracked) (call : GroupCall × List Fault) : Tracked where
  pool := (call.1.run s.pool call.2).state
  written := s.written ++ call.1.writes s.pool call.2
  created := s.created ++ call.1.created s.pool call.2

/-- Carry out calls one after the other. -/
def run (s : Tracked) (calls : List (GroupCall × List Fault)) : Tracked :=
  calls.foldl step s

end Tracked

/-- What a group finds when a call asks for one: a new group's id is not in use, a blob does
not go to a full volume, and the volume of a group starts with the first blob written to the
group. -/
structure Sound (p : VolumePool) (written : List UInt32) : Prop where
  fresh : p.reusableGroup = none → p.localVM.Unused p.nextID
  room : ∀ v, p.localVolume p.target = some v → v.size < p.localVM.maxVolumeSize
  empty : p.target ∉ written → p.localVM.Unused p.target

/-- The counter of the pool does not wrap around when a group is asked for. -/
def HasID (p : VolumePool) : Prop :=
  p.reusableGroup = none → p.nextID ≠ lastID

/-- What is asked of a call: it does not use up the ids, and a stream that makes the manager
create a volume gives it an id that the pool has passed and that its group does not have. -/
def Careful (p : VolumePool) (call : GroupCall × List Fault) : Prop :=
  match call.1 with
  | .write _ => p.HasID
  | .stream _ _ => p.HasID ∧
      (p.chosen.members ≠ [⟨""⟩] → p.reusableGroup = none →
        p.nextID + 1 ≠ lastID) ∧
      (p.chosen.members = [⟨""⟩] → p.localVM.Rotates →
        p.localVM.nextID < p.nextID ∧ p.localVM.nextID ≠ p.target)
  | .ensure id => id = lastID → (p.registry.lookup id).isSome

/-! ## The counter of the pool -/

/-- The counter of the pool is ahead of all local volumes, and the volume of the active
group, if there is one, is there because blobs have been written to the group. -/
structure Ahead (p : VolumePool) (written : List UInt32) : Prop where
  ids : ∀ id, ¬ p.localVM.Unused id → id < p.nextID
  active : ∀ g, p.activeGroup = some g → g.id < p.nextID ∧ LocalFirst g.members
  owned : ∀ g, p.activeGroup = some g → ¬ p.localVM.Unused g.id → g.id ∈ written
  limit : 0 < p.localVM.maxVolumeSize
  factor : 0 < p.replicationFactor

variable {p : VolumePool} {written : List UInt32}

theorem Ahead.unused_nextID (ahead : p.Ahead written) : p.localVM.Unused p.nextID := by
  by_contra used
  exact UInt32.lt_irrefl _ (ahead.ids _ used)

/-- A group that is used again has a volume with room. -/
theorem Ahead.reusable (ahead : p.Ahead written) {g : VolumeGroup}
    (reused : p.reusableGroup = some g) :
    p.activeGroup = some g ∧
      ∃ v, p.localVolume g.id = some v ∧ v.size < p.localVM.maxVolumeSize := by
  rw [reusableGroup, Option.filter_eq_some_iff] at reused
  rcases reused with ⟨isActive, hasRoom⟩
  rcases (ahead.active g isActive).2 with ⟨others, membersEq⟩
  rw [membersEq] at hasRoom
  refine ⟨isActive, ?_⟩
  unfold localVolume VolumeManager.volumeOf
  split at hasRoom
  · split at hasRoom
    · cases hasRoom
    · next v found => exact ⟨v, found, of_decide_eq_true hasRoom⟩
  · next notLocal => exact (notLocal others rfl).elim

theorem localVolume_of_unused {id : UInt32} (unused : p.localVM.Unused id) :
    p.localVolume id = none := by
  rw [localVolume, VolumeManager.volumeOf, unused.1]
  rfl

theorem Ahead.sound (ahead : p.Ahead written) : p.Sound written := by
  cases reused : p.reusableGroup with
  | none =>
      have targetEq : p.target = p.nextID := by simp only [target, chosen, reused, Option.getD]
      refine ⟨fun _ => ahead.unused_nextID, fun v found => ?_, fun _ => ?_⟩
      · rw [targetEq, localVolume_of_unused ahead.unused_nextID] at found
        cases found
      · rw [targetEq]
        exact ahead.unused_nextID
  | some g =>
      have targetEq : p.target = g.id := by simp only [target, chosen, reused, Option.getD]
      rcases ahead.reusable reused with ⟨isActive, v, found, hasRoom⟩
      refine ⟨fun isNone => ?_, fun other alsoFound => ?_, fun notWritten => ?_⟩
      · cases reused.symm.trans isNone
      · rw [targetEq, found] at alsoFound
        rwa [← Option.some.inj alsoFound]
      · rw [targetEq] at notWritten ⊢
        exact not_not.mp (mt (ahead.owned g isActive) notWritten)

/-- What a call on the members of a group leaves alone. -/
structure Beside (touched : UInt32 → Prop) (p next : VolumePool) : Prop where
  spares : p.localVM.Spares touched next.localVM
  nextID_eq : next.nextID = p.nextID
  active_eq : next.activeGroup = p.activeGroup
  factor_eq : next.replicationFactor = p.replicationFactor

theorem Beside.refl {touched : UInt32 → Prop} (p : VolumePool) : Beside touched p p :=
  ⟨.refl _, rfl, rfl, rfl⟩

theorem Beside.trans {touched : UInt32 → Prop} {next last : VolumePool}
    (left : Beside touched p next) (right : Beside touched next last) : Beside touched p last :=
  ⟨left.spares.trans right.spares, right.nextID_eq.trans left.nextID_eq,
    right.active_eq.trans left.active_eq, right.factor_eq.trans left.factor_eq⟩

/-- The counter stays ahead of volumes that appear with ids it has passed; the active group
may get its volume when it is marked as written to. -/
theorem Ahead.beside (ahead : p.Ahead written) {touched : UInt32 → Prop} {next : VolumePool}
    {more : List UInt32} (beside : Beside touched p next)
    (passed : ∀ id, touched id → id < p.nextID) (kept : written ⊆ more)
    (marked : ∀ g, p.activeGroup = some g → touched g.id → g.id ∈ more) : next.Ahead more := by
  have appeared : ∀ id, ¬ next.localVM.Unused id → touched id ∨ ¬ p.localVM.Unused id := by
    intro id used
    by_contra neither
    rcases not_or.mp neither with ⟨spared, notUsed⟩
    exact used (beside.spares.unused id spared (not_not.mp notUsed))
  refine ⟨fun id used => ?_, ?_, fun g isActive used => ?_, ?_, ?_⟩
  · rw [beside.nextID_eq]
    rcases appeared id used with isTouched | wasUsed
    · exact passed id isTouched
    · exact ahead.ids id wasUsed
  · rw [beside.nextID_eq, beside.active_eq]
    exact ahead.active
  · rw [beside.active_eq] at isActive
    rcases appeared g.id used with isTouched | wasUsed
    · exact marked g isActive isTouched
    · exact kept (ahead.owned g isActive wasUsed)
  · rw [beside.spares.limit_eq]
    exact ahead.limit
  · rw [beside.factor_eq]
    exact ahead.factor

/-- Moving the counter on. -/
theorem Ahead.raise (ahead : p.Ahead written) {registry : Table UInt32 VolumeGroup}
    {nextID : UInt32} (le : p.nextID ≤ nextID) :
    Ahead { p with registry := registry, nextID := nextID } written where
  ids id used := UInt32.lt_of_lt_of_le (ahead.ids id used) le
  active g isActive :=
    ⟨UInt32.lt_of_lt_of_le (ahead.active g isActive).1 le, (ahead.active g isActive).2⟩
  owned := ahead.owned
  limit := ahead.limit
  factor := ahead.factor

/-! ## The calls -/

theorem onLocal_beside {α : Type} {call : Exec VolumeManager α} {touched : UInt32 → Prop}
    (ends : call.Ends p.localVM (fun _ => Spares touched p.localVM) (Spares touched p.localVM)) :
    (onLocal call).Ends p (fun _ => Beside touched p) (Beside touched p) :=
  .zoom (ends.mono (fun _ _ spares => ⟨spares, rfl, rfl, rfl⟩) fun _ spares =>
    ⟨spares, rfl, rfl, rfl⟩)

theorem onRemote_beside {α : Type} {url : String} {call : Exec VolumeManager α}
    {touched : UInt32 → Prop} :
    (onRemote url call).Ends p (fun _ => Beside touched p) (Beside touched p) := by
  refine .of_leaves fun faults => ?_
  unfold onRemote
  split
  · exact .refl p
  · split
    · exact .refl p
    · exact ⟨.refl _, rfl, rfl, rfl⟩

theorem writeToMember_beside (m : VolumeMember) (id : UInt32) (data : Bytes) :
    (writeToMember m id data).Ends p (fun _ => Beside (· = id) p) (Beside (· = id) p) := by
  unfold writeToMember
  split
  · exact onLocal_beside (VolumeManager.writeToVolume_spares id data)
  · unfold requestWrite
    have same : Exec.outcome.Ends p (fun _ state => state = p) (Beside (· = id) p) :=
      .outcome fun _ => rfl
    refine .bind same ?_
    rintro result _ rfl
    rcases result with _ | (_ | count)
    · exact onRemote_beside
    · exact .throw (.refl _)
    · exact .bind onRemote_beside fun _ _ beside => .throw beside

theorem replicate_beside (group : VolumeGroup) (data : Bytes) (idx : Nat)
    (members : List VolumeMember) :
    (replicate group data idx members).Ends p (fun _ => Beside (· = group.id) p)
      (Beside (· = group.id) p) := by
  induction members generalizing p idx with
  | nil => exact .pure (.refl p)
  | cons m rest ih =>
      have attempted : (Exec.attempt (writeToMember m group.id data)).Ends p
          (fun _ => Beside (· = group.id) p) (Beside (· = group.id) p) :=
        .attempt ((writeToMember_beside m group.id data).mono (fun _ _ beside => beside)
          fun _ beside => ⟨beside, fun _ => beside⟩)
      refine .bind attempted fun result next first => ?_
      refine .bind ((ih (idx + 1)).mono (fun _ _ => first.trans) fun _ => first.trans)
        fun later last both => ?_
      cases result with
      | ok addr => exact .pure both
      | error cause => exact .pure both

/-- What choosing a group leads to. -/
structure Chooses (p : VolumePool) (written : List UInt32) (group : VolumeGroup)
    (next : VolumePool) : Prop where
  ahead : next.Ahead written
  isActive : next.activeGroup = some group
  isChosen : group = p.chosen
  sameVM : next.localVM = p.localVM
  reuses : p.reusableGroup ≠ none → next = p
  allocates : p.reusableGroup = none → next.nextID = p.nextID + 1

theorem Chooses.nextID_le {group : VolumeGroup} {next : VolumePool}
    (chooses : Chooses p written group next) (hasID : p.HasID) : p.nextID ≤ next.nextID := by
  by_cases reused : p.reusableGroup = none
  · rw [chooses.allocates reused]
    exact UInt32.le_of_lt (VolumeManager.lt_succ_of_ne_lastID (hasID reused))
  · rw [chooses.reuses reused]
    exact UInt32.le_refl _

/-- The ids are not used up where a stream goes on to `Write`. -/
theorem Chooses.hasID {group : VolumeGroup} {next : VolumePool}
    (chooses : Chooses p written group next) (notLast : p.reusableGroup = none →
      p.nextID + 1 ≠ lastID) : next.HasID := by
  intro noGroup
  by_cases reused : p.reusableGroup = none
  · rw [chooses.allocates reused]
    exact notLast reused
  · rw [chooses.reuses reused] at noGroup
    exact absurd noGroup reused

theorem getOrCreateGroup_ahead (ahead : p.Ahead written) (hasID : p.HasID) :
    getOrCreateGroup.Ends p (Chooses p written) (fun next => next.Ahead written) := by
  unfold getOrCreateGroup
  refine .bind_state ?_
  cases reused : p.reusableGroup with
  | some group =>
      refine .pure ⟨ahead, (ahead.reusable reused).1, ?_, rfl, fun _ => rfl, fun isNone => ?_⟩
      · simp only [chosen, reused, Option.getD]
      · cases reused.symm.trans isNone
  | none =>
      have larger : p.nextID < p.nextID + 1 := VolumeManager.lt_succ_of_ne_lastID (hasID reused)
      have allocated : ∀ registry registryFile, Ahead
          { p with
            registry := registry
            nextID := p.nextID + 1
            activeGroup := some ⟨p.nextID, p.allBackends.take p.replicationFactor⟩
            registryFile := registryFile } written := by
        refine fun _ _ => ⟨fun id used => ?_, ?_, ?_, ahead.limit, ahead.factor⟩
        · exact UInt32.lt_trans (ahead.ids id used) larger
        · rintro _ ⟨⟩
          exact ⟨larger, localFirst_take p ahead.factor⟩
        · rintro _ ⟨⟩ used
          exact absurd ahead.unused_nextID used
      refine .bind_put (.bind (writeRegistrySnap_ends.mono (fun _ _ saved => saved) ?_) ?_)
      · rintro _ rfl
        exact allocated _ _
      · rintro _ _ rfl
        refine .pure ⟨allocated _ _, rfl, ?_, rfl, fun isSome => absurd reused isSome, fun _ => rfl⟩
        simp only [chosen, reused, Option.getD]

/-- Writing a blob to the members of the active group. -/
theorem writeGroup_ahead (ahead : p.Ahead written) {group : VolumeGroup}
    (isActive : p.activeGroup = some group) {next : VolumePool}
    (beside : Beside (· = group.id) p next) : next.Ahead (written ++ [group.id]) := by
  refine ahead.beside beside ?_ (List.subset_append_left _ _) ?_
  · rintro _ rfl
    exact (ahead.active group isActive).1
  · intro other alsoActive _
    obtain rfl := Option.some.inj (isActive.symm.trans alsoActive)
    simp

theorem write_ahead (ahead : p.Ahead written) (hasID : p.HasID) (data : Bytes)
    (faults : List Fault) : (write data p faults).state.Ahead (written ++ p.reached faults) := by
  have choice := getOrCreateGroup_ahead ahead hasID
  by_cases returned : ∃ group, (getOrCreateGroup p faults).res = .ok group
  · rcases returned with ⟨group, resEq⟩
    rcases choice.returned resEq with ⟨nextAhead, isActive, -, -, -, -⟩
    have reachedEq : p.reached faults = [group.id] := by rw [reached, resEq]
    rw [reachedEq]
    refine Eq.mpr (congrArg (Ahead · _) (Exec.bind_after_ok resEq _).1) ?_
    generalize (getOrCreateGroup p faults).state = next at nextAhead isActive
    rcases (nextAhead.active group isActive).2 with ⟨replicas, membersEq⟩
    rw [membersEq]
    refine Exec.Ends.leaves (?_ : Exec.Ends _ next (fun _ last =>
      last.Ahead (written ++ [group.id]))
      fun last => last.Ahead (written ++ [group.id])) _
    refine .bind ((Exec.Ends.wrap (writeToMember_beside _ group.id data)).mono
      (fun _ _ beside => beside) fun _ => writeGroup_ahead nextAhead isActive)
        fun addr last first => ?_
    refine .bind ((replicate_beside group data 1 replicas).mono (fun _ _ => first.trans)
      fun _ beside => writeGroup_ahead nextAhead isActive (first.trans beside))
        fun failure _ both => ?_
    have done := writeGroup_ahead nextAhead isActive both
    cases failure with
    | none => exact .pure done
    | some message => exact .throw done
  · rw [not_exists] at returned
    have noGroup : p.reached faults = [] := by
      unfold reached
      split
      · next group resEq => exact absurd resEq (returned group)
      · rfl
    rw [noGroup, List.append_nil]
    refine Eq.mpr (congrArg (Ahead · _) (Exec.bind_stopped returned _)) ?_
    exact choice.stopped returned

theorem writeStream_ahead (ahead : p.Ahead written) {r : Reader} {size : Int64}
    {faults : List Fault} (careful : Careful p (.stream r size, faults)) :
    (writeStream r size p faults).state.Ahead
      (written ++ (GroupCall.stream r size).writes p faults) := by
  rcases careful with ⟨hasID, notLast, rotation⟩
  have choice := getOrCreateGroup_ahead ahead hasID
  by_cases returned : ∃ group, (getOrCreateGroup p faults).res = .ok group
  · rcases returned with ⟨group, resEq⟩
    have chooses := choice.returned resEq
    refine Eq.mpr (congrArg (Ahead · _) (Exec.bind_after_ok resEq _).1) ?_
    by_cases single : group.members = [⟨""⟩]
    · have noFallback : fallback r p faults = none := by
        simp only [fallback, resEq, if_pos single]
      simp only [GroupCall.writes, noFallback, if_pos single, Option.map_none, Option.getD_none,
        List.append_nil]
      have besides := onLocal_beside (@VolumeManager.writeStream_spares
        (getOrCreateGroup p faults).state.localVM r size)
      -- the volume that appears has an id behind the counter, and not the group's
      have keeps : ∀ last : VolumePool, Beside (getOrCreateGroup p faults).state.localVM.Created
          (getOrCreateGroup p faults).state last → last.Ahead written := by
        intro last beside
        rw [chooses.sameVM] at beside
        have rotated := rotation (chooses.isChosen ▸ single)
        refine chooses.ahead.beside beside ?_ (List.Subset.refl _) ?_
        · rintro _ ⟨rotates, rfl⟩
          exact UInt32.lt_of_lt_of_le (rotated rotates).1 (chooses.nextID_le hasID)
        · rintro other alsoActive ⟨rotates, idEq⟩
          obtain rfl := Option.some.inj (chooses.isActive.symm.trans alsoActive)
          rw [chooses.isChosen] at idEq
          exact absurd idEq.symm (rotated rotates).2
      exact (besides.mono (fun _ => keeps) keeps).leaves _
    · simp only [if_neg single]
      cases failed : r.error with
      | some cause =>
          have noFallback : fallback r p faults = none := by
            simp [fallback, resEq, single, failed]
          simp only [GroupCall.writes, noFallback, Option.map_none, Option.getD_none,
            List.append_nil]
          exact chooses.ahead
      | none =>
          have goesOn : fallback r p faults =
              some ((getOrCreateGroup p faults).state, (getOrCreateGroup p faults).faults) := by
            simp [fallback, resEq, single, failed]
          simp only [GroupCall.writes, goesOn, Option.map_some, Option.getD_some]
          exact write_ahead chooses.ahead
            (chooses.hasID (notLast (chooses.isChosen ▸ single))) r.data _
  · rw [not_exists] at returned
    have noFallback : fallback r p faults = none := by
      unfold fallback
      dsimp only
      split
      · next group resEq => exact absurd resEq (returned group)
      · rfl
    simp only [GroupCall.writes, noFallback, Option.map_none, Option.getD_none, List.append_nil]
    refine Eq.mpr (congrArg (Ahead · _) (Exec.bind_stopped returned _)) ?_
    exact choice.stopped returned

theorem addGroup_le (p : VolumePool) {group : VolumeGroup} (notLast : group.id ≠ lastID) :
    p.nextID ≤ (p.addGroup group).nextID := by
  unfold addGroup
  dsimp only
  split
  · next passed =>
      exact UInt32.le_trans passed
        (UInt32.le_of_lt (VolumeManager.lt_succ_of_ne_lastID notLast))
  · exact UInt32.le_refl _

theorem ensureVolume_ahead (ahead : p.Ahead written) {id : UInt32}
    (hasID : id = lastID → (p.registry.lookup id).isSome) (faults : List Fault) :
    (ensureVolume id p faults).state.Ahead written := by
  have registered : (p.addLocal id).Ahead written := by
    unfold addLocal
    split
    · exact ahead
    · next unknown => exact ahead.raise (addGroup_le p (mt hasID unknown))
  refine Exec.Ends.leaves (?_ : Exec.Ends _ p (fun _ last => Ahead last written)
    fun last => Ahead last written) _
  have keeps : ∀ last : VolumePool, Beside (fun _ => False) (p.addLocal id) last →
      last.Ahead written :=
    fun last beside => registered.beside beside (fun _ touched => touched.elim)
      (List.Subset.refl _) fun _ _ touched => touched.elim
  exact .bind_modify ((onLocal_beside (VolumeManager.ensureVolume_spares id)).mono
    (fun _ => keeps) keeps)

/-! ## A new pool -/

/-- The counter is ahead of the registry. -/
def Counted (p : VolumePool) : Prop :=
  ∀ id, (p.registry.lookup id).isSome → id < p.nextID

theorem Counted.addGroup (counted : p.Counted) {group : VolumeGroup} (notLast : group.id ≠ lastID) :
    (p.addGroup group).Counted := by
  intro id found
  by_cases same : id = group.id
  · rw [same]
    unfold VolumePool.addGroup
    dsimp only
    split
    · exact VolumeManager.lt_succ_of_ne_lastID notLast
    · next notPassed => exact UInt32.not_le.mp notPassed
  · have known : (p.registry.lookup id).isSome := by
      rwa [← show (p.addGroup group).registry.lookup id = p.registry.lookup id from
        AList.lookup_insert_ne same]
    exact UInt32.lt_of_lt_of_le (counted id known) (addGroup_le p notLast)

theorem Counted.addLocal (counted : p.Counted) {id : UInt32} (notLast : id ≠ lastID) :
    (p.addLocal id).Counted := by
  unfold VolumePool.addLocal
  split
  · exact counted
  · exact counted.addGroup notLast

theorem addLocal_knows (p : VolumePool) (new : UInt32) {id : UInt32}
    (known : id = new ∨ (p.registry.lookup id).isSome) :
    ((p.addLocal new).registry.lookup id).isSome := by
  unfold addLocal
  split
  · next isKnown =>
      rcases known with rfl | known
      · exact isKnown
      · exact known
  · by_cases same : id = new
    · rw [same, addGroup, AList.lookup_insert]
      rfl
    · rw [addGroup, AList.lookup_insert_ne same]
      exact known.resolve_left same

/-- Registering the local volumes. -/
theorem Counted.addLocals (counted : p.Counted) {ids : List UInt32}
    (notLast : ∀ id ∈ ids, id ≠ lastID) :
    (ids.foldl VolumePool.addLocal p).Counted ∧
      ∀ id, id ∈ ids ∨ (p.registry.lookup id).isSome →
        ((ids.foldl VolumePool.addLocal p).registry.lookup id).isSome := by
  induction ids generalizing p with
  | nil => exact ⟨counted, fun id known => known.resolve_left (List.not_mem_nil)⟩
  | cons new rest ih =>
      rcases ih (counted.addLocal (notLast new List.mem_cons_self)) fun id mem =>
        notLast id (List.mem_cons_of_mem _ mem) with ⟨restCounted, restKnows⟩
      refine ⟨restCounted, fun id known => restKnows id ?_⟩
      rw [List.mem_cons, or_assoc] at known
      rcases known with isNew | inRest | known
      · exact .inr (addLocal_knows p new (.inl isNew))
      · exact .inl inRest
      · exact .inr (addLocal_knows p new (.inr known))

theorem Counted.loadRegistry (counted : p.Counted) (order : RangeOrder UInt32)
    (notLast : p.registryFile.lookup lastID = none) : (p.loadRegistry order).Counted := by
  have entries : ∀ entry ∈ p.registryFile.range order, entry.1 ≠ lastID := by
    intro entry mem isLast
    have found := (Table.mem_range order _ _ _).mp mem
    rw [isLast, notLast] at found
    cases found
  unfold VolumePool.loadRegistry
  refine List.foldlRecOn (motive := Counted) _ _ counted fun q sofar entry mem => ?_
  exact sofar.addGroup (entries entry mem)

/-- A pool as it is opened on any drives. -/
theorem newVolumePool_ahead (drives : Nat) (maxVolumeSize : UInt64) (files : Table VolumePath Bytes)
    (remotes : List Remote) (registryFile : Table UInt32 VolumeGroup) (replicationFactor : Int)
    (cacheBytes : UInt64) (order : RangeOrder UInt32)
    (notRegistered : registryFile.lookup lastID = none)
    (notLocal : (VolumeManager.newVolumeManager drives maxVolumeSize files).volumes.lookup lastID =
      none) :
    (newVolumePool (VolumeManager.newVolumeManager drives maxVolumeSize files) remotes registryFile
      replicationFactor cacheBytes order).Ahead [] := by
  set vm := VolumeManager.newVolumeManager drives maxVolumeSize files with vmEq
  rcases newVolumePool_eq vm remotes registryFile replicationFactor cacheBytes order with
    ⟨registry, nextID, eq⟩
  have opened : ∀ id, (vm.volumes.lookup id).isSome → id < nextID := by
    intro id found
    have notLast : ∀ other ∈ vm.stats, other ≠ lastID := by
      rintro _ mem rfl
      have isKey := AList.lookup_isSome.mpr (List.mem_mergeSort.mp mem)
      rw [notLocal] at isKey
      cases isKey
    have empty : Counted
        { localVM := vm
          remotes := remotes
          registry := ∅
          nextID := 0
          activeGroup := none
          replicationFactor := if replicationFactor < 1 then 1 else replicationFactor.toNat
          registryFile := registryFile
          cache := LruCache.new cacheBytes } := by
      intro id found
      cases found
    rcases (empty.loadRegistry order notRegistered).addLocals notLast with ⟨counted, knows⟩
    have known := knows id (.inl (List.mem_mergeSort.mpr (AList.lookup_isSome.mp found)))
    have behind := counted id known
    change id < (newVolumePool vm remotes registryFile replicationFactor cacheBytes order).nextID
      at behind
    rwa [eq] at behind
  rw [eq]
  refine ⟨fun id used => opened id ?_, nofun, nofun, ?_, ?_⟩
  · by_contra closed
    refine used ⟨Option.not_isSome_iff_eq_none.mp closed, fun drive => ?_⟩
    by_contra hasFile
    exact closed (VolumeManager.newVolumeManager_listed drives maxVolumeSize files ⟨drive, id⟩
      (Option.isSome_iff_ne_none.mpr hasFile))
  · exact VolumeManager.newVolumeManager_limit drives maxVolumeSize files
  · change 0 < if replicationFactor < 1 then 1 else replicationFactor.toNat
    split <;> omega

/-! ## Runs -/

theorem Tracked.step_ahead {s : Tracked} (ahead : s.pool.Ahead s.written)
    {call : GroupCall × List Fault} (careful : Careful s.pool call) :
    (s.step call).pool.Ahead (s.step call).written := by
  rcases call with ⟨data | ⟨r, size⟩ | id, faults⟩
  · refine Eq.mpr (congrArg (Ahead · _) ?_) (write_ahead ahead careful data faults)
    exact Exec.bind_pure_state _ () _ _
  · refine Eq.mpr (congrArg (Ahead · _) ?_) (writeStream_ahead ahead careful)
    exact Exec.bind_pure_state _ () _ _
  · have kept := ensureVolume_ahead ahead careful faults
    rwa [← List.append_nil s.written] at kept

/-- Every state in which a call asks for a group. -/
theorem Tracked.asks_ahead {s : Tracked} (ahead : s.pool.Ahead s.written)
    {call : GroupCall × List Fault} (careful : Careful s.pool call) {asking : VolumePool}
    (mem : asking ∈ call.1.asks s.pool call.2) : asking.Ahead s.written := by
  rcases call with ⟨data | ⟨r, size⟩ | id, faults⟩
  · rwa [List.mem_singleton.mp mem]
  · rcases List.mem_cons.mp mem with rfl | later
    · exact ahead
    · rcases Option.map_eq_some_iff.mp (Option.mem_toList.mp later) with ⟨next, goesOn, rfl⟩
      have choice := getOrCreateGroup_ahead ahead careful.1
      unfold fallback at goesOn
      dsimp only at goesOn
      split at goesOn
      · next group resEq =>
        split at goesOn
        · cases goesOn
        · split at goesOn
          · cases goesOn
          · obtain rfl := Option.some.inj goesOn
            exact (choice.returned resEq).ahead
      · cases goesOn
  · cases mem

/-- The id 2³²-1 being unused when the pool is opened, in every run of careful calls each
request for a group finds a new id unused, no blob goes to a full volume, and every group
starts with an empty volume. -/
theorem asks_sound {drives : Nat} {maxVolumeSize : UInt64} {files : Table VolumePath Bytes}
    {remotes : List Remote} {registryFile : Table UInt32 VolumeGroup} {replicationFactor : Int}
    {cacheBytes : UInt64} {order : RangeOrder UInt32} {start : Tracked}
    {calls : List (GroupCall × List Fault)}
    (opened : start = ⟨newVolumePool (VolumeManager.newVolumeManager drives maxVolumeSize files)
      remotes registryFile replicationFactor cacheBytes order, [], []⟩)
    (notRegistered : registryFile.lookup lastID = none)
    (notLocal : start.pool.localVM.volumes.lookup lastID = none)
    (careful : ∀ before call later, calls = before ++ call :: later →
      Careful (start.run before).pool call) :
    ∀ before call later, calls = before ++ call :: later →
      ∀ asking ∈ call.1.asks (start.run before).pool call.2,
        asking.Sound (start.run before).written := by
  intro before call later split asking mem
  have startAhead : start.pool.Ahead start.written := by
    subst opened
    rcases newVolumePool_eq (VolumeManager.newVolumeManager drives maxVolumeSize files) remotes
      registryFile replicationFactor cacheBytes order with ⟨registry, nextID, eq⟩
    rw [eq] at notLocal
    exact newVolumePool_ahead drives maxVolumeSize files remotes registryFile replicationFactor
      cacheBytes order notRegistered notLocal
  have ahead : (start.run before).pool.Ahead (start.run before).written := by
    refine Exec.foldl_along (fun _ (s : Tracked) => Ahead s.pool s.written) startAhead
      (fun _ call s ahead isCareful => Tracked.step_ahead ahead isCareful) before ?_
    intro first next rest beforeEq
    exact careful first next (rest ++ call :: later) (by rw [split, beforeEq]; simp)
  exact (Tracked.asks_ahead ahead (careful before call later split) mem).sound

/-- One empty drive, with room for ten bytes in a volume. -/
def smallVolumes : Tracked :=
  ⟨newVolumePool (VolumeManager.newVolumeManager 1 10 ∅) [] ∅ 1 0 (.asStored _), [], []⟩

/-- The counter of the pool is moved on; then a stream fills volume 0 and the next one rotates
to volume 1. -/
def rotatesBehind : List (GroupCall × List Fault) :=
  [(.ensure 5, []), (.stream ⟨[0, 0], none⟩ 2, []), (.stream ⟨[7, 7], none⟩ 2, [])]

theorem asks_sound_rotatesBehind :
    (smallVolumes.run (rotatesBehind.take 2)).pool.localVM.Rotates ∧
      ((smallVolumes.run rotatesBehind).pool.localVolume 1).map Volume.size = some 10 ∧
      (smallVolumes.run rotatesBehind).pool.Sound (smallVolumes.run rotatesBehind).written := by
  refine ⟨by decide +kernel, by decide +kernel, ?_⟩
  refine @asks_sound 1 10 ∅ [] ∅ 1 0 (.asStored _) smallVolumes
    (rotatesBehind ++ [(.write [2], [])]) rfl rfl (by decide +kernel) ?_
    rotatesBehind (.write [2], []) [] rfl _ List.mem_cons_self
  have lowID : ∀ p : VolumePool, p.nextID ≠ lastID → p.HasID := fun _ notLast _ => notLast
  refine Exec.forall_splits_cons (fun isLast => absurd isLast (by decide)) ?_
  refine Exec.forall_splits_cons ⟨lowID _ (by decide +kernel), fun _ _ => ?_, fun _ _ => ?_⟩ ?_
  · decide +kernel
  · decide +kernel
  · refine Exec.forall_splits_cons ⟨lowID _ (by decide +kernel), fun _ _ => ?_, fun _ _ => ?_⟩ ?_
    · decide +kernel
    · decide +kernel
    · exact Exec.forall_splits_cons (lowID _ (by decide +kernel)) Exec.forall_splits_nil

/-- A blob and the stream that fills volume 0. -/
def fillsFirst : List (GroupCall × List Fault) :=
  [(.write [1], []), (.stream ⟨[0, 0], none⟩ 2, [])]

/-- Once volume 0 is full, the next stream rotates to volume 2, an id the pool has not passed.
The blob that fills volume 1 makes the pool allocate group 2, which finds a full volume. -/
def rotatesFirst : List (GroupCall × List Fault) :=
  fillsFirst ++ [(.stream ⟨[7, 7], none⟩ 2, []), (.write [2], [])]

theorem rotatesFirst_collides :
    (smallVolumes.run rotatesFirst).pool.reusableGroup = none ∧
      (smallVolumes.run rotatesFirst).pool.nextID = 2 ∧
      (smallVolumes.run rotatesFirst).written = [1, 1] ∧
      (smallVolumes.run rotatesFirst).pool.localVM.maxVolumeSize = 10 ∧
      ((smallVolumes.run rotatesFirst).pool.localVolume 2).map Volume.size = some 10 ∧
      (write [3] (smallVolumes.run rotatesFirst).pool []).res = .ok ⟨2, 10, 1⟩ := by
  decide +kernel

end VolumePool

end BriseDB
