import BriseDB.Volume.Caching
import BriseDB.Volume.Streams

/-!
# Groups and their volumes

`getOrCreateGroup` uses the active group again if its local volume is there and has room.
A volume comes into being with the first `Write` to its group.  A stream that gets a new
group either goes to another volume or asks for a group once more, so that the new group is
left without a blob.
-/

namespace BriseDB

/-! ## Sizes of volumes -/

namespace Volume

/-- The volume does not believe its file to be longer than it is. -/
def Sized (v : Volume) : Prop :=
  v.endOffset.toNat ≤ v.contents.length

/-- The volume has kept its size or has grown. -/
def Swollen (v next : Volume) : Prop :=
  next.Sized ∧ v.endOffset ≤ next.endOffset

variable {v : Volume}

theorem openVolume_sized (id : UInt32) (contents : Bytes) : (openVolume id contents).Sized :=
  Nat.mod_le _ _

theorem appendFile_ends (data : Bytes) :
    (appendFile data).Ends v
      (fun _ next => next = { v with contents := v.contents ++ data } ∧
        v.contents.length + data.length ≤ File.maxSize)
      fun next => ∃ part, next = { v with contents := v.contents ++ part } := by
  have atEnd : ∀ part, File.writeAt v.contents v.contents.length part = v.contents ++ part :=
    File.writeAt_end rfl
  have result : (File.write v.contents v.contents.length data).Ends v
      (fun result state => state = v ∧
        (result.2 = none → result.1 = v.contents ++ data ∧
          v.contents.length + data.length ≤ File.maxSize) ∧
        ∃ part, result.1 = v.contents ++ part)
      fun next => ∃ part, next = { v with contents := v.contents ++ part } := by
    refine .write (fun fits => ⟨rfl, fun _ => ⟨atEnd data, fits⟩, data, atEnd data⟩)
      (fun count _ => ⟨rfl, fun noError => (Option.some_ne_none _ noError).elim,
        data.take count, atEnd _⟩)
      fun _ => ⟨rfl, fun noError => (Option.some_ne_none _ noError).elim, [], ?_⟩
    exact (List.append_nil _).symm
  refine .bind_state (.bind result ?_)
  rintro ⟨contents, error⟩ _ ⟨rfl, complete, part, rfl⟩
  refine .bind_put ?_
  cases error with
  | some cause => exact .throw ⟨part, rfl⟩
  | none =>
      rcases complete rfl with ⟨sameContents, fits⟩
      dsimp only at sameContents ⊢
      rw [sameContents]
      exact .pure ⟨rfl, fits⟩

/-- The part of a file behind the end a volume knows does not count. -/
theorem Sized.longer (sized : v.Sized) (part : Bytes) :
    v.Swollen { v with contents := v.contents ++ part } := by
  refine ⟨?_, UInt64.le_refl _⟩
  rw [Sized, List.length_append]
  exact Nat.le_add_right_of_le sized

/-- Moving the end behind a blob that has been appended. -/
theorem Sized.moved (sized : v.Sized) {header data : Bytes} {size : UInt64}
    (headerLength : header.length = 8) (sizeEq : size.toNat = data.length)
    (fits : v.contents.length + (8 + data.length) ≤ File.maxSize) :
    v.Swollen { v with
      contents := v.contents ++ header ++ data
      endOffset := v.endOffset + (8 + size) } := by
  unfold Sized at sized
  unfold File.maxSize at fits
  have sumEq : (v.endOffset + (8 + size)).toNat = v.endOffset.toNat + (8 + data.length) := by
    rw [UInt64.toNat_add, UInt64.toNat_add, sizeEq]
    change (v.endOffset.toNat + (8 + data.length) % 2 ^ 64) % 2 ^ 64 = _
    omega
  refine ⟨?_, ?_⟩
  · change (v.endOffset + (8 + size)).toNat ≤ (v.contents ++ header ++ data).length
    rw [sumEq, List.length_append, List.length_append, headerLength]
    omega
  · rw [UInt64.le_iff_toNat_le, sumEq]
    exact Nat.le_add_right _ _

/-- Header and payload are appended, or a part of them. -/
theorem bind_appends {α : Type} (sized : v.Sized) {header data : Bytes} {first second : String}
    {next : Unit → Exec Volume α} (headerLength : header.length = 8)
    (rest : v.contents.length + (8 + data.length) ≤ File.maxSize →
      (next ()).Ends { v with contents := v.contents ++ header ++ data } (fun _ => v.Swollen)
        v.Swollen) :
    (Exec.wrap first (appendFile header) >>= fun _ =>
      Exec.wrap second (appendFile data) >>= next).Ends v (fun _ => v.Swollen) v.Swollen := by
  refine .bind (.wrap ((appendFile_ends header).mono (fun _ _ appended => appended) ?_)) ?_
  · rintro _ ⟨part, rfl⟩
    exact sized.longer part
  rintro _ _ ⟨rfl, _⟩
  refine .bind (.wrap ((appendFile_ends data).mono (fun _ _ appended => appended) ?_)) ?_
  · rintro _ ⟨part, rfl⟩
    change v.Swollen { v with contents := v.contents ++ header ++ part }
    rw [List.append_assoc]
    exact sized.longer (header ++ part)
  rintro _ _ ⟨rfl, fits⟩
  refine rest ?_
  simpa [headerLength, Nat.add_assoc] using fits

theorem write_swollen (sized : v.Sized) (data : Bytes) :
    (write data).Ends v (fun _ => v.Swollen) v.Swollen := by
  unfold write
  refine .bind_state (bind_appends sized (Bytes.length_putBE ..) fun fits =>
    .bind_modify (.pure (sized.moved (Bytes.length_putBE ..) ?_ fits)))
  unfold File.maxSize at fits
  exact UInt64.toNat_ofNat_of_lt' (show data.length < 2 ^ 64 by omega)

theorem writeStream_swollen (sized : v.Sized) (r : Reader) (size : Int64) :
    (writeStream r size).Ends v (fun _ => v.Swollen) v.Swollen := by
  unfold writeStream
  refine .bind_state (bind_appends sized (Bytes.length_putBE ..) fun fits => ?_)
  have longer : v.Swollen { v with contents := v.contents ++ Bytes.putBE 8 size.toUInt64.toNat ++
      r.data } := by
    rw [List.append_assoc]
    exact sized.longer _
  cases failed : r.error with
  | some cause => exact .throw longer
  | none =>
      dsimp only
      by_cases differ : (r.data.length : Int) ≠ size.toInt
      · rw [if_pos differ]
        exact .throw longer
      · rw [if_neg differ]
        exact .bind_modify (.pure (sized.moved (Bytes.length_putBE ..)
          (toNat_size (not_not.mp differ)) fits))

end Volume

namespace VolumeManager

variable {vm : VolumeManager}

/-- What holds of an open manager, whichever writes have failed. -/
structure Steady (vm : VolumeManager) : Prop where
  drives_pos : 0 < vm.drives
  limit_pos : 0 < vm.maxVolumeSize
  filed : ∀ id drive, vm.volumes.lookup id = some drive → (vm.disk.lookup ⟨drive, id⟩).isSome
  sized : ∀ path v, vm.disk.lookup path = some v → v.Sized
  counted : vm.Counted

/-- Volumes stay open and none of them shrinks. -/
structure Swells (vm next : VolumeManager) : Prop where
  steady : next.Steady
  limit_eq : next.maxVolumeSize = vm.maxVolumeSize
  volume : ∀ id v, vm.volumeOf id = some v → ∃ w, next.volumeOf id = some w ∧ v.size ≤ w.size

theorem Swells.refl (steady : vm.Steady) : vm.Swells vm :=
  ⟨steady, rfl, fun _ v found => ⟨v, found, UInt64.le_refl _⟩⟩

theorem Swells.trans {middle last : VolumeManager} (left : vm.Swells middle)
    (right : middle.Swells last) : vm.Swells last where
  steady := right.steady
  limit_eq := right.limit_eq.trans left.limit_eq
  volume id v found := by
    rcases left.volume id v found with ⟨w, foundThen, first⟩
    rcases right.volume id w foundThen with ⟨x, foundLast, second⟩
    exact ⟨x, foundLast, UInt64.le_trans first second⟩

theorem Steady.isSome_volumeOf (steady : vm.Steady) {id : UInt32} {drive : Nat}
    (known : vm.volumes.lookup id = some drive) : (vm.volumeOf id).isSome := by
  rw [volumeOf, known]
  exact steady.filed id drive known

/-- The manager after a file has been opened. -/
theorem Steady.open (steady : vm.Steady) {next : VolumeManager} {drive : Nat} {id : UInt32}
    {contents : Bytes}
    (diskEq : next.disk = vm.disk.insert ⟨drive, id⟩ (Volume.openVolume id contents))
    (volumesEq : next.volumes = vm.volumes.insert id drive) (drivesEq : next.drives = vm.drives)
    (limitEq : next.maxVolumeSize = vm.maxVolumeSize) (counted : next.Counted) : next.Steady where
  drives_pos := drivesEq ▸ steady.drives_pos
  limit_pos := limitEq ▸ steady.limit_pos
  filed other place known := by
    rw [diskEq]
    rw [volumesEq] at known
    by_cases same : other = id
    · subst same
      rw [AList.lookup_insert] at known
      obtain rfl := Option.some.inj known
      rw [AList.lookup_insert]
      rfl
    · rw [AList.lookup_insert_ne same] at known
      rw [AList.lookup_insert_ne fun equal => same (congrArg VolumePath.id equal)]
      exact steady.filed other place known
  sized path v found := by
    rw [diskEq] at found
    by_cases same : path = ⟨drive, id⟩
    · rw [same, AList.lookup_insert] at found
      obtain rfl := Option.some.inj found
      exact Volume.openVolume_sized id contents
    · rw [AList.lookup_insert_ne same] at found
      exact steady.sized path v found
  counted := counted

/-- A file of an id that was not open. -/
theorem Steady.open_swells (steady : vm.Steady) {next : VolumeManager} {drive : Nat} {id : UInt32}
    {contents : Bytes} (unknown : vm.volumes.lookup id = none)
    (diskEq : next.disk = vm.disk.insert ⟨drive, id⟩ (Volume.openVolume id contents))
    (volumesEq : next.volumes = vm.volumes.insert id drive) (drivesEq : next.drives = vm.drives)
    (limitEq : next.maxVolumeSize = vm.maxVolumeSize) (counted : next.Counted) :
    vm.Swells next where
  steady := steady.open diskEq volumesEq drivesEq limitEq counted
  limit_eq := limitEq
  volume other v found := by
    have different : other ≠ id := by
      rintro rfl
      rw [volumeOf, unknown] at found
      cases found
    refine ⟨v, ?_, UInt64.le_refl _⟩
    rcases Option.bind_eq_some_iff.mp found with ⟨place, known, isFile⟩
    rw [volumeOf, volumesEq, diskEq, AList.lookup_insert_ne different, known]
    exact (AList.lookup_insert_ne fun equal =>
      different (congrArg VolumePath.id equal)).trans isFile

theorem register_steady (steady : vm.Steady) (drive : Nat) (id : UInt32) (contents : Bytes) :
    (vm.register drive id contents).Steady :=
  steady.open rfl rfl rfl rfl (steady.counted.register drive id contents)

theorem register_swells (steady : vm.Steady) {id : UInt32}
    (unknown : vm.volumes.lookup id = none) (drive : Nat) (contents : Bytes) :
    vm.Swells (vm.register drive id contents) :=
  steady.open_swells unknown rfl rfl rfl rfl (steady.counted.register drive id contents)

theorem newVolumeManager_steady {drives : Nat} (positive : 0 < drives) (maxVolumeSize : UInt64)
    (files : Table VolumePath Bytes) : (newVolumeManager drives maxVolumeSize files).Steady := by
  unfold newVolumeManager
  refine List.foldlRecOn (motive := Steady) _ _ ?_ fun vm steady drive _ => ?_
  · refine List.foldlRecOn (motive := Steady) _ _ ?_ fun vm steady drive _ => ?_
    · refine ⟨positive, ?_, fun _ _ known => ?_, fun _ _ found => ?_, fun _ _ known => ?_⟩
      rotate_left
      · cases known
      · cases found
      · cases known
      dsimp only
      split
      · decide
      · next nonzero => exact UInt64.pos_iff_ne_zero.mpr nonzero
    · have opened : ∀ ids : List UInt32, (ids.foldl (fun vm id =>
          vm.register drive id ((files.lookup ⟨drive, id⟩).getD [])) vm).Steady := fun ids =>
        List.foldlRecOn (motive := Steady) ids _ steady fun vm steady id _ =>
          register_steady steady drive id _
      have steadyThen := opened (scanDrive files drive)
      exact ⟨steadyThen.drives_pos, steadyThen.limit_pos, steadyThen.filed, steadyThen.sized,
        steadyThen.counted⟩
  · unfold ensureCurrent
    split
    · exact steady.open rfl rfl rfl rfl (steady.counted.createVolume drive)
    · exact steady

/-- A call on a volume that does not let it shrink. -/
theorem onVolume_swells {α : Type} {path : VolumePath} {call : Exec Volume α} (steady : vm.Steady)
    (ends : ∀ v : Volume, v.Sized → call.Ends v (fun _ => v.Swollen) v.Swollen) :
    (onVolume path call).Ends vm (fun _ => vm.Swells) vm.Swells := by
  refine .of_leaves fun faults => ?_
  unfold onVolume
  cases found : vm.disk.lookup path with
  | none => exact .refl steady
  | some v =>
      rcases (ends v (steady.sized path v found)).leaves faults with ⟨sized, grown⟩
      have lookedUp : ∀ other w, vm.disk.lookup other = some w → ∃ x,
          (vm.disk.insert path (call v faults).state).lookup other = some x ∧
            w.size ≤ x.size := by
        intro other w isFile
        by_cases same : other = path
        · subst same
          obtain rfl := Option.some.inj (found.symm.trans isFile)
          exact ⟨_, AList.lookup_insert _, grown⟩
        · exact ⟨w, (AList.lookup_insert_ne same).trans isFile, UInt64.le_refl _⟩
      refine ⟨⟨steady.drives_pos, steady.limit_pos, ?_, ?_, steady.counted⟩, rfl, ?_⟩
      · intro id drive known
        rcases Option.isSome_iff_exists.mp (steady.filed id drive known) with ⟨w, isFile⟩
        rcases lookedUp _ w isFile with ⟨x, isFileThen, _⟩
        exact Option.isSome_iff_exists.mpr ⟨x, isFileThen⟩
      · intro other w isFile
        by_cases same : other = path
        · subst same
          obtain rfl := Option.some.inj ((AList.lookup_insert _).symm.trans isFile)
          exact sized
        · exact steady.sized other w ((AList.lookup_insert_ne same).symm.trans isFile)
      · intro id w isOpen
        rcases Option.bind_eq_some_iff.mp isOpen with ⟨drive, known, isFile⟩
        rcases lookedUp _ w isFile with ⟨x, isFileThen, le⟩
        exact ⟨x, Option.bind_eq_some_iff.mpr ⟨drive, known, isFileThen⟩, le⟩

/-- After `WriteToVolume` the volume is there, even if the blob could not be written. -/
theorem writeToVolume_swells (steady : vm.Steady) (id : UInt32) (data : Bytes) :
    (writeToVolume id data).Ends vm
      (fun _ next => vm.Swells next ∧ (next.volumeOf id).isSome)
      fun next => vm.Swells next ∧ (next.volumeOf id).isSome := by
  have written : ∀ (drive : Nat) (vm : VolumeManager), vm.Steady →
      vm.volumes.lookup id = some drive →
      (onVolume ⟨drive, id⟩ (Volume.write data)).Ends vm
        (fun _ next => vm.Swells next ∧ (next.volumeOf id).isSome)
        fun next => vm.Swells next ∧ (next.volumeOf id).isSome := by
    intro drive vm steady known
    have keeps : ∀ next, vm.Swells next → vm.Swells next ∧ (next.volumeOf id).isSome := by
      intro next swells
      rcases Option.isSome_iff_exists.mp (steady.isSome_volumeOf known) with ⟨v, isOpen⟩
      rcases swells.volume id v isOpen with ⟨w, isOpenThen, _⟩
      exact ⟨swells, Option.isSome_iff_exists.mpr ⟨w, isOpenThen⟩⟩
    exact (onVolume_swells steady fun v sized => Volume.write_swollen sized data).mono
      (fun _ => keeps) keeps
  refine .bind_state ?_
  cases known : vm.volumes.lookup id with
  | some drive => exact written drive vm steady known
  | none =>
      dsimp only
      rw [if_neg steady.drives_pos.ne']
      have registered := register_swells steady known 0 (vm.fileContents ⟨0, id⟩)
      refine .bind_put ((written 0 _ registered.steady (AList.lookup_insert _)).mono ?_ ?_)
      · rintro _ next ⟨swells, isOpen⟩
        exact ⟨registered.trans swells, isOpen⟩
      · rintro next ⟨swells, isOpen⟩
        exact ⟨registered.trans swells, isOpen⟩

theorem nextVolume_swells (steady : vm.Steady) (unused : vm.volumes.lookup lastID = none) :
    nextVolume.Ends vm (fun _ => vm.Swells) vm.Swells := by
  have unknown : vm.volumes.lookup vm.nextID = none := by
    by_contra known
    exact UInt32.lt_irrefl _ (steady.counted unused _ (Option.isSome_iff_ne_none.mpr known))
  refine .bind_state ?_
  rw [if_neg steady.drives_pos.ne']
  dsimp only
  split
  · exact .panic (.refl steady)
  · split
    · exact .panic (.refl steady)
    · split
      · refine .bind_put (.pure (steady.open_swells unknown rfl rfl rfl rfl ?_))
        exact @Counted.createVolume { vm with driveIdx := vm.driveIdx + 1 } steady.counted _
      · exact .bind_put (.pure ⟨⟨steady.drives_pos, steady.limit_pos, steady.filed, steady.sized,
          steady.counted⟩, rfl, fun _ v found => ⟨v, found, UInt64.le_refl _⟩⟩)

theorem writeStream_swells (steady : vm.Steady) (unused : vm.volumes.lookup lastID = none)
    (r : Reader) (size : Int64) :
    (writeStream r size).Ends vm (fun _ => vm.Swells) vm.Swells := by
  refine .bind (nextVolume_swells steady unused) fun _ _ first => ?_
  exact (onVolume_swells first.steady fun v sized => Volume.writeStream_swollen sized r size).mono
    (fun _ _ => first.trans) fun _ => first.trans

theorem ensureVolume_swells (steady : vm.Steady) (id : UInt32) :
    (ensureVolume id).Ends vm (fun _ => vm.Swells) vm.Swells := by
  refine .bind_state ?_
  split
  · exact .pure (.refl steady)
  · next unknown =>
      split
      · exact .put (register_swells steady (Option.not_isSome_iff_eq_none.mp unknown) _ _)
      · exact .throw (.refl steady)

end VolumeManager

/-! ## Runs of a pool -/

namespace VolumePool

open VolumeManager (lastID)

/-- The volume of the id has a complete blob: its end has moved, and it moves only behind
blobs whose header and data have been written. -/
def Written (p : VolumePool) (id : UInt32) : Prop :=
  ∃ v, p.localVolume id = some v ∧ 0 < v.size

/-- Every group that was added, except the active one, has a blob. -/
def Tracked.Used (s : Tracked) : Prop :=
  ∀ id ∈ s.created, s.pool.Written id ∨ s.pool.activeGroup.map VolumeGroup.id = some id

/-- A group is only replaced when its volume is full. -/
def ReplacesFull (p : VolumePool) : Prop :=
  p.reusableGroup = none → ∀ g, p.activeGroup = some g →
    ∃ v, p.localVolume g.id = some v ∧ p.localVM.maxVolumeSize ≤ v.size

/-- What is asked of a call: a stream comes when the active group has room, and a `Write` that
needs a new group can save the registry. -/
def Timely (p : VolumePool) (call : GroupCall × List Fault) : Prop :=
  match call.1 with
  | .write _ => p.reusableGroup = none → ∀ count, call.2.head? ≠ some (.cut count)
  | .stream _ _ => p.reusableGroup ≠ none ∧ p.localVM.volumes.lookup lastID = none
  | .ensure _ => True

/-- Only volumes have changed, and none of them has shrunk. -/
structure Swells (p next : VolumePool) : Prop where
  localVM : p.localVM.Swells next.localVM
  active_eq : next.activeGroup = p.activeGroup
  factor_eq : next.replicationFactor = p.replicationFactor

/-- The active group has a volume, and the other groups that were added have blobs. -/
structure Filled (p : VolumePool) (created : List UInt32) : Prop where
  steady : p.localVM.Steady
  factor : 0 < p.replicationFactor
  active : ∀ g, p.activeGroup = some g → LocalFirst g.members ∧ (p.localVolume g.id).isSome
  used : ∀ id ∈ created, p.Written id ∨ p.activeGroup.map VolumeGroup.id = some id

variable {p next : VolumePool} {created : List UInt32}

theorem Swells.trans {last : VolumePool} (left : p.Swells next) (right : next.Swells last) :
    p.Swells last :=
  ⟨left.localVM.trans right.localVM, right.active_eq.trans left.active_eq,
    right.factor_eq.trans left.factor_eq⟩

theorem Swells.refl (steady : p.localVM.Steady) : p.Swells p :=
  ⟨.refl steady, rfl, rfl⟩

theorem Swells.isSome_localVolume (swells : p.Swells next) {id : UInt32}
    (isOpen : (p.localVolume id).isSome) : (next.localVolume id).isSome := by
  rcases Option.isSome_iff_exists.mp isOpen with ⟨v, found⟩
  rcases swells.localVM.volume id v found with ⟨w, foundThen, _⟩
  exact Option.isSome_iff_exists.mpr ⟨w, foundThen⟩

theorem Swells.written (swells : p.Swells next) {id : UInt32} (written : p.Written id) :
    next.Written id := by
  rcases written with ⟨v, found, positive⟩
  rcases swells.localVM.volume id v found with ⟨w, foundThen, le⟩
  exact ⟨w, foundThen, UInt64.lt_of_lt_of_le positive le⟩

theorem Filled.swells (filled : p.Filled created) (swells : p.Swells next) :
    next.Filled created where
  steady := swells.localVM.steady
  factor := swells.factor_eq ▸ filled.factor
  active g isActive := by
    rcases filled.active g (swells.active_eq ▸ isActive) with ⟨isLocal, isOpen⟩
    exact ⟨isLocal, swells.isSome_localVolume isOpen⟩
  used id mem := by
    rcases filled.used id mem with written | isActive
    · exact .inl (swells.written written)
    · refine .inr ?_
      rw [swells.active_eq]
      exact isActive

/-- A group that is there and cannot be used again is full. -/
theorem Filled.replacesFull (filled : p.Filled created) : p.ReplacesFull := by
  intro notReused g isActive
  rcases filled.active g isActive with ⟨⟨others, membersEq⟩, isOpen⟩
  rcases Option.isSome_iff_exists.mp isOpen with ⟨v, found⟩
  refine ⟨v, found, UInt64.not_lt.mp fun hasRoom => ?_⟩
  have reused : p.reusableGroup = some g := by
    rw [reusableGroup, Option.filter_eq_some_iff]
    refine ⟨isActive, ?_⟩
    unfold localVolume VolumeManager.volumeOf at found
    rw [membersEq, found]
    exact decide_eq_true hasRoom
  cases notReused.symm.trans reused

/-- Calling a member of a group. -/
theorem writeToMember_swells (steady : p.localVM.Steady) (m : VolumeMember) (id : UInt32)
    (data : Bytes) :
    (writeToMember m id data).Ends p
      (fun _ next => p.Swells next ∧ (m.serverURL = "" → (next.localVolume id).isSome))
      fun next => p.Swells next ∧ (m.serverURL = "" → (next.localVolume id).isSome) := by
  unfold writeToMember
  by_cases isLocal : m.serverURL = ""
  · rw [if_pos isLocal]
    refine .zoom ((VolumeManager.writeToVolume_swells steady id data).mono ?_ ?_)
    · rintro _ vm ⟨swells, isOpen⟩
      exact ⟨⟨swells, rfl, rfl⟩, fun _ => isOpen⟩
    · rintro vm ⟨swells, isOpen⟩
      exact ⟨⟨swells, rfl, rfl⟩, fun _ => isOpen⟩
  · rw [if_neg isLocal]
    have called : ∀ {α : Type} (call : Exec VolumeManager α), (onRemote m.serverURL call).Ends p
        (fun _ next => p.Swells next ∧ (m.serverURL = "" → (next.localVolume id).isSome))
        fun next => p.Swells next ∧ (m.serverURL = "" → (next.localVolume id).isSome) := by
      intro α call
      refine .of_leaves fun faults => ⟨?_, fun noURL => absurd noURL isLocal⟩
      unfold onRemote
      split
      · exact .refl steady
      · split
        · exact .refl steady
        · exact ⟨.refl steady, rfl, rfl⟩
    refine .bind_outcome fun result => ?_
    rcases result with _ | (_ | count)
    · exact called _
    · exact .throw ⟨.refl steady, fun noURL => absurd noURL isLocal⟩
    · exact .bind (called _) fun _ _ both => .throw both

theorem replicate_swells (steady : p.localVM.Steady) (group : VolumeGroup) (data : Bytes)
    (idx : Nat) (members : List VolumeMember) :
    (replicate group data idx members).Ends p (fun _ => p.Swells) p.Swells := by
  induction members generalizing p idx with
  | nil => exact .pure (.refl steady)
  | cons m rest ih =>
      have attempted : (Exec.attempt (writeToMember m group.id data)).Ends p
          (fun _ => p.Swells) p.Swells :=
        .attempted (writeToMember_swells steady m group.id data).left
      refine .bind attempted fun result state first => ?_
      refine .bind ((ih first.localVM.steady (idx + 1)).mono (fun _ _ => first.trans)
        fun _ => first.trans) fun later last both => ?_
      cases result with
      | ok addr => exact .pure both
      | error cause => exact .pure both

/-- Once it has a group, `Write` gives it a volume, even if it cannot write the blob. -/
theorem write_swells {faults : List Fault} {group : VolumeGroup} (data : Bytes)
    (resEq : (getOrCreateGroup p faults).res = .ok group)
    (steady : (getOrCreateGroup p faults).state.localVM.Steady)
    (isLocal : LocalFirst group.members) :
    (getOrCreateGroup p faults).state.Swells (write data p faults).state ∧
      ((write data p faults).state.localVolume group.id).isSome := by
  refine Eq.mpr (congrArg (fun last : VolumePool => (getOrCreateGroup p faults).state.Swells last ∧
    (last.localVolume group.id).isSome) (Exec.bind_after_ok resEq _).1) ?_
  generalize (getOrCreateGroup p faults).state = q at steady ⊢
  rcases isLocal with ⟨replicas, membersEq⟩
  rw [membersEq]
  refine Exec.Ends.leaves (?_ : Exec.Ends _ q
    (fun _ last => q.Swells last ∧ (last.localVolume group.id).isSome)
    fun last => q.Swells last ∧ (last.localVolume group.id).isSome) _
  have first := (writeToMember_swells steady ⟨""⟩ group.id data).mono
    (fun _ _ both => And.imp_right (· rfl) both) fun _ both => And.imp_right (· rfl) both
  refine .bind (.wrap first) ?_
  rintro addr state ⟨swells, isOpen⟩
  have keeps : ∀ last, state.Swells last →
      q.Swells last ∧ (last.localVolume group.id).isSome :=
    fun last later => ⟨swells.trans later, later.isSome_localVolume isOpen⟩
  refine .bind ((replicate_swells swells.localVM.steady group data 1 replicas).mono
    (fun _ => keeps) keeps) fun failure last both => ?_
  cases failure with
  | none => exact .pure both
  | some message => exact .throw both

/-- A call that finds a group with room gets it and changes nothing. -/
theorem getOrCreateGroup_reused {group : VolumeGroup} (reused : p.reusableGroup = some group)
    (faults : List Fault) : getOrCreateGroup p faults = ⟨.ok group, p, faults, false⟩ := by
  unfold getOrCreateGroup
  rw [Exec.bind_state_apply]
  simp only [reused]
  rfl

/-- The group that is allocated when no group can be used again. -/
def allocated (p : VolumePool) : VolumePool :=
  { p with
    registry := p.registry.insert p.nextID ⟨p.nextID, p.allBackends.take p.replicationFactor⟩
    nextID := p.nextID + 1
    activeGroup := some ⟨p.nextID, p.allBackends.take p.replicationFactor⟩ }

theorem getOrCreateGroup_saved (noGroup : p.reusableGroup = none) {faults : List Fault}
    (saved : ∀ count, faults.head? ≠ some (.cut count)) :
    getOrCreateGroup p faults =
      ⟨.ok ⟨p.nextID, p.allBackends.take p.replicationFactor⟩,
        { p.allocated with registryFile := p.allocated.registry }, faults.tail, false⟩ := by
  have snapped : writeRegistrySnap p.allocated faults =
      ⟨.ok (), { p.allocated with registryFile := p.allocated.registry }, faults.tail, false⟩ := by
    rcases faults with _ | ⟨_ | count, rest⟩
    · rfl
    · rfl
    · exact absurd rfl (saved count)
  unfold getOrCreateGroup
  rw [Exec.bind_state_apply]
  simp only [noGroup]
  exact Exec.bind_of_ok snapped

/-- Replacing the active group by one with a volume. -/
theorem Filled.replaced (filled : p.Filled created) {group : VolumeGroup}
    (noGroup : p.reusableGroup = none) (isLocal : LocalFirst group.members)
    (localEq : p.localVM.Swells next.localVM) (activeEq : next.activeGroup = some group)
    (factorEq : next.replicationFactor = p.replicationFactor)
    (isOpen : (next.localVolume group.id).isSome) : next.Filled (created ++ [group.id]) where
  steady := localEq.steady
  factor := factorEq ▸ filled.factor
  active g isActive := by
    obtain rfl := Option.some.inj (activeEq.symm.trans isActive)
    exact ⟨isLocal, isOpen⟩
  used id mem := by
    have keeps : p.Written id → next.Written id := by
      rintro ⟨v, found, positive⟩
      rcases localEq.volume id v found with ⟨w, foundThen, le⟩
      exact ⟨w, foundThen, UInt64.lt_of_lt_of_le positive le⟩
    rcases List.mem_append.mp mem with old | new
    · rcases filled.used id old with written | isActive
      · exact .inl (keeps written)
      · rcases Option.map_eq_some_iff.mp isActive with ⟨g, gActive, rfl⟩
        rcases filled.replacesFull noGroup g gActive with ⟨v, found, full⟩
        exact .inl (keeps ⟨v, found, UInt64.lt_of_lt_of_le filled.steady.limit_pos full⟩)
    · rw [List.mem_singleton.mp new, activeEq]
      exact .inr rfl

theorem created_write (data : Bytes) (faults : List Fault) :
    (GroupCall.write data).created p faults =
      if p.reusableGroup = none then [p.nextID] else [] := by
  unfold GroupCall.created GroupCall.asks
  by_cases noGroup : p.reusableGroup = none
  · simp [noGroup]
  · simp [noGroup]

theorem write_filled (filled : p.Filled created) (data : Bytes) {faults : List Fault}
    (timely : Timely p (.write data, faults)) :
    (write data p faults).state.Filled (created ++ (GroupCall.write data).created p faults) := by
  rw [created_write]
  cases reused : p.reusableGroup with
  | some group =>
      have isActive : p.activeGroup = some group := (Option.filter_eq_some_iff.mp reused).1
      have choice := getOrCreateGroup_reused reused faults
      have swells := (write_swells data (congrArg Out.res choice)
        (congrArg Out.state choice ▸ filled.steady) (filled.active group isActive).1).1
      rw [choice] at swells
      rw [if_neg (Option.some_ne_none _), List.append_nil]
      exact filled.swells swells
  | none =>
      have isLocal := localFirst_take p filled.factor
      have choice := getOrCreateGroup_saved reused (timely reused)
      rcases write_swells data (congrArg Out.res choice)
        (congrArg Out.state choice ▸ filled.steady) isLocal with ⟨swells, isOpen⟩
      rw [choice] at swells
      rw [if_pos rfl]
      exact filled.replaced reused isLocal swells.localVM swells.active_eq swells.factor_eq isOpen

theorem writeStream_filled (filled : p.Filled created) {r : Reader} {size : Int64}
    {faults : List Fault} (timely : Timely p (.stream r size, faults)) :
    (writeStream r size p faults).state.Filled created := by
  rcases timely with ⟨hasGroup, unused⟩
  rcases Option.ne_none_iff_exists'.mp hasGroup with ⟨group, reused⟩
  have choice := getOrCreateGroup_reused reused faults
  have streamEq : writeStream r size p faults = _ := Exec.bind_of_ok choice
  rw [streamEq]
  by_cases single : group.members = [⟨""⟩]
  · rw [if_pos single]
    have streamed : (onLocal (VolumeManager.writeStream r size)).Ends p (fun _ => p.Swells)
        p.Swells := .zoom ((VolumeManager.writeStream_swells filled.steady unused r size).mono
      (fun _ _ swells => ⟨swells, rfl, rfl⟩) fun _ swells => ⟨swells, rfl, rfl⟩)
    exact filled.swells (streamed.leaves faults)
  · rw [if_neg single]
    cases r.error with
    | some cause => exact filled
    | none =>
        have written := @write_filled p created filled r.data faults
          fun noGroup => absurd noGroup hasGroup
        rwa [created_write, if_neg hasGroup, List.append_nil] at written

/-- A stream that comes when the active group has room finds it again if it asks twice. -/
theorem asks_stream (hasGroup : p.reusableGroup ≠ none) (r : Reader) (size : Int64)
    (faults : List Fault) {asking : VolumePool}
    (mem : asking ∈ (GroupCall.stream r size).asks p faults) : asking = p := by
  rcases Option.ne_none_iff_exists'.mp hasGroup with ⟨group, reused⟩
  have choice := getOrCreateGroup_reused reused faults
  rcases List.mem_cons.mp mem with rfl | later
  · rfl
  · rcases Option.map_eq_some_iff.mp (Option.mem_toList.mp later) with ⟨next, goesOn, rfl⟩
    simp only [fallback, choice] at goesOn
    split at goesOn
    · cases goesOn
    · split at goesOn
      · cases goesOn
      · rw [← Option.some.inj goesOn]

theorem created_stream (hasGroup : p.reusableGroup ≠ none) (r : Reader) (size : Int64)
    (faults : List Fault) : (GroupCall.stream r size).created p faults = [] := by
  rw [GroupCall.created, List.filterMap_eq_nil_iff]
  intro asking mem
  rw [asks_stream hasGroup r size faults mem, if_neg hasGroup]

theorem ensureVolume_filled (filled : p.Filled created) (id : UInt32) (faults : List Fault) :
    (ensureVolume id p faults).state.Filled created := by
  rcases addLocal_eq p id with ⟨registry, nextID, addEq⟩
  have added : (p.addLocal id).Filled created := by
    rw [addEq]
    exact ⟨filled.steady, filled.factor, filled.active, filled.used⟩
  have ensured : (onLocal (VolumeManager.ensureVolume id)).Ends (p.addLocal id)
      (fun _ => (p.addLocal id).Swells) (p.addLocal id).Swells :=
    .zoom ((VolumeManager.ensureVolume_swells added.steady id).mono
      (fun _ _ swells => ⟨swells, rfl, rfl⟩) fun _ swells => ⟨swells, rfl, rfl⟩)
  have ends : (ensureVolume id).Ends p (fun _ next => next.Filled created)
      fun next => next.Filled created :=
    .bind_modify (ensured.mono (fun _ _ => added.swells) fun _ => added.swells)
  exact ends.leaves faults

theorem Tracked.step_filled {s : Tracked} (filled : s.pool.Filled s.created)
    {call : GroupCall × List Fault} (timely : Timely s.pool call) :
    (s.step call).pool.Filled (s.step call).created := by
  rcases call with ⟨data | ⟨r, size⟩ | id, faults⟩
  · refine Eq.mpr (congrArg (Filled · _) ?_) (write_filled filled data timely)
    exact Exec.bind_pure_state _ () _ _
  · have streamed := writeStream_filled filled timely
    rw [← List.append_nil s.created, ← created_stream timely.1 r size faults] at streamed
    refine Eq.mpr (congrArg (Filled · _) ?_) streamed
    exact Exec.bind_pure_state _ () _ _
  · have ensured := ensureVolume_filled filled id faults
    rwa [← List.append_nil s.created] at ensured

theorem Tracked.asks_replacesFull {s : Tracked} (filled : s.pool.Filled s.created)
    {call : GroupCall × List Fault} (timely : Timely s.pool call) {asking : VolumePool}
    (mem : asking ∈ call.1.asks s.pool call.2) : asking.ReplacesFull := by
  rcases call with ⟨data | ⟨r, size⟩ | id, faults⟩
  · rw [List.mem_singleton.mp mem]
    exact filled.replacesFull
  · rw [asks_stream timely.1 r size faults mem]
    exact filled.replacesFull
  · cases mem

/-- From the opening of a pool on, in every run of timely calls, every group that was added to
the registry has a blob or is the active one, and groups are only replaced when they are
full. -/
theorem groups_used {s : Setting} (positive : 0 < s.drives) (cacheBytes : UInt64)
    {start : Tracked} (opened : start = ⟨s.openPool cacheBytes, [], []⟩)
    {calls : List (GroupCall × List Fault)}
    (timely : ∀ before call later, calls = before ++ call :: later →
      Timely (start.run before).pool call) :
    (∀ before later, calls = before ++ later → (start.run before).Used) ∧
      ∀ before call later, calls = before ++ call :: later →
        ∀ asking ∈ call.1.asks (start.run before).pool call.2, asking.ReplacesFull := by
  have startFilled : start.pool.Filled start.created := by
    subst opened
    rcases newVolumePool_eq (VolumeManager.newVolumeManager s.drives s.maxVolumeSize s.files)
      s.remotes s.registryFile s.replicationFactor cacheBytes s.order with ⟨registry, nextID, eq⟩
    rw [Setting.openPool, eq]
    refine ⟨VolumeManager.newVolumeManager_steady positive _ _, ?_, fun _ isActive => ?_,
      fun _ mem => ?_⟩
    rotate_left
    · cases isActive
    · cases mem
    change 0 < if s.replicationFactor < 1 then 1 else s.replicationFactor.toNat
    split <;> omega
  have filled : ∀ before later, calls = before ++ later →
      (start.run before).pool.Filled (start.run before).created := by
    intro before later split
    refine Exec.foldl_along (fun _ (s : Tracked) => Filled s.pool s.created) startFilled
      (fun _ call s filled isTimely => Tracked.step_filled filled isTimely) before ?_
    intro first next rest beforeEq
    exact timely first next (rest ++ later) (by rw [split, beforeEq]; simp)
  refine ⟨fun before later split => (filled before later split).used, ?_⟩
  intro before call later split asking mem
  exact Tracked.asks_replacesFull (filled before _ split) (timely before call later split) mem

/-- One empty drive, with room for ten bytes in a volume. -/
def smallDrive : Setting :=
  ⟨1, 10, ∅, [], ∅, 1, .asStored _⟩

/-- A blob, a stream, a blob that fills the first group, and one for which a second group is
needed. -/
def fillsTwo : List (GroupCall × List Fault) :=
  [(.write [1], []), (.stream ⟨[0, 0], none⟩ 2, []), (.write [2], []), (.write [3], [])]

theorem groups_used_fillsTwo :
    (Tracked.run ⟨smallDrive.openPool 0, [], []⟩ fillsTwo).created = [1, 2] ∧
      (Tracked.run ⟨smallDrive.openPool 0, [], []⟩ fillsTwo).Used := by
  refine ⟨by decide +kernel, (@groups_used smallDrive (by decide) 0
    ⟨smallDrive.openPool 0, [], []⟩ rfl
    fillsTwo ?_).1 fillsTwo [] (by simp)⟩
  have noFault : ∀ (p : VolumePool) data, Timely p (.write data, []) :=
    fun _ _ _ count isCut => by cases isCut
  refine Exec.forall_splits_cons (noFault _ _) (Exec.forall_splits_cons ?_
    (Exec.forall_splits_cons (noFault _ _) (Exec.forall_splits_cons (noFault _ _)
      Exec.forall_splits_nil)))
  exact ⟨by decide +kernel, by decide +kernel⟩

/-- Two streams add two groups, and no blob has been written to the first one. -/
theorem streams_leave_group :
    (Tracked.run ⟨smallDrive.openPool 0, [], []⟩
        [(.stream ⟨[1], none⟩ 1, []), (.stream ⟨[2], none⟩ 1, [])]).created = [1, 2] ∧
      (Tracked.run ⟨smallDrive.openPool 0, [], []⟩
        [(.stream ⟨[1], none⟩ 1, []), (.stream ⟨[2], none⟩ 1, [])]).pool.activeGroup =
          some ⟨2, [⟨""⟩]⟩ ∧
      (Tracked.run ⟨smallDrive.openPool 0, [], []⟩
        [(.stream ⟨[1], none⟩ 1, []), (.stream ⟨[2], none⟩ 1, [])]).pool.localVolume 1 = none := by
  decide +kernel

end VolumePool

end BriseDB
