import BriseDB.Volume.Manager

/-!
# What a volume manager stores

`Holds vm addr data` says that a read of `addr` returns `data`.  As long as no
write fails, a write returns an address that holds its data, and an address
that held data before still does.

Ids are 32-bit numbers.  `writeToVolume` never replaces a volume, but a stream
takes a fresh id when it rotates to a new volume, and the counter wraps around
once the largest id has been used.  The results about streams therefore ask
that this id is unused.
-/

namespace BriseDB.VolumeManager

/-- The largest volume id; the id counter wraps around behind it. -/
def lastID : UInt32 :=
  4294967295

/-- Every file belongs to a registered volume, every registered volume has its
file, and the first `ready` drives have an active volume. -/
structure InvUpTo (vm : VolumeManager) (ready : Nat) : Prop where
  drives_pos : 0 < vm.drives
  drives_eq : vm.driveCurrent.length = vm.drives
  file : ∀ path v, vm.disk.lookup path = some v →
    v.id = path.id ∧ v.Intact ∧ vm.volumes.lookup path.id = some path.drive
  volume : ∀ id drive, vm.volumes.lookup id = some drive →
    drive < vm.drives ∧ ∃ v, vm.disk.lookup ⟨drive, id⟩ = some v
  current : ∀ drive < ready, ∃ id, vm.driveCurrent[drive]? = some (some id) ∧
    vm.volumes.lookup id = some drive
  fresh : vm.volumes.lookup lastID = none →
    ∀ id drive, vm.volumes.lookup id = some drive → id < vm.nextID

/-- The invariant of an open volume manager. -/
abbrev Inv (vm : VolumeManager) : Prop :=
  vm.InvUpTo vm.drives

/-- A read of `addr` returns `data`. -/
def Holds (vm : VolumeManager) (addr : NeedleAddr) (data : Bytes) : Prop :=
  ∃ drive v, vm.volumes.lookup addr.volumeID = some drive ∧
    vm.disk.lookup ⟨drive, addr.volumeID⟩ = some v ∧ Volume.read v addr = .ok data

/-- What was readable stays readable, registered ids stay registered, and the drives
are the same. -/
structure Extends (vm next : VolumeManager) : Prop where
  drives_eq : next.drives = vm.drives
  holds : ∀ addr data, vm.Holds addr data → next.Holds addr data
  registered : ∀ id drive, vm.volumes.lookup id = some drive →
    next.volumes.lookup id = some drive

theorem Extends.refl (vm : VolumeManager) : vm.Extends vm :=
  ⟨rfl, fun _ _ holds => holds, fun _ _ known => known⟩

theorem Extends.trans {first second third : VolumeManager} (left : first.Extends second)
    (right : second.Extends third) : first.Extends third where
  drives_eq := right.drives_eq.trans left.drives_eq
  holds addr data held := right.holds addr data (left.holds addr data held)
  registered id drive known := right.registered id drive (left.registered id drive known)

/-- Every volume file can grow by `bytes`. -/
def Room (vm : VolumeManager) (bytes : Nat) : Prop :=
  bytes ≤ File.maxSize ∧
    ∀ path v, vm.disk.lookup path = some v → v.contents.length + bytes ≤ File.maxSize

theorem Room.mono {vm : VolumeManager} {more less : Nat} (roomy : vm.Room more)
    (le : less ≤ more) : vm.Room less :=
  ⟨le.trans roomy.1, fun path v found => (Nat.add_le_add_left le _).trans (roomy.2 path v found)⟩

variable {room : Prop} {vm : VolumeManager} {ready : Nat} {data : Bytes}

/-! ## Opening a volume -/

theorem fileContents_of_unregistered (inv : vm.InvUpTo ready) {id : UInt32}
    (unknown : vm.volumes.lookup id = none) (drive : Nat) :
    vm.fileContents ⟨drive, id⟩ = [] := by
  unfold fileContents
  cases found : vm.disk.lookup ⟨drive, id⟩ with
  | none => rfl
  | some v =>
      have known := (inv.file _ v found).2.2
      rw [unknown] at known
      cases known

theorem lt_succ_of_ne_lastID {id : UInt32} (notLast : id ≠ lastID) : id < id + 1 := by
  have different : id.toNat ≠ 4294967295 := fun same => notLast (UInt32.toNat_inj.mp same)
  have bound := id.toNat_lt
  rw [UInt32.lt_iff_toNat_lt, UInt32.toNat_add]
  change id.toNat < (id.toNat + 1) % 2 ^ 32
  omega

/-- `next` is `vm` with a new, empty volume. -/
structure Opened (vm next : VolumeManager) (drive : Nat) (id : UInt32) : Prop where
  disk_eq : next.disk = vm.disk.insert ⟨drive, id⟩ (Volume.openVolume id [])
  volumes_eq : next.volumes = vm.volumes.insert id drive
  drives_eq : next.drives = vm.drives
  current_eq : next.driveCurrent = vm.driveCurrent ∨
    next.driveCurrent = vm.driveCurrent.set drive (some id)
  nextID_le : id ≠ lastID → (∀ other drive, vm.volumes.lookup other = some drive →
    other < vm.nextID) → id < next.nextID ∧ ∀ other, other < vm.nextID → other < next.nextID

section Opened

variable {next : VolumeManager} {drive : Nat} {id : UInt32}

theorem Opened.lookup_volumes (opened : Opened vm next drive id) (other : UInt32) :
    next.volumes.lookup other =
      if other = id then some drive else vm.volumes.lookup other := by
  rw [opened.volumes_eq]
  split
  · next same => rw [same, AList.lookup_insert]
  · next different => exact AList.lookup_insert_ne different

theorem Opened.lookup_disk (opened : Opened vm next drive id) (path : VolumePath) :
    next.disk.lookup path =
      if path = ⟨drive, id⟩ then some (Volume.openVolume id []) else vm.disk.lookup path := by
  rw [opened.disk_eq]
  split
  · next same => rw [same, AList.lookup_insert]
  · next different => exact AList.lookup_insert_ne different

theorem Opened.inv (opened : Opened vm next drive id) (inv : vm.InvUpTo ready)
    (inDrives : drive < vm.drives) (unknown : vm.volumes.lookup id = none) :
    next.InvUpTo ready where
  drives_pos := opened.drives_eq ▸ inv.drives_pos
  drives_eq := by
    rw [opened.drives_eq, ← inv.drives_eq]
    rcases opened.current_eq with same | changed
    · rw [same]
    · rw [changed, List.length_set]
  file path v found := by
    rw [opened.lookup_disk] at found
    rw [opened.lookup_volumes]
    split at found
    · next same =>
      obtain rfl := Option.some.inj found
      rw [same, if_pos rfl]
      exact ⟨rfl, Volume.openVolume_intact (Nat.zero_le _), rfl⟩
    · obtain ⟨idEq, intact, known⟩ := inv.file path v found
      have different : path.id ≠ id := by
        intro same
        rw [same, unknown] at known
        cases known
      rw [if_neg different]
      exact ⟨idEq, intact, known⟩
  volume other otherDrive known := by
    rw [opened.lookup_volumes] at known
    rw [opened.drives_eq]
    split at known
    · next same =>
      obtain rfl := Option.some.inj known
      exact ⟨inDrives, _, by rw [opened.lookup_disk, same, if_pos rfl]⟩
    · next different =>
      obtain ⟨inRange, v, found⟩ := inv.volume other otherDrive known
      refine ⟨inRange, v, ?_⟩
      rw [opened.lookup_disk, if_neg fun same => different (congrArg VolumePath.id same)]
      exact found
  current other inRange := by
    obtain ⟨currentID, isCurrent, known⟩ := inv.current other inRange
    have different : currentID ≠ id := by
      rintro rfl
      rw [unknown] at known
      cases known
    have stays : next.volumes.lookup currentID = some other := by
      rw [opened.lookup_volumes, if_neg different]
      exact known
    rcases opened.current_eq with same | changed
    · exact ⟨currentID, same ▸ isCurrent, stays⟩
    · by_cases here : drive = other
      · subst here
        refine ⟨id, ?_, by rw [opened.lookup_volumes, if_pos rfl]⟩
        rw [changed, List.getElem?_set_self (inv.drives_eq ▸ inDrives)]
      · exact ⟨currentID, by rw [changed, List.getElem?_set_ne here]; exact isCurrent, stays⟩
  fresh unused other otherDrive known := by
    rw [opened.lookup_volumes] at unused known
    have notLast : id ≠ lastID := by
      rintro rfl
      rw [if_pos rfl] at unused
      cases unused
    rw [if_neg (Ne.symm notLast)] at unused
    obtain ⟨newLt, oldLt⟩ := opened.nextID_le notLast (inv.fresh unused)
    split at known
    · next same => exact same ▸ newLt
    · exact oldLt other (inv.fresh unused other otherDrive known)

theorem Opened.inv_all (opened : Opened vm next drive id) (inv : vm.Inv)
    (inDrives : drive < vm.drives) (unknown : vm.volumes.lookup id = none) : next.Inv := by
  unfold Inv
  rw [opened.drives_eq]
  exact opened.inv inv inDrives unknown

theorem Opened.extends (opened : Opened vm next drive id)
    (unknown : vm.volumes.lookup id = none) : vm.Extends next where
  drives_eq := opened.drives_eq
  holds addr data := by
    rintro ⟨holder, v, known, found, readEq⟩
    have different : addr.volumeID ≠ id := by
      intro same
      rw [same, unknown] at known
      cases known
    refine ⟨holder, v, ?_, ?_, readEq⟩
    · rw [opened.lookup_volumes, if_neg different]
      exact known
    · rw [opened.lookup_disk, if_neg fun same => different (congrArg VolumePath.id same)]
      exact found
  registered other otherDrive known := by
    rw [opened.lookup_volumes, if_neg]
    · exact known
    · rintro rfl
      rw [unknown] at known
      cases known

theorem Opened.keeps_room (opened : Opened vm next drive id) {bytes : Nat} (roomy : vm.Room bytes) :
    next.Room bytes := by
  refine ⟨roomy.1, fun path v found => ?_⟩
  rw [opened.lookup_disk] at found
  split at found
  · obtain rfl := Option.some.inj found
    simpa [Volume.openVolume] using roomy.1
  · exact roomy.2 path v found

end Opened

theorem register_opened (inv : vm.InvUpTo ready) {id : UInt32}
    (unknown : vm.volumes.lookup id = none)
    (drive : Nat) :
    Opened vm (vm.register drive id (vm.fileContents ⟨drive, id⟩)) drive id where
  disk_eq := by rw [fileContents_of_unregistered inv unknown]; rfl
  volumes_eq := rfl
  drives_eq := rfl
  current_eq := .inl rfl
  nextID_le notLast _ := by
    change id < (if vm.nextID ≤ id then id + 1 else vm.nextID) ∧
      ∀ other, other < vm.nextID → other < (if vm.nextID ≤ id then id + 1 else vm.nextID)
    split
    · next le =>
      have idLt := lt_succ_of_ne_lastID notLast
      exact ⟨idLt, fun other lt => UInt32.lt_trans (UInt32.lt_of_lt_of_le lt le) idLt⟩
    · next gt => exact ⟨UInt32.not_le.mp gt, fun other lt => lt⟩

theorem nextID_unknown (inv : vm.InvUpTo ready) (unused : vm.volumes.lookup lastID = none) :
    vm.volumes.lookup vm.nextID = none := by
  cases found : vm.volumes.lookup vm.nextID with
  | none => rfl
  | some drive => exact absurd (inv.fresh unused vm.nextID drive found) (UInt32.lt_irrefl _)

theorem createVolume_opened (inv : vm.InvUpTo ready) (unknown : vm.volumes.lookup vm.nextID = none)
    (drive : Nat) : Opened vm (vm.createVolume drive) drive vm.nextID where
  disk_eq := by
    change vm.disk.insert _ (Volume.openVolume vm.nextID (vm.fileContents ⟨drive, vm.nextID⟩)) = _
    rw [fileContents_of_unregistered inv unknown]
  volumes_eq := rfl
  drives_eq := rfl
  current_eq := .inr rfl
  nextID_le notLast _ := by
    have lt : vm.nextID < (vm.createVolume drive).nextID := lt_succ_of_ne_lastID notLast
    exact ⟨lt, fun other otherLt => UInt32.lt_trans otherLt lt⟩

/-! ## Appending a blob -/

/-- Method calls on a volume. -/
theorem onVolume_returns {α : Type} {path : VolumePath} {v : Volume} {call : Exec Volume α}
    {middle : α → Volume → Prop} (found : vm.disk.lookup path = some v)
    (returns : call.Returns room v middle) :
    (onVolume path call).Returns room vm fun value next =>
      ∃ changed, next = { vm with disk := vm.disk.insert path changed } ∧ middle value changed := by
  let store : Volume → VolumeManager → VolumeManager :=
    fun v vm => { vm with disk := vm.disk.insert path v }
  have eq : ∀ faults, onVolume path call vm faults =
      Exec.zoom (fun _ => v) store call vm faults := by
    intro faults
    simp [onVolume, found, store]
  have zoomed : (Exec.zoom (fun _ => v) store call).Returns room vm fun value next =>
      ∃ changed, next = store changed vm ∧ middle value changed := .zoom returns
  constructor
  · intro faults
    rw [eq]
    exact zoomed.correct faults
  · rw [eq]
    exact zoomed.undisturbed

/-- The effect of storing a blob: it is readable at its address, where nothing was
readable before, and nothing that was readable is lost. -/
structure Stored (vm next : VolumeManager) (addr : NeedleAddr) (data : Bytes) : Prop where
  inv : next.Inv
  keeps : vm.Extends next
  holds : next.Holds addr data
  fresh : ∀ other, ¬ vm.Holds addr other
  room : ∀ bytes, vm.Room (8 + data.length + bytes) → next.Room bytes

/-- Storing a blob in a volume that has just been opened. -/
theorem Opened.stored {opened next : VolumeManager} {drive : Nat} {id : UInt32}
    {addr : NeedleAddr} (isOpened : Opened vm opened drive id)
    (unknown : vm.volumes.lookup id = none) (stored : Stored opened next addr data) :
    Stored vm next addr data where
  inv := stored.inv
  keeps := (isOpened.extends unknown).trans stored.keeps
  holds := stored.holds
  fresh other held := stored.fresh other ((isOpened.extends unknown).holds addr other held)
  room bytes roomy := stored.room bytes (isOpened.keeps_room roomy)

theorem append_stored (inv : vm.Inv) {drive : Nat} {id : UInt32} {v : Volume}
    (known : vm.volumes.lookup id = some drive) (found : vm.disk.lookup ⟨drive, id⟩ = some v)
    (fits : v.contents.length + (8 + data.length) ≤ File.maxSize) :
    Stored vm { vm with disk := vm.disk.insert ⟨drive, id⟩ (v.append data) }
      (v.nextAddr data) data := by
  set next : VolumeManager :=
    { vm with disk := vm.disk.insert ⟨drive, id⟩ (v.append data) } with nextDef
  have lookup_next : ∀ path, next.disk.lookup path =
      if path = ⟨drive, id⟩ then some (v.append data) else vm.disk.lookup path := by
    intro path
    split
    · next same => rw [same, nextDef, AList.lookup_insert]
    · next different => exact AList.lookup_insert_ne different
  obtain ⟨idEq, intact, _⟩ := inv.file _ v found
  have addrID : (v.nextAddr data).volumeID = id := idEq
  refine ⟨?_, ?_, ?_, ?_, ?_⟩
  · refine ⟨inv.drives_pos, inv.drives_eq, ?_, ?_, inv.current, inv.fresh⟩
    · intro path other isFile
      rw [lookup_next] at isFile
      split at isFile
      · next same =>
        obtain rfl := Option.some.inj isFile
        rw [same]
        exact ⟨idEq, intact.append fits, known⟩
      · exact inv.file path other isFile
    · intro other otherDrive otherKnown
      obtain ⟨inRange, w, isFile⟩ := inv.volume other otherDrive otherKnown
      refine ⟨inRange, ?_⟩
      rw [lookup_next]
      split
      · exact ⟨_, rfl⟩
      · exact ⟨w, isFile⟩
  · refine ⟨rfl, ?_, fun _ _ known => known⟩
    rintro addr blob ⟨holder, w, isKnown, isFile, readEq⟩
    refine ⟨holder, ?_⟩
    rw [lookup_next]
    split
    · next same =>
      rw [same, found] at isFile
      obtain rfl := Option.some.inj isFile
      exact ⟨_, isKnown, rfl, Volume.read_append readEq data⟩
    · exact ⟨w, isKnown, isFile, readEq⟩
  · refine ⟨drive, v.append data, ?_, ?_, intact.read_nextAddr fits⟩
    · rw [addrID]
      exact known
    · rw [addrID, lookup_next, if_pos rfl]
  · rintro other ⟨holder, w, isKnown, isFile, readEq⟩
    rw [addrID] at isKnown isFile
    obtain rfl := Option.some.inj (known.symm.trans isKnown)
    obtain rfl := Option.some.inj (found.symm.trans isFile)
    exact intact.unread_nextAddr data other readEq
  · intro bytes roomy
    refine ⟨by have := roomy.1; omega, fun path w isFile => ?_⟩
    rw [lookup_next] at isFile
    split at isFile
    · obtain rfl := Option.some.inj isFile
      have bound := roomy.2 _ v found
      rw [Volume.append, List.length_append, Volume.length_encodeBlob]
      omega
    · have bound := roomy.2 path w isFile
      omega

/-- A write through `onVolume` on a registered volume. -/
theorem onVolume_stored (inv : vm.Inv) {drive : Nat} {id : UInt32}
    {call : Exec Volume NeedleAddr} (known : vm.volumes.lookup id = some drive)
    (roomy : room → vm.Room (8 + data.length))
    (returns : ∀ (v : Volume) (post : NeedleAddr → Volume → Prop),
      (room → v.contents.length + (8 + data.length) ≤ File.maxSize) →
      (v.contents.length + (8 + data.length) ≤ File.maxSize →
        post (v.nextAddr data) (v.append data)) → call.Returns room v post) :
    (onVolume ⟨drive, id⟩ call).Returns room vm fun addr next =>
      Stored vm next addr data ∧ addr.volumeID = id := by
  obtain ⟨_, v, found⟩ := inv.volume id drive known
  have idEq : v.id = id := (inv.file _ v found).1
  refine .mono (onVolume_returns found (returns v
    (fun addr changed => addr = v.nextAddr data ∧ changed = v.append data ∧
      v.contents.length + (8 + data.length) ≤ File.maxSize)
    (fun enough => (roomy enough).2 _ v found) fun fits => ⟨rfl, rfl, fits⟩)) ?_
  rintro _ _ ⟨_, rfl, rfl, rfl, fits⟩
  exact ⟨append_stored inv known found fits, idEq⟩

/-- `WriteToVolume` stores the blob in the volume with the given id. -/
theorem writeToVolume_returns (inv : vm.Inv) (id : UInt32)
    (roomy : room → vm.Room (8 + data.length)) :
    (writeToVolume id data).Returns room vm fun addr next =>
      Stored vm next addr data ∧ addr.volumeID = id := by
  unfold writeToVolume
  refine .bind_state ?_
  cases known : vm.volumes.lookup id with
  | some drive =>
      exact onVolume_stored inv known roomy fun v _ volumeRoom holds =>
        Volume.write_returns volumeRoom holds
  | none =>
      have opened := register_opened inv known 0
      rw [if_neg (Nat.pos_iff_ne_zero.mp inv.drives_pos)]
      refine .bind_put (.mono (onVolume_stored
        (opened.inv_all inv inv.drives_pos known) (by rw [opened.lookup_volumes, if_pos rfl])
        (fun enough => opened.keeps_room (roomy enough)) fun v _ volumeRoom holds =>
          Volume.write_returns volumeRoom holds) ?_)
      rintro addr next ⟨stored, idEq⟩
      exact ⟨opened.stored known stored, idEq⟩

/-- The volume selected for a write is registered, and selecting it loses
nothing. -/
theorem nextVolume_returns (inv : vm.Inv) (unused : vm.volumes.lookup lastID = none) :
    nextVolume.Returns room vm fun path next =>
      next.Inv ∧ vm.Extends next ∧ next.volumes.lookup path.id = some path.drive ∧
        ∀ bytes, vm.Room bytes → next.Room bytes := by
  have inDrives : vm.driveIdx % vm.drives < vm.drives := Nat.mod_lt _ inv.drives_pos
  obtain ⟨id, isCurrent, known⟩ := inv.current _ inDrives
  obtain ⟨_, v, found⟩ := inv.volume id _ known
  set turned : VolumeManager := { vm with driveIdx := vm.driveIdx + 1 } with turnedDef
  have turnedInv : turned.Inv :=
    ⟨inv.drives_pos, inv.drives_eq, inv.file, inv.volume, inv.current, inv.fresh⟩
  have turnedKeeps : vm.Extends turned :=
    ⟨rfl, fun _ _ held => held, fun _ _ known => known⟩
  unfold nextVolume
  refine .bind_state ?_
  simp only [if_neg (Nat.pos_iff_ne_zero.mp inv.drives_pos), isCurrent, Option.join_some, found,
    ← turnedDef]
  split
  · have unknown := nextID_unknown turnedInv unused
    have opened := createVolume_opened turnedInv unknown (vm.driveIdx % vm.drives)
    refine .bind_put (.pure ⟨opened.inv_all turnedInv inDrives unknown,
      turnedKeeps.trans (opened.extends unknown), ?_, fun _ roomy => opened.keeps_room roomy⟩)
    rw [opened.lookup_volumes, if_pos rfl]
  · exact .bind_put (.pure ⟨turnedInv, turnedKeeps, known, fun _ roomy => roomy⟩)

/-- A stream is stored in the volume selected for it. -/
theorem writeStream_returns (inv : vm.Inv) (unused : vm.volumes.lookup lastID = none)
    {size : Int64} (sizeEq : (data.length : Int) = size.toInt)
    (roomy : room → vm.Room (8 + data.length)) :
    (writeStream ⟨data, none⟩ size).Returns room vm fun addr next =>
      Stored vm next addr data := by
  unfold writeStream
  refine .bind (nextVolume_returns inv unused) ?_
  rintro path chosen ⟨chosenInv, keeps, known, keepsRoom⟩
  refine .mono (onVolume_stored chosenInv known
    (fun enough => keepsRoom _ (roomy enough)) fun v _ volumeRoom holds =>
      Volume.writeStream_returns sizeEq volumeRoom holds) ?_
  rintro addr next ⟨stored, _⟩
  exact ⟨stored.inv, keeps.trans stored.keeps, stored.holds,
    fun other held => stored.fresh other (keeps.holds addr other held),
    fun bytes enough => stored.room bytes (keepsRoom _ enough)⟩

theorem ensureVolume_known {id : UInt32} (known : (vm.volumes.lookup id).isSome) :
    (ensureVolume id).Returns room vm fun _ next => next = vm := by
  unfold ensureVolume
  refine .bind_state ?_
  rw [if_pos known]
  exact .pure rfl

/-- A read returns what the address holds. -/
theorem read_returns {addr : NeedleAddr} (holds : vm.Holds addr data) :
    (read addr).Returns room vm fun found next => found = data ∧ next = vm := by
  obtain ⟨drive, v, known, isFile, readEq⟩ := holds
  unfold read
  refine .bind (ensureVolume_known (by rw [known]; rfl)) ?_
  rintro _ _ rfl
  refine .ask ?_ ⟨rfl, rfl⟩
  simp only [known, isFile, readEq]

end BriseDB.VolumeManager
