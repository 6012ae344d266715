import BriseDB.Base.Table
import BriseDB.Volume.Core

/-!
# The volume manager

`VolumeManager` keeps the volumes of one machine, spread over drive
directories.  A volume object is created once for each file and is therefore
identified by the path of the file, that is by the number of its drive and the
id in its name; the tables of the source that hold pointers to volumes hold
those numbers here.  Opening a file never fails, writes may.
-/

namespace BriseDB

/-- `DefaultMaxVolumeSize`. -/
def defaultMaxVolumeSize : UInt64 :=
  2 * 1024 * 1024 * 1024

/-- The path of a volume file. -/
structure VolumePath where
  drive : Nat
  id : UInt32
  deriving DecidableEq, Repr

/-- The name of a volume file, `vol-%06d.data`. -/
def volumeFileName (id : UInt32) : String :=
  let digits := toString id.toNat
  "vol-" ++ String.ofList (List.replicate (6 - digits.length) '0') ++ digits ++ ".data"

/-- `VolumeManager`.  `drives` is the number of drive directories and `disk`
holds the volume object of every file in them.  `volumes` maps an id to the
drive of its volume and `driveCurrent` a drive to the id of its active one. -/
structure VolumeManager where
  drives : Nat
  disk : Table VolumePath Volume
  volumes : Table UInt32 Nat
  driveCurrent : List (Option UInt32)
  driveIdx : Nat
  nextID : UInt32
  maxVolumeSize : UInt64

namespace VolumeManager

/-! ## Opening -/

/-- Contents of the file at a path; a file that does not exist is created
empty. -/
def fileContents (vm : VolumeManager) (path : VolumePath) : Bytes :=
  ((vm.disk.lookup path).map Volume.contents).getD []

/-- Open the file of a volume with a given id and enter it in the tables. -/
def register (vm : VolumeManager) (drive : Nat) (id : UInt32) (contents : Bytes) :
    VolumeManager :=
  { vm with
    disk := vm.disk.insert ⟨drive, id⟩ (Volume.openVolume id contents)
    volumes := vm.volumes.insert id drive
    nextID := if vm.nextID ≤ id then id + 1 else vm.nextID }

/-- `createVolume`. -/
def createVolume (vm : VolumeManager) (drive : Nat) : VolumeManager :=
  { vm with
    disk := vm.disk.insert ⟨drive, vm.nextID⟩
      (Volume.openVolume vm.nextID (vm.fileContents ⟨drive, vm.nextID⟩))
    volumes := vm.volumes.insert vm.nextID drive
    driveCurrent := vm.driveCurrent.set drive (some vm.nextID)
    nextID := vm.nextID + 1 }

/-- The ids of the volume files in a drive, in the order of their names. -/
def scanDrive (files : Table VolumePath Bytes) (drive : Nat) : List UInt32 :=
  ((files.keys.filter fun path => path.drive = drive).map VolumePath.id).mergeSort
    fun first second => decide (volumeFileName first ≤ volumeFileName second)

/-- Open the volumes of one drive; the last one becomes the active one. -/
def openDrive (files : Table VolumePath Bytes) (vm : VolumeManager) (drive : Nat) :
    VolumeManager :=
  let ids := scanDrive files drive
  let opened := ids.foldl
    (fun vm id => vm.register drive id ((files.lookup ⟨drive, id⟩).getD [])) vm
  { opened with driveCurrent := opened.driveCurrent.set drive ids.getLast? }

/-- Give a drive an active volume if it has none. -/
def ensureCurrent (vm : VolumeManager) (drive : Nat) : VolumeManager :=
  if vm.driveCurrent[drive]? = some none then vm.createVolume drive else vm

/-- `newVolumeManager` on drives that hold the given volume files. -/
def newVolumeManager (drives : Nat) (maxVolumeSize : UInt64) (files : Table VolumePath Bytes) :
    VolumeManager :=
  let empty : VolumeManager :=
    { drives := drives
      disk := ∅
      volumes := ∅
      driveCurrent := List.replicate drives none
      driveIdx := 0
      nextID := 0
      maxVolumeSize := if maxVolumeSize = 0 then defaultMaxVolumeSize else maxVolumeSize }
  (List.range drives).foldl ensureCurrent ((List.range drives).foldl (openDrive files) empty)

/-- The ids listed by `Stats`. -/
def stats (vm : VolumeManager) : List UInt32 :=
  vm.volumes.keys.mergeSort fun first second => decide (first ≤ second)

/-- The volume files that `Close` leaves. -/
def files (vm : VolumeManager) : Table VolumePath Bytes :=
  vm.disk.mapValues Volume.contents

/-! ## Reads and writes -/

/-- Call a method of the volume at a path. -/
def onVolume {α : Type} (path : VolumePath) (call : Exec Volume α) : Exec VolumeManager α :=
  fun vm faults =>
    match vm.disk.lookup path with
    | none => ⟨.panic "nil pointer dereference", vm, faults, false⟩
    | some v =>
        Exec.zoom (fun _ => v) (fun v vm => { vm with disk := vm.disk.insert path v }) call
          vm faults

/-- `EnsureVolume`. -/
def ensureVolume (id : UInt32) : Exec VolumeManager Unit := do
  let vm ← Exec.state
  if (vm.volumes.lookup id).isSome then
    pure ()
  else
    match (List.range vm.drives).find? fun drive => (vm.disk.lookup ⟨drive, id⟩).isSome with
    | some drive => Exec.put (vm.register drive id (vm.fileContents ⟨drive, id⟩))
    | none => Exec.throw s!"volume {id} not found in any drive"

/-- `WriteToVolume`: a volume that is not known yet is opened in the first
drive. -/
def writeToVolume (id : UInt32) (data : Bytes) : Exec VolumeManager NeedleAddr := do
  let vm ← Exec.state
  match vm.volumes.lookup id with
  | some drive => onVolume ⟨drive, id⟩ (Volume.write data)
  | none =>
      if vm.drives = 0 then
        Exec.panic "index out of range"
      else
        Exec.put (vm.register 0 id (vm.fileContents ⟨0, id⟩))
        onVolume ⟨0, id⟩ (Volume.write data)

/-- The common beginning of `Write` and `WriteStream`: take the next drive in
turn and give it a new volume if its active one is full. -/
def nextVolume : Exec VolumeManager VolumePath := do
  let vm ← Exec.state
  if vm.drives = 0 then
    Exec.panic "integer divide by zero"
  else
    let drive := vm.driveIdx % vm.drives
    let vm := { vm with driveIdx := vm.driveIdx + 1 }
    match (vm.driveCurrent[drive]?).join with
    | none => Exec.panic "nil pointer dereference"
    | some id =>
        match vm.disk.lookup ⟨drive, id⟩ with
        | none => Exec.panic "nil pointer dereference"
        | some v =>
            if vm.maxVolumeSize ≤ v.size then
              Exec.put (vm.createVolume drive)
              pure ⟨drive, vm.nextID⟩
            else
              Exec.put vm
              pure ⟨drive, id⟩

/-- `Write`. -/
def write (data : Bytes) : Exec VolumeManager NeedleAddr := do
  let path ← nextVolume
  onVolume path (Volume.write data)

/-- `WriteStream`. -/
def writeStream (r : Reader) (size : Int64) : Exec VolumeManager NeedleAddr := do
  let path ← nextVolume
  onVolume path (Volume.writeStream r size)

/-- `Read`. -/
def read (addr : NeedleAddr) : Exec VolumeManager Bytes := do
  ensureVolume addr.volumeID
  Exec.ask fun vm =>
    match vm.volumes.lookup addr.volumeID with
    | none => .panic "nil pointer dereference"
    | some drive =>
        match vm.disk.lookup ⟨drive, addr.volumeID⟩ with
        | none => .panic "nil pointer dereference"
        | some v => Volume.read v addr

end VolumeManager

end BriseDB
