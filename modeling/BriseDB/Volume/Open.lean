import BriseDB.Volume.Storage

/-!
# Opening the drives

`newVolumeManager` opens every volume file it finds and creates a volume in
each drive that has none.  When no id occurs in two drives, the result satisfies
the invariant and every file is read as it was left.
-/

namespace BriseDB.VolumeManager

variable {files : Table VolumePath Bytes} {vm : VolumeManager}

/-- The state after the files at the paths in `done` have been opened. -/
structure Loaded (files : Table VolumePath Bytes) (vm : VolumeManager)
    (done : List VolumePath) : Prop where
  disk : ∀ path, vm.disk.lookup path =
    if path ∈ done then some (Volume.openVolume path.id ((files.lookup path).getD [])) else none
  volumes : ∀ id drive, vm.volumes.lookup id = some drive ↔ ⟨drive, id⟩ ∈ done
  fresh : (∀ path ∈ done, path.id ≠ lastID) → ∀ path ∈ done, path.id < vm.nextID

theorem Loaded.register {done : List VolumePath} (loaded : Loaded files vm done) {drive : Nat}
    {id : UInt32} (new : ∀ path ∈ done, path.id ≠ id) :
    Loaded files (vm.register drive id ((files.lookup ⟨drive, id⟩).getD []))
      (done ++ [⟨drive, id⟩]) where
  disk path := by
    by_cases same : path = ⟨drive, id⟩
    · subst same
      simp [VolumeManager.register]
    · change (vm.disk.insert ⟨drive, id⟩ _).lookup path = _
      rw [AList.lookup_insert_ne same, loaded.disk]
      simp [same]
  volumes other otherDrive := by
    by_cases same : other = id
    · subst same
      change (vm.volumes.insert other drive).lookup other = some otherDrive ↔ _
      rw [AList.lookup_insert, List.mem_append, List.mem_singleton]
      constructor
      · intro eq
        exact .inr (by rw [Option.some.inj eq])
      · rintro (mem | eq)
        · exact absurd rfl (new _ mem)
        · rw [(VolumePath.mk.inj eq).1]
    · change (vm.volumes.insert id drive).lookup other = some otherDrive ↔ _
      rw [AList.lookup_insert_ne same, loaded.volumes]
      simp [same]
  fresh notLast := by
    have idNotLast : id ≠ lastID := notLast ⟨drive, id⟩ (by simp)
    have before : ∀ path ∈ done, path.id < vm.nextID :=
      loaded.fresh fun path mem => notLast path (by simp [mem])
    have idLt := lt_succ_of_ne_lastID idNotLast
    intro path mem
    change path.id < if vm.nextID ≤ id then id + 1 else vm.nextID
    rcases List.mem_append.mp mem with mem | isNew
    · split
      · next le => exact UInt32.lt_trans (UInt32.lt_of_lt_of_le (before path mem) le) idLt
      · exact before path mem
    · rw [List.mem_singleton.mp isNew]
      split
      · exact idLt
      · next gt => exact UInt32.not_le.mp gt

/-- The paths of the files in a drive, in the order in which they are opened. -/
def drivePaths (files : Table VolumePath Bytes) (drive : Nat) : List VolumePath :=
  (scanDrive files drive).map fun id => ⟨drive, id⟩

theorem mem_scanDrive (files : Table VolumePath Bytes) (drive : Nat) (id : UInt32) :
    id ∈ scanDrive files drive ↔ (files.lookup ⟨drive, id⟩).isSome := by
  rw [AList.lookup_isSome]
  unfold scanDrive
  rw [List.mem_mergeSort, List.mem_map]
  constructor
  · rintro ⟨path, mem, rfl⟩
    obtain ⟨isKey, driveEq⟩ := List.mem_filter.mp mem
    rw [← show path.drive = drive by simpa using driveEq]
    exact isKey
  · intro isKey
    exact ⟨⟨drive, id⟩, List.mem_filter.mpr ⟨isKey, by simp⟩, rfl⟩

theorem mem_drivePaths (files : Table VolumePath Bytes) (drive : Nat) (path : VolumePath) :
    path ∈ drivePaths files drive ↔ path.drive = drive ∧ (files.lookup path).isSome := by
  unfold drivePaths
  rw [List.mem_map]
  constructor
  · rintro ⟨id, mem, rfl⟩
    exact ⟨rfl, (mem_scanDrive files drive id).mp mem⟩
  · rintro ⟨rfl, isFile⟩
    exact ⟨path.id, (mem_scanDrive files _ _).mpr isFile, rfl⟩

theorem nodup_scanDrive (files : Table VolumePath Bytes) (drive : Nat) :
    (scanDrive files drive).Nodup := by
  unfold scanDrive
  refine (List.mergeSort_perm _ _).nodup_iff.mpr ?_
  refine List.Nodup.map_on ?_ (List.Nodup.filter _ files.nodupKeys)
  intro first firstMem second secondMem sameID
  have firstDrive : first.drive = drive := by simpa using (List.mem_filter.mp firstMem).2
  have secondDrive : second.drive = drive := by simpa using (List.mem_filter.mp secondMem).2
  obtain ⟨firstDriveNo, firstID⟩ := first
  obtain ⟨secondDriveNo, secondID⟩ := second
  simp only at firstDrive secondDrive sameID
  rw [firstDrive, secondDrive, sameID]

/-- Opening one drive after the others. -/
theorem Loaded.openDrive {done : List VolumePath} (loaded : Loaded files vm done) {drive : Nat}
    (new : ∀ path ∈ done, path.id ∉ scanDrive files drive) :
    Loaded files (vm.openDrive files drive) (done ++ drivePaths files drive) := by
  suffices general : ∀ (ids : List UInt32) (done : List VolumePath) (vm : VolumeManager),
      ids.Nodup → Loaded files vm done → (∀ path ∈ done, path.id ∉ ids) →
      Loaded files (ids.foldl
        (fun vm id => vm.register drive id ((files.lookup ⟨drive, id⟩).getD [])) vm)
        (done ++ ids.map fun id => ⟨drive, id⟩) by
    have opened := general _ done vm (nodup_scanDrive files drive) loaded new
    exact ⟨opened.disk, opened.volumes, opened.fresh⟩
  intro ids
  induction ids with
  | nil => intro done vm _ loaded _; simpa using loaded
  | cons id ids ih =>
      intro done vm nodup loaded new
      rw [List.nodup_cons] at nodup
      have step : Loaded files (vm.register drive id ((files.lookup ⟨drive, id⟩).getD []))
          (done ++ [⟨drive, id⟩]) :=
        loaded.register fun path mem same => new path mem (by simp [same])
      have rest := ih _ _ nodup.2 step ?_
      · simpa using rest
      · intro path mem
        rcases List.mem_append.mp mem with mem | isNew
        · exact fun later => new path mem (List.mem_cons_of_mem _ later)
        · rw [List.mem_singleton.mp isNew]
          exact nodup.1

/-- The files can be opened together: they lie in the given drives, none is too
large, and no two have the same id. -/
structure FilesFit (files : Table VolumePath Bytes) (drives : Nat) : Prop where
  inside : ∀ path contents, files.lookup path = some contents →
    path.drive < drives ∧ contents.length ≤ File.maxSize
  unique : ∀ first second : VolumePath, (files.lookup first).isSome → (files.lookup second).isSome →
    first.id = second.id → first = second

/-- The state after the first `count` drives have been opened. -/
structure Scanned (files : Table VolumePath Bytes) (drives : Nat) (vm : VolumeManager)
    (count : Nat) : Prop where
  loaded : Loaded files vm ((List.range count).flatMap (drivePaths files))
  drives_eq : vm.drives = drives
  length_eq : vm.driveCurrent.length = drives
  opened : ∀ drive < count, vm.driveCurrent[drive]? = some (scanDrive files drive).getLast?

theorem mem_flatMap_drivePaths (files : Table VolumePath Bytes) (count : Nat) (path : VolumePath) :
    path ∈ (List.range count).flatMap (drivePaths files) ↔
      path.drive < count ∧ (files.lookup path).isSome := by
  simp only [List.mem_flatMap, List.mem_range, mem_drivePaths]
  constructor
  · rintro ⟨drive, inRange, rfl, isFile⟩
    exact ⟨inRange, isFile⟩
  · rintro ⟨inRange, isFile⟩
    exact ⟨path.drive, inRange, rfl, isFile⟩

theorem openDrive_driveCurrent (files : Table VolumePath Bytes) (vm : VolumeManager)
    (drive : Nat) :
    (vm.openDrive files drive).driveCurrent =
        vm.driveCurrent.set drive (scanDrive files drive).getLast? ∧
      (vm.openDrive files drive).drives = vm.drives := by
  have kept : ∀ (ids : List UInt32) (vm : VolumeManager),
      (ids.foldl (fun vm id => vm.register drive id ((files.lookup ⟨drive, id⟩).getD []))
        vm).driveCurrent =
          vm.driveCurrent ∧
        (ids.foldl (fun vm id => vm.register drive id ((files.lookup ⟨drive, id⟩).getD []))
          vm).drives =
          vm.drives := by
    intro ids
    induction ids with
    | nil => exact fun _ => ⟨rfl, rfl⟩
    | cons id ids ih => exact fun vm => ih (vm.register drive id _)
  exact ⟨by rw [openDrive, (kept _ vm).1], (kept _ vm).2⟩

theorem Scanned.step {drives count : Nat} (fit : FilesFit files drives)
    (scanned : Scanned files drives vm count) (inRange : count < drives) :
    Scanned files drives (vm.openDrive files count) (count + 1) := by
  obtain ⟨currentEq, drivesEq⟩ := openDrive_driveCurrent files vm count
  refine ⟨?_, drivesEq.trans scanned.drives_eq, ?_, ?_⟩
  · rw [List.range_succ, List.flatMap_append, List.flatMap_singleton]
    refine scanned.loaded.openDrive ?_
    intro path mem sameID
    obtain ⟨earlier, isFile⟩ := (mem_flatMap_drivePaths files count path).mp mem
    have same := fit.unique path ⟨count, path.id⟩ isFile
        ((mem_scanDrive files count path.id).mp sameID) rfl
    rw [same] at earlier
    exact Nat.lt_irrefl _ earlier
  · rw [currentEq, List.length_set]
    exact scanned.length_eq
  · intro drive before
    rw [currentEq]
    by_cases here : count = drive
    · subst here
      rw [List.getElem?_set_self (by rw [scanned.length_eq]; exact inRange)]
    · rw [List.getElem?_set_ne here]
      exact scanned.opened drive (by omega)

theorem Scanned.of_foldl {drives : Nat} (fit : FilesFit files drives)
    (start : Scanned files drives vm 0) (count : Nat) (le : count ≤ drives) :
    Scanned files drives ((List.range count).foldl (openDrive files) vm) count := by
  induction count with
  | zero => exact start
  | succ count ih =>
      rw [List.range_succ, List.foldl_append]
      exact (ih (by omega)).step fit (by omega)

/-- Once all files are open, the tables describe them; drives without a file are
still waiting for a volume. -/
theorem Scanned.inv {drives : Nat} (fit : FilesFit files drives) (positive : 0 < drives)
    (scanned : Scanned files drives vm drives) : vm.InvUpTo 0 where
  drives_pos := scanned.drives_eq ▸ positive
  drives_eq := scanned.length_eq.trans scanned.drives_eq.symm
  file path v found := by
    rw [scanned.loaded.disk] at found
    split at found
    · next mem =>
      obtain rfl := Option.some.inj found
      refine ⟨rfl, Volume.openVolume_intact ?_, (scanned.loaded.volumes _ _).mpr mem⟩
      cases isFile : files.lookup path with
      | none => exact Nat.zero_le _
      | some contents => exact (fit.inside path contents isFile).2
    · cases found
  volume id drive known := by
    have mem := (scanned.loaded.volumes id drive).mp known
    refine ⟨?_, _, by rw [scanned.loaded.disk, if_pos mem]⟩
    rw [scanned.drives_eq]
    exact ((mem_flatMap_drivePaths files drives _).mp mem).1
  current drive none_ := absurd none_ (Nat.not_lt_zero _)
  fresh unused id drive known := by
    refine scanned.loaded.fresh ?_ ⟨drive, id⟩ ((scanned.loaded.volumes id drive).mp known)
    intro path mem isLast
    have registered := (scanned.loaded.volumes path.id path.drive).mpr mem
    rw [isLast, unused] at registered
    cases registered

/-! ## Giving every drive a volume -/

theorem isSome_ensureCurrent (drive : Nat) {id : UInt32}
    (known : (vm.volumes.lookup id).isSome) :
    ((vm.ensureCurrent drive).volumes.lookup id).isSome := by
  unfold ensureCurrent
  split
  · change ((vm.volumes.insert vm.nextID drive).lookup id).isSome
    by_cases same : id = vm.nextID
    · rw [same, AList.lookup_insert]
      rfl
    · rwa [AList.lookup_insert_ne same]
  · exact known

theorem isSome_foldl_ensureCurrent (drives : List Nat) {id : UInt32}
    (known : (vm.volumes.lookup id).isSome) :
    ((drives.foldl ensureCurrent vm).volumes.lookup id).isSome := by
  induction drives generalizing vm with
  | nil => exact known
  | cons drive drives ih => exact ih (isSome_ensureCurrent drive known)

/-- The state after the first `count` drives have been given a volume, starting
from `vm`. -/
structure Ready (vm next : VolumeManager) (count : Nat) : Prop where
  inv : next.InvUpTo count
  keeps : vm.Extends next
  drives_eq : next.drives = vm.drives
  later : ∀ drive, count ≤ drive → next.driveCurrent[drive]? = vm.driveCurrent[drive]?
  room : ∀ bytes, vm.Room bytes → next.Room bytes

/-- One more drive gets its volume.  Only a drive without one needs a fresh
id. -/
theorem Ready.step {next : VolumeManager} {count : Nat} (ready : Ready vm next count)
    (inDrives : count < vm.drives)
    (known : ∀ id, vm.driveCurrent[count]? = some (some id) → vm.volumes.lookup id = some count)
    (unused : vm.driveCurrent[count]? = some none → next.volumes.lookup lastID = none) :
    Ready vm (next.ensureCurrent count) (count + 1) := by
  have inNext : count < next.drives := ready.drives_eq ▸ inDrives
  have sameCurrent := ready.later count (Nat.le_refl _)
  unfold ensureCurrent
  split
  · next missing =>
    have notLast := unused (sameCurrent ▸ missing)
    have unknown := nextID_unknown ready.inv notLast
    have opened := createVolume_opened ready.inv unknown count
    have base := opened.inv ready.inv inNext unknown
    refine ⟨⟨base.drives_pos, base.drives_eq, base.file, base.volume, ?_, base.fresh⟩,
      ready.keeps.trans (opened.extends unknown), opened.drives_eq.trans ready.drives_eq, ?_,
      fun bytes roomy => opened.keeps_room (ready.room bytes roomy)⟩
    · intro drive before
      by_cases here : drive = count
      · subst here
        refine ⟨next.nextID, ?_, by rw [opened.lookup_volumes, if_pos rfl]⟩
        exact List.getElem?_set_self (ready.inv.drives_eq ▸ inNext)
      · exact base.current drive (by omega)
    · intro drive after
      rw [← ready.later drive (by omega)]
      exact List.getElem?_set_ne (by omega)
  · next present =>
    have inList : count < next.driveCurrent.length := ready.inv.drives_eq ▸ inNext
    obtain ⟨id, isCurrent⟩ : ∃ id, next.driveCurrent[count]? = some (some id) := by
      rw [List.getElem?_eq_getElem inList] at present ⊢
      cases entry : next.driveCurrent[count] with
      | none => exact absurd (by rw [entry]) present
      | some id => exact ⟨id, rfl⟩
    have known' := ready.keeps.registered id count (known id (sameCurrent ▸ isCurrent))
    have base := ready.inv
    refine ⟨⟨base.drives_pos, base.drives_eq, base.file, base.volume, ?_, base.fresh⟩, ready.keeps,
      ready.drives_eq, fun drive after => ready.later drive (by omega), ready.room⟩
    intro drive before
    by_cases here : drive = count
    · subst here
      exact ⟨id, isCurrent, known'⟩
    · exact base.current drive (by omega)

/-- What `newVolumeManager` leaves: the invariant, every file readable, and room
where the files have room. -/
structure Reopened (files : Table VolumePath Bytes) (drives : Nat) (vm : VolumeManager) : Prop where
  inv : vm.Inv
  drives_eq : vm.drives = drives
  holds : ∀ drive contents addr data, files.lookup ⟨drive, addr.volumeID⟩ = some contents →
    Volume.read (Volume.openVolume addr.volumeID contents) addr = .ok data → vm.Holds addr data
  room : ∀ bytes, bytes ≤ File.maxSize →
    (∀ path contents, files.lookup path = some contents →
      contents.length + bytes ≤ File.maxSize) → vm.Room bytes

/-- Opening drives whose files fit together.  Unless every drive has a file
already, the last id must stay unused. -/
theorem newVolumeManager_reopened {drives : Nat} (maxVolumeSize : UInt64)
    (fit : FilesFit files drives) (positive : 0 < drives)
    (unused : (newVolumeManager drives maxVolumeSize files).volumes.lookup lastID = none ∨
      ∀ drive < drives, scanDrive files drive ≠ []) :
    Reopened files drives (newVolumeManager drives maxVolumeSize files) := by
  unfold newVolumeManager at unused ⊢
  simp only at unused ⊢
  set empty : VolumeManager :=
    { drives := drives
      disk := ∅
      volumes := ∅
      driveCurrent := List.replicate drives none
      driveIdx := 0
      nextID := 0
      maxVolumeSize := if maxVolumeSize = 0 then defaultMaxVolumeSize else maxVolumeSize }
  have start : Scanned files drives empty 0 := by
    refine ⟨⟨?_, ?_, ?_⟩, rfl, by simp [empty], by simp⟩ <;> simp [empty]
  have scanned := Scanned.of_foldl fit start drives (Nat.le_refl _)
  set loaded := (List.range drives).foldl (openDrive files) empty
  have loadedInv := scanned.inv fit positive
  have known : ∀ drive < drives, ∀ id, loaded.driveCurrent[drive]? = some (some id) →
      loaded.volumes.lookup id = some drive := by
    intro drive inRange id isCurrent
    rw [scanned.opened drive inRange, Option.some.injEq] at isCurrent
    refine (scanned.loaded.volumes id drive).mpr ((mem_flatMap_drivePaths files drives _).mpr
      ⟨inRange, (mem_scanDrive files drive id).mp (List.mem_of_getLast? isCurrent)⟩)
  have ready : ∀ count ≤ drives, Ready loaded ((List.range count).foldl ensureCurrent loaded)
      count := by
    intro count
    induction count with
    | zero =>
        intro _
        exact ⟨loadedInv, Extends.refl _, rfl, fun _ _ => rfl, fun _ roomy => roomy⟩
    | succ count ih =>
        intro le
        rw [List.range_succ, List.foldl_append]
        refine (ih (by omega)).step (by rw [scanned.drives_eq]; omega) (known count (by omega)) ?_
        intro missing
        rcases unused with unused | allFiles
        · by_contra used
          have split : List.range drives = List.range count ++ (List.range drives).drop count := by
            have take := List.take_append_drop count (List.range drives)
            rwa [List.take_range, Nat.min_eq_left (by omega), eq_comm] at take
          have final := isSome_foldl_ensureCurrent ((List.range drives).drop count)
            (Option.isSome_iff_ne_none.mpr used)
          rw [← List.foldl_append, ← split, unused] at final
          cases final
        · rw [scanned.opened count (by omega), Option.some.injEq,
            List.getLast?_eq_none_iff] at missing
          exact absurd missing (allFiles count (by omega))
  have done := ready drives (Nat.le_refl _)
  have drivesEq := done.drives_eq.trans scanned.drives_eq
  refine ⟨by unfold Inv; rw [drivesEq]; exact done.inv, drivesEq, ?_, ?_⟩
  · intro drive contents addr data isFile readEq
    have mem := (mem_flatMap_drivePaths files drives ⟨drive, addr.volumeID⟩).mpr
      ⟨(fit.inside _ _ isFile).1, by rw [isFile]; rfl⟩
    refine done.keeps.holds addr data ⟨drive, _, (scanned.loaded.volumes _ _).mpr mem, ?_, readEq⟩
    rw [scanned.loaded.disk, if_pos mem, isFile]
    rfl
  · intro bytes small roomy
    refine done.room bytes ⟨small, fun path v found => ?_⟩
    rw [scanned.loaded.disk] at found
    split at found
    · obtain rfl := Option.some.inj found
      cases isFile : files.lookup path with
      | none => simpa [Volume.openVolume] using small
      | some contents => exact roomy path contents isFile
    · cases found

/-! ## Empty drives -/

/-- Opening empty drives. -/
theorem newVolumeManager_empty {drives : Nat} (maxVolumeSize : UInt64) (positive : 0 < drives)
    (unused : (newVolumeManager drives maxVolumeSize ∅).volumes.lookup lastID = none) :
    (newVolumeManager drives maxVolumeSize ∅).Inv ∧
      (newVolumeManager drives maxVolumeSize ∅).drives = drives ∧
      (newVolumeManager drives maxVolumeSize ∅).Room File.maxSize := by
  have fit : FilesFit ∅ drives := ⟨by simp, by simp⟩
  have opened := newVolumeManager_reopened maxVolumeSize fit positive (.inl unused)
  exact ⟨opened.inv, opened.drives_eq, opened.room _ (Nat.le_refl _) (by simp)⟩

/-- Closing a manager and opening its files again loses nothing. -/
theorem newVolumeManager_files (inv : vm.Inv) (maxVolumeSize : UInt64) :
    (newVolumeManager vm.drives maxVolumeSize vm.files).Inv ∧
      (newVolumeManager vm.drives maxVolumeSize vm.files).drives = vm.drives ∧
      (∀ addr data, vm.Holds addr data →
        (newVolumeManager vm.drives maxVolumeSize vm.files).Holds addr data) ∧
      ∀ bytes, vm.Room bytes → (newVolumeManager vm.drives maxVolumeSize vm.files).Room bytes := by
  have isFile : ∀ path contents, vm.files.lookup path = some contents →
      ∃ v, vm.disk.lookup path = some v ∧ v.contents = contents := by
    intro path contents found
    rwa [files, Table.lookup_mapValues, Option.map_eq_some_iff] at found
  have fit : FilesFit vm.files vm.drives := by
    refine ⟨?_, ?_⟩
    · intro path contents found
      obtain ⟨v, onDisk, rfl⟩ := isFile path contents found
      obtain ⟨_, intact, known⟩ := inv.file path v onDisk
      exact ⟨(inv.volume path.id path.drive known).1, intact.within⟩
    · intro first second firstFile secondFile sameID
      obtain ⟨_, firstFound⟩ := Option.isSome_iff_exists.mp firstFile
      obtain ⟨_, secondFound⟩ := Option.isSome_iff_exists.mp secondFile
      obtain ⟨v, firstOnDisk, _⟩ := isFile first _ firstFound
      obtain ⟨w, secondOnDisk, _⟩ := isFile second _ secondFound
      have firstKnown := (inv.file first v firstOnDisk).2.2
      have secondKnown := (inv.file second w secondOnDisk).2.2
      rw [sameID, secondKnown, Option.some.injEq] at firstKnown
      obtain ⟨firstDrive, firstID⟩ := first
      obtain ⟨secondDrive, secondID⟩ := second
      simp only at sameID firstKnown
      rw [sameID, firstKnown]
  have allFiles : ∀ drive < vm.drives, scanDrive vm.files drive ≠ [] := by
    intro drive inRange none_
    obtain ⟨id, _, known⟩ := inv.current drive inRange
    obtain ⟨_, v, onDisk⟩ := inv.volume id drive known
    have mem : id ∈ scanDrive vm.files drive := by
      rw [mem_scanDrive, files, Table.lookup_mapValues, onDisk]
      rfl
    rw [none_] at mem
    cases mem
  have opened := newVolumeManager_reopened maxVolumeSize fit inv.drives_pos (.inr allFiles)
  refine ⟨opened.inv, opened.drives_eq, ?_, ?_⟩
  · rintro addr data ⟨drive, v, known, onDisk, readEq⟩
    refine opened.holds drive v.contents addr data ?_ ?_
    · rw [files, Table.lookup_mapValues, onDisk]
      rfl
    · rw [← readEq]
      obtain ⟨idEq, intact, _⟩ := inv.file _ v onDisk
      have same : Volume.openVolume addr.volumeID v.contents = v := by
        obtain ⟨vid, contents, endOffset⟩ := v
        simp only at idEq
        rw [Volume.openVolume, ← intact.end_eq, idEq]
      rw [same]
  · intro bytes roomy
    refine opened.room bytes roomy.1 fun path contents found => ?_
    obtain ⟨v, onDisk, rfl⟩ := isFile path contents found
    exact roomy.2 path v onDisk

end BriseDB.VolumeManager
