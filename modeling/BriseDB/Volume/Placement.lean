import BriseDB.Volume.Groups
import Mathlib.Data.Finset.Card

/-!
# Where blobs are placed

`Write` puts a blob into the volume of its group on every member of the group.  A volume
that is not there yet is created in the first drive, and a new group takes the first
backends, the local manager before all others.  So the other drives never receive a blob,
and neither do the remote servers behind the first ones.
-/

namespace BriseDB

namespace VolumeManager

variable {vm next : VolumeManager} {path : VolumePath} {id : UInt32}

/-- The volume files of a drive that hold data. -/
def dataFiles (vm : VolumeManager) (drive : Nat) : Finset VolumePath :=
  vm.disk.keys.toFinset.filter fun path => path.drive = drive ∧ vm.fileContents path ≠ []

/-- The drives hold the same number of files with data, up to one. -/
def Balanced (vm : VolumeManager) : Prop :=
  ∀ drive < vm.drives, ∀ other < vm.drives,
    (vm.dataFiles drive).card ≤ (vm.dataFiles other).card + 1

instance : DecidablePred Balanced :=
  fun vm => inferInstanceAs (Decidable (∀ drive < vm.drives, ∀ other < vm.drives,
    (vm.dataFiles drive).card ≤ (vm.dataFiles other).card + 1))

/-- The file that a blob for a volume goes to. -/
def home (vm : VolumeManager) (id : UInt32) : VolumePath :=
  ⟨(vm.volumes.lookup id).getD 0, id⟩

/-- At most the file at `path` has received data. -/
structure Fills (path : VolumePath) (vm next : VolumeManager) : Prop where
  drives_eq : next.drives = vm.drives
  home_eq : next.home = vm.home
  other : ∀ other, other ≠ path → next.fileContents other = vm.fileContents other
  kept : vm.fileContents path ≠ [] → next.fileContents path ≠ []

theorem mem_dataFiles {drive : Nat} :
    path ∈ vm.dataFiles drive ↔ path.drive = drive ∧ vm.fileContents path ≠ [] := by
  rw [dataFiles, Finset.mem_filter, List.mem_toFinset, and_iff_right_iff_imp]
  rintro ⟨_, hasData⟩
  by_contra unknown
  refine hasData ?_
  rw [fileContents, AList.lookup_eq_none.mpr unknown]
  rfl

theorem Fills.trans {last : VolumeManager} (left : Fills path vm next)
    (right : Fills path next last) : Fills path vm last where
  drives_eq := right.drives_eq.trans left.drives_eq
  home_eq := right.home_eq.trans left.home_eq
  other other differs := (right.other other differs).trans (left.other other differs)
  kept hasData := right.kept (left.kept hasData)

theorem Fills.refl : Fills path vm vm :=
  ⟨rfl, rfl, fun _ _ => rfl, fun hasData => hasData⟩

/-- Files with data keep it. -/
theorem Fills.subset (fills : Fills path vm next) (drive : Nat) :
    vm.dataFiles drive ⊆ next.dataFiles drive := by
  intro file isFile
  rw [mem_dataFiles] at isFile ⊢
  refine ⟨isFile.1, ?_⟩
  by_cases same : file = path
  · subst same
    exact fills.kept isFile.2
  · rw [fills.other file same]
    exact isFile.2

/-- One file may have been added. -/
theorem Fills.subset_insert (fills : Fills path vm next) (drive : Nat) :
    next.dataFiles drive ⊆ insert path (vm.dataFiles drive) := by
  intro file isFile
  rw [Finset.mem_insert]
  by_cases same : file = path
  · exact .inl same
  · rw [mem_dataFiles, fills.other file same] at isFile
    exact .inr (mem_dataFiles.mpr isFile)

/-- Nothing has been added to a drive unless the file is in it and was empty. -/
theorem Fills.eq_of (fills : Fills path vm next) {drive : Nat}
    (unchanged : path.drive = drive → vm.fileContents path ≠ []) :
    next.dataFiles drive = vm.dataFiles drive := by
  refine Finset.Subset.antisymm (fun file isFile => ?_) (fills.subset drive)
  rw [mem_dataFiles] at isFile ⊢
  by_cases same : file = path
  · subst same
    exact ⟨isFile.1, unchanged isFile.1⟩
  · rwa [fills.other file same] at isFile

/-- The drives stay balanced if a drive that gets a new file with data has no more of them
than the others. -/
theorem Balanced.fills (balanced : vm.Balanced) (fills : Fills path vm next)
    (least : vm.fileContents path = [] → ∀ drive < vm.drives,
      (vm.dataFiles path.drive).card ≤ (vm.dataFiles drive).card) : next.Balanced := by
  intro drive inDrives other otherInDrives
  rw [fills.drives_eq] at inDrives otherInDrives
  have others := Finset.card_le_card (fills.subset other)
  by_cases grows : path.drive = drive ∧ vm.fileContents path = []
  · obtain ⟨rfl, empty⟩ := grows
    calc
      (next.dataFiles path.drive).card
          ≤ (insert path (vm.dataFiles path.drive)).card :=
        Finset.card_le_card (fills.subset_insert _)
      _ ≤ (vm.dataFiles path.drive).card + 1 := Finset.card_insert_le _ _
      _ ≤ (vm.dataFiles other).card + 1 := Nat.succ_le_succ (least empty other otherInDrives)
      _ ≤ (next.dataFiles other).card + 1 := Nat.succ_le_succ others
  · rw [fills.eq_of fun isDrive empty => grows ⟨isDrive, empty⟩]
    exact (balanced drive inDrives other otherInDrives).trans (Nat.succ_le_succ others)

theorem fileContents_of_lookup {v : Volume}
    (found : vm.disk.lookup path = some v) : vm.fileContents path = v.contents := by
  rw [fileContents, found]
  rfl

theorem fileContents_congr (same : next.disk.lookup path = vm.disk.lookup path) :
    next.fileContents path = vm.fileContents path := by
  rw [fileContents, same, fileContents]

theorem onVolume_fills {α : Type} {call : Exec Volume α}
    (ends : ∀ v : Volume, call.Ends v (fun _ => v.Grown) v.Grown) :
    (onVolume path call).Ends vm (fun _ => Fills path vm) (Fills path vm) := by
  refine .of_leaves fun faults => ?_
  unfold onVolume
  cases found : vm.disk.lookup path with
  | none => exact .refl
  | some v =>
      rcases (ends v).leaves faults with ⟨more, contentsEq⟩
      set changed : VolumeManager :=
        { vm with disk := vm.disk.insert path (call v faults).state } with changedDef
      have written : changed.fileContents path = (call v faults).state.contents :=
        fileContents_of_lookup (AList.lookup_insert _)
      refine ⟨rfl, rfl, fun other differs => ?_, fun hasData empty => hasData ?_⟩
      · exact @fileContents_congr vm changed other (AList.lookup_insert_ne differs)
      · have nothing : (call v faults).state.contents = [] := written.symm.trans empty
        rw [← contentsEq, List.append_eq_nil_iff] at nothing
        rw [fileContents_of_lookup found]
        exact nothing.1

/-- `WriteToVolume` puts data into no other file. -/
theorem writeToVolume_fills (id : UInt32) (data : Bytes) :
    (writeToVolume id data).Ends vm (fun _ => Fills (vm.home id) vm) (Fills (vm.home id) vm) := by
  refine .bind_state ?_
  cases known : vm.volumes.lookup id with
  | some drive =>
      have isHome : vm.home id = ⟨drive, id⟩ := by rw [home, known]; rfl
      rw [isHome]
      exact onVolume_fills fun _ => Volume.write_grown data
  | none =>
      have isHome : vm.home id = ⟨0, id⟩ := by rw [home, known]; rfl
      dsimp only
      by_cases noDrives : vm.drives = 0
      · rw [if_pos noDrives]
        exact .panic .refl
      · rw [if_neg noDrives, isHome]
        have registered : Fills ⟨0, id⟩ vm (vm.register 0 id (vm.fileContents ⟨0, id⟩)) := by
          have sameContents : (vm.register 0 id (vm.fileContents ⟨0, id⟩)).fileContents ⟨0, id⟩ =
              vm.fileContents ⟨0, id⟩ :=
            @fileContents_of_lookup (vm.register 0 id _) ⟨0, id⟩
              (Volume.openVolume id (vm.fileContents ⟨0, id⟩)) (AList.lookup_insert _)
          refine ⟨rfl, funext fun other => ?_, fun other differs => ?_, fun hasData => ?_⟩
          · by_cases same : other = id
            · rw [same, isHome]
              exact congrArg (fun drive : Option Nat => VolumePath.mk (drive.getD 0) id)
                (AList.lookup_insert vm.volumes)
            · exact congrArg (fun drive : Option Nat => VolumePath.mk (drive.getD 0) other)
                (AList.lookup_insert_ne same)
          · exact fileContents_congr (AList.lookup_insert_ne differs)
          · rwa [sameContents]
        exact .bind_put ((onVolume_fills fun _ => Volume.write_grown data).mono
          (fun _ _ => registered.trans) fun _ => registered.trans)

end VolumeManager

namespace VolumePool

variable {p next : VolumePool}

/-- Every remote server is a member of some group. -/
def Joined (p : VolumePool) : Prop :=
  ∀ remote ∈ p.remotes, ∃ id g, p.registry.lookup id = some g ∧ ⟨remote.baseURL⟩ ∈ g.members

/-- The blobs are spread over the local drives, and over all remote servers if they are
replicated. -/
structure Distributed (p : VolumePool) : Prop where
  drives : p.localVM.Balanced
  servers : 2 ≤ p.replicationFactor → p.Joined

/-- What is asked before a `Write`: if the volume of its group holds no data yet, its drive
does not hold more files with data than another one. -/
def Even (p : VolumePool) : Prop :=
  p.localVM.fileContents (p.localVM.home p.target) = [] → ∀ drive < p.localVM.drives,
    (p.localVM.dataFiles (p.localVM.home p.target).drive).card ≤ (p.localVM.dataFiles drive).card

/-- A call on the members of a group has written to no other local file. -/
structure Fills (id : UInt32) (p next : VolumePool) : Prop where
  localVM : p.localVM.Fills (p.localVM.home id) next.localVM
  urls_eq : next.remotes.map Remote.baseURL = p.remotes.map Remote.baseURL
  registry_eq : next.registry = p.registry
  active_eq : next.activeGroup = p.activeGroup
  factor_eq : next.replicationFactor = p.replicationFactor

theorem Fills.refl {id : UInt32} : Fills id p p :=
  ⟨.refl, rfl, rfl, rfl, rfl⟩

theorem Fills.trans {id : UInt32} {last : VolumePool} (left : Fills id p next)
    (right : Fills id next last) : Fills id p last where
  localVM := left.localVM.trans (left.localVM.home_eq ▸ right.localVM)
  urls_eq := right.urls_eq.trans left.urls_eq
  registry_eq := right.registry_eq.trans left.registry_eq
  active_eq := right.active_eq.trans left.active_eq
  factor_eq := right.factor_eq.trans left.factor_eq

theorem onRemote_fills {α : Type} (url : String) (call : Exec VolumeManager α) (id : UInt32) :
    (onRemote url call).Ends p (fun _ => Fills id p) (Fills id p) := by
  refine .of_leaves fun faults => ?_
  unfold onRemote
  cases first : p.remotes.findIdx? fun remote => remote.baseURL = url with
  | none => exact .refl
  | some idx =>
      cases isRemote : p.remotes[idx]? with
      | none => simpa only [isRemote] using .refl
      | some remote =>
          have sameURL : (p.remotes.map Remote.baseURL)[idx]? = some remote.baseURL := by
            rw [List.getElem?_map, isRemote]
            rfl
          simp only [isRemote]
          refine ⟨.refl, ?_, rfl, rfl, rfl⟩
          change (p.remotes.set idx _).map Remote.baseURL = _
          rcases List.getElem?_eq_some_iff.mp sameURL with ⟨inRange, urlEq⟩
          rw [List.map_set]
          change (p.remotes.map Remote.baseURL).set idx remote.baseURL = _
          rw [← urlEq, List.set_getElem_self]

theorem writeToMember_fills (m : VolumeMember) (id : UInt32) (data : Bytes) :
    (writeToMember m id data).Ends p (fun _ => Fills id p) (Fills id p) := by
  unfold writeToMember
  by_cases isLocal : m.serverURL = ""
  · rw [if_pos isLocal]
    exact .zoom ((VolumeManager.writeToVolume_fills id data).mono
      (fun _ _ fills => ⟨fills, rfl, rfl, rfl, rfl⟩) fun _ fills => ⟨fills, rfl, rfl, rfl, rfl⟩)
  · rw [if_neg isLocal]
    refine .bind_outcome fun result => ?_
    rcases result with _ | (_ | count)
    · exact onRemote_fills _ _ id
    · exact .throw .refl
    · exact .bind (onRemote_fills _ _ id) fun _ _ fills => .throw fills

theorem replicate_fills (group : VolumeGroup) (data : Bytes) (idx : Nat)
    (members : List VolumeMember) :
    (replicate group data idx members).Ends p (fun _ => Fills group.id p) (Fills group.id p) := by
  induction members generalizing p idx with
  | nil => exact .pure .refl
  | cons m rest ih =>
      refine .bind (.attempted (writeToMember_fills m group.id data)) fun result state first => ?_
      refine .bind ((ih (idx + 1)).mono (fun _ _ => first.trans) fun _ => first.trans)
        fun later last both => ?_
      cases result with
      | ok addr => exact .pure both
      | error cause => exact .pure both

/-- `Write` changes no local file but that of its group's volume. -/
theorem write_fills (data : Bytes) (faults : List Fault) :
    Fills p.target (getOrCreateGroup p faults).state (write data p faults).state := by
  by_cases returned : ∃ group, (getOrCreateGroup p faults).res = .ok group
  · rcases returned with ⟨group, resEq⟩
    have chosenEq : group = p.chosen := getOrCreateGroup_chosen.returned resEq
    refine Eq.mpr (congrArg (Fills p.target (getOrCreateGroup p faults).state)
      (Exec.bind_after_ok resEq _).1) ?_
    generalize (getOrCreateGroup p faults).state = q
    rw [target, ← chosenEq]
    refine Exec.Ends.leaves (?_ : Exec.Ends _ q (fun _ => Fills group.id q) (Fills group.id q)) _
    cases group.members with
    | nil => exact .panic .refl
    | cons primary replicas =>
        refine .bind (.wrap (writeToMember_fills primary group.id data)) fun addr state first => ?_
        refine .bind ((replicate_fills group data 1 replicas).mono (fun _ _ => first.trans)
          fun _ => first.trans) fun failure last both => ?_
        cases failure with
        | none => exact .pure both
        | some message => exact .throw both
  · rw [not_exists] at returned
    refine Eq.mpr (congrArg (Fills p.target (getOrCreateGroup p faults).state)
      (Exec.bind_stopped returned _)) ?_
    exact .refl

/-- What choosing a group does to a pool: nothing, or a group with the first backends is
added. -/
def Chosen (p next : VolumePool) : Prop :=
  next.localVM = p.localVM ∧ next.remotes = p.remotes ∧
    next.replicationFactor = p.replicationFactor ∧ next.activeGroup ≠ none ∧
    (p.activeGroup ≠ none ∧ next.registry = p.registry ∨
      next.registry = p.registry.insert p.nextID
        ⟨p.nextID, p.allBackends.take p.replicationFactor⟩)

theorem getOrCreateGroup_chooses :
    getOrCreateGroup.Ends p (fun _ => Chosen p) (Chosen p) := by
  refine .bind_state ?_
  cases reused : p.reusableGroup with
  | some group =>
      have isActive : p.activeGroup ≠ none := by
        rw [(Option.filter_eq_some_iff.mp reused).1]
        exact Option.some_ne_none _
      exact .pure ⟨rfl, rfl, rfl, isActive, .inl ⟨isActive, rfl⟩⟩
  | none =>
      refine .bind_put (.bind (writeRegistrySnap_ends.mono (fun _ _ saved => saved) ?_) ?_)
      · rintro _ rfl
        exact ⟨rfl, rfl, rfl, Option.some_ne_none _, .inr rfl⟩
      · rintro _ _ rfl
        exact .pure ⟨rfl, rfl, rfl, Option.some_ne_none _, .inr rfl⟩

/-- The invariant of a run of `Write`s: the drives are balanced, and as soon as there is a
group, all servers are members of one. -/
structure Spread (p : VolumePool) : Prop where
  drives : p.localVM.Balanced
  wide : 2 ≤ p.replicationFactor → p.remotes.length < p.replicationFactor
  servers : p.activeGroup ≠ none → 2 ≤ p.replicationFactor → p.Joined

theorem Spread.isDistributed (spread : p.Spread) (isActive : p.activeGroup ≠ none) :
    p.Distributed :=
  ⟨spread.drives, spread.servers isActive⟩

/-- A group of all backends makes every server a member. -/
theorem Chosen.joined (chosen : Chosen p next) (spread : p.Spread)
    (replicated : 2 ≤ p.replicationFactor) : next.Joined := by
  rcases chosen with ⟨_, remotesEq, _, _, ⟨isActive, registryEq⟩ | registryEq⟩
  · unfold Joined
    rw [remotesEq, registryEq]
    exact spread.servers isActive replicated
  · have all : p.allBackends.take p.replicationFactor = p.allBackends := by
      refine List.take_of_length_le ?_
      rw [allBackends, List.length_cons, List.length_map]
      exact spread.wide replicated
    intro remote isRemote
    rw [remotesEq] at isRemote
    refine ⟨p.nextID, _, by rw [registryEq, AList.lookup_insert], ?_⟩
    rw [all]
    exact List.mem_cons_of_mem _ (List.mem_map.mpr ⟨remote, isRemote, rfl⟩)

/-- Being a member depends on the URLs of the servers. -/
theorem Fills.joined {id : UInt32} (fills : Fills id p next) (joined : p.Joined) :
    next.Joined := by
  intro remote isRemote
  have sameURL : remote.baseURL ∈ p.remotes.map Remote.baseURL :=
    fills.urls_eq ▸ List.mem_map_of_mem isRemote
  rcases List.mem_map.mp sameURL with ⟨before, wasRemote, urlEq⟩
  rcases joined before wasRemote with ⟨id, g, found, isMember⟩
  exact ⟨id, g, by rw [fills.registry_eq, found], urlEq ▸ isMember⟩

theorem write_spread (spread : p.Spread) (even : p.Even) (data : Bytes) (faults : List Fault) :
    (write data p faults).state.Spread ∧ (write data p faults).state.activeGroup ≠ none := by
  have chosen : Chosen p (getOrCreateGroup p faults).state :=
    getOrCreateGroup_chooses.leaves faults
  have fills := @write_fills p data faults
  have joined := fun replicated => fills.joined (chosen.joined spread replicated)
  rcases chosen with ⟨localEq, remotesEq, factorEq, isActive, _⟩
  have sameLength : (write data p faults).state.remotes.length = p.remotes.length := by
    have lengths := congrArg List.length fills.urls_eq
    rwa [List.length_map, List.length_map, remotesEq] at lengths
  have sameFactor := fills.factor_eq.trans factorEq
  have stillActive := fills.active_eq ▸ isActive
  refine ⟨⟨?_, ?_, fun _ => ?_⟩, stillActive⟩
  · have filled := fills.localVM
    rw [localEq] at filled
    exact spread.drives.fills filled even
  · rw [sameFactor, sameLength]
    exact spread.wide
  · rw [sameFactor]
    exact joined

/-! ## One drive -/

/-- There is one drive, and all volumes are in it. -/
structure OneDrive (p : VolumePool) : Prop where
  drives_eq : p.localVM.drives = 1
  first : ∀ id, (p.localVM.home id).drive = 0

/-- One drive never holds more files than another. -/
theorem OneDrive.even (one : p.OneDrive) : p.Even := by
  intro _ drive inDrives
  rw [one.drives_eq, Nat.lt_one_iff] at inDrives
  rw [inDrives, one.first]

theorem OneDrive.write (one : p.OneDrive) (data : Bytes) (faults : List Fault) :
    (VolumePool.write data p faults).state.OneDrive := by
  have chosen : Chosen p (getOrCreateGroup p faults).state :=
    getOrCreateGroup_chooses.leaves faults
  have fills := (@write_fills p data faults).localVM
  rw [chosen.1] at fills
  exact ⟨fills.drives_eq.trans one.drives_eq, fun id => fills.home_eq ▸ one.first id⟩

end VolumePool

end BriseDB
