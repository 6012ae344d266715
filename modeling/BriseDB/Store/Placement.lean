import BriseDB.Store.Sweep
import BriseDB.Volume.Placement

/-!
# Where the blobs of sessions are placed

`Set` and `SetBlob` touch the volume pool only through `Write`.  So a run of such calls
places its blobs as `Write` does.
-/

namespace BriseDB

/-! ## What a call does to the volumes -/

section

variable {db : DB} {key : Key} {value : Bytes} {addr : NeedleAddr} {context : String}

theorem DB.onIndex_volumes {α : Type} (call : Exec Index.HashIndex α) :
    (DB.onIndex call).Ends db (fun _ next => next.volumes = db.volumes)
      fun next => next.volumes = db.volumes :=
  .of_leaves fun _ => rfl

/-- Log and replicas come after everything else. -/
theorem DB.publish_volumes (logged sent : WalEntry) :
    (DB.writeWAL logged >>= fun _ => DB.fanout sent).Ends db
      (fun _ next => next.volumes = db.volumes) fun next => next.volumes = db.volumes := by
  have written := (DB.writeWAL_logged logged db).mono (fun _ _ => And.right) fun _ => And.right
  refine .bind written fun _ next sameVolumes => ?_
  exact .modify sameVolumes

/-- A blob is written, and what follows leaves the volumes alone. -/
theorem Session.store_volumes {next : NeedleAddr → Exec DB Unit}
    (rest : ∀ addr middle, (next addr).Ends middle (fun _ last => last.volumes = middle.volumes)
      fun last => last.volumes = middle.volumes) (db : DB) (faults : List Fault) :
    ((Exec.wrap context (DB.onVolumes (VolumePool.write value)) >>= next) db faults).state.volumes =
      (VolumePool.write value db.volumes faults).state := by
  have stored :
      (Exec.wrap context (DB.onVolumes (VolumePool.write value)) db faults).state.volumes =
      (VolumePool.write value db.volumes faults).state := by
    unfold Exec.wrap
    dsimp only
    split <;> rfl
  by_cases returned : ∃ addr,
      (Exec.wrap context (DB.onVolumes (VolumePool.write value)) db faults).res = .ok addr
  · rcases returned with ⟨addr, resEq⟩
    exact (congrArg DB.volumes (Exec.bind_after_ok resEq next).1).trans
      (((rest addr _).leaves _).trans stored)
  · rw [not_exists] at returned
    rw [← stored]
    exact congrArg DB.volumes (Exec.bind_stopped returned next)

/-- The locked section is followed by log and replicas. -/
theorem DB.locked_volumes {locked : Exec DB Unit} (logged sent : WalEntry)
    (ends : locked.Ends db (fun _ next => next.volumes = db.volumes)
      fun next => next.volumes = db.volumes) :
    (locked >>= fun _ => DB.writeWAL logged >>= fun _ => DB.fanout sent).Ends db
      (fun _ next => next.volumes = db.volumes) fun next => next.volumes = db.volumes := by
  refine .bind ends fun _ entered sameVolumes => ?_
  have publishes := @DB.publish_volumes entered logged sent
  rwa [sameVolumes] at publishes

theorem Session.setNow_volumes (db : DB) (faults : List Fault) :
    (Session.setNow key value db faults).state.volumes =
      (VolumePool.write value db.volumes faults).state := by
  refine Session.store_volumes (fun addr middle => DB.locked_volumes _ _ ?_) db faults
  exact .bind (.wrap (DB.onIndex_volumes _)) fun _ _ indexed => .modify indexed

theorem Session.setBlobNow_volumes {exp : Option Time} (db : DB) (faults : List Fault) :
    (Session.setBlobNow key value exp db faults).state.volumes =
      (VolumePool.write value db.volumes faults).state := by
  refine Session.store_volumes (fun addr middle => DB.locked_volumes _ _ ?_) db faults
  exact .bind_modify (.wrap (DB.onIndex_volumes _))

end

/-! ## Runs -/

/-- A call of `Set` or `SetBlob`. -/
def Event.Uploads : Event → Prop
  | .call _ (.set _ _) => True
  | .call _ (.setBlob _ _ _) => True
  | _ => False

/-- The call of a session that has no transaction open and opens none. -/
theorem Event.run_call_state {session : Nat} {c : Call} {now : Time} {w : World}
    {faults : List Fault} {next : DB} (idle : ∀ session, w.sessions session = [])
    (called : (c.run now ⟨w.db, []⟩ faults).state = ⟨next, []⟩) :
    ((Event.call session c).run now w faults).state.db = next ∧
      ∀ other, ((Event.call session c).run now w faults).state.sessions other = [] := by
  have stateEq : ((Event.call session c).run now w faults).state =
      ⟨next, Function.update w.sessions session []⟩ := by
    refine (Exec.bind_pure_state (World.onSession session (Exec.attempt (c.run now))) () w
      faults).trans ?_
    change (⟨(Exec.attempt (c.run now) ⟨w.db, w.sessions session⟩ faults).state.db,
      Function.update w.sessions session
        (Exec.attempt (c.run now) ⟨w.db, w.sessions session⟩ faults).state.transactions⟩ : World) =
          _
    rw [idle session, Exec.attempt_state, called]
  refine ⟨by rw [stateEq], fun other => ?_⟩
  rw [stateEq]
  change Function.update w.sessions session [] other = []
  by_cases same : other = session
  · rw [same, Function.update_self]
  · rw [Function.update_of_ne same]
    exact idle other

/-- An upload writes one blob to the pool. -/
theorem Event.run_uploads {event : Event} (uploads : event.Uploads) {w : World}
    (idle : ∀ session, w.sessions session = []) (now : Time) :
    ∃ data, ∀ faults, (event.run now w faults).state.db.volumes =
        (VolumePool.write data w.db.volumes faults).state ∧
      ∀ session, (event.run now w faults).state.sessions session = [] := by
  rcases event with ⟨session, c⟩ | order | ⟨indexOrder, logOrder⟩ | _
  · cases c with
    | set key value =>
        refine ⟨value, fun faults => ?_⟩
        rcases @Event.run_call_state session (.set key value) now w faults
          (Session.setNow key value w.db faults).state idle rfl with ⟨dbEq, stillIdle⟩
        exact ⟨dbEq ▸ Session.setNow_volumes w.db faults, stillIdle⟩
    | setBlob key data ttl =>
        refine ⟨data, fun faults => ?_⟩
        rcases @Event.run_call_state session (.setBlob key data ttl) now w faults
          (Session.setBlobNow key data (Session.blobExpiry ttl now) w.db faults).state idle rfl with
          ⟨dbEq, stillIdle⟩
        exact ⟨dbEq ▸ Session.setBlobNow_volumes w.db faults, stillIdle⟩
    | _ => exact uploads.elim
  · exact uploads.elim
  · exact uploads.elim
  · exact uploads.elim

/-- The first step of a course is taken. -/
theorem Course.after_single (c : Course) (step : Clock × Event) :
    c.after [step] = (step.2.run step.1 (World.ofDB c.start) c.faults).state := by
  unfold Course.after Run.exec
  exact Exec.bind_pure_state _ () _ _

/-- In a run of `Set`s and `SetBlob`s on a database that has just been opened, the blobs are
spread over the drives as long as each of them goes to a drive that does not hold more files
with data than another, and over the servers if there are not more of them than copies of a
blob. -/
theorem Course.distributed {c : Course} (uploads : ∀ step ∈ c.run, step.2.Uploads)
    (opened : c.start.volumes.activeGroup = none)
    (balanced : c.start.volumes.localVM.Balanced)
    (wide : 2 ≤ c.start.volumes.replicationFactor →
      c.start.volumes.remotes.length < c.start.volumes.replicationFactor)
    (even : c.Along fun _ w => w.db.volumes.Even) :
    ∀ before later, c.run = before ++ later → before ≠ [] →
      (c.after before).db.volumes.Distributed := by
  have steps : ∀ before step later faults, c.run = before ++ step :: later →
      (c.after before).db.volumes.Spread → (∀ session, (c.after before).sessions session = []) →
      (step.2.run step.1 (c.after before) faults).state.db.volumes.Spread ∧
        (step.2.run step.1 (c.after before) faults).state.db.volumes.activeGroup ≠ none ∧
        ∀ session, (step.2.run step.1 (c.after before) faults).state.sessions session = [] := by
    intro before step later faults split spread idle
    have isUpload := uploads step (by rw [split]; simp)
    rcases Event.run_uploads isUpload idle step.1 with ⟨data, written⟩
    rcases written faults with ⟨volumesEq, stillIdle⟩
    rcases VolumePool.write_spread spread (even before step later split) data faults with
      ⟨stillSpread, isActive⟩
    rw [volumesEq]
    exact ⟨stillSpread, isActive, stillIdle⟩
  have startSpread : c.start.volumes.Spread :=
    ⟨balanced, wide, fun isActive => absurd opened isActive⟩
  intro before later split nonempty
  obtain ⟨step, rest, rfl⟩ := List.exists_cons_of_ne_nil nonempty
  have first := steps [] step (rest ++ later) c.faults split startSpread fun _ => rfl
  have reached := @Course.after_induction c [step] rest (fun w => w.db.volumes.Spread ∧
    w.db.volumes.activeGroup ≠ none ∧ ∀ session, w.sessions session = [])
    (by rw [Course.after_single]; exact first) ?_
  · exact reached.1.isDistributed reached.2.1
  · rintro done next others restEq ⟨spread, _, idle⟩
    exact steps ([step] ++ done) next (others ++ later) _
      (by rw [split, restEq]; simp) spread idle

/-- With one drive the drives are even before every upload. -/
theorem Course.even_of_oneDrive {c : Course} (uploads : ∀ step ∈ c.run, step.2.Uploads)
    (one : c.start.volumes.OneDrive) : c.Along fun _ w => w.db.volumes.Even := by
  intro before step later split
  have reached := @Course.after_induction c [] before (fun w => w.db.volumes.OneDrive ∧
    ∀ session, w.sessions session = []) ⟨one, fun _ => rfl⟩ ?_
  · exact reached.1.even
  · rintro done next others isSplit ⟨soFar, idle⟩
    have isUpload := uploads next (by rw [split, isSplit]; simp)
    rcases Event.run_uploads isUpload idle next.1 with ⟨data, written⟩
    rcases written (c.left ([] ++ done)) with ⟨volumesEq, stillIdle⟩
    refine ⟨?_, stillIdle⟩
    rw [volumesEq]
    exact soFar.write data _

/-! ## One drive and two drives -/

/-- A server with one empty drive. -/
def Remote.empty (url : String) : Remote :=
  ⟨url, VolumeManager.newVolumeManager 1 20 ∅⟩

/-- Two drives with volumes of twenty bytes, and two copies of each blob. -/
def DBOptions.mirrored : DBOptions :=
  ⟨1, 20, 2, 0, .no⟩

/-- Values that fill a volume each. -/
def Run.fillsVolumes : Run :=
  [(.sample, .call 0 (.set [107] (List.replicate 12 0))),
    (.sample, .call 0 (.set [108] (List.replicate 12 0)))]

namespace History

/-- Three values, each in a volume of its own, for one drive and one server. -/
def oneDrive : History :=
  { undisturbed { DBOptions.mirrored with extraDrives := 0 }
      (Run.fillsVolumes ++ [(.sample, .call 0 (.setBlob [109] (List.replicate 12 0) 0))]) with
    remotes := [.empty "http://first"] }

/-- Two values for two drives and two servers.  The writes for the first one are carried
out. -/
def twoServers : History :=
  { undisturbed .mirrored Run.fillsVolumes with
    remotes := [.empty "http://first", .empty "http://second"]
    faults := List.replicate 8 .complete }

theorem volumes_opened {h : History} (noFaults : h.openFaults = []) :
    h.course.start.volumes = h.start.volumes := by
  rcases opened_empty noFaults with ⟨_, hindex, openedEq, _⟩
  rw [course_start, openedEq]

/-- The pool of a new database with two drives. -/
theorem volumes_mirrored {h : History} (optEq : h.opt = .mirrored)
    (orderEq : h.volumeOrder = .asStored _) :
    h.start.volumes = ([0, 1] : List UInt32).foldl VolumePool.addLocal
      (VolumePool.loadRegistry (.asStored _)
        { localVM := VolumeManager.newVolumeManager 2 20 ∅
          remotes := h.remotes
          registry := ∅
          nextID := 0
          activeGroup := none
          replicationFactor := 2
          registryFile := ∅
          cache := none }) := by
  rw [← VolumePool.stats_twoDrives]
  unfold start DB.start
  rw [optEq, orderEq]
  rfl

end History

theorem Course.distributed_oneDrive :
    (∀ step ∈ History.oneDrive.run, step.2.Uploads) ∧
      ∀ before later, History.oneDrive.run = before ++ later → before ≠ [] →
        (History.oneDrive.course.after before).db.volumes.Distributed := by
  have volumesEq := @History.volumes_opened History.oneDrive rfl
  have uploads : ∀ step ∈ History.oneDrive.run, step.2.Uploads := by
    intro step isStep
    simp only [History.oneDrive, History.undisturbed, Run.fillsVolumes, List.cons_append,
      List.nil_append, List.mem_cons, List.not_mem_nil, or_false] at isStep
    rcases isStep with rfl | rfl | rfl <;> trivial
  have one : History.oneDrive.course.start.volumes.OneDrive := by
    rw [volumesEq]
    have volumes : History.oneDrive.start.volumes.localVM.volumes =
        (∅ : Table UInt32 Nat).insert 0 0 := AList.ext (by decide +kernel)
    refine ⟨by decide +kernel, fun id => ?_⟩
    rw [VolumeManager.home, volumes]
    by_cases same : id = 0
    · rw [same, AList.lookup_insert]
      rfl
    · rw [AList.lookup_insert_ne same]
      rfl
  refine ⟨uploads, @Course.distributed History.oneDrive.course uploads ?_ ?_ ?_
    (Course.even_of_oneDrive uploads one)⟩
  · rw [volumesEq]
    decide +kernel
  · rw [volumesEq]
    decide +kernel
  · rw [volumesEq]
    decide +kernel

/-- The volumes after two `Set`s of which the first one succeeds. -/
theorem Run.fillsVolumes_volumes {db : DB} {addr : NeedleAddr} {pool : VolumePool}
    {hi : Index.HashIndex} {faults middle rest : List Fault} (mode : db.fsyncMode = .no)
    (noError : db.walErr = none)
    (written : VolumePool.write (List.replicate 12 0) db.volumes faults =
      ⟨.ok addr, pool, middle, false⟩)
    (indexed : Index.set [107] addr 0 db.hindex middle = ⟨.ok (), hi, rest, false⟩) :
    (Run.fillsVolumes.exec (World.ofDB db) faults).state.db.volumes =
      (VolumePool.write (List.replicate 12 0) pool rest).state := by
  rcases Event.run_set mode noError written indexed Clock.sample with ⟨next, first, sameVolumes, _⟩
  have second := (@Event.run_call_state 0 (.set [108] (List.replicate 12 0)) Clock.sample
    (World.ofDB next) rest _ (fun _ => rfl) rfl).1
  have ran : Run.fillsVolumes.exec (World.ofDB db) faults = _ := Exec.bind_of_ok first
  rw [ran]
  refine (congrArg (fun w : World => w.db.volumes) (Exec.bind_pure_state _ () _ _)).trans ?_
  rw [← sameVolumes, ← @Session.setNow_volumes [108]]
  exact congrArg DB.volumes second

namespace History

/-- Two `Set`s on a new database with two drives, two servers and two copies of each blob:
the first drive holds two files with data and the second one none, and the second server is
a member of no group. -/
theorem twoServers_lopsided :
    ((twoServers.course.final.db.volumes.localVM.dataFiles 0).card = 2 ∧
      (twoServers.course.final.db.volumes.localVM.dataFiles 1).card = 0) ∧
      ∀ id g, twoServers.course.final.db.volumes.registry.lookup id = some g →
        ⟨"http://second"⟩ ∉ g.members := by
  rcases @opened_empty twoServers rfl with ⟨_, hindex, openedEq, represents, lengthEq⟩
  have small : DB.freshBytes + 200 ≤ File.maxSize := by decide +kernel
  have cost : Index.entryOverhead + ([107] : Key).length = 40 := by decide
  have startEq := @volumes_mirrored twoServers rfl rfl
  have written : ∃ pool, VolumePool.write (List.replicate 12 0) twoServers.start.volumes
      twoServers.faults = ⟨.ok ⟨2, 0, 12⟩, pool, List.replicate 2 .complete, false⟩ ∧
      ((VolumePool.write (List.replicate 12 0) pool []).state.localVM.dataFiles 0).card = 2 ∧
      ((VolumePool.write (List.replicate 12 0) pool []).state.localVM.dataFiles 1).card = 0 ∧
      ∀ entry ∈ (VolumePool.write (List.replicate 12 0) pool []).state.registry.entries,
        ⟨"http://second"⟩ ∉ entry.2.members := by
    rw [startEq]
    exact ⟨_, Out.eq_mk (by decide +kernel), by decide +kernel, by decide +kernel,
      by decide +kernel⟩
  rcases written with ⟨pool, firstEq, onFirst, onSecond, members⟩
  rcases represents.set_complete (by decide : ([107] : Key).length ≤ 65535) ⟨2, 0, 12⟩ 0
    (by omega) [] with ⟨hi, indexed, _⟩
  have finalEq : twoServers.course.final.db.volumes =
      (VolumePool.write (List.replicate 12 0) pool []).state := by
    rw [course_final openedEq]
    exact @Run.fillsVolumes_volumes { twoServers.start with hindex := hindex } _ pool hi _ _ []
      rfl rfl firstEq indexed
  rw [finalEq]
  refine ⟨⟨onFirst, onSecond⟩, fun id g found => ?_⟩
  exact members ⟨id, g⟩ (AList.mem_lookup_iff.mp found)

end History

end BriseDB
