import BriseDB.Store.Liveness
import BriseDB.Store.Misaligned
import BriseDB.Store.Nested
import BriseDB.Store.Replication

/-!
# Counting values

`Count` merges the maps of the open transactions into one overlay, adds what the overlay says
about the value to what a pass over the index finds for the keys that are not in it, and so
counts the keys for which `Get`, which walks the transactions for one key, returns the value.
-/

namespace BriseDB

open Index (Visit)

/-- The index stands for the map, and the volumes hold its values. -/
structure DB.StandsFor (db : DB) (rows : Rows) : Prop where
  index : Index.Stores db.hindex rows.content
  pool : db.volumes.Inv
  holds : ∀ key row, rows key = some row → db.volumes.localVM.Holds row.addr row.value

theorem DB.Models.standsFor {db : DB} {rows : Rows} (models : db.Models rows) : db.StandsFor rows :=
  ⟨models.index.stores, models.pool, models.holds⟩

namespace Session

section

variable {db : DB} {rows : Rows} {room : Prop} {t : Clock}

/-- `Get` outside a transaction. -/
theorem getNow_finds (stands : db.StandsFor rows) (key : Key) (now : Time) :
    (getNow key now).Returns room db fun found _ => found = DB.visible now (rows key) := by
  unfold getNow
  refine .bind_ask (stands.index.get_eq key) ?_
  cases isRow : rows key with
  | none =>
      rw [Rows.content, isRow]
      exact .pure rfl
  | some row =>
      rw [Rows.content, isRow]
      dsimp only [Option.map_some, DB.visible]
      split
      · exact .pure rfl
      · refine .bind_attempt (.zoom
          (VolumePool.read_returns stands.pool (stands.holds key row isRow))) ?_
        rintro _ _ ⟨_, _, rfl, _⟩
        exact .pure rfl

/-- `Get` with open transactions. -/
theorem get_finds (stands : db.StandsFor rows) (stack : List Transaction) (key : Key) (now : Time) :
    (get key now ⟨db, stack⟩ []).res =
      .ok ((overlay stack key).getD (DB.visible now (rows key))) := by
  unfold get
  rw [Exec.bind_state_apply]
  cases isOverlay : overlay stack key with
  | some found => rfl
  | none =>
      have finds : (getNow key now).Returns True db _ := getNow_finds stands key now
      rcases finds.correct [] (finds.undisturbed trivial).1 with ⟨_, found, rfl⟩
      exact found

/-- The pass over the index reads the value of every key. -/
theorem countStored_returns (value : Bytes) {valueOf : Visit → Bytes} {visits : List Visit}
    (pool : db.volumes.Inv)
    (holds : ∀ visit ∈ visits, db.volumes.localVM.Holds visit.addr (valueOf visit)) :
    (countStored value visits).Returns room db fun found _ =>
      found = visits.countP fun visit => valueOf visit = value := by
  induction visits generalizing db with
  | nil => exact .pure rfl
  | cons visit rest ih =>
      rcases List.forall_mem_cons.mp holds with ⟨first, others⟩
      unfold countStored
      refine .bind_attempt (.zoom (VolumePool.read_returns pool first)) ?_
      rintro _ _ ⟨volumes, rfl, rfl, consulted⟩
      have othersHold : ∀ visit ∈ rest, volumes.localVM.Holds visit.addr (valueOf visit) := by
        rw [consulted.localVM_eq]
        exact others
      refine .bind (ih consulted.inv othersHold) ?_
      rintro _ next rfl
      refine .pure ?_
      rw [List.countP_cons]
      by_cases same : valueOf visit = value
      · simp [same]
      · simp [same]

/-- The keys of the overlay with a value. -/
def overlaid (value : Bytes) (order : CountOrder) (stack : List Transaction) : List Key :=
  (((overrides order stack).1.range order.override).filter
    fun entry => entry.2 = value).map Prod.fst

theorem nodup_overlaid (value : Bytes) (order : CountOrder) (stack : List Transaction) :
    (overlaid value order stack).Nodup :=
  (Table.nodup_range order.override _).sublist (List.filter_sublist.map Prod.fst)

theorem mem_overlaid {value : Bytes} {order : CountOrder} {stack : List Transaction}
    (sound : ∀ tx ∈ stack, tx.Sound) {key : Key} :
    key ∈ overlaid value order stack ↔ overlay stack key = some (some value) := by
  have member : key ∈ overlaid value order stack ↔
      (overrides order stack).1.lookup key = some value := by
    simp [overlaid]
  rw [member, overrides_values order sound]
  cases overlay stack key <;> simp

theorem length_overlaid (value : Bytes) (order : CountOrder) (stack : List Transaction) :
    (overlaid value order stack).length =
      ((overrides order stack).1.range order.override).countP fun entry => entry.2 = value := by
  rw [overlaid, List.length_map, List.countP_eq_length_filter]

/-- The value that the map has at a place that is visited. -/
def valueOf (rows : Rows) (visit : Visit) : Bytes :=
  ((rows visit.key).map Row.value).getD []

/-- The visits of the keys that no transaction mentions. -/
def unmentioned (order : CountOrder) (stack : List Transaction) (calls : List Visit) : List Visit :=
  calls.filter fun visit => ((overrides order stack).2.lookup visit.key).isNone ∧
    ((overrides order stack).1.lookup visit.key).isNone

/-- A visit is of a row of the map. -/
theorem row_of_visit {calls : List Visit} {nowNs : Int64}
    (enumerates : Index.Enumerates nowNs rows.content calls) {visit : Visit} (mem : visit ∈ calls) :
    ∃ row, rows visit.key = some row ∧ row.addr = visit.addr ∧ row.expiresAt = visit.expiresAt ∧
      row.value = valueOf rows visit := by
  rcases Option.map_eq_some_iff.mp ((enumerates.mem_iff visit).mp mem).1 with ⟨row, isRow, same⟩
  obtain ⟨addrEq, expiresAtEq⟩ := Prod.mk.inj same
  refine ⟨row, isRow, addrEq, expiresAtEq, ?_⟩
  rw [valueOf, isRow]
  rfl

/-- The keys that the pass over the index counts. -/
theorem mem_counted {calls : List Visit} {order : CountOrder} {stack : List Transaction}
    (enumerates : Index.Enumerates (Time.unixNano t) rows.content calls)
    (sound : ∀ tx ∈ stack, tx.Sound) {value : Bytes} {key : Key} :
    key ∈ ((unmentioned order stack calls).filter fun visit => valueOf rows visit = value).map
        Visit.key ↔
      overlay stack key = none ∧ DB.visible t (rows key) = some value := by
  rw [List.mem_map]
  constructor
  · rintro ⟨visit, mem, rfl⟩
    rcases List.mem_filter.mp mem with ⟨passed, hasValue⟩
    rcases List.mem_filter.mp passed with ⟨isCall, isUnmentioned⟩
    rcases row_of_visit enumerates isCall with ⟨row, isRow, _, expiresAtEq, valueEq⟩
    have live := ((enumerates.mem_iff visit).mp isCall).2
    refine ⟨(overrides_passes order sound _).mp (of_decide_eq_true isUnmentioned), ?_⟩
    rw [isRow, DB.visible, expiresAtEq, if_neg (mt (expiredAt_iff t _).mp live), valueEq,
      of_decide_eq_true hasValue]
  · rintro ⟨isUnmentioned, isVisible⟩
    cases isRow : rows key with
    | none =>
        rw [isRow] at isVisible
        cases isVisible
    | some row =>
        rw [isRow, DB.visible] at isVisible
        split at isVisible
        · cases isVisible
        · rename_i live
          refine ⟨⟨key, row.addr, row.expiresAt⟩, ?_, rfl⟩
          have isCall : (⟨key, row.addr, row.expiresAt⟩ : Visit) ∈ calls := by
            refine (enumerates.mem_iff _).mpr ⟨?_, mt (expiredAt_iff t _).mpr live⟩
            rw [Rows.content, isRow]
            rfl
          rw [List.mem_filter, unmentioned, List.mem_filter]
          have passes := (overrides_passes order sound key).mpr isUnmentioned
          refine ⟨⟨isCall, decide_eq_true passes⟩, ?_⟩
          rw [valueOf, isRow]
          exact decide_eq_true (Option.some.inj isVisible)

/-- `Count` is the number of the keys for which `Get` returns the value. -/
theorem count_eq_gets (stands : db.StandsFor rows) {stack : List Transaction}
    (sound : ∀ tx ∈ stack, tx.Sound) (value : Bytes) (t : Clock) (order : CountOrder) :
    ∃ keys : List Key, keys.Nodup ∧
      (∀ key, key ∈ keys ↔ (get key t ⟨db, stack⟩ []).res = .ok (some value)) ∧
      (count value t order ⟨db, stack⟩ []).res = .ok keys.length := by
  rcases stands.index.forEach_eq (Time.unixNano t) order.index with ⟨calls, callsEq, enumerates⟩
  rw [Clock.ofNano_unixNano] at callsEq
  have holds : ∀ visit ∈ unmentioned order stack calls,
      db.volumes.localVM.Holds visit.addr (valueOf rows visit) := by
    intro visit mem
    rcases row_of_visit enumerates (List.mem_of_mem_filter mem) with
      ⟨row, isRow, addrEq, _, valueEq⟩
    exact addrEq ▸ valueEq ▸ stands.holds visit.key row isRow
  have counts : (countStored value (unmentioned order stack calls)).Returns True db _ :=
    countStored_returns value stands.pool holds
  rcases counts.correct [] (counts.undisturbed trivial).1 with ⟨_, counted, rfl⟩
  refine ⟨((unmentioned order stack calls).filter fun visit => valueOf rows visit = value).map
    Visit.key ++ overlaid value order stack, ?_, ?_, ?_⟩
  · refine List.Nodup.append ?_ (nodup_overlaid value order stack) ?_
    · exact enumerates.nodup.sublist
        ((List.filter_sublist.trans List.filter_sublist).map Visit.key)
    · intro key inIndex inOverlay
      have notMentioned := ((mem_counted enumerates sound).mp inIndex).1
      rw [(mem_overlaid sound).mp inOverlay] at notMentioned
      cases notMentioned
  · intro key
    rw [List.mem_append, mem_counted enumerates sound, mem_overlaid sound, get_finds stands,
      Res.ok.injEq]
    cases overlay stack key with
    | none => simp
    | some found => simp
  · rw [count_res, callsEq]
    change ((countStored value (unmentioned order stack calls)) db []).res.bind _ = _
    rw [counted, List.length_append, List.length_map, length_overlaid,
      ← List.countP_eq_length_filter]
    rfl

end

theorem count_eq_gets_oneValue :
    ∃ keys : List Key, keys.Nodup ∧
      (∀ key, key ∈ keys ↔ (get key Clock.epoch ⟨(History.oneValue [118]).final.db,
        [Transaction.empty.put [108] [118] Time.zero]⟩ []).res = .ok (some [118])) ∧
      (count [118] Clock.epoch ⟨.asStored _, .asStored _, .asStored _, .asStored _⟩
        ⟨(History.oneValue [118]).final.db, [Transaction.empty.put [108] [118] Time.zero]⟩ []).res =
          .ok keys.length := by
  rcases @History.oneValue_models [118] (by decide) with ⟨rows, models, _⟩
  have stands := models.standsFor
  generalize (History.oneValue [118]).final.db = db at stands ⊢
  refine count_eq_gets stands (fun tx mem => ?_) _ _ _
  rw [List.mem_singleton.mp mem]
  exact Transaction.sound_empty.put ..

end Session

theorem DB.Blind.count_eq {db : DB} {key : Key} {value : Bytes} (blind : db.Blind key value)
    (other : Bytes) (now : Time) (order : Session.CountOrder) :
    (Session.count other now order ⟨db, []⟩ []).res = .ok 0 := by
  rcases blind.visits now order.index with ⟨cause, visitsEq⟩
  rw [Session.count_res, visitsEq]
  have nothing : ((Session.overrides order []).1.range order.override) = [] := by
    refine List.length_eq_zero_iff.mp ((Table.length_range order.override _).trans ?_)
    rfl
  rw [nothing]
  rfl

/-- `Get` finds the value, and `Count` does not count it. -/
theorem History.count_blinded :
    (Session.get [107] Clock.epoch ⟨History.blinded.final.db, []⟩ []).res = .ok (some [118]) ∧
      (Session.count [118] Clock.epoch ⟨.asStored _, .asStored _, .asStored _, .asStored _⟩
        ⟨History.blinded.final.db, []⟩ []).res = .ok 0 :=
  ⟨History.blinded_final.get_eq _, History.blinded_final.count_eq _ _ _⟩

end BriseDB
