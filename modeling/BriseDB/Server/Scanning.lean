import BriseDB.Index.Damaged
import BriseDB.Server.Blobs
import BriseDB.Store.Listing

/-!
# The bounds of a page

Both servers pass a cursor and a count on to `Scan`, which adds them and slices its list of
keys with the cursor and the sum.  The TCP server refuses a negative cursor, the HTTP server
does not; neither bounds the sum.  The main result says which requests are served without a
slice out of bounds and without a sum that wraps around.
-/

namespace BriseDB

open Json (ascii)

namespace Session

theorem length_sortStrings (texts : List Bytes) : (sortStrings texts).length = texts.length :=
  (List.mergeSort_perm ..).length_eq

theorem bounded_panics {all : List Key} {next : Int64} {low high : Int}
    (outside : ¬ (0 ≤ low ∧ low ≤ high)) :
    bounded all next low high = .panic "slice bounds out of range" :=
  if_neg fun inside => outside ⟨inside.1, inside.2.1⟩

/-- A page panics exactly if its cursor is negative, or if its bound wraps around while there
are keys behind the cursor. -/
theorem page_panics_iff (all : List Key) {cursor count : Int64} (positive : 0 < count.toInt) :
    (∃ message, page all cursor count = .panic message) ↔
      cursor.toInt < 0 ∨ cursor.toInt < all.length ∧ 2 ^ 63 ≤ cursor.toInt + count.toInt := by
  by_cases negative : cursor.toInt < 0
  · have outside : ∀ next high, bounded all next cursor.toInt high =
        .panic "slice bounds out of range" := fun _ _ => bounded_panics (by omega)
    refine ⟨fun _ => .inl negative, fun _ => ⟨"slice bounds out of range", ?_⟩⟩
    simp only [page, outside, ite_self]
    exact if_neg (by omega)
  by_cases noWrap : cursor.toInt + count.toInt < 2 ^ 63
  · refine iff_of_false ?_ (by omega)
    rintro ⟨message, panics⟩
    rw [page_eq all positive (by omega) noWrap] at panics
    split at panics
    · cases panics
    · split at panics
      · cases panics
      · cases panics
  by_cases done : (all.length : Int) ≤ cursor.toInt
  · refine iff_of_false ?_ (by omega)
    rintro ⟨message, panics⟩
    rw [page, if_pos done] at panics
    cases panics
  · have wrapped : (cursor + count).toInt < 0 := by
      have small := count.toInt_lt
      have bound := cursor.toInt_lt
      rw [Int64.toInt_add, Int.bmod_def]
      omega
    refine iff_of_true ⟨"slice bounds out of range", ?_⟩ (by omega)
    simp only [page, if_neg (not_le_zero positive), if_neg done]
    rw [if_neg (by omega)]
    exact bounded_panics (by omega)

theorem scan_panics_iff {db : DB} {stack : List Transaction} {now : Time} {order : RangeOrder Key}
    {cursor count : Int64} (positive : 0 < count.toInt) (faults : List Fault) :
    (∃ message, (scan cursor count now order ⟨db, stack⟩ faults).res = .panic message) ↔
      ∃ visits, Index.forEach db.hindex now order = .ok visits ∧ (cursor.toInt < 0 ∨
        cursor.toInt < visits.calls.length ∧ 2 ^ 63 ≤ cursor.toInt + count.toInt) := by
  rcases Index.forEach_ok_or_hang db.hindex now order with ⟨visits, visitsEq⟩ | hangs
  · rw [@scan_res ⟨db, stack⟩ _ _ _ visitsEq, page_panics_iff _ positive, length_sortStrings,
      List.length_map, visitsEq]
    constructor
    · exact fun outside => ⟨visits, rfl, outside⟩
    · rintro ⟨_, same, outside⟩
      exact Res.ok.inj same ▸ outside
  · have notOk : (scan cursor count now order ⟨db, stack⟩ faults).res = .hang := by
      unfold scan
      rw [Exec.bind_res]
      simp only [Exec.ask, hangs, Res.bind]
    rw [notOk, hangs]
    constructor
    · rintro ⟨_, same⟩
      cases same
    · rintro ⟨_, same, _⟩
      cases same

end Session

namespace Server

/-- A request for a page of keys, with the fields after the command name or the two query
parameters. -/
inductive ScanRequest where
  | tcp (args : List Bytes)
  | http (method : Method) (cursor count : Bytes)

namespace ScanRequest

/-- The cursor and the count that the handler passes on to `Scan`, if it does. -/
def passed : ScanRequest → Option (Int64 × Int64)
  | tcp (text :: options) =>
      (parseInt text).bind fun cursor =>
        if cursor < 0 then none else some (cursor, pageSize options)
  | tcp [] => none
  | http method cursor count =>
      if method ≠ .get then none
      else some (atoi cursor, if atoi count ≤ 0 then 100 else atoi count)

/-- The handler panics. -/
def Panics (now : Time) (order : RangeOrder Key) (db : DB) (stack : List Transaction) :
    ScanRequest → Prop
  | tcp args => ∃ message, (scan now order args ⟨db, stack⟩ []).res = .panic message
  | http method cursor count =>
      ∃ message, (handleScan method cursor count now order db []).res = .panic message

theorem pageSize_pos (options : List Bytes) : 0 < (pageSize options).toInt := by
  unfold pageSize
  split
  · split
    · split
      · split
        · rename_i positive
          exact Int64.lt_iff_toInt_lt.mp positive
        · decide
      · decide
    · decide
  · decide

/-- No handler passes on a count that `Scan` would replace. -/
theorem passed_pos {request : ScanRequest} {cursor count : Int64}
    (isPassed : request.passed = some (cursor, count)) : 0 < count.toInt := by
  unfold passed at isPassed
  split at isPassed
  · rcases Option.bind_eq_some_iff.mp isPassed with ⟨_, _, isSome⟩
    split at isSome
    · cases isSome
    · cases isSome
      exact pageSize_pos _
  · cases isPassed
  · split at isPassed
    · cases isPassed
    · cases isPassed
      split
      · decide
      · rename_i positive
        have := mt Int64.le_iff_toInt_le.mpr positive
        rw [Int64.toInt_zero] at this
        omega

section

variable {now : Time} {order : RangeOrder Key} {db : DB} {stack : List Transaction}
  {request : ScanRequest}

theorem not_panics_of_none (notPassed : request.passed = none) :
    ¬ request.Panics now order db stack := by
  rintro panics
  cases request with
  | tcp args =>
      rcases panics with ⟨message, panics⟩
      cases args with
      | nil => cases panics
      | cons text options =>
          rw [passed] at notPassed
          rw [scan] at panics
          cases parsed : parseInt text with
          | none =>
              simp only [parsed] at panics
              cases panics
          | some cursor =>
              simp only [parsed] at panics
              rw [parsed, Option.bind_some] at notPassed
              split at notPassed
              · rename_i negative
                rw [if_pos negative] at panics
                cases panics
              · cases notPassed
  | http method cursor count =>
      rcases panics with ⟨message, panics⟩
      rw [passed] at notPassed
      split at notPassed
      · rename_i other
        rw [handleScan, if_pos other] at panics
        cases panics
      · cases notPassed

theorem panics_iff_of_some {cursor count : Int64}
    (isPassed : request.passed = some (cursor, count)) :
    request.Panics now order db stack ↔ ∃ visits,
      Index.forEach db.hindex now order = .ok visits ∧ (cursor.toInt < 0 ∨
        cursor.toInt < visits.calls.length ∧ 2 ^ 63 ≤ cursor.toInt + count.toInt) := by
  have positive := passed_pos isPassed
  cases request with
  | tcp args =>
      cases args with
      | nil => cases isPassed
      | cons text options =>
          rcases Option.bind_eq_some_iff.mp isPassed with ⟨_, parsed, isSome⟩
          split at isSome
          · cases isSome
          · rename_i nonneg
            cases isSome
            rw [Panics, scan]
            simp only [parsed, if_neg nonneg]
            rw [Exec.bind_panics_iff fun _ _ _ => ⟨_, rfl⟩, Session.scan_panics_iff positive]
  | http method cursorText countText =>
      rw [passed] at isPassed
      split at isPassed
      · cases isPassed
      · rename_i isGet
        cases isPassed
        rw [Panics, handleScan, if_neg isGet, Exec.bind_panics_iff fun _ _ _ => ⟨_, rfl⟩]
        exact Session.scan_panics_iff positive []

end

/-- A handler panics exactly if it calls `Scan` with bounds for which that does. -/
theorem panics_iff {now : Time} {order : RangeOrder Key} {db : DB} {stack : List Transaction}
    {request : ScanRequest} : request.Panics now order db stack ↔
      ∃ cursor count, request.passed = some (cursor, count) ∧ ∃ visits,
        Index.forEach db.hindex now order = .ok visits ∧ (cursor.toInt < 0 ∨
          cursor.toInt < visits.calls.length ∧ 2 ^ 63 ≤ cursor.toInt + count.toInt) := by
  cases isPassed : request.passed with
  | none =>
      refine iff_of_false (not_panics_of_none isPassed) ?_
      rintro ⟨_, _, same, _⟩
      cases same
  | some pair =>
      rw [panics_iff_of_some isPassed]
      constructor
      · exact fun outside => ⟨pair.1, pair.2, rfl, outside⟩
      · rintro ⟨cursor, count, same, outside⟩
        cases same
        exact outside

/-- The request is served with every slice in bounds, and with no sum that wraps around. -/
structure Safe (request : ScanRequest) (now : Time) (order : RangeOrder Key) (db : DB)
    (stack : List Transaction) : Prop where
  noPanic : ¬ request.Panics now order db stack
  noWrap : ∀ cursor count visits, request.passed = some (cursor, count) →
    Index.forEach db.hindex now order = .ok visits → cursor.toInt < visits.calls.length →
      (cursor + count).toInt = cursor.toInt + count.toInt

/-- A request is safe exactly if the cursor it passes on is not negative and, unless there are
no keys behind the cursor, the sum with the count fits. -/
theorem safe_iff (request : ScanRequest) (now : Time) (order : RangeOrder Key) (db : DB)
    (stack : List Transaction) :
    request.Safe now order db stack ↔
      ∀ cursor count visits, request.passed = some (cursor, count) →
        Index.forEach db.hindex now order = .ok visits →
          0 ≤ cursor.toInt ∧ ((visits.calls.length : Int) ≤ cursor.toInt ∨
            cursor.toInt + count.toInt < 2 ^ 63) := by
  constructor
  · intro safe cursor count visits isPassed visitsEq
    by_contra outside
    exact safe.noPanic (panics_iff.mpr ⟨cursor, count, isPassed, visits, visitsEq, by omega⟩)
  · intro inside
    constructor
    · intro panics
      rcases panics_iff.mp panics with ⟨cursor, count, isPassed, visits, visitsEq, outside⟩
      have := inside cursor count visits isPassed visitsEq
      omega
    · intro cursor count visits isPassed visitsEq before
      have := inside cursor count visits isPassed visitsEq
      exact Session.toInt_add this.1 (passed_pos isPassed) (by omega)

theorem panics_of_negative {db : DB} {content : Key → Option (NeedleAddr × Int64)}
    (stores : Index.Stores db.hindex content) (t : Clock) (order : RangeOrder Key) :
    (http .get (ascii "-1") []).Panics t order db [] := by
  rcases Session.forEach_calls stores t order with ⟨calls, visitsEq, _⟩
  exact panics_iff.mpr ⟨-1, 100, by decide +kernel, _, visitsEq, .inl (by decide)⟩

theorem durableSet_stores : ∃ content, Index.Stores History.durableSet.final.db.hindex content := by
  have returns := History.durableSet_returns (History.alwaysSynced_fresh History.durableSet.run)
  rcases @History.final_of_returns History.durableSet rfl _ returns with ⟨_, _, one, _⟩
  exact ⟨_, one.models.index.stores⟩

/-- `GET /v1/scan?cursor=-1` panics, here with one key in the store. -/
theorem handleScan_negative_panics : ∃ message,
    (handleScan .get (ascii "-1") [] Clock.epoch (.asStored _) History.durableSet.final.db []).res =
      .panic message := by
  rcases durableSet_stores with ⟨_, stores⟩
  exact panics_of_negative stores Clock.epoch (.asStored _)

end ScanRequest

end Server

end BriseDB
