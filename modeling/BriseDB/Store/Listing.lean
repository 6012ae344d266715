import BriseDB.Store.Liveness
import BriseDB.Store.Misaligned
import BriseDB.Store.Rebuild

/-!
# Listing keys

`Keys` and `Scan` list the keys that `ForEach` visits, in sorted order.  `matchGlob` decides
the language of a pattern, and the pages of `Scan` make up the sorted list.
-/

namespace BriseDB

namespace Session

/-! ## Patterns -/

/-- What a byte of a pattern stands for: a star for any piece of a text, a question mark for
any one byte, and another byte for itself. -/
def StandsFor (byte : UInt8) (piece : Bytes) : Prop :=
  if byte = 42 then True else if byte = 63 then piece.length = 1 else piece = [byte]

/-- A text is in the language of a pattern if it can be cut into pieces for the bytes of the
pattern. -/
def InLanguage (pattern text : Bytes) : Prop :=
  ∃ pieces, List.Forall₂ StandsFor pattern pieces ∧ pieces.flatten = text

theorem inLanguage_nil {text : Bytes} : InLanguage [] text ↔ text = [] := by
  constructor
  · rintro ⟨pieces, all, rfl⟩
    cases all
    rfl
  · rintro rfl
    exact ⟨[], .nil, rfl⟩

theorem inLanguage_cons {byte : UInt8} {pattern text : Bytes} :
    InLanguage (byte :: pattern) text ↔
      ∃ piece rest, StandsFor byte piece ∧ InLanguage pattern rest ∧ piece ++ rest = text := by
  constructor
  · rintro ⟨pieces, all, rfl⟩
    cases all with
    | cons first others =>
        exact ⟨_, _, first, ⟨_, others, rfl⟩, rfl⟩
  · rintro ⟨piece, _, first, ⟨pieces, others, rfl⟩, rfl⟩
    exact ⟨piece :: pieces, .cons first others, rfl⟩

/-- A star takes any number of bytes away. -/
theorem inLanguage_star {pattern text : Bytes} :
    InLanguage (42 :: pattern) text ↔ ∃ rest, rest <:+ text ∧ InLanguage pattern rest := by
  rw [inLanguage_cons]
  constructor
  · rintro ⟨piece, rest, _, inRest, rfl⟩
    exact ⟨rest, List.suffix_append piece rest, inRest⟩
  · rintro ⟨rest, ⟨piece, rfl⟩, inRest⟩
    exact ⟨piece, rest, trivial, inRest, rfl⟩

/-- A second star adds nothing. -/
theorem inLanguage_star_star {pattern text : Bytes} :
    InLanguage (42 :: 42 :: pattern) text ↔ InLanguage (42 :: pattern) text := by
  rw [inLanguage_star]
  constructor
  · rintro ⟨rest, suffix, inRest⟩
    rcases inLanguage_star.mp inRest with ⟨last, lastSuffix, inLast⟩
    exact inLanguage_star.mpr ⟨last, lastSuffix.trans suffix, inLast⟩
  · intro inText
    exact ⟨text, List.suffix_rfl, inText⟩

/-- Any byte but a star takes one byte away. -/
theorem inLanguage_byte {byte : UInt8} (notStar : byte ≠ 42) {pattern text : Bytes} :
    InLanguage (byte :: pattern) text ↔
      ∃ first rest, text = first :: rest ∧ (byte = 63 ∨ byte = first) ∧
        InLanguage pattern rest := by
  have standsFor_iff : ∀ piece, StandsFor byte piece ↔
      ∃ first, piece = [first] ∧ (byte = 63 ∨ byte = first) := by
    intro piece
    unfold StandsFor
    rw [if_neg notStar]
    by_cases isMark : byte = 63
    · rw [if_pos isMark, List.length_eq_one_iff]
      simp only [isMark, true_or, and_true]
    · rw [if_neg isMark]
      simp only [isMark, false_or]
      constructor
      · rintro rfl
        exact ⟨byte, rfl, rfl⟩
      · rintro ⟨first, rfl, rfl⟩
        rfl
  rw [inLanguage_cons]
  constructor
  · rintro ⟨piece, rest, stands, inRest, rfl⟩
    rcases (standsFor_iff piece).mp stands with ⟨first, rfl, fits⟩
    exact ⟨first, rest, rfl, fits, inRest⟩
  · rintro ⟨first, rest, rfl, fits, inRest⟩
    exact ⟨[first], rest, (standsFor_iff _).mpr ⟨first, rfl, fits⟩, inRest, rfl⟩

/-- `matchGlob` decides the language of a pattern. -/
theorem matchGlob_eq_true {pattern text : Bytes} :
    matchGlob pattern text = true ↔ InLanguage pattern text := by
  induction pattern generalizing text with
  | nil => rw [matchGlob, List.isEmpty_iff, inLanguage_nil]
  | cons byte pattern ih =>
      by_cases isStar : byte = 42
      · subst isStar
        unfold matchGlob
        rw [if_pos rfl]
        cases pattern with
        | nil =>
            rw [if_pos rfl]
            exact iff_of_true rfl
              (inLanguage_star.mpr ⟨[], List.nil_suffix, inLanguage_nil.mpr rfl⟩)
        | cons second others =>
            rw [if_neg (List.cons_ne_nil second others), List.head?_cons]
            by_cases again : second = 42
            · rw [if_pos (congrArg some again), ih, again, inLanguage_star_star]
            · rw [if_neg (mt Option.some.inj again), List.any_eq_true, inLanguage_star]
              refine exists_congr fun rest => ?_
              rw [List.mem_tails, ih]
      · unfold matchGlob
        rw [if_neg isStar, inLanguage_byte isStar]
        cases text with
        | nil => simp
        | cons first rest =>
            simp only [List.cons.injEq]
            by_cases fits : byte = 63 ∨ byte = first
            · rw [if_pos fits, ih]
              constructor
              · exact fun inRest => ⟨first, rest, ⟨rfl, rfl⟩, fits, inRest⟩
              · rintro ⟨_, _, ⟨rfl, rfl⟩, -, inRest⟩
                exact inRest
            · rw [if_neg fits]
              refine iff_of_false Bool.false_ne_true ?_
              rintro ⟨_, _, ⟨rfl, rfl⟩, fits', -⟩
              exact fits fits'

/-! ## Keys -/

section

variable {s : Session} {db : DB} {stack : List Transaction} {content : Index.Content}

/-- `Keys` returns, sorted and each once, the keys with a live entry that are in the language
of the pattern, which `matchGlob` decides. -/
theorem keys_language (stores : Index.Stores db.hindex content) (pattern : Bytes) (t : Clock)
    (order : RangeOrder Key) :
    (∀ text, matchGlob pattern text = true ↔ InLanguage pattern text) ∧
      ∃ listed, (keys pattern t order ⟨db, stack⟩ []).res = .ok listed ∧ listed.Pairwise (· ≤ ·) ∧
        listed.Nodup ∧
        ∀ key, key ∈ listed ↔ (db.HasEntry key t fun _ _ => True) ∧ InLanguage pattern key := by
  refine ⟨fun text => matchGlob_eq_true, ?_⟩
  rcases forEach_calls stores t order with ⟨calls, callsEq, nodup, memCalls⟩
  refine ⟨_, Exec.bind_eq_ok.mpr ⟨_, callsEq, rfl⟩, sortStrings_sorted _, ?_, ?_⟩
  · exact (List.mergeSort_perm ..).nodup_iff.mpr (nodup.filter _)
  · intro key
    rw [sortStrings, List.mem_mergeSort, List.mem_filter, memCalls, matchGlob_eq_true]

/-! ## Pages -/

/-- A page with the bounds of its slice. -/
def bounded (all : List Key) (next : Int64) (low high : Int) : Res (Int64 × List Key) :=
  if 0 ≤ low ∧ low ≤ high ∧ high ≤ all.length then
    .ok (next, (all.take high.toNat).drop low.toNat)
  else .panic "slice bounds out of range"

/-- The page of `Scan` from the sorted keys. -/
def page (all : List Key) (cursor count : Int64) : Res (Int64 × List Key) :=
  let last := cursor + if count ≤ 0 then 10 else count
  if (all.length : Int) ≤ cursor.toInt then .ok (0, [])
  else if (all.length : Int) ≤ last.toInt then bounded all 0 cursor.toInt all.length
  else bounded all last cursor.toInt last.toInt

theorem slice_res (all : List Key) (next : Int64) (low high : Int) (s : Session)
    (faults : List Fault) :
    ((slice all low high >>= fun keys => pure (next, keys)) s faults).res =
      bounded all next low high := by
  unfold slice bounded
  by_cases inBounds : 0 ≤ low ∧ low ≤ high ∧ high ≤ all.length
  · rw [if_pos inBounds, if_pos inBounds]
    rfl
  · rw [if_neg inBounds, if_neg inBounds]
    rfl

theorem scan_res {now : Time} {order : RangeOrder Key} {visits : Index.Visits}
    (visitsEq : Index.forEach s.db.hindex now order = .ok visits) (cursor count : Int64)
    (faults : List Fault) :
    (scan cursor count now order s faults).res =
      page (sortStrings (visits.calls.map Index.Visit.key)) cursor count := by
  unfold scan
  rw [Exec.bind_res]
  simp only [Exec.ask, visitsEq, Res.bind, page]
  generalize sortStrings (visits.calls.map Index.Visit.key) = all
  generalize (if count ≤ 0 then (10 : Int64) else count) = size
  by_cases done : (all.length : Int) ≤ cursor.toInt
  · rw [if_pos done, if_pos done]
    rfl
  · rw [if_neg done, if_neg done]
    by_cases isLast : (all.length : Int) ≤ (cursor + size).toInt
    · rw [if_pos isLast, if_pos isLast]
      exact slice_res ..
    · rw [if_neg isLast, if_neg isLast]
      exact slice_res ..

theorem not_le_zero {count : Int64} (positive : 0 < count.toInt) : ¬ count ≤ 0 := by
  intro le
  have := Int64.le_iff_toInt_le.mp le
  rw [Int64.toInt_zero] at this
  omega

theorem toInt_add {cursor count : Int64} (nonneg : 0 ≤ cursor.toInt) (positive : 0 < count.toInt)
    (noWrap : cursor.toInt + count.toInt < 2 ^ 63) :
    (cursor + count).toInt = cursor.toInt + count.toInt := by
  rw [Int64.toInt_add]
  exact Int.bmod_eq_of_le (by omega) (by omega)

/-- `Scan` cuts a page out of the sorted list. -/
theorem page_eq (all : List Key) {cursor count : Int64} (positive : 0 < count.toInt)
    (nonneg : 0 ≤ cursor.toInt) (noWrap : cursor.toInt + count.toInt < 2 ^ 63) :
    page all cursor count =
      if (all.length : Int) ≤ cursor.toInt then .ok (0, [])
      else if (all.length : Int) ≤ cursor.toInt + count.toInt then
        .ok (0, all.drop cursor.toInt.toNat)
      else .ok (cursor + count, (all.drop cursor.toInt.toNat).take count.toInt.toNat) := by
  have notDefault := not_le_zero positive
  have lastEq := toInt_add nonneg positive noWrap
  unfold page bounded
  simp only [if_neg notDefault, lastEq]
  by_cases done : (all.length : Int) ≤ cursor.toInt
  · rw [if_pos done, if_pos done]
  · rw [if_neg done, if_neg done]
    by_cases isLast : (all.length : Int) ≤ cursor.toInt + count.toInt
    · rw [if_pos isLast, if_pos isLast, if_pos (by omega), Int.toNat_natCast, List.take_length]
    · rw [if_neg isLast, if_neg isLast, if_pos (by omega), List.drop_take,
        Int.toNat_add nonneg positive.le, Nat.add_sub_cancel_left]

/-- Follow the cursors that `Scan` returns until one is 0, and collect the pages.  Every call
has its own clock reading and its own order of the map it ranges over. -/
def follow (s : Session) (count : Int64) (reading : Nat → Clock × RangeOrder Key) :
    Nat → Nat → Int64 → Option (List (List Key))
  | 0, _, _ => none
  | fuel + 1, call, cursor =>
      match (scan cursor count (reading call).1 (reading call).2 s []).res with
      | .ok (next, keys) =>
          if next = 0 then some [keys]
          else (follow s count reading fuel (call + 1) next).map (keys :: ·)
      | _ => none

/-- The pages from a cursor on, when each of them is cut out of the same list. -/
theorem follow_from {all : List Key} {count : Int64} {reading : Nat → Clock × RangeOrder Key}
    (same : ∀ call cursor, (scan cursor count (reading call).1 (reading call).2 s []).res =
      page all cursor count)
    (positive : 0 < count.toInt) (fits : (all.length : Int) + count.toInt < 2 ^ 63)
    {fuel call : Nat} {cursor : Int64} (nonneg : 0 ≤ cursor.toInt)
    (inside : cursor.toInt ≤ all.length) (enough : all.length < cursor.toInt.toNat + fuel) :
    ∃ pages, follow s count reading fuel call cursor = some pages ∧ pages ≠ [] ∧
      pages.flatten = all.drop cursor.toInt.toNat ∧
      ∀ keys ∈ pages.dropLast, (keys.length : Int) = count.toInt := by
  induction fuel generalizing call cursor with
  | zero => omega
  | succ fuel ih =>
      have noWrap : cursor.toInt + count.toInt < 2 ^ 63 := by omega
      have pageEq := page_eq all positive nonneg noWrap
      unfold follow
      rw [same]
      by_cases done : (all.length : Int) ≤ cursor.toInt
      · rw [if_pos done] at pageEq
        simp only [pageEq, if_true]
        refine ⟨[[]], rfl, by simp, ?_, by simp⟩
        rw [List.drop_eq_nil_of_le (by omega)]
        rfl
      · rw [if_neg done] at pageEq
        by_cases isLast : (all.length : Int) ≤ cursor.toInt + count.toInt
        · rw [if_pos isLast] at pageEq
          simp only [pageEq, if_true]
          exact ⟨[_], rfl, by simp, List.append_nil _, by simp⟩
        · rw [if_neg isLast] at pageEq
          have lastEq := toInt_add nonneg positive noWrap
          have notZero : cursor + count ≠ 0 := by
            intro isZero
            rw [isZero, Int64.toInt_zero] at lastEq
            omega
          rcases @ih (call + 1) (cursor + count) (by omega) (by omega) (by omega) with
            ⟨pages, pagesEq, nonempty, flattenEq, full⟩
          simp only [pageEq, if_neg notZero, pagesEq]
          refine ⟨_, rfl, List.cons_ne_nil _ _, ?_, ?_⟩
          · rw [List.flatten_cons, flattenEq, lastEq, Int.toNat_add nonneg positive.le,
              ← List.drop_drop, List.take_append_drop]
          · intro keys mem
            rw [List.dropLast_cons_of_ne_nil nonempty] at mem
            rcases List.mem_cons.mp mem with rfl | later
            · rw [List.length_take, List.length_drop]
              omega
            · exact full keys later

theorem follow_mono {count : Int64} {reading : Nat → Clock × RangeOrder Key} {fuel more call : Nat}
    {cursor : Int64} {pages : List (List Key)} (le : fuel ≤ more)
    (followed : follow s count reading fuel call cursor = some pages) :
    follow s count reading more call cursor = some pages := by
  induction fuel generalizing more call cursor pages with
  | zero => cases followed
  | succ fuel ih =>
      obtain ⟨more, rfl⟩ : ∃ less, more = less + 1 := ⟨more - 1, by omega⟩
      unfold follow at followed ⊢
      split at followed
      · next next keys isPage =>
        by_cases isZero : next = 0
        · rwa [if_pos isZero] at followed ⊢
        · rw [if_neg isZero] at followed ⊢
          rcases Option.map_eq_some_iff.mp followed with ⟨others, othersEq, rfl⟩
          rw [ih (Nat.le_of_succ_le_succ le) othersEq]
          rfl
      · cases followed

/-- In a store whose live keys do not change, following the cursors of `Scan` from 0 on ends, and
the pages make up the sorted list of the live keys; all of them but the last are full. -/
theorem scan_complete (stores : Index.Stores db.hindex content) {count : Int64}
    (positive : 1 ≤ count.toInt) (reading : Nat → Clock × RangeOrder Key) {live : List Key}
    (nodup : live.Nodup)
    (unchanged : ∀ call key, key ∈ live ↔ db.HasEntry key (reading call).1 fun _ _ => True)
    (fits : (live.length : Int) + count.toInt < 2 ^ 63) :
    ∃ pages, (∀ fuel, live.length < fuel → follow ⟨db, stack⟩ count reading fuel 0 0 = some pages) ∧
      pages.flatten.Pairwise (· ≤ ·) ∧ pages.flatten.Perm live ∧
      ∀ keys ∈ pages.dropLast, (keys.length : Int) = count.toInt := by
  have sorted : (sortStrings live).Perm live := List.mergeSort_perm ..
  have same : ∀ call cursor, (scan cursor count (reading call).1 (reading call).2
      ⟨db, stack⟩ []).res = page (sortStrings live) cursor count := by
    intro call cursor
    rcases forEach_calls stores (reading call).1 (reading call).2 with
      ⟨calls, callsEq, visitedOnce, memCalls⟩
    rw [@scan_res ⟨db, stack⟩ _ _ _ callsEq]
    refine congrArg (page · cursor count) (sortStrings_perm ?_)
    exact (List.perm_ext_iff_of_nodup visitedOnce nodup).mpr fun key =>
      (memCalls key).trans (unchanged call key).symm
  rcases @follow_from ⟨db, stack⟩ (sortStrings live) count reading same positive
    (by rwa [sorted.length_eq]) (live.length + 1) 0 0 (by decide)
    (by rw [Int64.toInt_zero]; exact Int.natCast_nonneg _)
    (by rw [sorted.length_eq, Int64.toInt_zero]; omega) with
    ⟨pages, followed, -, flattenEq, full⟩
  have wholeEq : pages.flatten = sortStrings live := flattenEq
  refine ⟨pages, fun fuel enough => follow_mono enough followed, ?_, ?_, full⟩
  · rw [wholeEq]
    exact sortStrings_sorted live
  · rw [wholeEq]
    exact sorted

end

end Session

/-! ## Two keys, and a key that cannot be listed -/

/-- Both keys are live for a while. -/
theorem DB.FirstDue.live {db : DB} {rows : Rows} (due : db.FirstDue rows) (key : Key) :
    key ∈ ([[97], [99]] : List Key) ↔ db.HasEntry key Clock.sample fun _ _ => True := by
  rcases due.first with ⟨first, firstRow⟩
  rcases due.second with ⟨second, secondRow⟩
  have get_eq := DB.get_index_eq due.stocked.models
  constructor
  · intro mem
    rcases List.mem_pair.mp mem with rfl | rfl
    · refine ⟨first, 10 ^ 18 + 10 ^ 9, ?_, by decide, trivial⟩
      rw [get_eq, firstRow]
      rfl
    · refine ⟨second, 10 ^ 18 + 10 ^ 10, ?_, by decide, trivial⟩
      rw [get_eq, secondRow]
      rfl
  · rintro ⟨_, _, isFound, -, -⟩
    by_contra notMem
    rw [List.mem_pair, not_or] at notMem
    rw [get_eq, due.others key notMem.1 notMem.2] at isFound
    cases isFound

/-- Of the two keys, one is in the language of the pattern. -/
theorem Session.keys_language_twoKeys :
    (∀ text, Session.matchGlob [97, 42] text = true ↔ Session.InLanguage [97, 42] text) ∧
      ∃ listed, (Session.keys [97, 42] Clock.sample (.asStored _)
          ⟨History.twoLifetimes.final.db, []⟩ []).res = .ok listed ∧
        listed.Pairwise (· ≤ ·) ∧ listed.Nodup ∧
        ∀ key, key ∈ listed ↔ key ∈ ([[97], [99]] : List Key) ∧
          Session.InLanguage [97, 42] key := by
  rcases History.twoLifetimes_final with ⟨rows, due⟩
  generalize History.twoLifetimes.final.db = db at due ⊢
  simp only [due.live]
  exact Session.keys_language due.stocked.models.index.stores [97, 42] Clock.sample (.asStored _)

theorem Session.sortStrings_nil : Session.sortStrings [] = [] :=
  List.mergeSort_nil

section

variable {db : DB} {key : Key} {value : Bytes}

theorem DB.Blind.keys_eq (blind : db.Blind key value) (pattern : Bytes) (now : Time)
    (order : RangeOrder Key) : (Session.keys pattern now order ⟨db, []⟩ []).res = .ok [] := by
  rcases blind.visits now order with ⟨cause, visitsEq⟩
  refine Exec.bind_eq_ok.mpr ⟨_, visitsEq, ?_⟩
  exact congrArg Res.ok Session.sortStrings_nil

theorem DB.Blind.scan_eq (blind : db.Blind key value) (count : Int64) (now : Time)
    (order : RangeOrder Key) : (Session.scan 0 count now order ⟨db, []⟩ []).res = .ok (0, []) := by
  rcases blind.visits now order with ⟨cause, visitsEq⟩
  rw [@Session.scan_res ⟨db, []⟩ _ _ _ visitsEq]
  change Session.page (Session.sortStrings []) 0 count = _
  rw [Session.sortStrings_nil]
  rfl

end

/-- `Get` finds a key that `Keys` does not list. -/
theorem History.keys_blinded :
    (Session.get [107] Clock.epoch ⟨History.blinded.final.db, []⟩ []).res = .ok (some [118]) ∧
      (Session.keys [42] Clock.epoch (.asStored _) ⟨History.blinded.final.db, []⟩ []).res =
        .ok [] :=
  ⟨History.blinded_final.get_eq _, History.blinded_final.keys_eq _ _ _⟩

/-- The two keys are delivered in two pages. -/
theorem Session.scan_complete_twoPages :
    ∃ pages, (∀ fuel, 2 < fuel → Session.follow ⟨History.twoLifetimes.final.db, []⟩ 1
        (fun _ => (Clock.sample, .asStored _)) fuel 0 0 = some pages) ∧
      pages.flatten.Pairwise (· ≤ ·) ∧ pages.flatten.Perm [[97], [99]] ∧
      ∀ keys ∈ pages.dropLast, (keys.length : Int) = (1 : Int64).toInt := by
  rcases History.twoLifetimes_final with ⟨rows, due⟩
  generalize History.twoLifetimes.final.db = db at due ⊢
  have nodup : ([[97], [99]] : List Key).Nodup := by decide
  exact @Session.scan_complete db [] _ due.stocked.models.index.stores 1 (by decide)
    (fun _ => (Clock.sample, .asStored _)) _ nodup (fun _ => due.live) (by decide)

/-- `Get` finds a key that `Scan` does not deliver. -/
theorem History.scan_blinded :
    (Session.get [107] Clock.epoch ⟨History.blinded.final.db, []⟩ []).res = .ok (some [118]) ∧
      (Session.scan 0 10 Clock.epoch (.asStored _) ⟨History.blinded.final.db, []⟩ []).res =
        .ok (0, []) :=
  ⟨History.blinded_final.get_eq _, History.blinded_final.scan_eq _ _ _⟩

end BriseDB
