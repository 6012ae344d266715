import Mathlib.Data.List.Basic
import Mathlib.Tactic.Common

/-!
# Parsers and what they say about a text that goes on

A parser takes a value off the front of a text.  When a text may be cut short it matters
whether the answer changes as more text follows.  A `Stable` parser never changes its answer,
and a `Settling` one can do so only if it has read the text to its end, as a number does
whose next digit is still missing.

Tokens are read by an automaton that goes on as long as it can (`munch`).
-/

namespace BriseDB

/-- A parser takes a value off the front of a list. -/
def TokenParser (τ α : Type) :=
  List τ → Option (α × List τ)

namespace TokenParser

variable {τ α β : Type}

instance : Monad (TokenParser τ) where
  pure value := fun text => some (value, text)
  bind parser next := fun text => (parser text).bind fun found => next found.1 found.2

theorem pure_eq_some {value found : α} {text rest : List τ} :
    (pure value : TokenParser τ α) text = some (found, rest) ↔ value = found ∧ text = rest := by
  change some (value, text) = some (found, rest) ↔ _
  rw [Option.some.injEq, Prod.mk.injEq]

theorem bind_of_some {parser : TokenParser τ α} {text mid : List τ} {value : α}
    (found : parser text = some (value, mid)) (next : α → TokenParser τ β) :
    (parser >>= next) text = next value mid := by
  change (parser text).bind _ = _
  rw [found]
  rfl

theorem bind_eq_some {parser : TokenParser τ α} {next : α → TokenParser τ β} {text rest : List τ}
    {value : β} :
    (parser >>= next) text = some (value, rest) ↔
      ∃ found mid, parser text = some (found, mid) ∧ next found mid = some (value, rest) := by
  change (parser text).bind _ = _ ↔ _
  rw [Option.bind_eq_some_iff, Prod.exists]

/-- The parser that accepts nothing. -/
def fail : TokenParser τ α :=
  fun _ => none

/-- Take one token. -/
def next : TokenParser τ τ
  | [] => none
  | token :: rest => some (token, rest)

/-! ## Automata -/

section

variable {σ : Type} (step : σ → τ → Option σ) (final : σ → Bool)

/-- Let an automaton read as far as it can.  It must then be in a final state. -/
def munch : σ → TokenParser τ (List τ)
  | state, [] => if final state then some ([], []) else none
  | state, token :: rest =>
      match step state token with
      | some after => (munch after rest).map fun found => (token :: found.1, found.2)
      | none => if final state then some ([], token :: rest) else none

/-- What an automaton accepts: a path to a final state from which it cannot go on. -/
theorem munch_eq_some {state : σ} {text token rest : List τ} :
    munch step final state text = some (token, rest) ↔
      text = token ++ rest ∧ ∃ last, token.foldlM step state = some last ∧ final last = true ∧
        ∀ c ∈ rest.head?, step last c = none := by
  induction text generalizing state token with
  | nil =>
      simp only [munch, Option.ite_none_right_eq_some, Option.some.injEq, Prod.mk.injEq]
      constructor
      · rintro ⟨isFinal, rfl, rfl⟩
        exact ⟨rfl, state, rfl, isFinal, by simp⟩
      · rintro ⟨split, last, path, isFinal, -⟩
        rcases List.append_eq_nil_iff.mp split.symm with ⟨rfl, rfl⟩
        obtain rfl : state = last := Option.some.inj path
        exact ⟨isFinal, rfl, rfl⟩
  | cons c text ih =>
      cases moved : step state c with
      | some after =>
          simp only [munch, moved, Option.map_eq_some_iff, Prod.mk.injEq, Prod.exists]
          constructor
          · rintro ⟨token, _, found, rfl, rfl⟩
            rcases ih.mp found with ⟨rfl, last, path, isFinal, stuck⟩
            exact ⟨rfl, last, by rw [List.foldlM_cons, moved]; exact path, isFinal, stuck⟩
          · rintro ⟨split, last, path, isFinal, stuck⟩
            cases token with
            | nil =>
                obtain rfl : state = last := Option.some.inj path
                subst split
                rw [stuck c rfl] at moved
                cases moved
            | cons head token =>
                obtain ⟨rfl, rfl⟩ := List.cons.inj split
                rw [List.foldlM_cons, moved] at path
                exact ⟨token, rest, ih.mpr ⟨rfl, last, path, isFinal, stuck⟩, rfl, rfl⟩
      | none =>
          simp only [munch, moved, Option.ite_none_right_eq_some, Option.some.injEq, Prod.mk.injEq]
          constructor
          · rintro ⟨isFinal, rfl, rfl⟩
            exact ⟨rfl, state, rfl, isFinal, by simpa using moved⟩
          · rintro ⟨split, last, path, isFinal, stuck⟩
            cases token with
            | nil =>
                obtain rfl : state = last := Option.some.inj path
                exact ⟨isFinal, rfl, split⟩
            | cons head token =>
                obtain ⟨rfl, rfl⟩ := List.cons.inj split
                rw [List.foldlM_cons, moved] at path
                cases path

/-- Every token on a path is one that some state of the automaton takes. -/
theorem forall_of_path {accepts : τ → Prop}
    (takes : ∀ state token after, step state token = some after → accepts token) {state last : σ}
    {text : List τ} (path : text.foldlM step state = some last) :
    ∀ token ∈ text, accepts token := by
  induction text generalizing state with
  | nil => simp
  | cons token text ih =>
      rw [List.foldlM_cons] at path
      rcases Option.bind_eq_some_iff.mp path with ⟨after, moved, path⟩
      exact List.forall_mem_cons.mpr ⟨takes state token after moved, ih path⟩

end

/-! ## Texts that go on -/

/-- More text does not change the answer. -/
def Stable (parser : TokenParser τ α) : Prop :=
  ∀ text value rest, parser text = some (value, rest) →
    ∀ later, parser (text ++ later) = some (value, rest ++ later)

/-- More text does not change the answer unless all text has been read. -/
def Settling (parser : TokenParser τ α) : Prop :=
  ∀ text value rest, parser text = some (value, rest) → rest ≠ [] →
    text ≠ [] ∧ ∀ later, parser (text ++ later) = some (value, rest ++ later)

/-- The parser does not accept the empty text. -/
def Hungry (parser : TokenParser τ α) : Prop :=
  parser [] = none

variable {parser : TokenParser τ α} {following : α → TokenParser τ β}

theorem stable_pure (value : α) : Stable (pure value : TokenParser τ α) := by
  intro text found rest parsed later
  obtain ⟨rfl, rfl⟩ := pure_eq_some.mp parsed
  rfl

theorem stable_fail : Stable (fail : TokenParser τ α) := by
  intro text value rest parsed
  cases parsed

theorem stable_next : Stable (next : TokenParser τ τ) := by
  intro text value rest parsed later
  cases text with
  | nil => cases parsed
  | cons token text =>
      cases parsed
      rfl

theorem hungry_next : Hungry (next : TokenParser τ τ) :=
  rfl

theorem Hungry.bind (hungry : Hungry parser) : Hungry (parser >>= following) := by
  change (parser []).bind _ = none
  rw [show parser [] = none from hungry]
  rfl

theorem Hungry.settling (hungry : Hungry parser) (stable : Stable parser) : Settling parser := by
  intro text value rest parsed _
  refine ⟨?_, stable text value rest parsed⟩
  rintro rfl
  rw [show parser [] = none from hungry] at parsed
  cases parsed

theorem settling_pure (value : α) : Settling (pure value : TokenParser τ α) := by
  intro text found rest parsed more
  refine ⟨?_, stable_pure value text found rest parsed⟩
  rintro rfl
  exact more (pure_eq_some.mp parsed).2.symm

theorem Stable.bind (stable : Stable parser) (later : ∀ value, Stable (following value)) :
    Stable (parser >>= following) := by
  intro text value rest parsed more
  rcases bind_eq_some.mp parsed with ⟨found, mid, first, second⟩
  exact bind_eq_some.mpr ⟨found, mid ++ more, stable _ _ _ first more,
    later found _ _ _ second more⟩

theorem Settling.bind (settling : Settling parser) (later : ∀ value, Settling (following value)) :
    Settling (parser >>= following) := by
  intro text value rest parsed more
  rcases bind_eq_some.mp parsed with ⟨found, mid, first, second⟩
  rcases later found _ _ _ second more with ⟨midMore, secondMore⟩
  rcases settling _ _ _ first midMore with ⟨textMore, firstMore⟩
  exact ⟨textMore, fun extra =>
    bind_eq_some.mpr ⟨found, mid ++ extra, firstMore extra, secondMore extra⟩⟩

/-- What follows shows that the first parser has not read everything. -/
theorem Settling.bind_stable (settling : Settling parser)
    (later : ∀ value, Stable (following value)) (hungry : ∀ value, Hungry (following value)) :
    Stable (parser >>= following) := by
  intro text value rest parsed more
  rcases bind_eq_some.mp parsed with ⟨found, mid, first, second⟩
  have midMore : mid ≠ [] := by
    rintro rfl
    rw [show following found [] = none from hungry found] at second
    cases second
  exact bind_eq_some.mpr ⟨found, mid ++ more, (settling _ _ _ first midMore).2 more,
    later found _ _ _ second more⟩

section

variable {σ : Type} {step : σ → τ → Option σ} {final : σ → Bool}

theorem settling_munch (state : σ) : Settling (munch step final state) := by
  intro text token rest parsed more
  rcases (munch_eq_some step final).mp parsed with ⟨rfl, last, path, isFinal, stuck⟩
  refine ⟨fun empty => more (List.append_eq_nil_iff.mp empty).2, fun later => ?_⟩
  refine (munch_eq_some step final).mpr ⟨by rw [List.append_assoc], last, path, isFinal, ?_⟩
  cases rest with
  | nil => exact absurd rfl more
  | cons c rest => exact stuck

/-- An automaton that cannot leave its final states stops at the first one it meets. -/
theorem stable_munch (state : σ) (stops : ∀ last, final last = true → ∀ c, step last c = none) :
    Stable (munch step final state) := by
  intro text token rest parsed later
  rcases (munch_eq_some step final).mp parsed with ⟨rfl, last, path, isFinal, -⟩
  exact (munch_eq_some step final).mpr ⟨by rw [List.append_assoc], last, path, isFinal,
    fun c _ => stops last isFinal c⟩

end

/-! ## Lists between brackets -/

section

variable [DecidableEq τ] (item : TokenParser τ α) (comma close : τ)

/-- Items with a separator between them, up to a closing bracket.  The fuel bounds the number
of items. -/
def itemsWithin : Nat → TokenParser τ (List α)
  | 0 => fail
  | fuel + 1 => do
      let first ← item
      let mark ← next
      if mark = close then pure [first]
      else if mark = comma then do
        let others ← itemsWithin fuel
        pure (first :: others)
      else fail

/-- Items up to a closing bracket. -/
def items : TokenParser τ (List α) :=
  fun text => itemsWithin item comma close text.length text

variable {item comma close}

theorem itemsWithin_last {fuel : Nat} {text rest : List τ} {value : α}
    (parsed : item text = some (value, close :: rest)) :
    itemsWithin item comma close (fuel + 1) text = some ([value], rest) := by
  refine (bind_of_some parsed _).trans ?_
  refine (bind_of_some rfl _).trans ?_
  rw [if_pos rfl]
  rfl

theorem itemsWithin_more {fuel : Nat} {text mid rest : List τ} {value : α} {others : List α}
    (differ : comma ≠ close) (parsed : item text = some (value, comma :: mid))
    (more : itemsWithin item comma close fuel mid = some (others, rest)) :
    itemsWithin item comma close (fuel + 1) text = some (value :: others, rest) := by
  refine (bind_of_some parsed _).trans ?_
  refine (bind_of_some rfl _).trans ?_
  rw [if_neg differ, if_pos rfl]
  exact bind_of_some more _

/-- More text and more fuel do not change the list that is found. -/
theorem itemsWithin_append (settling : Settling item) {fuel more : Nat} {text rest : List τ}
    {values : List α} (parsed : itemsWithin item comma close fuel text = some (values, rest))
    (enough : fuel ≤ more) (later : List τ) :
    itemsWithin item comma close more (text ++ later) = some (values, rest ++ later) := by
  induction fuel generalizing more text values with
  | zero => cases parsed
  | succ fuel ih =>
      rcases bind_eq_some.mp parsed with ⟨first, mid, firstParsed, marks⟩
      rcases bind_eq_some.mp marks with ⟨mark, after, marked, others⟩
      cases mid with
      | nil => cases marked
      | cons head mid =>
          cases marked
          obtain ⟨more, rfl⟩ := Nat.exists_eq_succ_of_ne_zero
            (Nat.pos_iff_ne_zero.mp (Nat.lt_of_lt_of_le fuel.succ_pos enough))
          have again := (settling _ _ _ firstParsed (List.cons_ne_nil _ _)).2 later
          refine (bind_of_some again _).trans ((bind_of_some rfl _).trans ?_)
          split at others
          · obtain ⟨rfl, rfl⟩ := pure_eq_some.mp others
            rw [if_pos ‹_›]
            rfl
          · rw [if_neg ‹_›]
            split at others
            · rw [if_pos ‹_›]
              rcases bind_eq_some.mp others with ⟨found, _, moreParsed, listed⟩
              obtain ⟨rfl, rfl⟩ := pure_eq_some.mp listed
              exact bind_of_some (ih moreParsed (Nat.le_of_succ_le_succ enough)) _
            · cases others

theorem stable_items (settling : Settling item) : Stable (items item comma close) := by
  intro text values rest parsed later
  exact itemsWithin_append settling parsed (by simp) later

end

end TokenParser

end BriseDB
