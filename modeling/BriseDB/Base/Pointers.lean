import Mathlib.Data.Fintype.Pigeonhole
import BriseDB.Base.Exec

/-!
# Following pointers

A walk along pointers is the repetition of a partial step: from a position `next`
gives the position the pointer found there leads to, or nothing where the walk stops.
`EndsFrom` says that the walk stops at all.  When only positions below a bound have a
pointer, a walk with more steps than that has come back to a position, so whether it
ends can be seen after a fixed number of steps.  A loop whose rounds make one step each
ends exactly with its walk.
-/

namespace BriseDB.Pointers

universe u

variable {γ : Type u}

/-- The position after exactly `n` steps, if there are that many. -/
def followed (next : γ → Option γ) : Nat → γ → Option γ
  | 0, start => some start
  | n + 1, start => (next start).bind (followed next n)

/-- The walk from `start` stops. -/
def EndsFrom (next : γ → Option γ) (start : γ) : Prop :=
  ∃ n, followed next n start = none

theorem followed_add (next : γ → Option γ) (m n : Nat) (start : γ) :
    followed next (m + n) start = (followed next m start).bind (followed next n) := by
  induction m generalizing start with
  | zero => rw [Nat.zero_add, followed, Option.bind_some]
  | succ m ih =>
      rw [Nat.succ_add, followed, followed, Option.bind_assoc]
      exact Option.bind_congr fun position _ => ih position

/-- A walk of some length has walks of all smaller lengths. -/
theorem followed_of_le {next : γ → Option γ} {m n : Nat} (le : m ≤ n) {start : γ}
    (ended : followed next m start = none) : followed next n start = none := by
  obtain ⟨rest, rfl⟩ := Nat.exists_eq_add_of_le le
  rw [followed_add, ended, Option.bind_none]

theorem endsFrom_of_none {next : γ → Option γ} {start : γ} (stops : next start = none) :
    EndsFrom next start :=
  ⟨1, by rw [followed, stops, Option.bind_none]⟩

theorem endsFrom_iff_of_some {next : γ → Option γ} {start position : γ}
    (step : next start = some position) : EndsFrom next start ↔ EndsFrom next position := by
  constructor
  · rintro ⟨n, ended⟩
    refine ⟨n, ?_⟩
    have longer := followed_of_le n.le_succ ended
    rwa [followed, step, Option.bind_some] at longer
  · rintro ⟨n, ended⟩
    exact ⟨n + 1, by rw [followed, step, Option.bind_some, ended]⟩

/-- A walk that comes back to a position never ends. -/
theorem not_endsFrom_of_return {next : γ → Option γ} {start position : γ} {i j : Nat}
    (before : i < j) (first : followed next i start = some position)
    (again : followed next j start = some position) : ¬ EndsFrom next start := by
  rintro ⟨n, ended⟩
  induction n using Nat.strong_induction_on with
  | _ n ih =>
      by_cases short : n ≤ j
      · rw [followed_of_le short ended] at again
        cases again
      · have shorter : followed next (n - (j - i)) start = none := by
          calc followed next (n - (j - i)) start
              = (followed next i start).bind (followed next (n - j)) := by
                rw [← followed_add]
                congr 1
                omega
            _ = (followed next j start).bind (followed next (n - j)) := by rw [first, again]
            _ = none := by
                rw [← followed_add, show j + (n - j) = n by omega, ended]
        exact ih _ (by omega) shorter

/-- Where only the positions below a bound have a pointer, a walk ends exactly if it ends
within one step more than the bound. -/
theorem endsFrom_iff_of_bounded {next : Nat → Option Nat} {bound : Nat}
    (inside : ∀ start position, next start = some position → start < bound) (start : Nat) :
    EndsFrom next start ↔ followed next (bound + 1) start = none := by
  refine ⟨fun ends => ?_, fun ended => ⟨_, ended⟩⟩
  by_contra goesOn
  -- each of the first `bound + 1` positions of the walk lies below the bound
  have visited : ∀ i : Fin (bound + 1), ∃ position : Fin bound,
      followed next i start = some position.val := by
    intro i
    cases here : followed next i start with
    | none => exact (goesOn (followed_of_le i.isLt.le here)).elim
    | some position =>
        cases step : next position with
        | none =>
            refine (goesOn (followed_of_le (show i.val + 1 ≤ bound + 1 from i.isLt) ?_)).elim
            rw [followed_add, here, Option.bind_some, followed, step, Option.bind_none]
        | some after => exact ⟨⟨position, inside position after step⟩, rfl⟩
  choose position isPosition using visited
  obtain ⟨i, j, different, same⟩ :=
    Fintype.exists_ne_map_eq_of_card_lt position (by simp)
  have sameStep : followed next i start = followed next j start := by
    rw [isPosition i, isPosition j, same]
  rcases Nat.lt_or_gt_of_ne (Fin.val_ne_of_ne different) with less | greater
  · exact not_endsFrom_of_return less (isPosition i) (sameStep ▸ isPosition i) ends
  · exact not_endsFrom_of_return greater (isPosition j) (sameStep ▸ isPosition j) ends

/-! ## Loops along pointers -/

/-- Every round of `body` makes one step of `next` and ends the loop where there is none. -/
def Along {α β : Type} (body : β → Res (β ⊕ α)) (place : β → γ) (next : γ → Option γ) : Prop :=
  ∀ current, (∃ result, body current = .ok (.inr result) ∧ next (place current) = none) ∨
    ∃ after, body current = .ok (.inl after) ∧ next (place current) = some (place after)

theorem Along.loop_iff {α β : Type} {body : β → Res (β ⊕ α)} {place : β → γ}
    {next : γ → Option γ} (along : Along body place next) (fuel : Nat) (current : β) :
    (∃ result, Res.loop body fuel current = .ok result) ↔
      followed next fuel (place current) = none := by
  induction fuel generalizing current with
  | zero =>
      constructor
      · rintro ⟨_, looped⟩
        cases looped
      · intro ended
        cases ended
  | succ fuel ih =>
      rw [followed]
      rcases along current with ⟨result, stopped, step⟩ | ⟨after, continued, step⟩
      · rw [step, Option.bind_none]
        exact ⟨fun _ => rfl, fun _ => ⟨result, Res.loop_stop stopped fuel⟩⟩
      · rw [Res.loop_continue continued, step, Option.bind_some]
        exact ih after

/-- Such a loop ends with a result or never. -/
theorem Along.loop_ok_or_hang {α β : Type} {body : β → Res (β ⊕ α)} {place : β → γ}
    {next : γ → Option γ} (along : Along body place next) (fuel : Nat) (current : β) :
    (∃ result, Res.loop body fuel current = .ok result) ∨ Res.loop body fuel current = .hang := by
  induction fuel generalizing current with
  | zero => exact .inr rfl
  | succ fuel ih =>
      rcases along current with ⟨result, stopped, _⟩ | ⟨after, continued, _⟩
      · exact .inl ⟨result, Res.loop_stop stopped fuel⟩
      · rw [Res.loop_continue continued]
        exact ih after

end BriseDB.Pointers
