import Mathlib.Data.List.Induction
import Mathlib.Logic.Function.Basic
import Mathlib.Tactic.Common

/-!
# Logs of keyed updates

An update gives a key a value or removes it, and a log is a list of updates.
What a log makes of a map is decided key by key by the last update of the key
(`run_apply`).
-/

namespace BriseDB

/-- A key gets a value, or is removed. -/
abbrev KeyUpdate (κ ν : Type) :=
  κ × Option ν

namespace KeyLog

variable {κ ν : Type} [DecidableEq κ]

/-- Carry out one update. -/
def apply (m : κ → Option ν) (u : KeyUpdate κ ν) : κ → Option ν :=
  Function.update m u.1 u.2

/-- Carry out a log. -/
def run (m : κ → Option ν) (log : List (KeyUpdate κ ν)) : κ → Option ν :=
  log.foldl apply m

/-- What the last update of a key says, if there is one. -/
def last (log : List (KeyUpdate κ ν)) (key : κ) : Option (Option ν) :=
  log.foldl (fun found u => if u.1 = key then some u.2 else found) none

@[simp]
theorem run_nil (m : κ → Option ν) : run m [] = m :=
  rfl

@[simp]
theorem run_cons (m : κ → Option ν) (u : KeyUpdate κ ν) (log : List (KeyUpdate κ ν)) :
    run m (u :: log) = run (apply m u) log :=
  rfl

theorem run_append (m : κ → Option ν) (first second : List (KeyUpdate κ ν)) :
    run m (first ++ second) = run (run m first) second := by
  simp [run]

@[simp]
theorem last_nil (key : κ) : last ([] : List (KeyUpdate κ ν)) key = none :=
  rfl

theorem last_concat (log : List (KeyUpdate κ ν)) (u : KeyUpdate κ ν) (key : κ) :
    last (log ++ [u]) key = if u.1 = key then some u.2 else last log key := by
  simp [last]

/-- Only the last update of a key decides what a log makes of it. -/
theorem run_apply (m : κ → Option ν) (log : List (KeyUpdate κ ν)) (key : κ) :
    run m log key = (last log key).getD (m key) := by
  induction log using List.reverseRecOn with
  | nil => rfl
  | append_singleton log u ih =>
      rw [run_append, last_concat]
      change Function.update (run m log) u.1 u.2 key = _
      by_cases same : u.1 = key
      · subst same
        simp
      · rw [Function.update_of_ne (Ne.symm same), ih]
        simp [same]

theorem last_append (first second : List (KeyUpdate κ ν)) (key : κ) :
    last (first ++ second) key = (last second key).or (last first key) := by
  induction second using List.reverseRecOn with
  | nil => simp
  | append_singleton second u ih =>
      rw [← List.append_assoc, last_concat, last_concat, ih]
      split <;> simp

/-- Without an update of the key there is no last one. -/
theorem last_eq_none {log : List (KeyUpdate κ ν)} {key : κ} (absent : ∀ u ∈ log, u.1 ≠ key) :
    last log key = none := by
  induction log using List.reverseRecOn with
  | nil => rfl
  | append_singleton log u ih =>
      rw [last_concat, if_neg (absent u (by simp))]
      apply ih
      intro other mem
      exact absent other (by simp [mem])

/-- A log in which no key is updated twice says of each key what its one update
says. -/
theorem last_of_mem {log : List (KeyUpdate κ ν)} (nodup : (log.map Prod.fst).Nodup) {key : κ}
    {value : Option ν} (mem : (key, value) ∈ log) : last log key = some value := by
  induction log using List.reverseRecOn with
  | nil => cases mem
  | append_singleton log u ih =>
      rw [List.map_append, List.nodup_append] at nodup
      rw [last_concat]
      rcases List.mem_append.mp mem with earlier | isLast
      · have other : u.1 ≠ key := by
          intro same
          exact nodup.2.2 key (List.mem_map_of_mem earlier) u.1 (by simp) same.symm
        rw [if_neg other]
        exact ih nodup.1 earlier
      · rw [← List.mem_singleton.mp isLast]
        simp

end KeyLog

end BriseDB
