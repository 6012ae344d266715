import BriseDB.Base.Exec

/-!
# Calls in a changed state

`Matches` compares a call in a changed state with a call in the state itself: under all
outcomes of their writes both do the same, and the states they leave differ by the same
change.  It shows that a call does not depend on what the change affects.
-/

namespace BriseDB.Exec

variable {σ τ α β : Type}

/-- In the changed state, `left` does what `right` does in the state itself. -/
def Matches (change : σ → σ) (left right : Exec σ α) (start : σ) : Prop :=
  ∀ faults, left (change start) faults =
    { right start faults with state := change (right start faults).state }

namespace Matches

variable {change : σ → σ} {start : σ}

theorem pure (value : α) :
    Matches change (Pure.pure value : Exec σ α) (Pure.pure value) start :=
  fun _ => rfl

theorem throw (message : String) :
    Matches change (Exec.throw message : Exec σ α) (Exec.throw message) start :=
  fun _ => rfl

theorem panic (message : String) :
    Matches change (Exec.panic message : Exec σ α) (Exec.panic message) start :=
  fun _ => rfl

theorem bind {left right : Exec σ β} {leftNext rightNext : β → Exec σ α}
    (first : Matches change left right start)
    (rest : ∀ value state, Matches change (leftNext value) (rightNext value) state) :
    Matches change (left >>= leftNext) (right >>= rightNext) start := by
  intro faults
  change Exec.bind left leftNext (change start) faults =
    { Exec.bind right rightNext start faults with
      state := change (Exec.bind right rightNext start faults).state }
  cases outcome : (right start faults).res with
  | ok value =>
      simp only [Exec.bind, first faults, outcome, rest value _ _]
  | err | panic | hang => simp only [Exec.bind, first faults, outcome]

theorem bind_state {leftNext rightNext : σ → Exec σ α}
    (rest : Matches change (leftNext (change start)) (rightNext start) start) :
    Matches change (Exec.state >>= leftNext) (Exec.state >>= rightNext) start := by
  intro faults
  rw [bind_state_apply, bind_state_apply]
  exact rest faults

theorem bind_put {next : σ} {leftNext rightNext : Unit → Exec σ α}
    (rest : Matches change (leftNext ()) (rightNext ()) next) :
    Matches change (Exec.put (change next) >>= leftNext) (Exec.put next >>= rightNext) start := by
  intro faults
  have leftEq : (Exec.put (change next) >>= leftNext) (change start) faults =
      leftNext () (change next) faults := bind_of_ok rfl
  have rightEq : (Exec.put next >>= rightNext) start faults = rightNext () next faults :=
    bind_of_ok rfl
  rw [leftEq, rightEq]
  exact rest faults

theorem modify {update : σ → σ}
    (commutes : ∀ state, update (change state) = change (update state)) :
    Matches change (Exec.modify update) (Exec.modify update) start := by
  intro faults
  simp only [Exec.modify, commutes]

theorem outcome : Matches change Exec.outcome Exec.outcome start := by
  intro faults
  rcases faults with _ | ⟨_ | _, _⟩ <;> rfl

theorem wrap {left right : Exec σ α} (context : String) (call : Matches change left right start) :
    Matches change (Exec.wrap context left) (Exec.wrap context right) start := by
  intro faults
  cases outcome : (right start faults).res with
  | ok | err | panic | hang => simp only [Exec.wrap, call faults, outcome]

theorem attempt {left right : Exec σ α} (call : Matches change left right start) :
    Matches change (Exec.attempt left) (Exec.attempt right) start := by
  intro faults
  cases outcome : (right start faults).res with
  | ok | err | panic | hang => simp only [Exec.attempt, call faults, outcome]

/-- A call on a part of the state that the change leaves alone. -/
theorem zoom {view : σ → τ} {store : τ → σ → σ} {call : Exec τ α}
    (same : ∀ state, view (change state) = view state)
    (commutes : ∀ part state, store part (change state) = change (store part state)) :
    Matches change (Exec.zoom view store call) (Exec.zoom view store call) start := by
  intro faults
  simp only [Exec.zoom, same, commutes]

end Matches

end BriseDB.Exec
