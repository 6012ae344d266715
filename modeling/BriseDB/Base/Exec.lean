import Mathlib.Data.List.Induction
import Mathlib.Logic.Basic
import Mathlib.Tactic.Common

/-!
# Calls with errors, panics, endless loops and failing writes

A call of sequential code ends with a value, ends with an error value, panics,
or never ends.  `Res` records which of the four happens and is the monad of
code that only reads.  `Exec` adds a state and an environment that decides the
outcome of every file write, so one definition describes both the undisturbed
runs of the code and the runs in which any of its writes fails.

`Returns` is the working notion of correctness: whenever no write of the call
fails, the call ends without an error and its result satisfies the
postcondition; and as long as there is room, no write fails by itself.  Proofs
about callers use the rules below and never unfold the monad.
-/

namespace BriseDB

/-- How a call ends. -/
inductive Res (α : Type) where
  | ok (value : α)
  | err (message : String)
  | panic (message : String)
  | hang
  deriving DecidableEq, Repr

namespace Res

variable {α β γ : Type}

/-- Continue with the value of a call that returned one. -/
def bind : Res α → (α → Res β) → Res β
  | ok value, next => next value
  | err message, _ => err message
  | panic message, _ => panic message
  | hang, _ => hang

instance : Monad Res where
  pure := ok
  bind := bind

@[simp]
theorem pure_eq (value : α) : (pure value : Res α) = ok value :=
  rfl

@[simp]
theorem ok_bind (value : α) (next : α → Res β) : (ok value >>= next) = next value :=
  rfl

@[simp]
theorem err_bind (message : String) (next : α → Res β) :
    (err message >>= next) = err message :=
  rfl

theorem bind_eq_ok {first : Res α} {next : α → Res β} {result : β} :
    (first >>= next) = ok result ↔ ∃ value, first = ok value ∧ next value = ok result := by
  change bind first next = _ ↔ _
  cases first <;> simp [bind]

/-- Repeat `body` until it produces a result.  Running out of fuel stands for a
loop that never ends, so callers supply more fuel than the loop can use. -/
def loop (body : β → Res (β ⊕ α)) : Nat → β → Res α
  | 0, _ => hang
  | fuel + 1, current =>
      match body current with
      | ok (.inl next) => loop body fuel next
      | ok (.inr result) => ok result
      | err message => err message
      | panic message => panic message
      | hang => hang

theorem loop_continue {body : β → Res (β ⊕ α)} {current next : β}
    (step : body current = ok (.inl next)) (fuel : Nat) :
    loop body (fuel + 1) current = loop body fuel next := by
  simp [loop, step]

theorem loop_stop {body : β → Res (β ⊕ α)} {current : β} {result : α}
    (step : body current = ok (.inr result)) (fuel : Nat) :
    loop body (fuel + 1) current = ok result := by
  simp [loop, step]

/-- The result of a loop is one its body has produced. -/
theorem exists_of_loop_eq_ok {body : β → Res (β ⊕ α)} {fuel : Nat} {current : β} {result : α}
    (looped : loop body fuel current = ok result) : ∃ last, body last = ok (.inr result) := by
  induction fuel generalizing current with
  | zero => cases looped
  | succ fuel ih =>
      cases step : body current with
      | ok outcome =>
          cases outcome with
          | inl next => exact ih (loop_continue step fuel ▸ looped)
          | inr produced =>
              rw [loop_stop step] at looped
              obtain rfl := ok.inj looped
              exact ⟨current, step⟩
      | err | panic | hang => simp [loop, step] at looped

end Res

/-- What the environment does to one file write: carry it out, or stop it after
some bytes and report an error. -/
inductive Fault where
  | complete
  | cut (written : Nat)
  deriving DecidableEq, Repr

/-- The end of a call: its outcome, the state after it, the outcomes left for
the writes to come, and whether a write of this call failed. -/
structure Out (σ α : Type) where
  res : Res α
  state : σ
  faults : List Fault
  failed : Bool

/-- A call on a state of type `σ`, given the outcomes of its writes (all
complete once the list is used up).  The state survives an error. -/
def Exec (σ α : Type) : Type :=
  σ → List Fault → Out σ α

namespace Exec

variable {σ τ α β : Type}

/-- Return a value without touching the state. -/
def ret (value : α) : Exec σ α :=
  fun state faults => ⟨.ok value, state, faults, false⟩

/-- Sequence two calls; an error, a panic or an endless loop ends the whole. -/
def bind (first : Exec σ α) (next : α → Exec σ β) : Exec σ β :=
  fun state faults =>
    let out := first state faults
    match out.res with
    | .ok value =>
        let last := next value out.state out.faults
        { last with failed := out.failed || last.failed }
    | .err message => { out with res := .err message }
    | .panic message => { out with res := .panic message }
    | .hang => { out with res := .hang }

instance : Monad (Exec σ) where
  pure := ret
  bind := bind

/-- The current state. -/
def state : Exec σ σ :=
  fun current faults => ⟨.ok current, current, faults, false⟩

/-- Replace the current state. -/
def put (next : σ) : Exec σ Unit :=
  fun _ faults => ⟨.ok (), next, faults, false⟩

/-- Change the current state. -/
def modify (change : σ → σ) : Exec σ Unit :=
  fun current faults => ⟨.ok (), change current, faults, false⟩

/-- End with an error value. -/
def throw (message : String) : Exec σ α :=
  fun current faults => ⟨.err message, current, faults, false⟩

/-- Crash the call. -/
def panic (message : String) : Exec σ α :=
  fun current faults => ⟨.panic message, current, faults, false⟩

/-- Ask the environment for the outcome of an effect outside the files of the
state: carried out, or failed after some amount of work. -/
def outcome : Exec σ Fault :=
  fun current faults =>
    match faults with
    | [] => ⟨.ok .complete, current, [], false⟩
    | .complete :: rest => ⟨.ok .complete, current, rest, false⟩
    | .cut done :: rest => ⟨.ok (.cut done), current, rest, true⟩

/-- Run read-only code on the current state. -/
def ask (query : σ → Res α) : Exec σ α :=
  fun current faults => ⟨query current, current, faults, false⟩

/-- An allocation the machine cannot serve: the call panics and counts as
disturbed. -/
def exhausted (message : String) : Exec σ α :=
  fun current faults => ⟨.panic message, current, faults, true⟩

/-- Turn an error into a value, keeping the state the failed call left. -/
def attempt (call : Exec σ α) : Exec σ (Except String α) :=
  fun current faults =>
    let out := call current faults
    match out.res with
    | .ok value => { out with res := .ok (.ok value) }
    | .err message => { out with res := .ok (.error message) }
    | .panic message => { out with res := .panic message }
    | .hang => { out with res := .hang }

/-- Put a context in front of the error a call ends with. -/
def wrap (context : String) (call : Exec σ α) : Exec σ α :=
  fun current faults =>
    let out := call current faults
    match out.res with
    | .err message => { out with res := .err s!"{context}: {message}" }
    | _ => out

/-- Run a call on a component of the state. -/
def zoom (view : σ → τ) (store : τ → σ → σ) (call : Exec τ α) : Exec σ α :=
  fun current faults =>
    let out := call (view current) faults
    { out with state := store out.state current }

/-- Run a call on a separate object.  Returns the object it leaves and its
result, or the error it ended with. -/
def runOn (object : τ) (call : Exec τ α) : Exec σ (τ × Except String α) :=
  fun current faults =>
    let out := attempt call object faults
    match out.res with
    | .ok result => ⟨.ok (out.state, result), current, out.faults, out.failed⟩
    | .err message => ⟨.err message, current, out.faults, out.failed⟩
    | .panic message => ⟨.panic message, current, out.faults, out.failed⟩
    | .hang => ⟨.hang, current, out.faults, out.failed⟩

/-- An error on a component is an error on the whole. -/
theorem attempt_zoom (view : σ → τ) (store : τ → σ → σ) (call : Exec τ α) :
    attempt (zoom view store call) = zoom view store (attempt call) := by
  funext current faults
  simp only [attempt, zoom]
  cases (call (view current) faults).res <;> rfl

/-- Run a call for every element of a list, in order. -/
def each : List β → (β → Exec σ Unit) → Exec σ Unit
  | [], _ => pure ()
  | item :: rest, body => body item >>= fun _ => each rest body

theorem bind_assoc {γ : Type} (first : Exec σ α) (second : α → Exec σ β) (third : β → Exec σ γ) :
    bind (bind first second) third = bind first fun value => bind (second value) third := by
  funext current faults
  simp only [bind]
  cases (first current faults).res with
  | ok value =>
      dsimp only
      cases (second value (first current faults).state (first current faults).faults).res <;>
        simp [Bool.or_assoc]
  | _ => rfl

theorem bind_ret (call : Exec σ α) : bind call ret = call := by
  funext current faults
  simp only [bind, ret, Bool.or_false]
  cases resEq : (call current faults).res <;> simp [← resEq]

instance : LawfulMonad (Exec σ) :=
  LawfulMonad.mk' (Exec σ) bind_ret (fun _ _ => by
    funext current faults
    exact congrArg (fun failed => Out.mk _ _ _ failed) (Bool.false_or _)) bind_assoc

/-- A list is handled part by part. -/
theorem each_append (first second : List β) (body : β → Exec σ Unit) :
    each (first ++ second) body = each first body >>= fun _ => each second body := by
  induction first with
  | nil => rw [List.nil_append, each, pure_bind]
  | cons item rest ih => rw [List.cons_append, each, each, ih, LawfulMonad.bind_assoc]

/-- The last element of a list is handled after all the others. -/
theorem each_concat (items : List β) (item : β) (body : β → Exec σ Unit) :
    each (items ++ [item]) body = bind (each items body) fun _ => body item := by
  rw [each_append]
  exact congrArg (bind (each items body)) (funext fun _ => bind_ret (body item))

/-- If no write of a sequence fails, none of its first call does. -/
theorem bind_failed_left {first : Exec σ α} {next : α → Exec σ β} {start : σ}
    {faults : List Fault} (clean : ((first >>= next) start faults).failed = false) :
    (first start faults).failed = false := by
  change (bind first next start faults).failed = false at clean
  simp only [bind] at clean
  split at clean <;> simp_all

/-- If no write of a loop fails, none of its first elements does. -/
theorem each_failed_left {first second : List β} {body : β → Exec σ Unit} {start : σ}
    {faults : List Fault} (clean : (each (first ++ second) body start faults).failed = false) :
    (each first body start faults).failed = false := by
  rw [each_append] at clean
  exact bind_failed_left clean

/-! ## Evaluating one run -/

section Evaluate

variable {current middle : σ} {faults rest : List Fault} {failed : Bool} {call first : Exec σ α}
  {next : α → Exec σ β} {value : α} {message : String}

/-- A call after one that has returned a value without a failing write. -/
theorem bind_of_ok (firstEq : first current faults = ⟨.ok value, middle, rest, false⟩) :
    (first >>= next) current faults = next value middle rest := by
  change Exec.bind first next current faults = _
  simp only [Exec.bind, firstEq, Bool.false_or]

/-- Code goes on after a write whose failure is not an error. -/
theorem bind_of_value (firstEq : first current faults = ⟨.ok value, middle, rest, failed⟩) :
    (first >>= next) current faults =
      { next value middle rest with failed := failed || (next value middle rest).failed } := by
  change Exec.bind first next current faults = _
  simp only [Exec.bind, firstEq]

/-- The result of a sequence, from those of its parts. -/
theorem bind_res (first : Exec σ α) (next : α → Exec σ β) (current : σ) (faults : List Fault) :
    ((first >>= next) current faults).res =
      (first current faults).res.bind fun value =>
        (next value (first current faults).state (first current faults).faults).res := by
  change (Exec.bind first next current faults).res = _
  cases resEq : (first current faults).res <;> simp only [Exec.bind, Res.bind, resEq]

/-- A sequence returns when both its parts return. -/
theorem bind_eq_ok {result : β} :
    ((first >>= next) current faults).res = .ok result ↔
      ∃ value, (first current faults).res = .ok value ∧
        (next value (first current faults).state (first current faults).faults).res =
          .ok result := by
  rw [bind_res]
  exact Res.bind_eq_ok

/-- Nothing runs after an error. -/
theorem bind_of_err (firstEq : first current faults = ⟨.err message, middle, rest, failed⟩) :
    (first >>= next) current faults = ⟨.err message, middle, rest, failed⟩ := by
  change Exec.bind first next current faults = _
  simp only [Exec.bind, firstEq]

/-- Before a call that returns, a sequence panics where its first call does. -/
theorem bind_panics_iff
    (returns : ∀ value state rest, ∃ result, (next value state rest).res = .ok result) :
    (∃ message, ((first >>= next) current faults).res = .panic message) ↔
      ∃ message, (first current faults).res = .panic message := by
  rw [bind_res]
  cases (first current faults).res with
  | ok value =>
      rcases returns value (first current faults).state (first current faults).faults with
        ⟨result, returned⟩
      simp [Res.bind, returned]
  | err | panic | hang => simp [Res.bind]

theorem bind_state_apply (next : σ → Exec σ β) :
    (Exec.state >>= next) current faults = next current current faults :=
  bind_of_ok rfl

theorem wrap_of_ok (context : String)
    (callEq : call current faults = ⟨.ok value, middle, rest, failed⟩) :
    wrap context call current faults = ⟨.ok value, middle, rest, failed⟩ := by
  simp only [wrap, callEq]

theorem wrap_of_err (context : String)
    (callEq : call current faults = ⟨.err message, middle, rest, failed⟩) :
    wrap context call current faults = ⟨.err s!"{context}: {message}", middle, rest, failed⟩ := by
  simp only [wrap, callEq]

theorem attempt_of_ok (callEq : call current faults = ⟨.ok value, middle, rest, failed⟩) :
    attempt call current faults = ⟨.ok (.ok value), middle, rest, failed⟩ := by
  simp only [attempt, callEq]

theorem attempt_res (returned : (call current faults).res = .ok value) :
    (attempt call current faults).res = .ok (.ok value) := by
  simp only [attempt, returned]

theorem attempt_of_err (callEq : call current faults = ⟨.err message, middle, rest, failed⟩) :
    attempt call current faults = ⟨.ok (.error message), middle, rest, failed⟩ := by
  simp only [attempt, callEq]

theorem zoom_of_eq {view : σ → τ} {store : τ → σ → σ} {call : Exec τ α} {res : Res α} {part : τ}
    (callEq : call (view current) faults = ⟨res, part, rest, failed⟩) :
    zoom view store call current faults = ⟨res, store part current, rest, failed⟩ := by
  simp only [zoom, callEq]

end Evaluate

/-! ## Calls that fail -/

/-- The call returns an error, and changes nothing. -/
def Fails (call : Exec σ α) (start : σ) (message : String) : Prop :=
  ∀ faults, call start faults = ⟨.err message, start, faults, false⟩

namespace Fails

variable {start : σ} {message : String}

theorem attempt {call : Exec σ α} (fails : Fails call start message) (faults : List Fault) :
    Exec.attempt call start faults = ⟨.ok (.error message), start, faults, false⟩ := by
  simp only [Exec.attempt, fails faults]

end Fails

/-! ## Correctness of undisturbed calls -/

/-- Unless one of its writes fails, the call returns a value and leaves a state
that satisfy `post`.  If moreover there is `room` for what the call writes, then
none of its writes fails in an environment that lets every write complete. -/
structure Returns (call : Exec σ α) (room : Prop) (start : σ) (post : α → σ → Prop) : Prop where
  correct : ∀ faults, (call start faults).failed = false →
    ∃ value, (call start faults).res = .ok value ∧ post value (call start faults).state
  undisturbed : room → (call start []).failed = false ∧ (call start []).faults = []

namespace Returns

variable {start : σ} {room : Prop} {call first : Exec σ α} {next : α → Exec σ β} {value : α}
  {post : β → σ → Prop}

theorem mono {post weaker : α → σ → Prop} (returns : Returns call room start post)
    (implies : ∀ value state, post value state → weaker value state) :
    Returns call room start weaker where
  correct faults clean := by
    obtain ⟨value, resEq, holds⟩ := returns.correct faults clean
    exact ⟨value, resEq, implies _ _ holds⟩
  undisturbed := returns.undisturbed

/-- Two postconditions of one call. -/
theorem both {left right : α → σ → Prop} (leftReturns : Returns call room start left)
    (rightReturns : Returns call room start right) :
    Returns call room start fun value state => left value state ∧ right value state where
  correct faults clean := by
    obtain ⟨value, resEq, leftHolds⟩ := leftReturns.correct faults clean
    obtain ⟨other, otherEq, rightHolds⟩ := rightReturns.correct faults clean
    obtain rfl : value = other := Res.ok.inj (resEq.symm.trans otherEq)
    exact ⟨value, resEq, leftHolds, rightHolds⟩
  undisturbed := leftReturns.undisturbed

/-- A call that writes nothing. -/
theorem of_eq {state : σ} {post : α → σ → Prop}
    (eq : ∀ faults, call start faults = ⟨.ok value, state, faults, false⟩)
    (holds : post value state) : Returns call room start post where
  correct faults _ := ⟨value, by rw [eq], by rw [eq]; exact holds⟩
  undisturbed _ := by rw [eq]; exact ⟨rfl, rfl⟩

theorem pure {post : α → σ → Prop} (holds : post value start) :
    Returns (Pure.pure value) room start post :=
  of_eq (fun _ => rfl) holds

theorem bind {middle : α → σ → Prop} {post : β → σ → Prop}
    (firstReturns : Returns first room start middle)
    (nextReturns : ∀ value state, middle value state → Returns (next value) room state post) :
    Returns (first >>= next) room start post where
  correct faults clean := by
    change (Exec.bind first next start faults).failed = false at clean
    change ∃ value, (Exec.bind first next start faults).res = .ok value ∧
      post value (Exec.bind first next start faults).state
    have firstClean : (first start faults).failed = false := by
      simp only [Exec.bind] at clean
      split at clean <;> simp_all
    obtain ⟨value, resEq, holds⟩ := firstReturns.correct faults firstClean
    simp only [Exec.bind, resEq, firstClean, Bool.false_or] at clean ⊢
    exact (nextReturns value _ holds).correct _ clean
  undisturbed roomy := by
    obtain ⟨firstClean, noFaults⟩ := firstReturns.undisturbed roomy
    obtain ⟨value, resEq, holds⟩ := firstReturns.correct [] firstClean
    have rest := (nextReturns value _ holds).undisturbed roomy
    change (Exec.bind first next start []).failed = false ∧
      (Exec.bind first next start []).faults = []
    simp only [Exec.bind, resEq, noFaults, firstClean, Bool.false_or]
    exact rest

/-- Sequencing with the intermediate assertion spelled out. -/
theorem through (middle : α → σ → Prop) (firstReturns : Returns first room start middle)
    (nextReturns : ∀ value state, middle value state → Returns (next value) room state post) :
    Returns (first >>= next) room start post :=
  bind firstReturns nextReturns

theorem bind_pure (rest : Returns (next value) room start post) :
    Returns (Pure.pure value >>= next) room start post :=
  through (fun found state => found = value ∧ state = start) (pure ⟨rfl, rfl⟩)
    fun _ _ same => same.1 ▸ same.2 ▸ rest

theorem bind_state {next : σ → Exec σ β} (rest : Returns (next start) room start post) :
    Returns (Exec.state >>= next) room start post :=
  through (fun found state => found = start ∧ state = start)
    (of_eq (fun _ => rfl) ⟨rfl, rfl⟩) fun _ _ same => same.1 ▸ same.2 ▸ rest

theorem put {next : σ} {post : Unit → σ → Prop} (holds : post () next) :
    Returns (Exec.put next) room start post :=
  of_eq (fun _ => rfl) holds

theorem bind_put {changed : σ} {next : Unit → Exec σ β}
    (rest : Returns (next ()) room changed post) :
    Returns (Exec.put changed >>= next) room start post :=
  through (fun _ state => state = changed) (put rfl) fun _ _ same => same ▸ rest

theorem modify {change : σ → σ} {post : Unit → σ → Prop} (holds : post () (change start)) :
    Returns (Exec.modify change) room start post :=
  of_eq (fun _ => rfl) holds

theorem bind_modify {change : σ → σ} {next : Unit → Exec σ β}
    (rest : Returns (next ()) room (change start) post) :
    Returns (Exec.modify change >>= next) room start post :=
  through (fun _ state => state = change start) (modify rfl) fun _ _ same => same ▸ rest

theorem ask {query : σ → Res α} {post : α → σ → Prop}
    (answer : query start = .ok value) (holds : post value start) :
    Returns (Exec.ask query) room start post :=
  of_eq (fun faults => show Out.mk (query start) start faults false = _ by rw [answer]) holds

theorem bind_ask {query : σ → Res α}
    (answer : query start = .ok value) (rest : Returns (next value) room start post) :
    Returns (Exec.ask query >>= next) room start post :=
  through (fun found state => found = value ∧ state = start) (ask answer ⟨rfl, rfl⟩)
    fun _ _ same => same.1 ▸ same.2 ▸ rest

theorem bind_outcome {next : Fault → Exec σ β} (rest : Returns (next .complete) room start post) :
    Returns (Exec.outcome >>= next) room start post := by
  refine through (fun found state => found = .complete ∧ state = start) ⟨?_, ?_⟩
    fun _ _ same => same.1 ▸ same.2 ▸ rest
  · intro faults clean
    match faults with
    | [] => exact ⟨_, rfl, rfl, rfl⟩
    | .complete :: _ => exact ⟨_, rfl, rfl, rfl⟩
    | .cut _ :: _ => cases clean
  · exact fun _ => ⟨rfl, rfl⟩

theorem exhausted {message : String} {post : α → σ → Prop} (noRoom : ¬ room) :
    Returns (Exec.exhausted message) room start post where
  correct _ clean := absurd clean (by simp [Exec.exhausted])
  undisturbed roomy := absurd roomy noRoom

theorem attempt_faults (call : Exec σ α) (state : σ) (faults : List Fault) :
    (Exec.attempt call state faults).failed = (call state faults).failed ∧
      (Exec.attempt call state faults).faults = (call state faults).faults := by
  simp only [Exec.attempt]
  split <;> exact ⟨rfl, rfl⟩

/-- A call that returns makes `attempt` succeed with the same result. -/
theorem attempt {post : α → σ → Prop} (returns : Returns call room start post) :
    Returns (Exec.attempt call) room start
      (fun result state => ∃ value, result = .ok value ∧ post value state) where
  correct faults clean := by
    rw [(attempt_faults call start faults).1] at clean
    obtain ⟨value, resEq, holds⟩ := returns.correct faults clean
    refine ⟨.ok value, ?_, value, rfl, ?_⟩
    · simp [Exec.attempt, resEq]
    · simpa [Exec.attempt, resEq] using holds
  undisturbed roomy := by
    rw [(attempt_faults call start []).1, (attempt_faults call start []).2]
    exact returns.undisturbed roomy

theorem bind_attempt {middle : α → σ → Prop}
    {next : Except String α → Exec σ β} (returns : Returns call room start middle)
    (rest : ∀ value state, middle value state → Returns (next (.ok value)) room state post) :
    Returns (Exec.attempt call >>= next) room start post := by
  refine bind (attempt returns) ?_
  rintro _ state ⟨value, rfl, holds⟩
  exact rest value state holds

theorem wrap_faults (context : String) (call : Exec σ α) (state : σ) (faults : List Fault) :
    (Exec.wrap context call state faults).failed = (call state faults).failed ∧
      (Exec.wrap context call state faults).faults = (call state faults).faults := by
  simp only [Exec.wrap]
  split <;> exact ⟨rfl, rfl⟩

theorem wrap {context : String} {post : α → σ → Prop}
    (returns : Returns call room start post) :
    Returns (Exec.wrap context call) room start post where
  correct faults clean := by
    rw [(wrap_faults context call start faults).1] at clean
    obtain ⟨value, resEq, holds⟩ := returns.correct faults clean
    exact ⟨value, by simp [Exec.wrap, resEq], by simpa [Exec.wrap, resEq] using holds⟩
  undisturbed roomy := by
    rw [(wrap_faults context call start []).1, (wrap_faults context call start []).2]
    exact returns.undisturbed roomy

theorem zoom {view : σ → τ} {store : τ → σ → σ} {call : Exec τ α} {post : α → τ → Prop}
    (returns : Returns call room (view start) post) :
    Returns (Exec.zoom view store call) room start
      (fun value state => ∃ inner, state = store inner start ∧ post value inner) where
  correct faults clean := by
    obtain ⟨value, resEq, holds⟩ := returns.correct faults clean
    exact ⟨value, resEq, _, rfl, holds⟩
  undisturbed := returns.undisturbed

theorem bind_zoom {view : σ → τ} {store : τ → σ → σ} {call : Exec τ α} {middle : α → τ → Prop}
    (returns : Returns call room (view start) middle)
    (rest : ∀ value inner, middle value inner →
      Returns (next value) room (store inner start) post) :
    Returns (Exec.zoom view store call >>= next) room start post := by
  refine bind (zoom returns) ?_
  rintro value state ⟨inner, same, holds⟩
  exact same ▸ rest value inner holds

/-- Loop rule: an invariant indexed by the elements already handled. -/
theorem each {items : List β} {body : β → Exec σ Unit} (inv : List β → σ → Prop)
    (step : ∀ before item after state, items = before ++ item :: after →
      inv before state → Returns (body item) room state fun _ next => inv (before ++ [item]) next)
    (init : inv [] start) :
    Returns (Exec.each items body) room start fun _ state => inv items state := by
  suffices general : ∀ before after state, items = before ++ after → inv before state →
      Returns (Exec.each after body) room state fun _ next => inv items next from
    general [] items start rfl init
  intro before after
  induction after generalizing before with
  | nil =>
      intro state split holds
      have done : items = before := by simpa using split
      exact pure (done ▸ holds)
  | cons item after ih =>
      intro state split holds
      refine bind (step before item after state split holds) ?_
      intro _ next nextHolds
      exact ih (before ++ [item]) next (by simpa using split) nextHolds

/-- Loop rule for one run: each step starts from the state that the elements before
it have led to. -/
theorem each_run {items : List β} {body : β → Exec σ Unit} (inv : List β → σ → Prop)
    {faults : List Fault}
    (step : ∀ before item after, items = before ++ item :: after →
      inv before (Exec.each before body start faults).state →
      Returns (body item) room (Exec.each before body start faults).state
        fun _ next => inv (before ++ [item]) next)
    (init : inv [] start) (clean : (Exec.each items body start faults).failed = false) :
    (Exec.each items body start faults).res = .ok () ∧
      inv items (Exec.each items body start faults).state := by
  suffices general : ∀ before after, items = before ++ after →
      (Exec.each before body start faults).failed = false →
      (Exec.each before body start faults).res = .ok () ∧
        inv before (Exec.each before body start faults).state from
    general items [] (by simp) clean
  intro before
  induction before using List.reverseRecOn with
  | nil => exact fun _ _ _ => ⟨rfl, init⟩
  | append_singleton before item ih =>
      intro after split failedEq
      rw [each_concat] at failedEq ⊢
      have splitEarlier : items = before ++ item :: after := by simpa using split
      have earlierClean : (Exec.each before body start faults).failed = false := by
        simp only [Exec.bind] at failedEq
        split at failedEq <;> simp_all
      obtain ⟨earlierRes, holds⟩ := ih (item :: after) splitEarlier earlierClean
      simp only [Exec.bind, earlierRes, earlierClean, Bool.false_or] at failedEq ⊢
      exact (step before item after splitEarlier holds).correct _ failedEq |>.elim
        fun _ both => both

end Returns

/-! ## Calls whose value is not used -/

/-- Dropping the value of a call changes nothing but the value. -/
theorem drop_state (call : Exec σ α) (start : σ) (faults : List Fault) :
    ((call >>= fun _ => pure ()) start faults).state = (call start faults).state := by
  change (Exec.bind call _ start faults).state = _
  cases outcome : (call start faults).res with
  | ok value =>
      simp only [Exec.bind, outcome]
      rfl
  | _ => simp only [Exec.bind, outcome]

theorem attempt_state (call : Exec σ α) (start : σ) (faults : List Fault) :
    (attempt call start faults).state = (call start faults).state := by
  cases outcome : (call start faults).res <;> simp only [attempt, outcome]

/-- A sequence goes on after a call that returns. -/
theorem bind_after_ok {first : Exec σ α} {start : σ} {faults : List Fault} {value : α}
    (returned : (first start faults).res = .ok value) (next : α → Exec σ β) :
    (bind first next start faults).state =
        (next value (first start faults).state (first start faults).faults).state ∧
      (bind first next start faults).res =
        (next value (first start faults).state (first start faults).faults).res := by
  simp [bind, returned]

/-- A sequence stops with a call that does not return. -/
theorem bind_after_stop {first : Exec σ Unit} {start : σ} {faults : List Fault}
    (stopped : (first start faults).res ≠ .ok ()) (next : Unit → Exec σ Unit) :
    (bind first next start faults).state = (first start faults).state ∧
      (bind first next start faults).res = (first start faults).res := by
  cases outcome : (first start faults).res with
  | ok value => exact absurd outcome stopped
  | _ => simp [bind, outcome]

/-! ## Conditions along a run -/

theorem forall_splits_nil {P : List β → β → Prop} :
    ∀ before item later, [] = before ++ item :: later → P before item := by
  intro before item later split
  simp at split

/-- A condition on each item and those before it holds along a list if it holds for the
first item and along the rest. -/
theorem forall_splits_cons {P : List β → β → Prop} {first : β} {rest : List β}
    (holds : P [] first)
    (later : ∀ before item after, rest = before ++ item :: after → P (first :: before) item) :
    ∀ before item after, first :: rest = before ++ item :: after → P before item := by
  intro before item after split
  cases before with
  | nil =>
      rw [← (List.cons.inj split).1]
      exact holds
  | cons earlier before =>
      rcases List.cons.inj split with ⟨rfl, tailEq⟩
      exact later before item after tailEq

/-- An invariant that every step keeps which meets a condition holds after every run
whose steps all meet it. -/
theorem foldl_along {step : σ → β → σ} {start : σ} {condition : σ → β → Prop}
    (inv : List β → σ → Prop) (init : inv [] start)
    (keeps : ∀ before item state, inv before state → condition state item →
      inv (before ++ [item]) (step state item)) (items : List β)
    (holds : ∀ before item later, items = before ++ item :: later →
      condition (before.foldl step start) item) : inv items (items.foldl step start) := by
  induction items using List.reverseRecOn with
  | nil => exact init
  | append_singleton rest item ih =>
      rw [List.foldl_append]
      refine keeps rest item _ (ih fun before other later split => ?_) (holds rest item [] rfl)
      exact holds before other (later ++ [item])
        (by rw [split, List.append_assoc, List.cons_append])

/-- Where a step that meets the condition keeps an invariant and any other step leads to a
state that is not good, all states of a run are good exactly if all its steps meet the
condition. -/
theorem foldl_iff {step : σ → β → σ} {start : σ} {condition : σ → β → Prop} {good : σ → Prop}
    (inv : σ → Prop) (init : inv start) (sound : ∀ state, inv state → good state)
    (keeps : ∀ state item, inv state → condition state item → inv (step state item))
    (breaks : ∀ state item, inv state → ¬ condition state item → ¬ good (step state item))
    (items : List β) :
    (∀ before later, items = before ++ later → good (before.foldl step start)) ↔
      ∀ before item later, items = before ++ item :: later →
        condition (before.foldl step start) item := by
  constructor
  · intro allGood
    have meets : ∀ before item later, items = before ++ item :: later →
        inv (before.foldl step start) → condition (before.foldl step start) item := by
      intro before item later split holds
      by_contra broken
      have next := allGood (before ++ [item]) later (by rw [split, List.append_assoc]; rfl)
      rw [List.foldl_append] at next
      exact breaks _ item holds broken next
    have reached : ∀ before later, items = before ++ later → inv (before.foldl step start) := by
      intro before
      induction before using List.reverseRecOn with
      | nil => exact fun _ _ => init
      | append_singleton earlier item ih =>
          intro later split
          rw [List.append_assoc] at split
          have holds := ih _ split
          rw [List.foldl_append]
          exact keeps _ item holds (meets earlier item later split holds)
    exact fun before item later split => meets before item later split (reached before _ split)
  · intro allMeet before later split
    apply sound
    refine foldl_along (fun _ => inv) init (fun _ item state => keeps state item) before ?_
    intro earlier item rest inside
    exact allMeet earlier item (rest ++ later) (by rw [split, inside, List.append_assoc]; rfl)

/-! ## What a call leaves alone -/

/-- However the call ends and whatever fails in it, it leaves the part `view` of the
state as it is. -/
def Keeps (view : σ → τ) (call : Exec σ α) : Prop :=
  ∀ start faults, view (call start faults).state = view start

namespace Keeps

variable {view : σ → τ}

theorem ret (value : α) : Keeps view (pure value : Exec σ α) :=
  fun _ _ => rfl

theorem ask (query : σ → Res α) : Keeps view (Exec.ask query) :=
  fun _ _ => rfl

theorem bind {first : Exec σ α} {next : α → Exec σ β} (firstKeeps : Keeps view first)
    (nextKeeps : ∀ value, Keeps view (next value)) : Keeps view (first >>= next) := by
  intro start faults
  change view (Exec.bind first next start faults).state = view start
  have kept := firstKeeps start faults
  cases outcome : (first start faults).res with
  | ok value =>
      simp only [Exec.bind, outcome]
      exact (nextKeeps value _ _).trans kept
  | _ =>
      simp only [Exec.bind, outcome]
      exact kept

theorem attempt {call : Exec σ α} (keeps : Keeps view call) : Keeps view (Exec.attempt call) := by
  intro start faults
  have kept := keeps start faults
  cases outcome : (call start faults).res with
  | _ =>
      simp only [Exec.attempt, outcome]
      exact kept

/-- A call on a part of the state that the view does not show. -/
theorem zoom {ρ : Type} {part : σ → ρ} {store : ρ → σ → σ} {call : Exec ρ α}
    (hidden : ∀ value start, view (store value start) = view start) :
    Keeps view (Exec.zoom part store call) :=
  fun _ _ => hidden _ _

/-- A call on a part of the state whose view it keeps. -/
theorem zoom_keeps {ρ κ : Type} {part : σ → ρ} {inner : ρ → κ} {store : ρ → σ → σ}
    {call : Exec ρ α} (keeps : Keeps inner call)
    (shown : ∀ value start, inner value = inner (part start) →
      view (store value start) = view start) :
    Keeps view (Exec.zoom part store call) :=
  fun start faults => shown _ _ (keeps (part start) faults)

end Keeps

end Exec

end BriseDB
