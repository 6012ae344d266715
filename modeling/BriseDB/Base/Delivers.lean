import BriseDB.Base.Ends

/-!
# Calls that return although a write has failed

`Returns` describes a call while none of its writes fails.  `Delivers` describes every
call that returns a value: whatever has failed before, the postcondition holds.  Most
calls report the failures of their writes, so a value means that none has failed
(`Reports`); the others need an argument of their own.
-/

namespace BriseDB.Exec

variable {σ τ α β : Type}

/-- The call returns no value. -/
def Stops (call : Exec σ α) (start : σ) : Prop :=
  ∀ faults value, (call start faults).res ≠ .ok value

/-- A value means that no write of the call has failed. -/
def Reports (call : Exec σ α) : Prop :=
  ∀ start faults value, (call start faults).res = .ok value → (call start faults).failed = false

/-- A call that returns a value leaves a state that satisfies `post` with it; it does
return one unless a write fails, and with enough `room` none fails by itself. -/
structure Delivers (call : Exec σ α) (room : Prop) (start : σ) (post : α → σ → Prop) : Prop where
  sound : ∀ faults value, (call start faults).res = .ok value →
    post value (call start faults).state
  clean : ∀ faults, (call start faults).failed = false →
    ∃ value, (call start faults).res = .ok value
  undisturbed : room → (call start []).failed = false ∧ (call start []).faults = []

/-! ## What comes before a value -/

theorem bind_failed {first : Exec σ α} {next : α → Exec σ β} {start : σ} {faults : List Fault}
    {value : α} (returned : (first start faults).res = .ok value) :
    ((first >>= next) start faults).failed = ((first start faults).failed ||
        (next value (first start faults).state (first start faults).faults).failed) ∧
      ((first >>= next) start faults).state =
        (next value (first start faults).state (first start faults).faults).state ∧
      ((first >>= next) start faults).faults =
        (next value (first start faults).state (first start faults).faults).faults := by
  change (Exec.bind first next start faults).failed = _ ∧
    (Exec.bind first next start faults).state = _ ∧ (Exec.bind first next start faults).faults = _
  simp only [Exec.bind, returned, and_self]

theorem wrap_eq_ok {context : String} {call : Exec σ α} {start : σ} {faults : List Fault}
    {value : α} :
    (wrap context call start faults).res = .ok value ↔ (call start faults).res = .ok value := by
  simp only [wrap]
  cases outcome : (call start faults).res <;> simp [outcome]

theorem wrap_state (context : String) (call : Exec σ α) (start : σ) (faults : List Fault) :
    (wrap context call start faults).state = (call start faults).state := by
  simp only [wrap]
  split <;> rfl

namespace Stops

variable {start : σ} {call first : Exec σ α}

theorem throw (message : String) : Stops (Exec.throw message : Exec σ α) start :=
  fun _ _ isOk => by cases isOk

theorem bind (next : α → Exec σ β) (stops : Stops first start) :
    Stops (first >>= next) start := by
  intro faults value isOk
  rcases bind_eq_ok.mp isOk with ⟨middle, firstOk, _⟩
  exact stops faults middle firstOk

theorem bind_modify {change : σ → σ} {next : Unit → Exec σ β}
    (stops : Stops (next ()) (change start)) : Stops (Exec.modify change >>= next) start := by
  intro faults value isOk
  rcases bind_eq_ok.mp isOk with ⟨_, _, nextOk⟩
  exact stops faults value nextOk

theorem bind_state {next : σ → Exec σ β} (stops : Stops (next start) start) :
    Stops (Exec.state >>= next) start := by
  intro faults value isOk
  rcases bind_eq_ok.mp isOk with ⟨_, ⟨⟩, nextOk⟩
  exact stops faults value nextOk

theorem wrap (context : String) (stops : Stops call start) :
    Stops (Exec.wrap context call) start :=
  fun faults value isOk => stops faults value (wrap_eq_ok.mp isOk)

/-- A call after one that is known to return. -/
theorem bind_of_eq {next : α → Exec σ β} {value : α} {middle : σ}
    (firstEq : ∀ faults, first start faults = ⟨.ok value, middle, faults, false⟩)
    (stops : Stops (next value) middle) : Stops (first >>= next) start := by
  intro faults result isOk
  rcases bind_eq_ok.mp isOk with ⟨found, firstOk, nextOk⟩
  rw [firstEq] at firstOk nextOk
  obtain rfl : value = found := Res.ok.inj firstOk
  exact stops _ result nextOk

/-- A call on another object that returns no value. -/
theorem bind_runOn {object : τ} {call : Exec τ α} {next : τ × Except String α → Exec σ β}
    (callStops : Stops call object)
    (stops : ∀ changed cause, Stops (next (changed, .error cause)) start) :
    Stops (Exec.runOn object call >>= next) start := by
  intro faults result isOk
  rcases bind_eq_ok.mp isOk with ⟨⟨changed, inner⟩, ranOk, nextOk⟩
  have sameState : (Exec.runOn object call start faults : Out σ _).state = start := by
    simp only [Exec.runOn]
    split <;> rfl
  rw [sameState] at nextOk
  simp only [Exec.runOn, Exec.attempt] at ranOk
  cases outcome : (call object faults).res with
  | ok value => exact callStops faults value outcome
  | err message =>
      simp only [outcome, Res.ok.injEq, Prod.mk.injEq] at ranOk
      rw [← ranOk.2] at nextOk
      exact stops changed message _ result nextOk
  | panic message => simp [outcome] at ranOk
  | hang => simp [outcome] at ranOk

end Stops

namespace Reports

theorem pure (value : α) : Reports (Pure.pure value : Exec σ α) :=
  fun _ _ _ _ => rfl

theorem state : Reports (Exec.state : Exec σ σ) :=
  fun _ _ _ _ => rfl

theorem put (next : σ) : Reports (Exec.put next) :=
  fun _ _ _ _ => rfl

theorem modify (change : σ → σ) : Reports (Exec.modify change) :=
  fun _ _ _ _ => rfl

theorem ask (query : σ → Res α) : Reports (Exec.ask query) :=
  fun _ _ _ _ => rfl

theorem throw (message : String) : Reports (Exec.throw message : Exec σ α) :=
  fun _ _ _ _ => rfl

theorem exhausted (message : String) : Reports (Exec.exhausted message : Exec σ α) :=
  fun _ _ _ isOk => by cases isOk

theorem bind {first : Exec σ α} {next : α → Exec σ β} (firstReports : Reports first)
    (nextReports : ∀ value, Reports (next value)) : Reports (first >>= next) := by
  intro start faults result isOk
  rcases bind_eq_ok.mp isOk with ⟨value, firstOk, nextOk⟩
  rw [(bind_failed firstOk).1, firstReports _ _ _ firstOk, nextReports _ _ _ _ nextOk]
  rfl

theorem wrap {call : Exec σ α} (context : String) (reports : Reports call) :
    Reports (Exec.wrap context call) := by
  intro start faults value isOk
  rw [(Returns.wrap_faults context call start faults).1]
  exact reports start faults value (wrap_eq_ok.mp isOk)

theorem each {items : List β} {body : β → Exec σ Unit} (reports : ∀ item, Reports (body item)) :
    Reports (Exec.each items body) := by
  induction items with
  | nil => exact pure ()
  | cons item rest ih => exact bind (reports item) fun _ => ih

/-- A write whose error ends the call. -/
theorem bind_write {contents : Bytes} {offset : Nat} {data : Bytes}
    {next : Bytes × Option String → Exec σ α}
    (complete : ∀ written, Reports (next (written, none)))
    (failed : ∀ written cause state, Stops (next (written, some cause)) state) :
    Reports (File.write contents offset data >>= next) := by
  intro start faults value isOk
  rcases bind_eq_ok.mp isOk with ⟨⟨written, error⟩, writeOk, nextOk⟩
  cases error with
  | some cause => exact absurd nextOk (failed written cause _ _ value)
  | none =>
      rw [(bind_failed writeOk).1, complete written _ _ _ nextOk, Bool.or_false]
      unfold File.write at writeOk ⊢
      split at writeOk
      · next fits =>
        rw [if_pos fits]
        cases faults with
        | nil => rfl
        | cons fault rest =>
            cases fault with
            | complete => rfl
            | cut count => cases writeOk
      · cases writeOk

end Reports

namespace Delivers

variable {start : σ} {room : Prop} {call first : Exec σ α} {next : α → Exec σ β} {value : α}
  {post : β → σ → Prop}

/-- Nothing is said about a call that returns no value. -/
theorem ends {post : α → σ → Prop} (delivers : Delivers call room start post) :
    Ends call start post fun _ => True := by
  intro faults
  cases outcome : (call start faults).res with
  | ok value => exact delivers.sound faults value outcome
  | err | panic | hang => trivial

/-- A call that reports its failures. -/
theorem of_returns {post : α → σ → Prop} (returns : Returns call room start post)
    (reports : Reports call) : Delivers call room start post where
  sound faults value isOk := by
    rcases returns.correct faults (reports start faults value isOk) with ⟨found, foundOk, holds⟩
    obtain rfl : value = found := Res.ok.inj (isOk.symm.trans foundOk)
    exact holds
  clean faults isClean := by
    rcases returns.correct faults isClean with ⟨value, isOk, _⟩
    exact ⟨value, isOk⟩
  undisturbed := returns.undisturbed

theorem returns {post : α → σ → Prop} (delivers : Delivers call room start post) :
    Returns call room start post where
  correct faults isClean := by
    rcases delivers.clean faults isClean with ⟨value, isOk⟩
    exact ⟨value, isOk, delivers.sound faults value isOk⟩
  undisturbed := delivers.undisturbed

theorem mono {post weaker : α → σ → Prop} (delivers : Delivers call room start post)
    (implies : ∀ value state, post value state → weaker value state) :
    Delivers call room start weaker where
  sound faults value isOk := implies _ _ (delivers.sound faults value isOk)
  clean := delivers.clean
  undisturbed := delivers.undisturbed

theorem pure {post : α → σ → Prop} (holds : post value start) :
    Delivers (Pure.pure value) room start post :=
  of_returns (Returns.pure holds) (Reports.pure value)

theorem bind {middle : α → σ → Prop} (firstDelivers : Delivers first room start middle)
    (nextDelivers : ∀ value state, middle value state → Delivers (next value) room state post) :
    Delivers (first >>= next) room start post where
  sound faults result isOk := by
    rcases bind_eq_ok.mp isOk with ⟨value, firstOk, nextOk⟩
    rw [(bind_failed firstOk).2.1]
    exact (nextDelivers value _ (firstDelivers.sound faults value firstOk)).sound _ result nextOk
  clean := fun faults isClean => by
    have firstClean : (first start faults).failed = false := by
      change (Exec.bind first next start faults).failed = false at isClean
      simp only [Exec.bind] at isClean
      split at isClean <;> simp_all
    rcases firstDelivers.clean faults firstClean with ⟨value, firstOk⟩
    rw [(bind_failed firstOk).1, firstClean, Bool.false_or] at isClean
    rcases (nextDelivers value _ (firstDelivers.sound faults value firstOk)).clean _ isClean with
      ⟨result, nextOk⟩
    exact ⟨result, bind_eq_ok.mpr ⟨value, firstOk, nextOk⟩⟩
  undisturbed roomy := by
    rcases firstDelivers.undisturbed roomy with ⟨firstClean, noFaults⟩
    rcases firstDelivers.clean [] firstClean with ⟨value, firstOk⟩
    rcases (nextDelivers value _ (firstDelivers.sound [] value firstOk)).undisturbed roomy with
      ⟨nextClean, nextNoFaults⟩
    rw [(bind_failed firstOk).1, (bind_failed firstOk).2.2, firstClean, noFaults, nextClean,
      nextNoFaults]
    exact ⟨rfl, rfl⟩

/-- Sequencing with the intermediate assertion spelled out. -/
theorem through (middle : α → σ → Prop) (firstDelivers : Delivers first room start middle)
    (nextDelivers : ∀ value state, middle value state → Delivers (next value) room state post) :
    Delivers (first >>= next) room start post :=
  bind firstDelivers nextDelivers

/-- A call after one that writes nothing. -/
theorem bind_of_eq {middle : σ} {post : β → σ → Prop}
    (firstEq : ∀ faults, first start faults = ⟨.ok value, middle, faults, false⟩)
    (rest : Delivers (next value) room middle post) :
    Delivers (first >>= next) room start post := by
  refine through (fun found state => found = value ∧ state = middle)
    ⟨fun faults found isOk => ?_, fun faults _ => ⟨value, by rw [firstEq]⟩,
      fun _ => by rw [firstEq]; exact ⟨rfl, rfl⟩⟩ fun _ _ same => same.1 ▸ same.2 ▸ rest
  rw [firstEq] at isOk ⊢
  exact ⟨(Res.ok.inj isOk).symm, rfl⟩

theorem bind_state {next : σ → Exec σ β} (rest : Delivers (next start) room start post) :
    Delivers (Exec.state >>= next) room start post :=
  bind_of_eq (fun _ => rfl) rest

theorem bind_put {changed : σ} {next : Unit → Exec σ β}
    (rest : Delivers (next ()) room changed post) :
    Delivers (Exec.put changed >>= next) room start post :=
  bind_of_eq (fun _ => rfl) rest

theorem bind_modify {change : σ → σ} {next : Unit → Exec σ β}
    (rest : Delivers (next ()) room (change start) post) :
    Delivers (Exec.modify change >>= next) room start post :=
  bind_of_eq (fun _ => rfl) rest

theorem bind_ask {query : σ → Res α}
    (answer : query start = .ok value) (rest : Delivers (next value) room start post) :
    Delivers (Exec.ask query >>= next) room start post :=
  bind_of_eq (fun _ => by rw [Exec.ask, answer]) rest

theorem wrap {context : String} {post : α → σ → Prop} (delivers : Delivers call room start post) :
    Delivers (Exec.wrap context call) room start post where
  sound faults value isOk := by
    rw [wrap_state]
    exact delivers.sound faults value (wrap_eq_ok.mp isOk)
  clean faults isClean := by
    rw [(Returns.wrap_faults context call start faults).1] at isClean
    rcases delivers.clean faults isClean with ⟨value, isOk⟩
    exact ⟨value, wrap_eq_ok.mpr isOk⟩
  undisturbed roomy := by
    rw [(Returns.wrap_faults context call start []).1,
      (Returns.wrap_faults context call start []).2]
    exact delivers.undisturbed roomy

theorem zoom {view : σ → τ} {store : τ → σ → σ} {call : Exec τ α} {post : α → τ → Prop}
    (delivers : Delivers call room (view start) post) :
    Delivers (Exec.zoom view store call) room start
      (fun value state => ∃ inner, state = store inner start ∧ post value inner) where
  sound faults value isOk := ⟨_, rfl, delivers.sound faults value isOk⟩
  clean := delivers.clean
  undisturbed := delivers.undisturbed

/-- A call on another object whose failure makes the whole call end without a value. -/
theorem bind_runOn {object : τ} {call : Exec τ α} {middle : α → τ → Prop}
    {next : τ × Except String α → Exec σ β} (delivers : Delivers call room object middle)
    (stops : ∀ faults changed cause, (call object faults).res = .err cause →
      Stops (next (changed, .error cause)) start)
    (rest : ∀ value changed, middle value changed →
      Delivers (next (changed, .ok value)) room start post) :
    Delivers (Exec.runOn object call >>= next) room start post := by
  have ran : ∀ faults result, (Exec.runOn object call start faults : Out σ _).res = .ok result →
      result.1 = (call object faults).state ∧
        ((∃ value, (call object faults).res = .ok value ∧ result.2 = .ok value) ∨
          ∃ cause, (call object faults).res = .err cause ∧ result.2 = .error cause) := by
    intro faults result isOk
    simp only [Exec.runOn, Exec.attempt] at isOk
    cases outcome : (call object faults).res with
    | ok value =>
        simp only [outcome, Res.ok.injEq] at isOk
        rw [← isOk]
        exact ⟨rfl, .inl ⟨value, rfl, rfl⟩⟩
    | err message =>
        simp only [outcome, Res.ok.injEq] at isOk
        rw [← isOk]
        exact ⟨rfl, .inr ⟨message, rfl, rfl⟩⟩
    | panic message => simp [outcome] at isOk
    | hang => simp [outcome] at isOk
  have same : ∀ faults, (Exec.runOn object call start faults : Out σ _).state = start ∧
      (Exec.runOn object call start faults : Out σ _).failed = (call object faults).failed ∧
      (Exec.runOn object call start faults : Out σ _).faults = (call object faults).faults := by
    intro faults
    rw [← (Returns.attempt_faults call object faults).1,
      ← (Returns.attempt_faults call object faults).2]
    simp only [Exec.runOn]
    split <;> exact ⟨rfl, rfl, rfl⟩
  have returned : ∀ faults value, (call object faults).res = .ok value →
      (Exec.runOn object call start faults : Out σ _).res =
        .ok ((call object faults).state, .ok value) := by
    intro faults value isOk
    simp [Exec.runOn, Exec.attempt, isOk]
  refine ⟨fun faults result isOk => ?_, fun faults isClean => ?_, fun roomy => ?_⟩
  · rcases bind_eq_ok.mp isOk with ⟨⟨changed, inner⟩, firstOk, nextOk⟩
    rw [(bind_failed firstOk).2.1]
    rcases ran faults _ firstOk with
      ⟨changedEq, ⟨value, callOk, innerEq⟩ | ⟨cause, callErr, innerEq⟩⟩
    · simp only at changedEq innerEq
      subst changedEq
      subst innerEq
      rw [(same faults).1] at nextOk ⊢
      exact (rest value _ (delivers.sound faults value callOk)).sound _ result nextOk
    · simp only at innerEq
      subst innerEq
      rw [(same faults).1] at nextOk
      exact absurd nextOk (stops faults changed cause callErr _ result)
  · have callClean : (call object faults).failed = false := by
      rw [← (same faults).2.1]
      change (Exec.bind _ next start faults).failed = false at isClean
      simp only [Exec.bind] at isClean
      split at isClean <;> simp_all
    rcases delivers.clean faults callClean with ⟨value, callOk⟩
    have firstOk := returned faults value callOk
    rw [(bind_failed firstOk).1, (same faults).2.1, callClean, Bool.false_or,
      (same faults).1] at isClean
    rcases (rest value _ (delivers.sound faults value callOk)).clean _ isClean with
      ⟨result, nextOk⟩
    refine ⟨result, bind_eq_ok.mpr ⟨_, firstOk, ?_⟩⟩
    rw [(same faults).1]
    exact nextOk
  · rcases delivers.undisturbed roomy with ⟨callClean, noFaults⟩
    rcases delivers.clean [] callClean with ⟨value, callOk⟩
    have firstOk := returned [] value callOk
    rcases (rest value _ (delivers.sound [] value callOk)).undisturbed roomy with
      ⟨nextClean, nextNoFaults⟩
    rw [(bind_failed firstOk).1, (bind_failed firstOk).2.2, (same []).1, (same []).2.1,
      (same []).2.2, callClean, noFaults, nextClean, nextNoFaults]
    exact ⟨rfl, rfl⟩

/-- An effect whose failure makes the call end without a value. -/
theorem bind_outcome {next : Fault → Exec σ β} (stops : ∀ count, Stops (next (.cut count)) start)
    (rest : Delivers (next .complete) room start post) :
    Delivers (Exec.outcome >>= next) room start post := by
  have returns := Returns.bind_outcome rest.returns
  refine ⟨fun faults result isOk => ?_, fun faults isClean => ?_, returns.undisturbed⟩
  · rcases bind_eq_ok.mp isOk with ⟨fault, firstOk, nextOk⟩
    rw [(bind_failed firstOk).2.1]
    have sameState : (Exec.outcome start faults : Out σ Fault).state = start := by
      unfold Exec.outcome
      split <;> rfl
    rw [sameState] at nextOk ⊢
    cases fault with
    | complete => exact rest.sound _ result nextOk
    | cut count => exact absurd nextOk (stops count _ result)
  · rcases returns.correct faults isClean with ⟨value, isOk, _⟩
    exact ⟨value, isOk⟩

end Delivers

end BriseDB.Exec
