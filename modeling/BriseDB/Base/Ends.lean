import BriseDB.Base.File

/-!
# What holds when a call ends, whatever has failed

`Ends` describes a call under all outcomes of its writes: if it returns a value, `ok`
holds of the value and the state, and if it returns none, because of an error, a panic or
an endless loop, `stop` holds of the state it leaves.
-/

namespace BriseDB.Exec

variable {σ τ α β : Type}

/-- However the writes of the call turn out, it ends with a value and `ok`, or without one
and `stop`. -/
def Ends (call : Exec σ α) (start : σ) (ok : α → σ → Prop) (stop : σ → Prop) : Prop :=
  ∀ faults,
    match (call start faults).res with
    | .ok value => ok value (call start faults).state
    | _ => stop (call start faults).state

/-- A sequence ends where its first call does, if that returns no value. -/
theorem bind_stopped {first : Exec σ α} {start : σ} {faults : List Fault}
    (stopped : ∀ value, (first start faults).res ≠ .ok value) (next : α → Exec σ β) :
    (bind first next start faults).state = (first start faults).state := by
  cases outcome : (first start faults).res with
  | ok value => exact absurd outcome (stopped value)
  | err | panic | hang => simp only [bind, outcome]

/-- What a sequence leaves, by how its first call ends. -/
theorem bind_leaves {first : Exec σ α} {next : α → Exec σ β} {start : σ} {faults : List Fault}
    {P : σ → Prop} (stops : P (first start faults).state)
    (goesOn : ∀ value, (first start faults).res = .ok value →
      P (next value (first start faults).state (first start faults).faults).state) :
    P ((first >>= next) start faults).state := by
  change P (bind first next start faults).state
  cases outcome : (first start faults).res with
  | ok value =>
      simp only [bind, outcome]
      exact goesOn value outcome
  | err | panic | hang =>
      simp only [bind, outcome]
      exact stops

/-- If the first call returns a value, no write of the second fails. -/
def CleanAfter (first : Exec σ α) (second : α → Exec σ β) (start : σ) (faults : List Fault) :
    Prop :=
  ∀ value, (first start faults).res = .ok value →
    (second value (first start faults).state (first start faults).faults).failed = false

/-- A sequence without a failed write has none in its second call. -/
theorem cleanAfter_of_bind {γ : Type} {first : Exec σ α} {second : α → Exec σ β}
    {last : α → β → Exec σ γ} {start : σ} {faults : List Fault}
    (clean : ((first >>= fun value => second value >>= last value) start faults).failed = false) :
    first.CleanAfter second start faults := by
  intro value returned
  change (bind first (fun value => bind (second value) (last value)) start faults).failed = false
    at clean
  simp only [bind, returned, Bool.or_eq_false_iff] at clean
  revert clean
  cases outcome : (second value (first start faults).state (first start faults).faults).res with
  | ok => exact fun clean => (Bool.or_eq_false_iff.mp clean.2).1
  | err | panic | hang => exact fun clean => clean.2

/-- Dropping the value of a call. -/
theorem bind_pure_state (call : Exec σ α) (value : β) (start : σ) (faults : List Fault) :
    (bind call (fun _ => Pure.pure value) start faults).state = (call start faults).state := by
  cases outcome : (call start faults).res with
  | ok => simp only [bind, outcome, Pure.pure, ret]
  | err | panic | hang => simp only [bind, outcome]

namespace Ends

variable {start : σ} {ok : α → σ → Prop} {stop : σ → Prop} {call : Exec σ α} {first : Exec σ β}
  {next : β → Exec σ α}

theorem mono {okToo : α → σ → Prop} {stopToo : σ → Prop}
    (ends : Ends call start ok stop) (okMono : ∀ value state, ok value state → okToo value state)
    (stopMono : ∀ state, stop state → stopToo state) : Ends call start okToo stopToo := by
  intro faults
  have ended := ends faults
  revert ended
  cases (call start faults).res with
  | ok value => exact okMono value _
  | err | panic | hang => exact stopMono _

theorem left {okToo : α → σ → Prop} {stopToo : σ → Prop}
    (ends : Ends call start (fun value state => ok value state ∧ okToo value state)
      fun state => stop state ∧ stopToo state) : Ends call start ok stop :=
  ends.mono (fun _ _ => And.left) fun _ => And.left

theorem returned (ends : Ends call start ok stop) {faults : List Fault} {value : α}
    (resEq : (call start faults).res = .ok value) : ok value (call start faults).state := by
  simpa only [resEq] using ends faults

theorem stopped (ends : Ends call start ok stop) {faults : List Fault}
    (noValue : ∀ value, (call start faults).res ≠ .ok value) : stop (call start faults).state := by
  have ended := ends faults
  revert ended
  cases outcome : (call start faults).res with
  | ok value => exact absurd outcome (noValue value)
  | err | panic | hang => exact id

/-- A call that cannot end without a value returns one. -/
theorem exists_value (ends : Ends call start ok fun _ => False) (faults : List Fault) :
    ∃ value, (call start faults).res = .ok value ∧ ok value (call start faults).state := by
  by_cases noValue : ∀ value, (call start faults).res ≠ .ok value
  · exact (ends.stopped noValue).elim
  · rw [not_forall_not] at noValue
    rcases noValue with ⟨value, resEq⟩
    exact ⟨value, resEq, ends.returned resEq⟩

/-- What holds of every end holds of the state the call leaves. -/
theorem leaves {post : σ → Prop} (ends : Ends call start (fun _ => post) post)
    (faults : List Fault) : post (call start faults).state := by
  have ended := ends faults
  revert ended
  cases (call start faults).res with
  | ok | err | panic | hang => exact id

theorem of_leaves {post : σ → Prop}
    (leaves : ∀ faults, post (call start faults).state) : Ends call start (fun _ => post) post := by
  intro faults
  have ended := leaves faults
  cases (call start faults).res with
  | ok | err | panic | hang => exact ended

theorem pure {value : α} (holds : ok value start) :
    Ends (Pure.pure value : Exec σ α) start ok stop :=
  fun _ => holds

theorem throw {message : String} (holds : stop start) :
    Ends (Exec.throw message : Exec σ α) start ok stop :=
  fun _ => holds

theorem panic {message : String} (holds : stop start) :
    Ends (Exec.panic message : Exec σ α) start ok stop :=
  fun _ => holds

theorem bind {middle : β → σ → Prop} (ends : Ends first start middle stop)
    (rest : ∀ value state, middle value state → Ends (next value) state ok stop) :
    Ends (first >>= next) start ok stop := by
  intro faults
  change match (Exec.bind first next start faults).res with
    | .ok value => ok value (Exec.bind first next start faults).state
    | _ => stop (Exec.bind first next start faults).state
  have ended := ends faults
  revert ended
  cases outcome : (first start faults).res with
  | ok value =>
      intro holds
      simp only [Exec.bind, outcome]
      exact rest value _ holds _
  | err | panic | hang =>
      intro holds
      simpa only [Exec.bind, outcome] using holds

/-- A first call that only looks at the state or changes it. -/
theorem bind_of_eq {value : β} {changed : σ}
    (eq : ∀ faults, first start faults = ⟨.ok value, changed, faults, false⟩)
    (rest : Ends (next value) changed ok stop) : Ends (first >>= next) start ok stop := by
  have ends : Ends first start (fun found state => found = value ∧ state = changed) stop := by
    intro faults
    rw [eq]
    exact ⟨rfl, rfl⟩
  refine bind ends ?_
  rintro _ _ ⟨rfl, rfl⟩
  exact rest

theorem bind_state {next : σ → Exec σ α} (rest : Ends (next start) start ok stop) :
    Ends (Exec.state >>= next) start ok stop :=
  bind_of_eq (fun _ => rfl) rest

theorem put {next : σ} {ok : Unit → σ → Prop} (holds : ok () next) :
    Ends (Exec.put next) start ok stop :=
  fun _ => holds

theorem modify {change : σ → σ} {ok : Unit → σ → Prop} (holds : ok () (change start)) :
    Ends (Exec.modify change) start ok stop :=
  fun _ => holds

theorem bind_put {changed : σ} {next : Unit → Exec σ α} (rest : Ends (next ()) changed ok stop) :
    Ends (Exec.put changed >>= next) start ok stop :=
  bind_of_eq (fun _ => rfl) rest

theorem bind_modify {change : σ → σ} {next : Unit → Exec σ α}
    (rest : Ends (next ()) (change start) ok stop) :
    Ends (Exec.modify change >>= next) start ok stop :=
  bind_of_eq (fun _ => rfl) rest

theorem ask {query : σ → Res α} (holds : ∀ value, query start = .ok value → ok value start)
    (stops : stop start) : Ends (Exec.ask query) start ok stop := by
  intro faults
  change match query start with
    | .ok value => ok value start
    | _ => stop start
  cases answer : query start with
  | ok value => exact holds value answer
  | err | panic | hang => exact stops

theorem bind_ask {query : σ → Res β} {value : β}
    (answer : query start = .ok value) (rest : Ends (next value) start ok stop) :
    Ends (Exec.ask query >>= next) start ok stop :=
  bind_of_eq (fun faults => by simp only [Exec.ask, answer]) rest

theorem outcome {ok : Fault → σ → Prop} (holds : ∀ result, ok result start) :
    Ends Exec.outcome start ok stop := by
  intro faults
  rcases faults with _ | ⟨_ | done, rest⟩ <;> exact holds _

theorem bind_outcome {next : Fault → Exec σ α} (rest : ∀ result, Ends (next result) start ok stop) :
    Ends (Exec.outcome >>= next) start ok stop := by
  have asked : Ends Exec.outcome start (fun _ state => state = start) stop :=
    outcome fun _ => rfl
  refine bind asked ?_
  rintro result _ rfl
  exact rest result

/-- A question to which any answer may be given. -/
theorem bind_query {query : σ → Res β} (stops : stop start)
    (rest : ∀ value, query start = .ok value → Ends (next value) start ok stop) :
    Ends (Exec.ask query >>= next) start ok stop := by
  have asked : Ends (Exec.ask query) start
      (fun value state => query start = .ok value ∧ state = start) stop :=
    ask (fun _ answer => ⟨answer, rfl⟩) stops
  refine bind asked ?_
  rintro value _ ⟨answer, rfl⟩
  exact rest value answer

theorem wrap {context : String} (ends : Ends call start ok stop) :
    Ends (Exec.wrap context call) start ok stop := by
  intro faults
  have ended := ends faults
  cases outcome : (call start faults).res with
  | ok | err | panic | hang => simpa only [Exec.wrap, outcome] using ended

theorem attempt {ok : Except String α → σ → Prop}
    (ends : Ends call start (fun value => ok (.ok value))
      fun state => stop state ∧ ∀ message, ok (.error message) state) :
    Ends (Exec.attempt call) start ok stop := by
  intro faults
  have ended := ends faults
  cases outcome : (call start faults).res with
  | ok value => simpa only [Exec.attempt, outcome] using ended
  | err message =>
      simp only [outcome] at ended
      simpa only [Exec.attempt, outcome] using ended.2 message
  | panic | hang =>
      simp only [outcome] at ended
      simpa only [Exec.attempt, outcome] using ended.1

/-- Two calls that keep an invariant. -/
theorem andThen {inv : σ → Prop} (ends : Ends first start (fun _ => inv) inv)
    (rest : ∀ value state, inv state → Ends (next value) state (fun _ => inv) inv) :
    Ends (first >>= next) start (fun _ => inv) inv :=
  bind ends rest

/-- A call that keeps an invariant, and whose error is turned into a value. -/
theorem attempted {inv : σ → Prop} (ends : Ends call start (fun _ => inv) inv) :
    Ends (Exec.attempt call) start (fun _ => inv) inv :=
  attempt (mono ends (fun _ _ => id) fun _ holds => ⟨holds, fun _ => holds⟩)

/-- A call on a part of the state. -/
theorem zoom {view : σ → τ} {store : τ → σ → σ} {call : Exec τ α}
    (ends : Ends call (view start) (fun value part => ok value (store part start))
      fun part => stop (store part start)) : Ends (Exec.zoom view store call) start ok stop :=
  fun faults => ends faults

/-- A call on an object of its own. -/
theorem bind_runOn {object : τ} {call : Exec τ β} {middle : β → τ → Prop} {left : τ → Prop}
    {next : τ × Except String β → Exec σ α} (ends : Ends call object middle left)
    (stops : stop start)
    (failed : ∀ cause changed, left changed → Ends (next (changed, .error cause)) start ok stop)
    (rest : ∀ value changed, middle value changed →
      Ends (next (changed, .ok value)) start ok stop) :
    Ends (Exec.runOn object call >>= next) start ok stop := by
  have ran : Ends (Exec.runOn object call) start
      (fun result state => state = start ∧ Ends (next result) start ok stop) stop := by
    intro faults
    have ended := ends faults
    cases outcome : (call object faults).res with
    | ok value =>
        simp only [outcome] at ended
        simp only [Exec.runOn, Exec.attempt, outcome]
        exact ⟨trivial, rest value _ ended⟩
    | err cause =>
        simp only [outcome] at ended
        simp only [Exec.runOn, Exec.attempt, outcome]
        exact ⟨trivial, failed cause _ ended⟩
    | panic | hang => simpa only [Exec.runOn, Exec.attempt, outcome] using stops
  refine bind ran ?_
  rintro _ _ ⟨rfl, ended⟩
  exact ended

/-- A write leaves its file as it was, or with the first bytes of the data written; all of
them if it reports no error. -/
theorem write {contents : Bytes} {offset : Nat} {data : Bytes}
    {ok : Bytes × Option String → σ → Prop}
    (complete : offset + data.length ≤ File.maxSize →
      ok (File.writeAt contents offset data, none) start)
    (partly : ∀ count cause, ok (File.writeAt contents offset (data.take count), some cause) start)
    (refused : ∀ cause, ok (contents, some cause) start) :
    Ends (File.write contents offset data) start ok stop := by
  intro faults
  unfold File.write
  by_cases fits : offset + data.length ≤ File.maxSize
  · simp only [if_pos fits]
    rcases faults with _ | ⟨_ | count, rest⟩
    · exact complete fits
    · exact complete fits
    · exact partly count _
  · simp only [if_neg fits]
    exact refused _

/-- A loop that keeps an invariant. -/
theorem each {items : List β} {body : β → Exec σ Unit} {inv : σ → Prop} (holds : inv start)
    (keeps : ∀ item ∈ items, ∀ state, inv state →
      Ends (body item) state (fun _ => inv) inv) :
    Ends (Exec.each items body) start (fun _ => inv) inv := by
  induction items generalizing start with
  | nil => exact pure holds
  | cons item rest ih =>
      refine bind (keeps item List.mem_cons_self start holds) fun _ state kept => ?_
      exact ih kept fun other mem => keeps other (List.mem_cons_of_mem _ mem)

end Ends

/-- What holds whenever the call returns a value, of a call that returns one unless a write
fails. -/
theorem Returns.and_ends {call : Exec σ α} {room : Prop} {start : σ} {post ok : α → σ → Prop}
    {stop : σ → Prop} (returns : Returns call room start post) (ends : Ends call start ok stop) :
    Returns call room start fun value state => post value state ∧ ok value state := by
  refine ⟨fun faults clean => ?_, returns.undisturbed⟩
  rcases returns.correct faults clean with ⟨value, resEq, holds⟩
  exact ⟨value, resEq, holds, ends.returned resEq⟩

end BriseDB.Exec
