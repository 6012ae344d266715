import BriseDB.Base.Exec

/-!
# Threads on one Python client

All calls of a `Client` share one connection.  A call takes the lock, sends its command and
reads its answer.  `_cmd` and `_cmd_list` hold the lock until the answer is read; `scan`
holds it for the first line only and reads the listed keys without it.

The server answers commands in the order in which they arrive.  Each line of the stream is
marked with the call it is meant for, and `consumed` records what each call has read; no
step looks at the marks.  Python's `int` and `str.split` are left open.
-/

namespace BriseDB.Threads

/-- A line without its end. -/
abbrev Line := List Char

/-- How a call reads its answer. -/
inductive Kind where
  | single
  | list
  | scan
  deriving DecidableEq, Repr

/-- A call with the lines that the server sends for its command. -/
structure Call where
  kind : Kind
  answer : List Line

/-- Where a call stands.  It holds the lock from `holding` to `listing`, and to `leaving`. -/
inductive Progress where
  | idle
  | holding
  | sent
  | headed (header : Line)
  | listing (left : Nat)
  | leaving
  | free (left : Nat)
  | done
  deriving DecidableEq, Repr

/-- A client in the hands of its callers. -/
structure State (ι : Type) where
  lock : Option ι
  stream : List (ι × Line)
  progress : ι → Progress
  consumed : ι → List (ι × Line)

section

variable (int : Line → Option Int) (split : Line → List Line)

/-- The number of further lines that a call reads after the first one.  An error or a
malformed line ends the call. -/
def announced : Kind → Line → Nat
  | .list, '+' :: text => ((int text).getD 0).toNat
  | .scan, '+' :: text =>
      match split text with
      | cursor :: count :: _ => if (int cursor).isSome then ((int count).getD 0).toNat else 0
      | _ => 0
  | _, _ => 0

/-- The check of `_read_lines`. -/
def isItem (line : Line) : Bool :=
  line.head? = some '+'

/-- The lines meant for a call. -/
def tag {ι : Type} (i : ι) (lines : List Line) : List (ι × Line) :=
  lines.map (Prod.mk i)

namespace State

variable {ι : Type} [DecidableEq ι] (calls : ι → Call)

/-- No call has begun. -/
def start : State ι :=
  ⟨none, [], fun _ => .idle, fun _ => []⟩

/-- `readline`, which waits while there is no line. -/
def readline (s : State ι) (i : ι) (next : Line → Progress) : State ι :=
  match s.stream with
  | [] => s
  | line :: others =>
      { s with
        stream := others
        progress := Function.update s.progress i (next line.2)
        consumed := Function.update s.consumed i (s.consumed i ++ [line]) }

/-- One step of a call. -/
def step (s : State ι) (i : ι) : State ι :=
  match s.progress i with
  | .idle =>
      match s.lock with
      | none => { s with lock := some i, progress := Function.update s.progress i .holding }
      | some _ => s
  | .holding =>
      { s with
        stream := s.stream ++ tag i (calls i).answer
        progress := Function.update s.progress i .sent }
  | .sent => s.readline i .headed
  | .headed header =>
      match (calls i).kind with
      | .single => { s with lock := none, progress := Function.update s.progress i .done }
      | .list =>
          { s with
            progress := Function.update s.progress i
              (.listing (announced int split .list header)) }
      | .scan =>
          { s with
            lock := none
            progress := Function.update s.progress i
              (.free (announced int split .scan header)) }
  | .listing 0 => { s with progress := Function.update s.progress i .leaving }
  | .listing (left + 1) =>
      s.readline i fun line => if isItem line then .listing left else .leaving
  | .leaving => { s with lock := none, progress := Function.update s.progress i .done }
  | .free 0 => { s with progress := Function.update s.progress i .done }
  | .free (left + 1) => s.readline i fun line => if isItem line then .free left else .done
  | .done => s

/-- Any interleaving of the steps of the calls. -/
def run (s : State ι) (turns : List ι) : State ι :=
  turns.foldl (step int split calls) s

/-- Every call has read the first lines of its answer and nothing else, and all of them
when it has ended. -/
def Own (s : State ι) : Prop :=
  ∀ i, s.consumed i <+: tag i (calls i).answer ∧
    (s.progress i = .done → s.consumed i = tag i (calls i).answer)

end State

/-- The answer is one line, or a line that announces as many more as follow. -/
def Call.WellFormed (c : Call) : Prop :=
  match c.kind with
  | .single => ∃ line, c.answer = [line]
  | kind => ∃ header items, c.answer = header :: items ∧
      announced int split kind header = items.length ∧ ∀ item ∈ items, isItem item = true

theorem Call.WellFormed.answer_cons {int split} {c : Call} (wellFormed : c.WellFormed int split) :
    ∃ header items, c.answer = header :: items ∧ (c.kind = .single → items = []) ∧
      (c.kind ≠ .single →
        announced int split c.kind header = items.length ∧ ∀ item ∈ items, isItem item = true) := by
  rcases c with ⟨kind, answer⟩
  cases kind with
  | single =>
      rcases wellFormed with ⟨line, answerEq⟩
      exact ⟨line, [], answerEq, fun _ => rfl, fun other => absurd rfl other⟩
  | list | scan =>
      rcases wellFormed with ⟨header, items, answerEq, countEq, isItems⟩
      exact ⟨header, items, answerEq, nofun, fun _ => ⟨countEq, isItems⟩⟩

/-- The call has read the count of a `scan` and not yet all of its keys. -/
def Progress.Unfinished (p : Progress) : Prop :=
  ∃ left, p = .free (left + 1)

instance : DecidablePred Progress.Unfinished
  | .free (left + 1) => .isTrue ⟨left, rfl⟩
  | .free 0 | .idle | .holding | .sent | .headed _ | .listing _ | .leaving | .done =>
      .isFalse (by rintro ⟨_, ⟨⟩⟩)

/-- What is asked of a step: a call that reads the first line of its answer does so when no
`scan` has keys left to read. -/
def State.Undisturbed {ι : Type} (s : State ι) (i : ι) : Prop :=
  s.progress i = .sent → ∀ j, ¬ (s.progress j).Unfinished

/-! ## Lines on their way -/

/-- The call holds the lock. -/
def Progress.HoldsLock : Progress → Prop
  | .holding | .sent | .headed _ | .listing _ | .leaving => True
  | _ => False

/-- The call has read the first line of its answer and holds the lock. -/
def Progress.IsReading : Progress → Prop
  | .headed _ | .listing _ => True
  | _ => False

/-- The command has been sent. -/
def Progress.isSent : Progress → Bool
  | .idle | .holding => false
  | _ => true

/-- Undisturbed, the call will read `rest`. -/
def Call.At (c : Call) : Progress → List Line → Prop
  | .idle, rest | .holding, rest | .sent, rest => rest = c.answer
  | .headed header, rest => c.answer = header :: rest
  | .listing left, rest | .free left, rest =>
      rest.length = left ∧ ∀ item ∈ rest, isItem item = true
  | .leaving, rest | .done, rest => rest = []

namespace State

variable {ι : Type} [DecidableEq ι] (calls : ι → Call)

/-- The lines of a call that are on the stream. -/
def queued (s : State ι) (rest : ι → List Line) : Option ι → List (ι × Line)
  | none => []
  | some i => if (s.progress i).isSent then tag i (rest i) else []

/-- The lines `rest` of each call are still to be read, and the stream has those of the
`scan` that has released the lock, followed by those of the call that holds it. -/
structure Tidy (s : State ι) (rest : ι → List Line) (scanner : Option ι) : Prop where
  reads : ∀ i, (calls i).At (s.progress i) (rest i)
  consumed_eq : ∀ i, s.consumed i ++ tag i (rest i) = tag i (calls i).answer
  holder_iff : ∀ i, s.lock = some i ↔ (s.progress i).HoldsLock
  scanner_iff : ∀ i, scanner = some i ↔ (s.progress i).Unfinished
  alone : ∀ i, (s.progress i).IsReading → scanner = none
  stream_eq : s.stream = s.queued rest scanner ++ s.queued rest s.lock

variable {calls} {int split} {s : State ι} {rest : ι → List Line} {scanner : Option ι} {i : ι}
  {p : Progress}

omit [DecidableEq ι] in
theorem Tidy.eq_none_of_idle (tidy : s.Tidy calls rest scanner)
    (none_ : ∀ j, ¬ (s.progress j).Unfinished) : scanner = none := by
  rw [Option.eq_none_iff_forall_ne_some]
  exact fun j isScanner => none_ j ((tidy.scanner_iff j).mp isScanner)

/-- The lines of a call that are on the stream once call `i` stands at `p` and has `lines`
left. -/
def queuedWith (s : State ι) (rest : ι → List Line) (i : ι) (p : Progress) (lines : List Line)
    (o : Option ι) : List (ι × Line) :=
  if o = some i then if p.isSent then tag i lines else [] else s.queued rest o

theorem queued_update {lines : List Line} {stream : List (ι × Line)}
    {lock : Option ι} {consumed : ι → List (ι × Line)} (o : Option ι) :
    queued ⟨lock, stream, Function.update s.progress i p, consumed⟩ (Function.update rest i lines)
      o = s.queuedWith rest i p lines o := by
  cases o with
  | none => rfl
  | some j =>
      by_cases same : j = i
      · rw [same]
        simp [queued, queuedWith]
      · simp [queued, queuedWith, same]

/-- What a call that goes on to `p` has to take care of: the lock and the part of the `scan` are
its own or stay with the others. -/
structure Moves (s : State ι) (scanner : Option ι) (i : ι) (p : Progress)
    (lock scanning : Option ι) : Prop where
  lockOwn : lock = some i ↔ p.HoldsLock
  lockOthers : ∀ j, j ≠ i → (lock = some j ↔ s.lock = some j)
  scanOwn : scanning = some i ↔ p.Unfinished
  scanOthers : ∀ j, j ≠ i → (scanning = some j ↔ scanner = some j)
  aloneOwn : p.IsReading → scanning = none
  turn : scanning = some i → s.lock = some i ∨ scanner = some i

omit [DecidableEq ι] in
/-- A call that neither is nor becomes a `scan` with keys left. -/
theorem Moves.quiet {lock : Option ι} (lockOwn : lock = some i ↔ p.HoldsLock)
    (lockOthers : ∀ j, j ≠ i → (lock = some j ↔ s.lock = some j)) (notScanner : scanner ≠ some i)
    (finished : ¬ p.Unfinished) (aloneOwn : p.IsReading → scanner = none) :
    s.Moves scanner i p lock scanner :=
  ⟨lockOwn, lockOthers, iff_of_false notScanner finished, fun _ _ => Iff.rfl, aloneOwn,
    fun isScanner => absurd isScanner notScanner⟩

theorem Tidy.update (tidy : s.Tidy calls rest scanner) {lines : List Line}
    {read stream : List (ι × Line)} {lock scanning : Option ι}
    (moves : s.Moves scanner i p lock scanning) (readsOwn : (calls i).At p lines)
    (consumedOwn : read ++ tag i lines = tag i (calls i).answer)
    (streamEq : stream =
      s.queuedWith rest i p lines scanning ++ s.queuedWith rest i p lines lock) :
    Tidy calls ⟨lock, stream, Function.update s.progress i p, Function.update s.consumed i read⟩
      (Function.update rest i lines) scanning where
  reads j := by
    by_cases same : j = i
    · rw [same]
      simpa using readsOwn
    · simpa [same] using tidy.reads j
  consumed_eq j := by
    by_cases same : j = i
    · rw [same]
      simpa using consumedOwn
    · simpa [same] using tidy.consumed_eq j
  holder_iff j := by
    by_cases same : j = i
    · rw [same]
      simpa using moves.lockOwn
    · simpa [same] using (moves.lockOthers j same).trans (tidy.holder_iff j)
  scanner_iff j := by
    by_cases same : j = i
    · rw [same]
      simpa using moves.scanOwn
    · simpa [same] using (moves.scanOthers j same).trans (tidy.scanner_iff j)
  alone j := by
    by_cases same : j = i
    · rw [same]
      simpa using moves.aloneOwn
    · intro isReading
      simp only [Function.update_of_ne same] at isReading
      have wasNone := tidy.alone j isReading
      rw [Option.eq_none_iff_forall_ne_some]
      intro k isScanning
      by_cases isOwn : k = i
      · rw [isOwn] at isScanning
        rcases moves.turn isScanning with locked | wasScanner
        · have holds : s.lock = some j := (tidy.holder_iff j).mpr (by
            revert isReading
            cases s.progress j <;> simp [Progress.IsReading, Progress.HoldsLock])
          exact same (Option.some.inj (holds.symm.trans locked))
        · cases wasNone.symm.trans wasScanner
      · cases wasNone.symm.trans ((moves.scanOthers k isOwn).mp isScanning)
  stream_eq := by
    rw [queued_update, queued_update]
    exact streamEq

/-- A call that changes neither its lines nor what it has read. -/
theorem Tidy.move (tidy : s.Tidy calls rest scanner)
    {stream : List (ι × Line)} {lock scanning : Option ι}
    (moves : s.Moves scanner i p lock scanning) (readsOwn : (calls i).At p (rest i))
    (streamEq : stream =
      s.queuedWith rest i p (rest i) scanning ++ s.queuedWith rest i p (rest i) lock) :
    Tidy calls ⟨lock, stream, Function.update s.progress i p, s.consumed⟩ rest scanning := by
  have moved := tidy.update moves readsOwn (tidy.consumed_eq i) streamEq
  rwa [Function.update_eq_self, Function.update_eq_self] at moved

omit [DecidableEq ι] in
theorem Tidy.not_scanner (tidy : s.Tidy calls rest scanner)
    (finished : ¬ (s.progress i).Unfinished) : scanner ≠ some i :=
  fun isScanner => finished ((tidy.scanner_iff i).mp isScanner)

omit [DecidableEq ι] in
theorem Tidy.holds (tidy : s.Tidy calls rest scanner) (holds : (s.progress i).HoldsLock) :
    s.lock = some i :=
  (tidy.holder_iff i).mpr holds

/-- Reading a line of one's own. -/
theorem Tidy.readline (tidy : s.Tidy calls rest scanner) {line : Line} {lines : List Line}
    {next : Line → Progress} {others : List (ι × Line)} {scanning : Option ι}
    (moves : s.Moves scanner i (next line) s.lock scanning)
    (restEq : rest i = line :: lines) (stream : s.stream = (i, line) :: others)
    (readsOwn : (calls i).At (next line) lines)
    (othersEq : others = s.queuedWith rest i (next line) lines scanning ++
      s.queuedWith rest i (next line) lines s.lock) :
    (s.readline i next).Tidy calls (Function.update rest i lines) scanning := by
  have consumedOwn : (s.consumed i ++ [(i, line)]) ++ tag i lines = tag i (calls i).answer := by
    rw [← tidy.consumed_eq i, restEq, List.append_assoc]
    rfl
  simp only [State.readline, stream]
  exact tidy.update moves readsOwn consumedOwn othersEq

omit [DecidableEq ι] in
/-- The stream while call `i` holds the lock. -/
theorem Tidy.stream_of_holds (tidy : s.Tidy calls rest scanner) (lock : s.lock = some i) :
    s.stream =
      s.queued rest scanner ++ if (s.progress i).isSent then tag i (rest i) else [] := by
  rw [tidy.stream_eq, lock]
  rfl

omit [DecidableEq ι] in
/-- What the other calls see when a call takes or releases the lock. -/
theorem others_of_lock {lock : Option ι} (was : s.lock = none ∨ s.lock = some i)
    (now : lock = none ∨ lock = some i) (j : ι) (other : j ≠ i) :
    lock = some j ↔ s.lock = some j := by
  rcases was with was | was <;> rcases now with rfl | rfl <;> simp [was, Ne.symm other]

/-- Taking the lock. -/
theorem Tidy.acquire (tidy : s.Tidy calls rest scanner) (progress : s.progress i = .idle) :
    (s.step int split calls i).Tidy calls rest scanner := by
  have reads := tidy.reads i
  rw [progress] at reads
  have notScanner : scanner ≠ some i := tidy.not_scanner (by simp [progress, Progress.Unfinished])
  cases lock : s.lock with
  | some holder => simpa only [State.step, progress, lock] using tidy
  | none =>
      have streamEq := tidy.stream_eq
      rw [lock] at streamEq
      simp only [State.step, progress, lock]
      refine tidy.move (.quiet (iff_of_true rfl trivial) (others_of_lock (.inl lock) (.inr rfl))
        notScanner nofun False.elim) reads ?_
      rw [queuedWith, queuedWith, if_neg notScanner, if_pos rfl, streamEq]
      rfl

/-- Sending the command. -/
theorem Tidy.send (tidy : s.Tidy calls rest scanner) (progress : s.progress i = .holding) :
    (s.step int split calls i).Tidy calls rest scanner := by
  have reads := tidy.reads i
  rw [progress] at reads
  have notScanner : scanner ≠ some i := tidy.not_scanner (by simp [progress, Progress.Unfinished])
  have lock : s.lock = some i := tidy.holds (by rw [progress]; trivial)
  have streamEq := tidy.stream_of_holds lock
  rw [progress] at streamEq
  simp only [State.step, progress]
  refine tidy.move (.quiet (iff_of_true lock trivial) (fun _ _ => Iff.rfl) notScanner nofun
    False.elim) reads ?_
  rw [queuedWith, queuedWith, if_neg notScanner, if_pos lock, streamEq,
    show rest i = (calls i).answer from reads]
  simp [Progress.isSent]

/-- Reading the first line while no `scan` has keys left to read. -/
theorem Tidy.head (tidy : s.Tidy calls rest scanner)
    (wellFormed : (calls i).WellFormed int split) (progress : s.progress i = .sent)
    (undisturbed : s.Undisturbed i) :
    ∃ after, (s.step int split calls i).Tidy calls after none := by
  have reads := tidy.reads i
  rw [progress] at reads
  obtain rfl : scanner = none := tidy.eq_none_of_idle (undisturbed progress)
  have lock : s.lock = some i := tidy.holds (by rw [progress]; trivial)
  rcases wellFormed.answer_cons with ⟨header, items, answerEq, -⟩
  have restEq : rest i = header :: items := Eq.trans reads answerEq
  have streamEq : s.stream = (i, header) :: tag i items := by
    rw [tidy.stream_of_holds lock, progress, restEq]
    rfl
  simp only [State.step, progress]
  refine ⟨_, tidy.readline (.quiet (iff_of_true lock trivial) (fun _ _ => Iff.rfl) nofun nofun
    fun _ => rfl) restEq streamEq answerEq ?_⟩
  rw [queuedWith, queuedWith, if_neg (by simp), if_pos lock]
  rfl

/-- What a call does after the first line. -/
theorem Tidy.settle (tidy : s.Tidy calls rest scanner)
    (wellFormed : (calls i).WellFormed int split) {header : Line}
    (progress : s.progress i = .headed header) :
    ∃ scanning, (s.step int split calls i).Tidy calls rest scanning := by
  have reads := tidy.reads i
  rw [progress] at reads
  obtain rfl : scanner = none := tidy.alone i (by rw [progress]; trivial)
  have lock : s.lock = some i := tidy.holds (by rw [progress]; trivial)
  have streamEq : s.stream = tag i (rest i) := by
    rw [tidy.stream_of_holds lock, progress]
    rfl
  have released := others_of_lock (.inr lock) (.inl rfl)
  rcases wellFormed.answer_cons with ⟨first, items, answerEq, single, listed⟩
  rcases List.cons.inj (answerEq.symm.trans reads) with ⟨rfl, rfl⟩
  cases kind : (calls i).kind with
  | single =>
      have noItems := single kind
      simp only [State.step, progress, kind]
      refine ⟨none, tidy.move (.quiet (iff_of_false nofun id) released nofun nofun False.elim)
        noItems ?_⟩
      rw [streamEq, noItems]
      rfl
  | list =>
      rcases listed (by simp [kind]) with ⟨countEq, isItems⟩
      rw [kind] at countEq
      simp only [State.step, progress, kind]
      refine ⟨none, tidy.move (.quiet (iff_of_true lock trivial) (fun _ _ => Iff.rfl) nofun nofun
        fun _ => rfl) ⟨countEq.symm, isItems⟩ ?_⟩
      rw [queuedWith, queuedWith, if_neg (by simp), if_pos lock, streamEq]
      rfl
  | scan =>
      rcases listed (by simp [kind]) with ⟨countEq, isItems⟩
      rw [kind] at countEq
      simp only [State.step, progress, kind]
      cases count : announced int split .scan first with
      | zero =>
          have noItems : rest i = [] := List.eq_nil_of_length_eq_zero (countEq.symm.trans count)
          refine ⟨none, tidy.move (.quiet (iff_of_false nofun id) released nofun nofun False.elim)
            ⟨countEq.symm.trans count, isItems⟩ ?_⟩
          rw [streamEq, noItems]
          rfl
      | succ left =>
          refine ⟨some i, tidy.move ⟨iff_of_false nofun id, released, iff_of_true rfl ⟨left, rfl⟩,
            ?_, False.elim, fun _ => .inl lock⟩ ⟨countEq.symm.trans count, isItems⟩ ?_⟩
          · intro j other
            simp [Ne.symm other]
          · rw [queuedWith, if_pos rfl, streamEq]
            simp [Progress.isSent, queuedWith, queued]

omit [DecidableEq ι] in
theorem items_uncons {lines : List Line} {left : Nat}
    (items : lines.length = left + 1 ∧ ∀ item ∈ lines, isItem item = true) :
    ∃ line others, lines = line :: others ∧ isItem line = true ∧
      (others.length = left ∧ ∀ item ∈ others, isItem item = true) := by
  rcases List.exists_cons_of_length_eq_add_one items.1 with ⟨line, others, rfl⟩
  rcases List.forall_mem_cons.mp items.2 with ⟨isLine, isOthers⟩
  exact ⟨line, others, rfl, isLine, Nat.succ.inj items.1, isOthers⟩

/-- Reading a listed key with the lock held. -/
theorem Tidy.list (tidy : s.Tidy calls rest scanner) {left : Nat}
    (progress : s.progress i = .listing left) :
    ∃ after scanning, (s.step int split calls i).Tidy calls after scanning := by
  have reads := tidy.reads i
  rw [progress] at reads
  obtain rfl : scanner = none := tidy.alone i (by rw [progress]; trivial)
  have lock : s.lock = some i := tidy.holds (by rw [progress]; trivial)
  have streamEq : s.stream = tag i (rest i) := by
    rw [tidy.stream_of_holds lock, progress]
    rfl
  cases left with
  | zero =>
      have noItems : rest i = [] := List.eq_nil_of_length_eq_zero reads.1
      simp only [State.step, progress]
      refine ⟨rest, none, tidy.move (.quiet (iff_of_true lock trivial) (fun _ _ => Iff.rfl) nofun
        nofun False.elim) noItems ?_⟩
      rw [queuedWith, queuedWith, if_neg (by simp), if_pos lock, streamEq, noItems]
      rfl
  | succ left =>
      rcases items_uncons reads with ⟨line, lines, restEq, isLine, nextReads⟩
      rw [restEq] at streamEq
      simp only [State.step, progress]
      refine ⟨_, none, tidy.readline ?_ restEq streamEq ?_ ?_⟩ <;> rw [if_pos isLine]
      · exact .quiet (iff_of_true lock trivial) (fun _ _ => Iff.rfl) nofun nofun fun _ => rfl
      · exact nextReads
      · rw [queuedWith, queuedWith, if_neg (by simp), if_pos lock]
        rfl

omit [DecidableEq ι] in
/-- The stream while a `scan` has keys left to read. -/
theorem Tidy.stream_of_scan (tidy : s.Tidy calls rest scanner) {left : Nat}
    (progress : s.progress i = .free (left + 1)) :
    scanner = some i ∧ ∃ line lines, rest i = line :: lines ∧ isItem line = true ∧
      (lines.length = left ∧ ∀ item ∈ lines, isItem item = true) ∧
      s.stream = (i, line) :: (tag i lines ++ s.queued rest s.lock) := by
  have reads := tidy.reads i
  rw [progress] at reads
  rcases items_uncons reads with ⟨line, lines, restEq, isLine, nextReads⟩
  have isScanner : scanner = some i := (tidy.scanner_iff i).mpr ⟨left, progress⟩
  refine ⟨isScanner, line, lines, restEq, isLine, nextReads, ?_⟩
  rw [tidy.stream_eq, isScanner, queued, progress, restEq]
  rfl

/-- Reading a listed key of a `scan`. -/
theorem Tidy.scan (tidy : s.Tidy calls rest scanner) {left : Nat}
    (progress : s.progress i = .free left) :
    ∃ after scanning, (s.step int split calls i).Tidy calls after scanning := by
  have notLocked : s.lock ≠ some i := by
    intro locked
    have holds := (tidy.holder_iff i).mp locked
    rw [progress] at holds
    exact holds
  cases left with
  | zero =>
      have reads := tidy.reads i
      rw [progress] at reads
      have noItems : rest i = [] := List.eq_nil_of_length_eq_zero reads.1
      have notScanner : scanner ≠ some i :=
        tidy.not_scanner (by simp [progress, Progress.Unfinished])
      simp only [State.step, progress]
      refine ⟨rest, scanner, tidy.move (.quiet (iff_of_false notLocked id) (fun _ _ => Iff.rfl)
        notScanner nofun False.elim) noItems ?_⟩
      rw [queuedWith, queuedWith, if_neg notScanner, if_neg notLocked]
      exact tidy.stream_eq
  | succ left =>
      rcases tidy.stream_of_scan progress with
        ⟨isScanner, line, lines, restEq, isLine, nextReads, streamEq⟩
      simp only [State.step, progress]
      cases left with
      | zero =>
          have noMore : lines = [] := List.eq_nil_of_length_eq_zero nextReads.1
          refine ⟨_, none, tidy.readline ?_ restEq streamEq ?_ ?_⟩ <;> rw [if_pos isLine]
          · refine ⟨iff_of_false notLocked id, fun _ _ => Iff.rfl, iff_of_false nofun nofun, ?_,
              False.elim, nofun⟩
            intro j other
            simp [isScanner, Ne.symm other]
          · exact nextReads
          · rw [queuedWith, queuedWith, if_neg (by simp), if_neg notLocked, noMore]
            rfl
      | succ left =>
          refine ⟨_, scanner, tidy.readline ?_ restEq streamEq ?_ ?_⟩ <;> rw [if_pos isLine]
          · exact ⟨iff_of_false notLocked id, fun _ _ => Iff.rfl, iff_of_true isScanner ⟨left, rfl⟩,
              fun _ _ => Iff.rfl, False.elim, .inr⟩
          · exact nextReads
          · rw [queuedWith, queuedWith, if_pos isScanner, if_neg notLocked]
            rfl

/-- Releasing the lock after the last key. -/
theorem Tidy.leave (tidy : s.Tidy calls rest scanner) (progress : s.progress i = .leaving) :
    (s.step int split calls i).Tidy calls rest scanner := by
  have reads := tidy.reads i
  rw [progress] at reads
  have notScanner : scanner ≠ some i := tidy.not_scanner (by simp [progress, Progress.Unfinished])
  have lock : s.lock = some i := tidy.holds (by rw [progress]; trivial)
  have streamEq := tidy.stream_of_holds lock
  rw [progress, show rest i = [] from reads] at streamEq
  simp only [State.step, progress]
  refine tidy.move (.quiet (iff_of_false nofun id) (others_of_lock (.inr lock) (.inl rfl))
    notScanner nofun False.elim) reads ?_
  rw [queuedWith, queuedWith, if_neg notScanner, if_neg (by simp), streamEq]
  rfl

/-- A step at which nothing disturbs the call. -/
theorem Tidy.step (wellFormed : ∀ i, (calls i).WellFormed int split)
    (tidy : s.Tidy calls rest scanner) (undisturbed : s.Undisturbed i) :
    ∃ after scanning, (s.step int split calls i).Tidy calls after scanning := by
  cases progress : s.progress i with
  | idle => exact ⟨rest, scanner, tidy.acquire progress⟩
  | holding => exact ⟨rest, scanner, tidy.send progress⟩
  | sent =>
      rcases tidy.head (wellFormed i) progress undisturbed with ⟨after, next⟩
      exact ⟨after, none, next⟩
  | headed header =>
      rcases tidy.settle (wellFormed i) progress with ⟨scanning, next⟩
      exact ⟨rest, scanning, next⟩
  | listing left => exact tidy.list progress
  | leaving => exact ⟨rest, scanner, tidy.leave progress⟩
  | free left => exact tidy.scan progress
  | done => exact ⟨rest, scanner, by simpa only [State.step, progress] using tidy⟩

omit [DecidableEq ι] in
theorem Tidy.own (tidy : s.Tidy calls rest scanner) : s.Own calls := by
  intro i
  refine ⟨⟨_, tidy.consumed_eq i⟩, fun isDone => ?_⟩
  have reads := tidy.reads i
  rw [isDone] at reads
  rw [← tidy.consumed_eq i, show rest i = [] from reads]
  exact (List.append_nil _).symm

/-- A call that reads its first line while a `scan` has keys left takes one of them. -/
theorem Tidy.step_disturbed (tidy : s.Tidy calls rest scanner)
    (disturbed : ¬ s.Undisturbed i) : ¬ (s.step int split calls i).Own calls := by
  simp only [Undisturbed, not_forall, not_not] at disturbed
  rcases disturbed with ⟨progress, j, left, isFree⟩
  have other : i ≠ j := by
    rintro rfl
    cases progress.symm.trans isFree
  rcases tidy.stream_of_scan isFree with ⟨-, line, lines, -, -, -, streamEq⟩
  intro own
  have consumed : (s.step int split calls i).consumed i = s.consumed i ++ [(j, line)] := by
    simp only [State.step, progress, State.readline, streamEq, Function.update_self]
  have isPrefix := (own i).1
  rw [consumed] at isPrefix
  have mem : (j, line) ∈ tag i (calls i).answer := isPrefix.subset (by simp)
  rcases List.mem_map.mp mem with ⟨_, _, same⟩
  exact other (congrArg Prod.fst same)

omit [DecidableEq ι] in
theorem start_tidy : (start : State ι).Tidy calls (fun i => (calls i).answer) none where
  reads _ := rfl
  consumed_eq _ := rfl
  holder_iff _ := by simp [start, Progress.HoldsLock]
  scanner_iff _ := by simp [start, Progress.Unfinished]
  alone _ _ := rfl
  stream_eq := rfl

/-- In every state of an interleaving each call has read lines of its own answer only, and
all of them when it has ended, exactly if no call reads its first line while a `scan` has
keys left to read. -/
theorem own_iff_undisturbed (wellFormed : ∀ i, (calls i).WellFormed int split) (turns : List ι) :
    (∀ before later, turns = before ++ later → (start.run int split calls before).Own calls) ↔
      ∀ before i later, turns = before ++ i :: later →
        (start.run int split calls before).Undisturbed i :=
  Exec.foldl_iff (fun s => ∃ rest scanner, Tidy calls s rest scanner) ⟨_, _, start_tidy⟩
    (fun _ ⟨_, _, tidy⟩ => tidy.own)
    (fun _ _ ⟨_, _, tidy⟩ undisturbed => tidy.step wellFormed undisturbed)
    (fun _ _ ⟨_, _, tidy⟩ disturbed => tidy.step_disturbed disturbed) turns

end State

end

/-- One digit as a number. -/
def digit : Line → Option Int
  | [c] => if c.isDigit then some (c.toNat - '0'.toNat : Int) else none
  | _ => none

/-- The first and the last character of a line. -/
def ends (line : Line) : List Line :=
  [line.take 1, line.drop (line.length - 1)]

/-- A `scan` that lists one key, and a `get`. -/
def scanAndGet : Bool → Call
  | true => ⟨.scan, [['+', '0', ' ', '1'], ['+', 'k']]⟩
  | false => ⟨.single, [['+', 'v']]⟩

theorem scanAndGet_wellFormed (i : Bool) : (scanAndGet i).WellFormed digit ends := by
  cases i with
  | true => exact ⟨_, _, rfl, rfl, by decide⟩
  | false => exact ⟨_, rfl⟩

/-- The `get` is sent while the `scan` has a key left to read, and reads after it. -/
def overlapping : List Bool :=
  [true, true, true, true, false, false, true, false, false, true]

theorem own_iff_undisturbed_overlapping :
    (∀ i, (scanAndGet i).WellFormed digit ends) ∧
      (State.start.run digit ends scanAndGet overlapping).Own scanAndGet := by
  refine ⟨scanAndGet_wellFormed, ?_⟩
  refine (State.own_iff_undisturbed scanAndGet_wellFormed _).mpr ?_ _ [] (List.append_nil _).symm
  have checked : ∀ n : Fin 10, (State.start.run digit ends scanAndGet
      (overlapping.take n)).Undisturbed (overlapping.getD n true) := by
    unfold State.Undisturbed
    decide
  intro before i later split
  have inside : before.length < 10 := by
    have lengthEq : 10 = (before ++ i :: later).length := congrArg List.length split
    simp only [List.length_append, List.length_cons] at lengthEq
    omega
  have isBefore : overlapping.take before.length = before := by simp [split]
  have isTurn : overlapping.getD before.length true = i := by simp [split]
  simpa only [isBefore, isTurn] using checked ⟨before.length, inside⟩

/-- The `get` reads the key that was listed for the `scan`. -/
theorem scan_disturbed :
    (State.start.run digit ends scanAndGet
      [true, true, true, true, false, false, false]).consumed false = [(true, ['+', 'k'])] := by
  decide

end BriseDB.Threads
