import Mathlib.Data.List.Sort
import Mathlib.Data.Prod.Lex
import Mathlib.Logic.Relation
import Mathlib.Order.WithBot

/-!
# Locking in order

A mutex for readers and writers lets one writer at a time pass.  The writer that has passed
makes the readers wait that come after it, waits for those that are left, and holds the
mutex when there are none.  When it unlocks, the readers that have come in the meantime hold
the mutex.

`State` is a group of goroutines that run critical sections.  Each section takes mutexes in
the order of its plan, one after the other, and gives them back in the reverse order.
Where all plans follow one order of the mutexes, goroutines never wait for each other in a
circle.
-/

namespace BriseDB.Locking

variable {ι S L : Type}

/-! ## One mutex -/

/-- A mutex.  `writer` has passed and waits for the readers or holds the mutex, `readers`
hold it for reading, and `parked` are the readers that have come since the writer passed. -/
structure RWMutex (ι : Type) where
  writer : Option ι
  readers : List ι
  parked : List ι

namespace RWMutex

def free : RWMutex ι :=
  ⟨none, [], []⟩

/-- The first half of `Lock`, which waits until no other writer has passed. -/
def pass (m : RWMutex ι) (t : ι) : RWMutex ι :=
  { m with writer := some t }

/-- `RLock` while no writer has passed. -/
def read (m : RWMutex ι) (t : ι) : RWMutex ι :=
  { m with readers := t :: m.readers }

/-- `RLock` after a writer has passed. -/
def park (m : RWMutex ι) (t : ι) : RWMutex ι :=
  { m with parked := t :: m.parked }

/-- `Unlock`: the parked readers hold the mutex. -/
def unlock (m : RWMutex ι) : RWMutex ι :=
  ⟨none, m.readers ++ m.parked, []⟩

/-- `RUnlock`. -/
def rUnlock [DecidableEq ι] (m : RWMutex ι) (t : ι) : RWMutex ι :=
  { m with readers := m.readers.filter (· ≠ t) }

end RWMutex

/-- How far a goroutine has come with a mutex. -/
inductive Stance where
  | absent
  | passed
  | writing
  | parked
  | reading
  deriving DecidableEq

/-- One step of a goroutine with a mutex. -/
inductive Move [DecidableEq ι] (t : ι) : RWMutex ι → Stance → RWMutex ι → Stance → Prop where
  | pass {m : RWMutex ι} (free : m.writer = none) : Move t m .absent (m.pass t) .passed
  | lock {m : RWMutex ι} (drained : m.readers = []) : Move t m .passed m .writing
  | read {m : RWMutex ι} (free : m.writer = none) : Move t m .absent (m.read t) .reading
  | park {m : RWMutex ι} (taken : m.writer ≠ none) : Move t m .absent (m.park t) .parked
  | wake {m : RWMutex ι} (mem : t ∈ m.readers) : Move t m .parked m .reading
  | unlock {m : RWMutex ι} : Move t m .writing m.unlock .absent
  | rUnlock {m : RWMutex ι} : Move t m .reading (m.rUnlock t) .absent

/-- The mutex agrees with how far the goroutines have come.  A parked reader is still parked
after `Unlock` has let it in, until it notices. -/
structure Agree (m : RWMutex ι) (stance : ι → Stance) : Prop where
  writer : ∀ t, m.writer = some t ↔ stance t = .passed ∨ stance t = .writing
  reader : ∀ t ∈ m.readers, stance t = .parked ∨ stance t = .reading
  reads : ∀ t, stance t = .reading → t ∈ m.readers
  parked : ∀ t ∈ m.parked, stance t = .parked ∧ t ∉ m.readers
  blocked : ∀ t, stance t = .parked → t ∉ m.readers → t ∈ m.parked ∧ m.writer ≠ none
  exclusive : ∀ t, stance t = .writing → m.readers = []

namespace Agree

theorem free : Agree (.free : RWMutex ι) fun _ => .absent :=
  ⟨by simp [RWMutex.free], by simp [RWMutex.free], nofun, by simp [RWMutex.free], nofun, nofun⟩

/-- A goroutine that holds the mutex for writing holds it alone. -/
theorem alone {m : RWMutex ι} {stance : ι → Stance} (agree : Agree m stance) {t : ι}
    (holds : stance t = .writing) {u : ι} (other : stance u = .writing ∨ stance u = .reading) :
    u = t := by
  rcases other with writing | reading
  · have isWriter := (agree.writer t).mpr (.inr holds)
    exact Option.some.inj (((agree.writer u).mpr (.inr writing)).symm.trans isWriter)
  · have mem := agree.reads u reading
    rw [agree.exclusive t holds] at mem
    cases mem

variable [DecidableEq ι]

theorem move {m next : RWMutex ι} {stance : ι → Stance} (agree : Agree m stance) {t : ι}
    {after : Stance} (moved : Move t m (stance t) next after) :
    Agree next (Function.update stance t after) := by
  rcases agree with ⟨writer, reader, reads, parked, blocked, exclusive⟩
  generalize before : stance t = x at moved
  cases moved with
  | pass isFree => constructor <;> grind [RWMutex.pass]
  | lock drained => constructor <;> grind
  | read isFree => constructor <;> grind [RWMutex.read]
  | park taken => constructor <;> grind [RWMutex.park]
  | wake mem => constructor <;> grind
  | unlock => constructor <;> grind [RWMutex.unlock]
  | rUnlock => constructor <;> grind [RWMutex.rUnlock]

end Agree

/-! ## Sections -/

inductive Mode where
  | read
  | write
  deriving DecidableEq

namespace Mode

/-- Having locked a mutex. -/
def holding : Mode → Stance
  | read => .reading
  | write => .writing

/-- Waiting in the call that locks a mutex. -/
def asking : Mode → Stance
  | read => .parked
  | write => .passed

end Mode

/-- The mutexes of a section, in the order in which they are locked. -/
structure Plan (L : Type) [LT L] where
  mode : Mode
  locks : List L
  increasing : locks.Pairwise (· < ·)

/-- Where a goroutine is in its section.  `taking` is before or in the first half of the call
that locks `next`, `waiting` is after it. -/
inductive Place (S L : Type) where
  | outside
  | taking (section_ : S) (held : List L) (next : L) (rest : List L)
  | waiting (section_ : S) (held : List L) (next : L) (rest : List L)
  | inside (section_ : S)
  | leaving (section_ : S) (first : L) (rest : List L)
  deriving DecidableEq

namespace Place

/-- On the way into a section. -/
def proceed (s : S) (held : List L) : List L → Place S L
  | [] => inside s
  | next :: rest => taking s held next rest

/-- On the way out of a section. -/
def retreat (s : S) : List L → Place S L
  | [] => outside
  | first :: rest => leaving s first rest

section Plans

variable [LinearOrder L] (plan : S → Plan L)

/-- How far a goroutine has come with a mutex. -/
def stance : Place S L → L → Stance
  | outside, _ => .absent
  | taking s held _ _, l => if l ∈ held then (plan s).mode.holding else .absent
  | waiting s held next _, l =>
      if l ∈ held then (plan s).mode.holding
      else if l = next then (plan s).mode.asking
      else .absent
  | inside s, l => if l ∈ (plan s).locks then (plan s).mode.holding else .absent
  | leaving s first rest, l => if l ∈ first :: rest then (plan s).mode.holding else .absent

/-- The place follows the plan of its section. -/
def Formed : Place S L → Prop
  | taking s held next rest => held ++ next :: rest = (plan s).locks
  | waiting s held next rest => held ++ next :: rest = (plan s).locks
  | leaving s first rest => first :: rest <:+ (plan s).locks.reverse
  | outside => True
  | inside _ => True

variable {plan} {s : S} {held rest : List L} {next : L}

theorem stance_proceed {held todo : List L} (locksEq : held ++ todo = (plan s).locks) (l : L) :
    (proceed s held todo).stance plan l = if l ∈ held then (plan s).mode.holding else .absent := by
  cases todo with
  | nil => simp only [proceed, stance, ← locksEq, List.append_nil]
  | cons next rest => rfl

theorem stance_retreat (s : S) (todo : List L) (l : L) :
    (retreat s todo).stance plan l = if l ∈ todo then (plan s).mode.holding else .absent := by
  cases todo with
  | nil => simp [retreat, stance]
  | cons first rest => rfl

theorem formed_proceed {held todo : List L} (locksEq : held ++ todo = (plan s).locks) :
    (proceed s held todo).Formed plan := by
  cases todo with
  | nil => trivial
  | cons next rest => exact locksEq

theorem formed_retreat {todo : List L} (suffix_ : todo <:+ (plan s).locks.reverse) :
    (retreat s todo).Formed plan := by
  cases todo with
  | nil => trivial
  | cons first rest => exact suffix_

/-- The mutexes that are held come before the next one. -/
theorem lt_next
    (locksEq : held ++ next :: rest = (plan s).locks) {l : L} (mem : l ∈ held) : l < next := by
  have increasing := (plan s).increasing
  rw [← locksEq, List.pairwise_append] at increasing
  exact increasing.2.2 l mem next List.mem_cons_self

theorem next_not_mem (locksEq : held ++ next :: rest = (plan s).locks) : next ∉ held :=
  fun mem => lt_irrefl _ (lt_next locksEq mem)

theorem first_not_mem {rest : List L} {first : L}
    (suffix_ : first :: rest <:+ (plan s).locks.reverse) : first ∉ rest := by
  have nodup : (plan s).locks.reverse.Nodup :=
    List.nodup_reverse.mpr ((plan s).increasing.imp ne_of_lt)
  exact (List.nodup_cons.mp (nodup.sublist suffix_.sublist)).1

theorem mem_of_holding_taking {next l : L} {mode : Mode}
    (holds : (taking s held next rest).stance plan l = mode.holding) : l ∈ held := by
  by_contra notHeld
  rw [stance, if_neg notHeld] at holds
  cases mode <;> cases holds

theorem mem_of_holding_waiting {next l : L} {mode : Mode}
    (holds : (waiting s held next rest).stance plan l = mode.holding) : l ∈ held := by
  by_contra notHeld
  rw [stance, if_neg notHeld] at holds
  split at holds
  · generalize (plan s).mode = other at holds
    cases mode <;> cases other <;> cases holds
  · cases mode <;> cases holds

theorem not_asking_taking {next l : L} (mode : Mode) :
    (taking s held next rest).stance plan l ≠ mode.asking := by
  rw [stance]
  split
  · generalize (plan s).mode = other
    cases mode <;> cases other <;> exact nofun
  · cases mode <;> exact nofun

theorem eq_next_of_asking {next l : L} {mode : Mode}
    (asks : (waiting s held next rest).stance plan l = mode.asking) :
    l = next ∧ (plan s).mode = mode := by
  rw [stance] at asks
  generalize (plan s).mode = other at asks ⊢
  split at asks
  · cases mode <;> cases other <;> cases asks
  · split at asks
    · next isNext =>
        refine ⟨isNext, ?_⟩
        cases mode <;> cases other <;> first | rfl | cases asks
    · cases mode <;> cases asks

end Plans

end Place

/-! ## Goroutines -/

/-- The mutexes, and where each goroutine is. -/
structure State (ι S L : Type) where
  mutex : L → RWMutex ι
  place : ι → Place S L

namespace State

/-- All mutexes are free. -/
def init : State ι S L :=
  ⟨fun _ => .free, fun _ => .outside⟩

variable [DecidableEq ι] [LinearOrder L]

/-- A goroutine moves to another place. -/
def put (st : State ι S L) (t : ι) (place : Place S L) : State ι S L :=
  { st with place := Function.update st.place t place }

/-- A goroutine changes a mutex and moves to another place. -/
def set (st : State ι S L) (t : ι) (l : L) (m : RWMutex ι) (place : Place S L) : State ι S L :=
  ⟨Function.update st.mutex l m, Function.update st.place t place⟩

omit [LinearOrder L] in
theorem put_place (st : State ι S L) (t : ι) (place : Place S L) :
    (st.put t place).place t = place := by
  simp only [put, Function.update_self]

theorem set_place (st : State ι S L) (t : ι) (l : L) (m : RWMutex ι) (place : Place S L) :
    (st.set t l m place).place t = place := by
  simp only [set, Function.update_self]

theorem put_eq_set (st : State ι S L) (t : ι) (l : L) (place : Place S L) :
    st.put t place = st.set t l (st.mutex l) place := by
  simp only [put, set, Function.update_eq_self]

variable (plan : S → Plan L)

/-- A goroutine outside all sections enters one. -/
def enter (st : State ι S L) (t : ι) (s : S) : State ι S L :=
  match st.place t with
  | .outside => st.put t (.proceed s [] (plan s).locks)
  | _ => st

/-- A goroutine goes on.  If it is blocked, nothing changes. -/
def goOn (st : State ι S L) (t : ι) : State ι S L :=
  match st.place t with
  | .outside => st
  | .taking s held next rest =>
      match (plan s).mode, (st.mutex next).writer with
      | .write, none => st.set t next ((st.mutex next).pass t) (.waiting s held next rest)
      | .write, some _ => st
      | .read, none => st.set t next ((st.mutex next).read t) (.proceed s (held ++ [next]) rest)
      | .read, some _ => st.set t next ((st.mutex next).park t) (.waiting s held next rest)
  | .waiting s held next rest =>
      match (plan s).mode with
      | .write =>
          if (st.mutex next).readers = [] then st.put t (.proceed s (held ++ [next]) rest) else st
      | .read =>
          if t ∈ (st.mutex next).readers then st.put t (.proceed s (held ++ [next]) rest) else st
  | .inside s => st.put t (.retreat s (plan s).locks.reverse)
  | .leaving s first rest =>
      match (plan s).mode with
      | .write => st.set t first (st.mutex first).unlock (.retreat s rest)
      | .read => st.set t first ((st.mutex first).rUnlock t) (.retreat s rest)

/-- One turn of a goroutine, which enters a section or goes on. -/
def step (st : State ι S L) (turn : ι × Option S) : State ι S L :=
  match turn.2 with
  | some s => st.enter plan turn.1 s
  | none => st.goOn plan turn.1

/-- All places follow their plans, and the mutexes agree with the places. -/
structure Inv (st : State ι S L) : Prop where
  formed : ∀ t, (st.place t).Formed plan
  agree : ∀ l, Agree (st.mutex l) fun t => (st.place t).stance plan l

/-- What a turn does: nothing, a move that concerns no mutex, or one step with one mutex. -/
inductive Turn (st : State ι S L) (t : ι) : State ι S L → Prop where
  | stay : Turn st t st
  | shift {place : Place S L} (formed : place.Formed plan)
      (same : ∀ l, place.stance plan l = (st.place t).stance plan l) : Turn st t (st.put t place)
  | act {place : Place S L} {l : L} {m : RWMutex ι} (formed : place.Formed plan)
      (moved : Move t (st.mutex l) ((st.place t).stance plan l) m (place.stance plan l))
      (same : ∀ other, other ≠ l → place.stance plan other = (st.place t).stance plan other) :
      Turn st t (st.set t l m place)

variable {plan} {t : ι} {s : S} {held rest : List L} {next : L}

/-- Other goroutines stay where they are. -/
theorem Turn.place_of_ne {st next : State ι S L} {t u : ι} (turned : Turn plan st t next)
    (ne : u ≠ t) : next.place u = st.place u := by
  cases turned with
  | stay => rfl
  | shift | act => exact Function.update_of_ne ne _ _

theorem enter_turn (st : State ι S L) (t : ι) (s : S) : Turn plan st t (st.enter plan t s) := by
  unfold enter
  split
  · next isOutside =>
      refine .shift (Place.formed_proceed (List.nil_append _)) fun l => ?_
      rw [Place.stance_proceed (List.nil_append _), isOutside]
      exact if_neg List.not_mem_nil
  · exact .stay

/-- The places a goroutine may go on to. -/
inductive Next : Place S L → Place S L → Prop where
  | stay (place : Place S L) : Next place place
  | ask (s : S) (held : List L) (next : L) (rest : List L) :
      Next (.taking s held next rest) (.waiting s held next rest)
  | read (s : S) (held : List L) (next : L) (rest : List L) :
      Next (.taking s held next rest) (.proceed s (held ++ [next]) rest)
  | lock (s : S) (held : List L) (next : L) (rest : List L) :
      Next (.waiting s held next rest) (.proceed s (held ++ [next]) rest)
  | leave (s : S) (todo : List L) : Next (.inside s) (.retreat s todo)
  | unlock (s : S) (first : L) (rest : List L) : Next (.leaving s first rest) (.retreat s rest)

theorem goOn_next (st : State ι S L) (t : ι) :
    Next (st.place t) ((st.goOn plan t).place t) := by
  unfold goOn
  cases placeEq : st.place t with
  | outside =>
      dsimp only
      exact placeEq ▸ .stay _
  | taking s held next rest =>
      dsimp only
      split
      · rw [set_place]
        exact .ask s held next rest
      · exact placeEq ▸ .stay _
      · rw [set_place]
        exact .read s held next rest
      · rw [set_place]
        exact .ask s held next rest
  | waiting s held next rest =>
      dsimp only
      split
      · split
        · rw [put_place]
          exact .lock s held next rest
        · exact placeEq ▸ .stay _
      · split
        · rw [put_place]
          exact .lock s held next rest
        · exact placeEq ▸ .stay _
  | inside s =>
      dsimp only
      rw [put_place]
      exact .leave s _
  | leaving s first rest =>
      dsimp only
      split
      · rw [set_place]
        exact .unlock s first rest
      · rw [set_place]
        exact .unlock s first rest

/-- Locking the next mutex. -/
theorem Turn.proceed {st : State ι S L}
    (locksEq : held ++ next :: rest = (plan s).locks) {m : RWMutex ι}
    (moved : Move t (st.mutex next) ((st.place t).stance plan next) m (plan s).mode.holding)
    (same : ∀ other, other ≠ next → (st.place t).stance plan other =
      if other ∈ held then (plan s).mode.holding else .absent) :
    Turn plan st t (st.set t next m (.proceed s (held ++ [next]) rest)) := by
  have split : held ++ [next] ++ rest = (plan s).locks := by
    rw [List.append_assoc]
    exact locksEq
  refine .act (Place.formed_proceed split) ?_ fun other ne => ?_
  · rw [Place.stance_proceed split, if_pos (by simp)]
    exact moved
  · rw [Place.stance_proceed split, same other ne]
    simp [ne]

/-- Waiting for the next mutex. -/
theorem Turn.ask {st : State ι S L} (isTaking : st.place t = .taking s held next rest)
    (locksEq : held ++ next :: rest = (plan s).locks) {m : RWMutex ι}
    (moved : Move t (st.mutex next) .absent m (plan s).mode.asking) :
    Turn plan st t (st.set t next m (.waiting s held next rest)) := by
  have notHeld := Place.next_not_mem locksEq
  refine .act locksEq ?_ fun other ne => ?_
  · rw [isTaking]
    simpa [Place.stance, notHeld] using moved
  · simp [isTaking, Place.stance, ne]

/-- Giving a mutex back. -/
theorem Turn.retreat {st : State ι S L} {rest : List L} {first : L}
    (isLeaving : st.place t = .leaving s first rest)
    (suffix_ : first :: rest <:+ (plan s).locks.reverse) {m : RWMutex ι}
    (moved : Move t (st.mutex first) (plan s).mode.holding m .absent) :
    Turn plan st t (st.set t first m (.retreat s rest)) := by
  have notHeld := Place.first_not_mem suffix_
  refine .act (Place.formed_retreat ((List.suffix_cons first rest).trans suffix_)) ?_
    fun other ne => ?_
  · rw [isLeaving, Place.stance_retreat, if_neg notHeld]
    simpa [Place.stance] using moved
  · rw [Place.stance_retreat, isLeaving]
    simp [Place.stance, ne]

theorem goOn_turn {st : State ι S L} (t : ι) (formed : (st.place t).Formed plan) :
    Turn plan st t (st.goOn plan t) := by
  unfold goOn
  cases placeEq : st.place t with
  | outside => exact .stay
  | taking s held next rest =>
      rw [placeEq] at formed
      have absent : (st.place t).stance plan next = .absent := by
        simp [placeEq, Place.stance, Place.next_not_mem formed]
      have same : ∀ other, other ≠ next → (st.place t).stance plan other =
          if other ∈ held then (plan s).mode.holding else .absent := by
        simp [placeEq, Place.stance]
      cases modeEq : (plan s).mode with
      | write =>
          cases writerEq : (st.mutex next).writer with
          | none =>
              simp only [modeEq, writerEq]
              refine .ask placeEq formed ?_
              rw [modeEq]
              exact .pass writerEq
          | some _ =>
              simp only [modeEq, writerEq]
              exact .stay
      | read =>
          cases writerEq : (st.mutex next).writer with
          | none =>
              simp only [modeEq, writerEq]
              refine .proceed formed ?_ same
              rw [absent, modeEq]
              exact .read writerEq
          | some u =>
              simp only [modeEq, writerEq]
              refine .ask placeEq formed ?_
              rw [modeEq]
              exact .park (writerEq ▸ Option.some_ne_none u)
  | waiting s held next rest =>
      rw [placeEq] at formed
      have asking : (st.place t).stance plan next = (plan s).mode.asking := by
        simp [placeEq, Place.stance, Place.next_not_mem formed]
      have same : ∀ other, other ≠ next → (st.place t).stance plan other =
          if other ∈ held then (plan s).mode.holding else .absent := by
        intro other ne
        simp [placeEq, Place.stance, ne]
      cases modeEq : (plan s).mode with
      | write =>
          simp only [modeEq]
          split
          · next drained =>
              rw [put_eq_set st t next]
              refine .proceed formed ?_ same
              rw [asking, modeEq]
              exact .lock drained
          · exact .stay
      | read =>
          simp only [modeEq]
          split
          · next mem =>
              rw [put_eq_set st t next]
              refine .proceed formed ?_ same
              rw [asking, modeEq]
              exact .wake mem
          · exact .stay
  | inside s =>
      refine .shift (Place.formed_retreat (List.suffix_refl _)) fun l => ?_
      rw [Place.stance_retreat, placeEq]
      simp [Place.stance]
  | leaving s first rest =>
      rw [placeEq] at formed
      cases modeEq : (plan s).mode with
      | write =>
          simp only [modeEq]
          refine .retreat placeEq formed ?_
          rw [modeEq]
          exact .unlock
      | read =>
          simp only [modeEq]
          refine .retreat placeEq formed ?_
          rw [modeEq]
          exact .rUnlock

theorem step_turn {st : State ι S L} (inv : st.Inv plan) (turn : ι × Option S) :
    Turn plan st turn.1 (st.step plan turn) := by
  rcases turn with ⟨t, _ | s⟩
  · exact goOn_turn t (inv.formed t)
  · exact enter_turn st t s

namespace Inv

omit [DecidableEq ι] in
theorem init : (init : State ι S L).Inv plan where
  formed _ := trivial
  agree _ := .free

variable {st next : State ι S L}

theorem turn (inv : st.Inv plan) {t : ι} (turned : Turn plan st t next) : next.Inv plan := by
  have formed : ∀ {place : Place S L}, place.Formed plan →
      ∀ u, (Function.update st.place t place u).Formed plan := by
    intro place placeFormed u
    by_cases same : u = t
    · rwa [same, Function.update_self]
    · rw [Function.update_of_ne same]
      exact inv.formed u
  have stances : ∀ (place : Place S L) l,
      (fun u => (Function.update st.place t place u).stance plan l) =
        Function.update (fun u => (st.place u).stance plan l) t (place.stance plan l) := by
    intro place l
    exact Function.comp_update (fun place : Place S L => place.stance plan l) st.place t place
  have unmoved : ∀ (place : Place S L) l, place.stance plan l = (st.place t).stance plan l →
      Agree (st.mutex l) fun u => (Function.update st.place t place u).stance plan l := by
    intro place l same
    rw [stances, same, Function.update_eq_self]
    exact inv.agree l
  cases turned with
  | stay => exact inv
  | @shift place placeFormed same => exact ⟨formed placeFormed, fun l => unmoved place l (same l)⟩
  | @act place l m placeFormed moved same =>
      refine ⟨formed placeFormed, fun other => ?_⟩
      change Agree (Function.update st.mutex l m other) _
      by_cases isMoved : other = l
      · subst isMoved
        rw [Function.update_self]
        exact (stances place other) ▸ (inv.agree other).move moved
      · rw [Function.update_of_ne isMoved]
        exact unmoved place other (same other isMoved)

theorem run (inv : st.Inv plan) (turns : List (ι × Option S)) :
    (turns.foldl (step plan) st).Inv plan := by
  induction turns generalizing st with
  | nil => exact inv
  | cons first rest ih => exact ih (inv.turn (step_turn inv first))

end Inv

/-! ## Waiting -/

variable (plan)

/-- What a blocked goroutine waits for. -/
inductive Waits (st : State ι S L) : ι → ι → Prop where
  | forWriter {t u : ι} {s : S} {held rest : List L} {next : L}
      (isTaking : st.place t = .taking s held next rest) (writes : (plan s).mode = .write)
      (taken : (st.mutex next).writer = some u) : Waits st t u
  | forReader {t u : ι} {s : S} {held rest : List L} {next : L}
      (isWaiting : st.place t = .waiting s held next rest) (writes : (plan s).mode = .write)
      (reads : u ∈ (st.mutex next).readers) : Waits st t u
  | parked {t u : ι} {s : S} {held rest : List L} {next : L}
      (isWaiting : st.place t = .waiting s held next rest) (reads : (plan s).mode = .read)
      (notYet : t ∉ (st.mutex next).readers) (taken : (st.mutex next).writer = some u) :
      Waits st t u

/-- How far a goroutine on its way into a section has come, by the mutex it needs next and
then by whether it has passed as a writer. -/
def rank : Place S L → WithBot L ×ₗ Nat
  | .taking _ _ next _ => toLex (next, 0)
  | .waiting s _ next _ => toLex (next, if (plan s).mode = .write then 1 else 0)
  | _ => toLex (⊥, 0)

variable {plan} {st : State ι S L} {t : ι} {s : S} {held rest : List L} {next : L}

omit [DecidableEq ι] in
/-- A blocked goroutine is in a call that locks a mutex. -/
theorem Waits.place_eq {t u : ι} (waits : Waits plan st t u) : ∃ s held next rest,
    st.place t = .taking s held next rest ∧ (plan s).mode = .write ∨
      st.place t = .waiting s held next rest ∧
        ((plan s).mode = .read → t ∉ (st.mutex next).readers) := by
  cases waits with
  | forWriter isTaking writes _ => exact ⟨_, _, _, _, .inl ⟨isTaking, writes⟩⟩
  | forReader isWaiting writes _ =>
      refine ⟨_, _, _, _, .inr ⟨isWaiting, fun reads => ?_⟩⟩
      cases writes.symm.trans reads
  | parked isWaiting _ notYet _ => exact ⟨_, _, _, _, .inr ⟨isWaiting, fun _ => notYet⟩⟩

omit [DecidableEq ι] in
/-- It has come further than to a mutex that it holds. -/
theorem Waits.lt_rank {t u : ι} (waits : Waits plan st t u) (inv : st.Inv plan) {l : L}
    (mode : Mode) (holds : (st.place t).stance plan l = mode.holding) (n : Nat) :
    toLex ((l : WithBot L), n) < rank plan (st.place t) := by
  have formed := inv.formed t
  have later : ∀ {next : L} {m : Nat}, l < next →
      toLex ((l : WithBot L), n) < toLex ((next : WithBot L), m) :=
    fun lt => Prod.Lex.toLex_lt_toLex.mpr (.inl (WithBot.coe_lt_coe.mpr lt))
  rcases waits.place_eq with ⟨s, held, next, rest, ⟨placeEq, -⟩ | ⟨placeEq, -⟩⟩
  · rw [placeEq] at formed holds ⊢
    exact later (Place.lt_next formed (Place.mem_of_holding_taking holds))
  · rw [placeEq] at formed holds ⊢
    exact later (Place.lt_next formed (Place.mem_of_holding_waiting holds))

omit [DecidableEq ι] in
/-- A mutex that it has begun to lock is the next one. -/
theorem Waits.asking {t u : ι} (waits : Waits plan st t u) {l : L} (mode : Mode)
    (asks : (st.place t).stance plan l = mode.asking) : ∃ s held rest,
      st.place t = .waiting s held l rest ∧ (plan s).mode = mode ∧
        (mode = .read → t ∉ (st.mutex l).readers) := by
  rcases waits.place_eq with ⟨s, held, next, rest, ⟨placeEq, -⟩ | ⟨placeEq, notYet⟩⟩
  · rw [placeEq] at asks
    exact absurd asks (Place.not_asking_taking mode)
  · rw [placeEq] at asks
    rcases Place.eq_next_of_asking asks with ⟨rfl, rfl⟩
    exact ⟨s, held, rest, placeEq, rfl, notYet⟩

omit [DecidableEq ι] in
/-- A goroutine that has passed as a writer at a mutex has come further than one that waits
for it there. -/
theorem Waits.lt_of_writer {u v : ι} (waits : Waits plan st u v) (inv : st.Inv plan) {l : L}
    (taken : (st.mutex l).writer = some u) :
    toLex ((l : WithBot L), 0) < rank plan (st.place u) := by
  rcases ((inv.agree l).writer u).mp taken with passed | writing
  · rcases waits.asking .write passed with ⟨s, held, rest, placeEq, writes, -⟩
    rw [placeEq, rank, if_pos writes]
    exact Prod.Lex.toLex_lt_toLex.mpr (.inr ⟨rfl, Nat.zero_lt_one⟩)
  · exact waits.lt_rank inv .write writing 0

omit [DecidableEq ι] in
theorem Waits.rank_lt {t u v : ι} (inv : st.Inv plan) (first : Waits plan st t u)
    (second : Waits plan st u v) : rank plan (st.place t) < rank plan (st.place u) := by
  cases first with
  | forWriter isTaking _ taken =>
      rw [isTaking]
      exact second.lt_of_writer inv taken
  | @forReader s held rest next isWaiting writes reads =>
      rw [isWaiting, rank, if_pos writes]
      rcases (inv.agree next).reader u reads with isParked | reading
      · rcases second.asking .read isParked with ⟨_, _, _, _, _, notReader⟩
        exact absurd reads (notReader rfl)
      · exact second.lt_rank inv .read reading 1
  | @parked s held rest next isWaiting reads _ taken =>
      have notWrite : ¬ (plan s).mode = .write := by
        rw [reads]
        exact nofun
      rw [isWaiting, rank, if_neg notWrite]
      exact second.lt_of_writer inv taken

omit [DecidableEq ι] in
/-- Goroutines do not wait for each other in a circle. -/
theorem Inv.no_circle (inv : st.Inv plan) (t : ι) : ¬ Relation.TransGen (Waits plan st) t t := by
  have increases : ∀ u v, Relation.TransGen (Waits plan st) u v → ∀ w, Waits plan st v w →
      rank plan (st.place u) < rank plan (st.place v) := by
    intro u v path
    induction path with
    | single edge => exact fun w last => edge.rank_lt inv last
    | tail _ edge ih => exact fun w last => (ih _ edge).trans (edge.rank_lt inv last)
  intro circle
  rcases (Relation.TransGen.head'_iff.mp circle) with ⟨next, edge, -⟩
  exact lt_irrefl _ (increases t t circle next edge)

omit [DecidableEq ι] in
theorem Inv.parked_waits (inv : st.Inv plan)
    (isWaiting : st.place t = .waiting s held next rest) (reads : (plan s).mode = .read)
    (notYet : t ∉ (st.mutex next).readers) : ∃ u, Waits plan st t u := by
  have formed := inv.formed t
  rw [isWaiting] at formed
  have isParked : (st.place t).stance plan next = .parked := by
    simp [isWaiting, Place.stance, Place.next_not_mem formed, reads, Mode.asking]
  have taken := ((inv.agree next).blocked t isParked notYet).2
  rcases Option.ne_none_iff_exists'.mp taken with ⟨u, writerEq⟩
  exact ⟨u, .parked isWaiting reads notYet writerEq⟩

/-- A goroutine on its way into or out of a section goes on, unless it waits for another one. -/
theorem Inv.moves (inv : st.Inv plan) (busy : st.place t ≠ .outside)
    (alone : ∀ u, u ≠ t → ¬ Waits plan st t u) :
    (st.goOn plan t).place t ≠ st.place t := by
  have free : ∀ u, ¬ Waits plan st t u := by
    intro u waits
    by_cases same : u = t
    · exact inv.no_circle t (.single (same ▸ waits))
    · exact alone u same waits
  unfold goOn
  cases placeEq : st.place t with
  | outside => exact absurd placeEq busy
  | taking s held next rest =>
      cases modeEq : (plan s).mode <;> cases writerEq : (st.mutex next).writer <;>
        simp only [modeEq, writerEq]
      · rw [set_place]
        cases rest <;> simp [Place.proceed]
      · rw [set_place]
        exact nofun
      · rw [set_place]
        exact nofun
      · exact absurd (.forWriter placeEq modeEq writerEq) (free _)
  | waiting s held next rest =>
      have proceeds : ∀ todo,
          Place.proceed s (held ++ [next]) todo ≠ .waiting s held next rest := by
        intro todo
        cases todo <;> exact nofun
      cases modeEq : (plan s).mode <;> simp only [modeEq]
      · by_cases mem : t ∈ (st.mutex next).readers
        · rw [if_pos mem, put_place]
          exact proceeds rest
        · rcases inv.parked_waits placeEq modeEq mem with ⟨u, waits⟩
          exact absurd waits (free u)
      · by_cases drained : (st.mutex next).readers = []
        · rw [if_pos drained, put_place]
          exact proceeds rest
        · rcases List.exists_mem_of_ne_nil _ drained with ⟨u, mem⟩
          exact absurd (.forReader placeEq modeEq mem) (free u)
  | inside s =>
      simp only
      rw [put_place]
      cases (plan s).locks.reverse <;> exact nofun
  | leaving s first rest =>
      have retreats : Place.retreat s rest ≠ .leaving s first rest := by
        cases rest <;> simp [Place.retreat]
      cases modeEq : (plan s).mode <;> simp only [modeEq] <;> rw [set_place] <;> exact retreats

/-- A writer takes its next mutex in two turns if the mutex is free. -/
theorem goOn_lock
    (writes : (plan s).mode = .write) (isTaking : st.place t = .taking s held next rest)
    (noWriter : (st.mutex next).writer = none) (noReader : (st.mutex next).readers = []) :
    (((st.goOn plan t).goOn plan t).mutex next).writer = some t ∧
      ((st.goOn plan t).goOn plan t).place t = .proceed s (held ++ [next]) rest := by
  have passes : st.goOn plan t =
      st.set t next ((st.mutex next).pass t) (.waiting s held next rest) := by
    simp only [goOn, isTaking, writes, noWriter]
  have locks : (st.goOn plan t).goOn plan t =
      (st.goOn plan t).put t (.proceed s (held ++ [next]) rest) := by
    rw [passes]
    simp only [goOn, writes, set, Function.update_self, RWMutex.pass, noReader, if_true]
  rw [locks]
  refine ⟨?_, put_place _ _ _⟩
  rw [passes]
  simp only [put, set, Function.update_self, RWMutex.pass]

end State

end BriseDB.Locking
