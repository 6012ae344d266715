import BriseDB.Base.Locking
import Mathlib.Data.List.Induction

/-!
# What critical sections do

Each of a group of calls runs one critical section.  Inside, it carries out the actions of
its body one after the other, and an action that fails ends the section.  The mutexes that a
call locks guard its actions.

A call that finds one action of a section done under a mutex finds the whole section done.
-/

namespace BriseDB.Locking

/-- An action that has been carried out. -/
structure Event (ι A X : Type) where
  call : ι
  act : A
  input : X
  ok : Bool

/-- Calls at work.  `todo` is what a call that has begun has still to do, and `history` lists
the actions in the order in which they have been carried out. -/
structure Work (ι L A X D : Type) where
  locks : State ι ι L
  todo : ι → Option (List A)
  data : D
  history : List (Event ι A X)

namespace Work

variable {ι L A X D : Type}

/-- No call has begun. -/
def init (data : D) : Work ι L A X D :=
  ⟨.init, fun _ => none, data, []⟩

variable [DecidableEq ι] [LinearOrder L] (plan : ι → Plan L) (body : ι → List A)
  (act : A → X → D → Bool × D)

/-- A call carries out an action. -/
def perform (w : Work ι L A X D) (c : ι) (a : A) (rest : List A) (input : X) : Work ι L A X D :=
  let result := act a input w.data
  { w with
    todo := Function.update w.todo c (some (if result.1 then rest else []))
    data := result.2
    history := w.history ++ [⟨c, a, input, result.1⟩] }

/-- A call begins. -/
def start (w : Work ι L A X D) (c : ι) : Work ι L A X D :=
  { w with
    locks := w.locks.enter plan c c
    todo := Function.update w.todo c (some (body c)) }

/-- One turn of a call.  `input` is what an action meets, if it is carried out. -/
def step (w : Work ι L A X D) (turn : ι × X) : Work ι L A X D :=
  match w.todo turn.1, w.locks.place turn.1 with
  | none, _ => w.start plan body turn.1
  | some (a :: rest), .inside _ => w.perform act turn.1 a rest turn.2
  | some _, _ => { w with locks := w.locks.goOn plan turn.1 }

/-- Calls take turns. -/
def run (w : Work ι L A X D) (turns : List (ι × X)) : Work ι L A X D :=
  turns.foldl (step plan body act) w

/-- The data after the actions of a history. -/
def replay (data : D) (history : List (Event ι A X)) : D :=
  history.foldl (fun data e => (act e.act e.input data).2) data

/-- The actions that a call has carried out. -/
def doneBy (c : ι) (history : List (Event ι A X)) : List A :=
  (history.filter (·.call = c)).map Event.act

omit [LinearOrder L] in
variable {act} in
theorem doneBy_append (c : ι) (history : List (Event ι A X)) (e : Event ι A X) :
    doneBy c (history ++ [e]) = doneBy c history ++ if e.call = c then [e.act] else [] := by
  unfold doneBy
  split <;> simp [*]

/-- Where a call is, what it has done and what it has still to do. -/
def Fits (c : ι) (done rest : List A) : Place ι L → Prop
  | .outside => rest = [] ∧ done = body c
  | .taking s _ _ _ => s = c ∧ rest = body c ∧ done = []
  | .waiting s _ _ _ => s = c ∧ rest = body c ∧ done = []
  | .inside s => s = c ∧ done ++ rest = body c
  | .leaving s _ _ => s = c ∧ rest = [] ∧ done = body c

/-- A call that has not begun has done nothing, and as long as no action has failed, each call
that has begun does its body. -/
structure Inv (w : Work ι L A X D) : Prop where
  locks : w.locks.Inv plan
  idle : ∀ c, w.todo c = none → w.locks.place c = .outside ∧ doneBy c w.history = []
  busy : (∀ e ∈ w.history, e.ok = true) → ∀ c rest, w.todo c = some rest →
    Fits body c (doneBy c w.history) rest (w.locks.place c)

variable {plan body act}

omit [DecidableEq ι] [LinearOrder L] in
theorem fits_proceed {c s : ι} {rest : List A} {held todo : List L} (same : s = c)
    (all : rest = body c) : Fits body c [] rest (Place.proceed s held todo) := by
  cases todo with
  | nil => exact ⟨same, all⟩
  | cons => exact ⟨same, all, rfl⟩

omit [DecidableEq ι] [LinearOrder L] in
theorem fits_retreat {c s : ι} {done : List A} {todo : List L} (same : s = c)
    (all : done = body c) : Fits body c done [] (Place.retreat s todo) := by
  cases todo with
  | nil => exact ⟨rfl, all⟩
  | cons => exact ⟨same, rfl, all⟩

omit [DecidableEq ι] [LinearOrder L] in
/-- Going on, except out of a section with actions left. -/
theorem Fits.next {c : ι} {done rest : List A} {place later : Place ι L}
    (fits : Fits body c done rest place) (next : State.Next place later)
    (finished : ∀ s, place = .inside s → rest = []) : Fits body c done rest later := by
  cases next with
  | stay => exact fits
  | ask => exact fits
  | read =>
      rcases fits with ⟨same, all, rfl⟩
      exact fits_proceed same all
  | lock =>
      rcases fits with ⟨same, all, rfl⟩
      exact fits_proceed same all
  | leave s =>
      obtain rfl := finished s rfl
      exact fits_retreat fits.1 ((List.append_nil _).symm.trans fits.2)
  | unlock =>
      rcases fits with ⟨same, rfl, all⟩
      exact fits_retreat same all

omit [DecidableEq ι] [LinearOrder L] in
/-- What has been done is the beginning of the body. -/
theorem Fits.prefix_ {c : ι} {done rest : List A} {place : Place ι L}
    (fits : Fits body c done rest place) : done <+: body c := by
  cases place with
  | outside => exact fits.2 ▸ List.prefix_refl _
  | taking | waiting => exact fits.2.2 ▸ List.nil_prefix
  | inside => exact ⟨rest, fits.2⟩
  | leaving => exact fits.2.2 ▸ List.prefix_refl _

namespace Inv

variable {w : Work ι L A X D}

omit [DecidableEq ι] in
theorem init [DecidableEq ι] (data : D) : (init data : Work ι L A X D).Inv plan body where
  locks := .init
  idle _ _ := ⟨rfl, rfl⟩
  busy _ _ _ := nofun

theorem start (inv : w.Inv plan body) {c : ι} (idle : w.todo c = none) :
    (w.start plan body c).Inv plan body := by
  have turned : State.Turn plan w.locks c _ := State.enter_turn w.locks c c
  rcases inv.idle c idle with ⟨isOutside, nothing⟩
  refine ⟨inv.locks.turn turned, fun other idle => ?_, fun allOk other rest begun => ?_⟩
  · by_cases same : other = c
    · subst same
      cases (Function.update_self other _ w.todo).symm.trans idle
    · rw [show (w.start plan body c).locks.place other = _ from turned.place_of_ne same]
      exact inv.idle other ((Function.update_of_ne same _ _).symm.trans idle)
  · by_cases same : other = c
    · subst same
      obtain rfl := Option.some.inj ((Function.update_self other _ w.todo).symm.trans begun)
      have entered : (w.start plan body other).locks.place other =
          .proceed other [] (plan other).locks := by
        simp only [Work.start, State.enter, isOutside]
        exact Function.update_self other _ _
      rw [entered, show doneBy other (w.start plan body other).history = [] from nothing]
      exact fits_proceed rfl rfl
    · rw [show (w.start plan body c).locks.place other = _ from turned.place_of_ne same]
      exact inv.busy allOk other rest ((Function.update_of_ne same _ _).symm.trans begun)

theorem goOn (inv : w.Inv plan body) {c : ι} {rest : List A} (begun : w.todo c = some rest)
    (finished : ∀ s, w.locks.place c = .inside s → rest = []) :
    Inv plan body { w with locks := w.locks.goOn plan c } := by
  have turned := State.goOn_turn c (inv.locks.formed c)
  refine ⟨inv.locks.turn turned, fun other idle => ?_, fun allOk other left leftEq => ?_⟩
  · have ne : other ≠ c := by
      rintro rfl
      cases begun.symm.trans idle
    rw [turned.place_of_ne ne]
    exact inv.idle other idle
  · by_cases same : other = c
    · subst same
      obtain rfl := Option.some.inj (begun.symm.trans leftEq)
      exact (inv.busy allOk other rest begun).next (State.goOn_next w.locks other) finished
    · rw [turned.place_of_ne same]
      exact inv.busy allOk other left leftEq

theorem perform (inv : w.Inv plan body) {c s : ι} {a : A} {rest : List A}
    (begun : w.todo c = some (a :: rest)) (isInside : w.locks.place c = .inside s) (input : X) :
    (w.perform act c a rest input).Inv plan body := by
  refine ⟨inv.locks, fun other idle => ?_, fun allOk other left leftEq => ?_⟩
  · have ne : other ≠ c := by
      rintro rfl
      cases (Function.update_self other _ w.todo).symm.trans idle
    rcases inv.idle other ((Function.update_of_ne ne _ _).symm.trans idle) with
      ⟨isOutside, nothing⟩
    refine ⟨isOutside, ?_⟩
    rw [Work.perform, doneBy_append, nothing, if_neg ne.symm, List.nil_append]
  · have allOkBefore : ∀ e ∈ w.history, e.ok = true :=
      fun e mem => allOk e (List.mem_append_left _ mem)
    have isOk : (act a input w.data).1 = true :=
      allOk _ (List.mem_append_right _ (List.mem_singleton_self _))
    by_cases same : other = c
    · subst same
      have leftIs : left = rest := by
        have updated := (Function.update_self other _ w.todo).symm.trans leftEq
        rw [if_pos isOk] at updated
        exact (Option.some.inj updated).symm
      have fits := inv.busy allOkBefore other _ begun
      rw [isInside] at fits
      rw [Work.perform, doneBy_append, if_pos rfl, leftIs]
      change Fits body other _ rest (w.locks.place other)
      rw [isInside]
      refine ⟨fits.1, ?_⟩
      rw [List.append_assoc]
      exact fits.2
    · have doneEq : doneBy other (w.perform act c a rest input).history =
          doneBy other w.history := by
        rw [Work.perform, doneBy_append, if_neg (Ne.symm same), List.append_nil]
      rw [doneEq]
      exact inv.busy allOkBefore other left ((Function.update_of_ne same _ _).symm.trans leftEq)

theorem step (inv : w.Inv plan body) (turn : ι × X) :
    (w.step plan body act turn).Inv plan body := by
  unfold Work.step
  split
  · next idle => exact inv.start idle
  · next begun isInside => exact inv.perform begun isInside turn.2
  · next left begun notBoth =>
      refine inv.goOn begun fun s isInside => ?_
      cases left with
      | nil => rfl
      | cons a others => exact (notBoth a others s isInside rfl).elim

theorem run (inv : w.Inv plan body) (turns : List (ι × X)) :
    (w.run plan body act turns).Inv plan body := by
  induction turns generalizing w with
  | nil => exact inv
  | cons first rest ih => exact ih (inv.step first)

/-- A call carries out only actions of its body. -/
theorem mem_body (inv : w.Inv plan body) (allOk : ∀ e ∈ w.history, e.ok = true)
    {e : Event ι A X} (mem : e ∈ w.history) : e.act ∈ body e.call := by
  have done : e.act ∈ doneBy e.call w.history := by
    refine List.mem_map_of_mem (List.mem_filter.mpr ⟨mem, ?_⟩)
    exact decide_eq_true rfl
  cases begun : w.todo e.call with
  | none =>
      rw [(inv.idle e.call begun).2] at done
      cases done
  | some rest =>
      exact ((inv.busy allOk e.call rest begun).prefix_).subset done

/-- A call that is inside its section finds all of another section done of which it finds an
action done, if the other locks one of its mutexes for writing. -/
theorem whole (inv : w.Inv plan body) (allOk : ∀ e ∈ w.history, e.ok = true) {reader c : ι}
    (isInside : w.locks.place reader = .inside reader) (ne : c ≠ reader) {l : L}
    (ownLock : l ∈ (plan reader).locks) (lock : l ∈ (plan c).locks)
    (writes : (plan c).mode = .write)
    {e : Event ι A X} (mem : e ∈ w.history) (isCall : e.call = c) :
    doneBy c w.history = body c := by
  have some_ : doneBy c w.history ≠ [] := by
    refine List.ne_nil_of_mem (List.mem_map_of_mem (List.mem_filter.mpr ⟨mem, ?_⟩))
    exact decide_eq_true isCall
  cases begun : w.todo c with
  | none => exact absurd (inv.idle c begun).2 some_
  | some rest =>
      have fits := inv.busy allOk c rest begun
      cases placeEq : w.locks.place c with
      | outside =>
          rw [placeEq] at fits
          exact fits.2
      | taking | waiting =>
          rw [placeEq] at fits
          exact absurd fits.2.2 some_
      | leaving =>
          rw [placeEq] at fits
          exact fits.2.2
      | inside s =>
          rw [placeEq] at fits
          obtain rfl := fits.1
          -- both would hold the mutex
          have holds : (w.locks.place s).stance plan l = .writing := by
            rw [placeEq, Place.stance, if_pos lock, writes]
            rfl
          have other : (w.locks.place reader).stance plan l = .writing ∨
              (w.locks.place reader).stance plan l = .reading := by
            rw [isInside, Place.stance, if_pos ownLock]
            cases (plan reader).mode with
            | read => exact .inr rfl
            | write => exact .inl rfl
          exact absurd ((inv.locks.agree l).alone holds other).symm ne

end Inv

/-- A turn adds nothing to the history, or one event with its effect on the data. -/
theorem step_cases (w : Work ι L A X D) (turn : ι × X) :
    ((w.step plan body act turn).history = w.history ∧
        (w.step plan body act turn).data = w.data) ∨
      ∃ e, (w.step plan body act turn).history = w.history ++ [e] ∧
        (w.step plan body act turn).data = (act e.act e.input w.data).2 := by
  unfold step
  split
  · exact .inl ⟨rfl, rfl⟩
  · exact .inr ⟨_, rfl, rfl⟩
  · exact .inl ⟨rfl, rfl⟩

/-- The data is what the history makes of it. -/
theorem data_run (data : D) (turns : List (ι × X)) :
    ((init data : Work ι L A X D).run plan body act turns).data =
      replay act data ((init data : Work ι L A X D).run plan body act turns).history := by
  induction turns using List.reverseRecOn with
  | nil => rfl
  | append_singleton rest turn ih =>
      rw [run, List.foldl_append]
      change (step plan body act (run plan body act _ rest) turn).data = replay act data
        (step plan body act (run plan body act _ rest) turn).history
      rcases step_cases (run plan body act _ rest) turn with ⟨historyEq, dataEq⟩ |
        ⟨e, historyEq, dataEq⟩
      · rw [historyEq, dataEq, ih]
      · rw [historyEq, dataEq, ih, replay, replay, List.foldl_append]
        rfl

theorem history_prefix (w : Work ι L A X D) (turns : List (ι × X)) :
    w.history <+: (w.run plan body act turns).history := by
  induction turns generalizing w with
  | nil => exact List.prefix_refl _
  | cons turn rest ih =>
      refine List.IsPrefix.trans ?_ (ih (w.step plan body act turn))
      rcases step_cases w turn with ⟨historyEq, -⟩ | ⟨e, historyEq, -⟩
      · exact historyEq ▸ List.prefix_refl _
      · exact historyEq ▸ List.prefix_append _ _

end Work

end BriseDB.Locking
