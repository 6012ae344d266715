import BriseDB.Server.Commands
import BriseDB.Store.Durations
import BriseDB.Store.Expiry

/-!
# Expiries given in seconds

`SET key value EX n` passes `n` seconds on as a 64-bit number of nanoseconds, adds it to
the clock reading, and stores the sum as a 64-bit number of nanoseconds again.  None of
these steps checks for an overflow.
-/

namespace BriseDB

open Json (ascii)

namespace Server

/-- A call that returns is answered with `+OK`. -/
theorem answer_returns {call : Exec Session Unit} {room : Prop} {s : Session}
    {post : Session → Prop} (returns : call.Returns room s fun _ next => post next) :
    (answer call).Returns room s fun lines next => lines = [ascii "+OK"] ∧ post next :=
  .bind_attempt returns fun _ _ holds => .pure ⟨rfl, holds⟩

theorem answer_error {call : Exec Session Unit} {s next : Session} {faults rest : List Fault}
    {failed : Bool} {cause : String} (called : call s faults = ⟨.err cause, next, rest, failed⟩) :
    answer call s faults = ⟨.ok [ascii s!"-{cause}"], next, rest, failed⟩ := by
  unfold answer
  rw [Exec.bind_of_value (Exec.attempt_of_err called)]
  exact congrArg (Out.mk _ _ _) (Bool.or_false failed)

/-- An error is not `+OK`. -/
theorem error_ne_ok (cause : String) : ascii s!"-{cause}" ≠ ascii "+OK" := by
  have minus : ascii s!"-{cause}" = 45 :: ascii cause := by
    simp [ascii, toString]
  have plus : ascii "+OK" = [43, 79, 75] := by decide
  rw [minus, plus]
  intro same
  exact absurd (List.cons.inj same).1 (by decide)

/-- The key has the value until `n` seconds after `now`. -/
structure Expires (now : Clock) (n : Int64) (key : Key) (value : Bytes) (next : Session) :
    Prop where
  stored : ∃ addr expiresAt, Index.get next.db.hindex key = .ok (some (addr, expiresAt)) ∧
    expiresAt.toInt = now + n.toInt * 10 ^ 9
  visible : ∀ t : Time, (Session.get key t next []).res =
    .ok (if t ≤ now + n.toInt * 10 ^ 9 then some value else none)
  ttl : ∀ t : Time, now ≤ t → t < now + 10 ^ 9 →
    (Session.ttl key t next []).res = .ok n.toInt ∨
      (Session.ttl key t next []).res = .ok (n.toInt - 1)

/-- Less than a second after `now`, the remaining seconds of an expiry `n` seconds after
`now` are `n` or one less. -/
theorem remaining_seconds {now t n : Int} (positive : 0 < n) (fits : n * 10 ^ 9 < 2 ^ 63)
    (notBefore : now ≤ t) (soon : t < now + 10 ^ 9) :
    Session.remaining (now + n * 10 ^ 9) t = n ∨
      Session.remaining (now + n * 10 ^ 9) t = n - 1 := by
  have untilEq : Session.untilInstant (now + n * 10 ^ 9) t = now + n * 10 ^ 9 - t := by
    unfold Session.untilInstant
    rw [min_eq_right (by omega), max_eq_right (by omega)]
  unfold Session.remaining
  rw [untilEq, if_neg (by omega)]
  obtain ⟨seconds, secondsEq⟩ := Int.eq_ofNat_of_zero_le (show 0 ≤ n - 1 by omega)
  have nEq : n = ((seconds + 1 : ℕ) : ℤ) := by
    push_cast
    omega
  by_cases atOnce : t = now
  · have exact := (@Time.wholeSeconds_bounds (seconds + 1) 0 (by omega) (by omega)
      (by omega)).2.2 rfl
    rw [← nEq, add_zero] at exact
    rw [atOnce, add_sub_cancel_left]
    exact .inl exact
  · have bounds := @Time.wholeSeconds_bounds seconds (now + 10 ^ 9 - t) (by omega) (by omega)
      (by omega)
    have split : (seconds : ℤ) * 10 ^ 9 + (now + 10 ^ 9 - t) = now + n * 10 ^ 9 - t := by
      rw [← secondsEq]
      ring
    rw [split] at bounds
    omega

section

variable {db : DB} {rows : Rows} {key : Key} {value option seconds : Bytes} {rest : List Bytes}
  {n : Int64}

/-- `SET key value EX n` is a call of `SetEX`. -/
theorem handle_set (isEX : toUpper option = ascii "EX") (parsed : parseInt seconds = some n)
    (positive : 0 < n) (now : Clock) (orders : Orders) :
    handle false now orders .set (key :: value :: option :: seconds :: rest) =
      answer (Session.setEX key value (n * 1000000000) now) := by
  have notRefused : ¬ n ≤ 0 := Int64.not_le.mpr positive
  simp only [handle, set, isEX, parsed, notRefused, if_true, if_false, Bool.false_eq_true,
    false_and]

theorem toInt_nanos (positive : 0 < n) (fits : n.toInt * 10 ^ 9 < 2 ^ 63) :
    (n * 1000000000).toInt = n.toInt * 10 ^ 9 := by
  have nonneg : 0 < n.toInt := Int64.lt_iff_toInt_lt.mp positive
  have billion : (1000000000 : Int64).toInt = 10 ^ 9 := by decide
  rw [Int64.toInt_mul, billion]
  exact Int.bmod_eq_of_le (by omega) (by omega)

/-- A key with an expiry that has been stored exactly. -/
theorem expires_of_models {addr : NeedleAddr} {now : Clock} (positive : 0 < n)
    (fits : now.1 + n.toInt * 10 ^ 9 < 2 ^ 63)
    (models : db.Models (Function.update rows key
      (some ⟨addr, Time.unixNano (now + n.toInt * 10 ^ 9), value⟩))) :
    Expires now n key value ⟨db, []⟩ := by
  have nPositive : 0 < n.toInt := Int64.lt_iff_toInt_lt.mp positive
  have nowNonneg : (0 : Int) ≤ now.1 := now.2.1
  have fitsInt : @HAdd.hAdd Int Int Int _ now.1 (n.toInt * 10 ^ 9) < 2 ^ 63 := fits
  set expiresAt := Time.unixNano (now + n.toInt * 10 ^ 9) with expiresAtDef
  have exact : Time.ofNano expiresAt = now.1 + n.toInt * 10 ^ 9 :=
    Time.ofNano_unixNano
      (show -2 ^ 63 ≤ @HAdd.hAdd Int Int Int _ now.1 (n.toInt * 10 ^ 9) by omega) fits
  have expires : 0 < expiresAt := by
    rw [Int64.lt_iff_toInt_lt]
    change (0 : Int) < Time.ofNano expiresAt
    rw [exact]
    omega
  refine ⟨⟨addr, expiresAt, ?_, exact⟩, fun t => ?_, fun t notBefore soon => ?_⟩
  · rw [models.index.get_eq]
    simp [Rows.content]
  · rw [Session.get_res models, Function.update_self, DB.visible]
    by_cases later : t ≤ now.1 + n.toInt * 10 ^ 9
    · rw [if_neg fun expired => absurd expired.2 (by rw [exact]; exact not_lt.mpr later),
        if_pos later]
    · rw [if_pos ⟨expires, by rw [exact]; exact not_le.mp later⟩, if_neg later]
  · rw [Session.ttl_res models, Function.update_self]
    change (Res.ok (if 0 < expiresAt then _ else _)) = _ ∨
      Res.ok (if 0 < expiresAt then _ else _) = _
    rw [if_pos expires, exact]
    exact (remaining_seconds nPositive (by omega) notBefore soon).imp (congrArg _) (congrArg _)

/-- `SetEX` outside a transaction. -/
theorem setEX_returns {room : Prop} (models : db.Models rows) (keyFits : key.length ≤ 65535)
    (roomy : room → db.Room (db.volumes.cost value + DB.indexCost key)) {ttl : Int64}
    (positive : ¬ ttl ≤ 0) (now : Clock) :
    (Session.setEX key value ttl now).Returns room ⟨db, []⟩ fun _ s =>
      s.transactions = [] ∧ ∃ addr, s.db.Models (Function.update rows key
        (some ⟨addr, Time.unixNano (now + ttl.toInt), value⟩)) := by
  have ttlPositive : 0 < ttl.toInt := Int64.lt_iff_toInt_lt.mp (Int64.not_le.mp positive)
  have expPositive : 0 < now.1 + ttl.toInt := add_pos_of_nonneg_of_pos now.2.1 ttlPositive
  refine .mono (Call.direct_setEX positive
    (DB.setEXNow_returns models keyFits roomy expPositive)) ?_
  rintro _ s ⟨noTransactions, addr, effect⟩
  exact ⟨noTransactions, addr, effect.models⟩

/-- The expiry is exact, or the command is refused, exactly if the nanoseconds wrap around
to a number that is not positive, or nothing wraps around at all. -/
theorem setEX_exact_iff (models : db.Models rows) (keyFits : key.length ≤ 65535)
    (isEX : toUpper option = ascii "EX") (parsed : parseInt seconds = some n) (positive : 0 < n)
    (now : Clock) (orders : Orders) (faults : List Fault)
    (clean : (handle false now orders .set (key :: value :: option :: seconds :: rest)
      ⟨db, []⟩ faults).failed = false) :
    ((handle false now orders .set (key :: value :: option :: seconds :: rest)
        ⟨db, []⟩ faults).res = .ok [ascii "+OK"] →
      Expires now n key value (handle false now orders .set
        (key :: value :: option :: seconds :: rest) ⟨db, []⟩ faults).state) ↔
      n * 1000000000 ≤ 0 ∨ n.toInt * 10 ^ 9 + now.1 < 2 ^ 63 := by
  rw [handle_set isEX parsed positive] at clean ⊢
  by_cases wraps : n * 1000000000 ≤ 0
  · have refused : Session.setEX key value (n * 1000000000) now ⟨db, []⟩ faults =
        ⟨.err "TTL must be positive", ⟨db, []⟩, faults, false⟩ := by
      unfold Session.setEX
      rw [if_pos wraps]
      rfl
    rw [answer_error refused]
    refine iff_of_true (fun answered => ?_) (.inl wraps)
    exact absurd (List.cons.inj (Res.ok.inj answered)).1 (error_ne_ok _)
  · have nowNonneg : (0 : Int) ≤ now.1 := now.2.1
    have sets : (answer (Session.setEX key value (n * 1000000000) now)).Returns False ⟨db, []⟩ _ :=
      answer_returns (setEX_returns models keyFits False.elim wraps now)
    rcases sets.correct faults clean with
      ⟨lines, answered, linesEq, noTransactions, addr, nextModels⟩
    rw [linesEq] at answered
    generalize answer (Session.setEX key value (n * 1000000000) now) ⟨db, []⟩ faults = out at *
    rcases out with ⟨res, ⟨next, transactions⟩, unused, failed⟩
    obtain rfl : transactions = [] := noTransactions
    constructor
    · intro exact
      rcases (exact answered).stored with ⟨_, expiresAt, _, expiresEq⟩
      have bound := expiresAt.toInt_lt
      rw [expiresEq] at bound
      exact .inr (by omega)
    · rintro (isWrapped | fits) _
      · exact absurd isWrapped wraps
      · have fitsInt : @HAdd.hAdd Int Int Int _ now.1 (n.toInt * 10 ^ 9) < 2 ^ 63 := by omega
        have nanosEq := toInt_nanos positive (show n.toInt * 10 ^ 9 < 2 ^ 63 by omega)
        rw [nanosEq] at nextModels
        exact expires_of_models positive fitsInt nextModels

/-- Every map is visited as it is stored. -/
def Orders.asStored : Orders :=
  ⟨⟨.asStored _, .asStored _, .asStored _, .asStored _⟩,
    ⟨.asStored _, .asStored _, .asStored _, .asStored _⟩, .asStored _, .asStored _⟩

section

variable {db : DB} (fresh : DB.Fresh db [] History.expiring.opt)

include fresh

/-- There is room for a small value in a new database. -/
theorem setEX_fresh (n : Int64) (positive : ¬ n * 1000000000 ≤ 0) :
    (answer (Session.setEX [107] [118] (n * 1000000000) Clock.sample)).Returns True ⟨db, []⟩
      fun lines s => lines = [ascii "+OK"] ∧ s.transactions = [] ∧ ∃ addr,
        s.db.Models (Function.update (fun _ => none) [107]
          (some ⟨addr, Time.unixNano (Clock.sample + (n * 1000000000).toInt), [118]⟩)) := by
  refine answer_returns (setEX_returns fresh.models (by decide) (fun _ => ?_) positive
    Clock.sample)
  refine fresh.roomAlone _ ?_
  rw [fresh.cost (by decide)]
  decide +kernel

theorem setEX_wraps :
    (handle false Clock.sample .asStored .set [[107], [118], ascii "EX", ascii "18446744074"]
        ⟨db, []⟩ []).res = .ok [ascii "+OK"] ∧
      (Session.get [107] (10 ^ 18 + 10 ^ 9) (handle false Clock.sample .asStored .set
        [[107], [118], ascii "EX", ascii "18446744074"] ⟨db, []⟩ []).state []).res =
        .ok none := by
  have isEX : toUpper (ascii "EX") = ascii "EX" := by decide
  have parsed : parseInt (ascii "18446744074") = some 18446744074 := by decide
  have nanos : ((18446744074 : Int64) * 1000000000).toInt = 290448384 := by decide
  have expired : Session.expiredAt (10 ^ 18 + 10 ^ 9)
      (Time.unixNano (Clock.sample + 290448384)) := by
    decide
  rw [handle_set isEX parsed (by decide)]
  have sets := setEX_fresh fresh 18446744074 (by decide)
  rcases sets.correct [] (sets.undisturbed trivial).1 with
    ⟨lines, answered, linesEq, noTransactions, addr, models⟩
  rw [linesEq] at answered
  generalize answer (Session.setEX [107] [118] (18446744074 * 1000000000) Clock.sample) ⟨db, []⟩ []
    = out at *
  rcases out with ⟨res, ⟨next, transactions⟩, unused, failed⟩
  obtain rfl : transactions = [] := noTransactions
  rw [nanos] at models
  refine ⟨answered, ?_⟩
  rw [Session.get_res models, Function.update_self, DB.visible, if_pos expired]

end

end

theorem setEX_exact_iff_minute :
    ((handle false Clock.sample .asStored .set [[107], [118], ascii "ex", ascii "60"]
        ⟨(History.expiredThen []).course.start, []⟩ []).res = .ok [ascii "+OK"] →
      Expires Clock.sample 60 [107] [118] (handle false Clock.sample .asStored .set
        [[107], [118], ascii "ex", ascii "60"]
        ⟨(History.expiredThen []).course.start, []⟩ []).state) ↔
      (60 : Int64) * 1000000000 ≤ 0 ∨ (60 : Int64).toInt * 10 ^ 9 + Clock.sample.1 < 2 ^ 63 := by
  have isEX : toUpper (ascii "ex") = ascii "EX" := by decide
  have parsed : parseInt (ascii "60") = some 60 := by decide
  have fresh := History.expiredThen_fresh []
  generalize (History.expiredThen []).course.start = db at *
  have clean : (handle false Clock.sample .asStored .set [[107], [118], ascii "ex", ascii "60"]
      ⟨db, []⟩ []).failed = false := by
    rw [handle_set isEX parsed (by decide)]
    exact ((setEX_fresh fresh 60 (by decide)).undisturbed trivial).1
  exact setEX_exact_iff fresh.models (by decide) isEX parsed (by decide) Clock.sample
    .asStored [] clean

/-- `SET k v EX 18446744074`, almost 585 years, is accepted and keeps the value for less
than a second. -/
theorem set_wrapped_seconds :
    (handle false Clock.sample .asStored .set [[107], [118], ascii "EX", ascii "18446744074"]
        ⟨(History.expiredThen []).course.start, []⟩ []).res = .ok [ascii "+OK"] ∧
      (Session.get [107] (10 ^ 18 + 10 ^ 9) (handle false Clock.sample .asStored .set
        [[107], [118], ascii "EX", ascii "18446744074"]
        ⟨(History.expiredThen []).course.start, []⟩ []).state []).res = .ok none :=
  setEX_wraps (History.expiredThen_fresh [])

end Server

end BriseDB
