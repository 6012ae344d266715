import BriseDB.Store.Counting
import BriseDB.Store.LastWrite
import BriseDB.Store.LogText
import BriseDB.Store.Replication

/-!
# Records on the connection to a replica

`fanoutSet`, `fanoutDelete` and `Snapshot` marshal a record, `handleReplicate` sends it as a
line that starts with a plus sign, and the client strips line and sign again and hands the rest
to `ApplyReplicationEntry`.
-/

namespace BriseDB

open Json (ValidUTF8)

/-- The line that `handleReplicate` writes for a record. -/
def WalEntry.sendLine (e : WalEntry) : Bytes :=
  43 :: (e.marshal ++ [10])

namespace Client

/-- `ReadString('\n')` on what the connection delivers: a line with its end, and what follows. -/
def readString : Bytes → Option (Bytes × Bytes)
  | [] => none
  | byte :: rest =>
      if byte = 10 then some ([10], rest)
      else (readString rest).map fun found => (byte :: found.1, found.2)

/-- `strings.TrimRight(line, "\n")`. -/
def trimRight (line : Bytes) : Bytes :=
  (line.reverse.dropWhile fun byte => byte = 10).reverse

/-- What the client makes of a line after the hand-over of the snapshot: it passes over lines
without the sign. -/
def payload? : Bytes → Option Bytes
  | 43 :: entry => some entry
  | _ => none

/-- The next entry that `Stream` hands to `ApplyReplicationEntry`, as it is decoded there. -/
def receive (stream : Bytes) : Option (RawEntry × Bytes) := do
  let (line, rest) ← readString stream
  let entry ← payload? (trimRight line)
  let raw ← RawEntry.unmarshal entry
  pure (raw, rest)

theorem readString_line {line : Bytes} (noBreak : 10 ∉ line) (rest : Bytes) :
    readString (line ++ 10 :: rest) = some (line ++ [10], rest) := by
  induction line with
  | nil => rfl
  | cons byte line ih =>
      rw [List.mem_cons, not_or] at noBreak
      rw [List.cons_append, readString, if_neg (Ne.symm noBreak.1), ih noBreak.2]
      rfl

theorem trimRight_line {line : Bytes} (noBreak : 10 ∉ line) : trimRight (line ++ [10]) = line := by
  have last : line.reverse.dropWhile (fun byte => decide (byte = 10)) = line.reverse := by
    cases shape : line.reverse with
    | nil => rfl
    | cons byte others =>
        have mem : byte ∈ line := List.mem_reverse.mp (shape ▸ List.mem_cons_self)
        exact List.dropWhile_cons_of_neg fun isBreak => noBreak (of_decide_eq_true isBreak ▸ mem)
  rw [trimRight, List.reverse_append, List.reverse_singleton, List.singleton_append,
    List.dropWhile_cons_of_pos (by simp), last, List.reverse_reverse]

/-- A record that was sent arrives with its strings sanitized. -/
theorem receive_sendLine (e : WalEntry) (rest : Bytes) :
    receive (e.sendLine ++ rest) = some (e.wire.raw, rest) := by
  have noBreak : 10 ∉ 43 :: e.marshal := by
    rw [List.mem_cons, not_or]
    exact ⟨by decide, e.newline_not_mem_marshal⟩
  have stream : e.sendLine ++ rest = (43 :: e.marshal) ++ 10 :: rest := by
    simp [WalEntry.sendLine]
  have trimmed := trimRight_line noBreak
  rw [receive, stream, readString_line noBreak]
  simp only [Option.bind_eq_bind, Option.bind_some, trimmed, payload?, e.unmarshal_marshal]
  rfl

end Client

/-- Any value is sent for any key with any expiry.  What the client decodes is what was sent if
and only if key and value are UTF-8; and then `Get` on the replica returns the value until it
expires. -/
theorem stream_roundTrip_iff (key : Key) (value : Bytes) (expiresAt : Int64) :
    ((∀ rest, Client.receive ((WalEntry.ofValue key value expiresAt).sendLine ++ rest) =
        some ((WalEntry.ofValue key value expiresAt).raw, rest)) ↔
      ValidUTF8 key ∧ ValidUTF8 value) ∧
    (ValidUTF8 key → ValidUTF8 value → ∀ (db : DB) (rows : Rows), db.Models rows →
      key.length ≤ 65535 → db.Room (db.receiveCost (.ofValue key value expiresAt)) →
        ∀ t : Clock, ¬ Session.expiredAt t expiresAt →
          (Session.get key t
            ⟨(DB.applyReplicationEntry (.ofValue key value expiresAt) db []).state, []⟩ []).res =
              .ok (some value)) := by
  have wireIff := @WalEntry.wire_eq_self_iff (.ofValue key value expiresAt)
  refine ⟨?_, fun keyValid valueValid db rows models keyFits roomy t live => ?_⟩
  · rw [← show _ ↔ ValidUTF8 key ∧ ValidUTF8 value from wireIff]
    simp only [Client.receive_sendLine, Option.some.injEq, Prod.mk.injEq, and_true, forall_const]
    exact ⟨WalEntry.raw_injective, congrArg WalEntry.raw⟩
  · have wireEq := wireIff.mpr ⟨keyValid, valueValid⟩
    have returns := @DB.applyReplicationEntry_returns db rows True models
      (.ofValue key value expiresAt) (by rw [wireEq]; exact keyFits) fun _ => by
        rw [wireEq]
        exact roomy
    rcases returns.correct [] (returns.undisturbed trivial).1 with ⟨_, _, applied⟩
    rcases applied.models with ⟨after, afterModels, valuesEq⟩
    rw [Session.get_finds afterModels.standsFor, visible_eq, valuesEq, wireEq]
    have stored : KeyLog.apply rows.values (WalEntry.ofValue key value expiresAt).received key =
        some (value, expiresAt) :=
      Function.update_self key _ _
    rw [stored]
    exact congrArg Res.ok (if_neg live)

/-- Bytes that are not UTF-8 arrive as other bytes. -/
theorem stream_changes_value :
    Client.receive ((WalEntry.ofValue [107] [0xFF] 0).sendLine) =
      some ((WalEntry.ofValue [107] [0xEF, 0xBF, 0xBD] 0).raw, []) := by
  have received := Client.receive_sendLine (.ofValue [107] [0xFF] 0) []
  rw [List.append_nil] at received
  have sanitized : (WalEntry.ofValue [107] [0xFF] 0).wire =
      .ofValue [107] [0xEF, 0xBF, 0xBD] 0 := by
    decide +kernel
  rw [received, sanitized]

end BriseDB
