import Mathlib.Data.Finset.Card
import Mathlib.Data.Finset.SDiff
import BriseDB.Base.TableLoops
import BriseDB.Server.Commands

/-!
# Publish and subscribe

`PubSub` keeps, for every channel, the set of message channels that are subscribed to it.
Every TCP connection has one message channel with a buffer and keeps its own set of the
channels it has subscribed to.  The two are changed by the commands of the connection and
when it ends.  A state machine over any number of connections, with every command as one
step, shows that they always agree, that the counts in the answers are the sizes of the sets,
and that a message reaches every subscriber with room in its buffer once, and nobody else.
-/

namespace BriseDB

open Json (ascii decimal)

/-- `Message`. -/
structure Message where
  channel : Bytes
  payload : Bytes
  deriving DecidableEq, Repr

/-- The identity of a `chan Message`. -/
abbrev MsgCh := Nat

/-- The map `subs` of `PubSub`. -/
abbrev PubSub := Table Bytes (Table MsgCh Unit)

namespace PubSub

/-- `Subscribe`. -/
def subscribe (ch : MsgCh) (channel : Bytes) (subs : PubSub) : PubSub :=
  subs.insert channel (((subs.lookup channel).getD ∅).insert ch ())

/-- Store what is left of the subscribers of a channel; a channel without subscribers is
removed. -/
def leave (channel : Bytes) (left : Table MsgCh Unit) (subs : PubSub) : PubSub :=
  if left.keys.length = 0 then subs.erase channel else subs.insert channel left

/-- `Unsubscribe`. -/
def unsubscribe (ch : MsgCh) (channel : Bytes) (subs : PubSub) : PubSub :=
  leave channel (((subs.lookup channel).getD ∅).erase ch) subs

/-- `UnsubscribeAll`. -/
def unsubscribeAll (ch : MsgCh) (order : RangeOrder Bytes) (subs : PubSub) : PubSub :=
  (subs.range order).foldl (fun subs entry => leave entry.1 (entry.2.erase ch) subs) subs

/-- The message channel is subscribed to the channel. -/
def Has (subs : PubSub) (channel : Bytes) (ch : MsgCh) : Prop :=
  ∃ inner, subs.lookup channel = some inner ∧ ch ∈ inner

/-- No channel is kept without subscribers. -/
def Tidy (subs : PubSub) : Prop :=
  ∀ channel inner, subs.lookup channel = some inner → inner.keys.length ≠ 0

section

variable {subs : PubSub}

theorem lookup_leave (channel other : Bytes) (left : Table MsgCh Unit) (subs : PubSub) :
    (leave channel left subs).lookup other =
      if other = channel then (if left.keys.length = 0 then none else some left)
      else subs.lookup other := by
  unfold leave
  by_cases same : other = channel
  · subst same
    rw [if_pos rfl]
    split
    · rw [AList.lookup_erase]
    · rw [AList.lookup_insert]
  · rw [if_neg same]
    split
    · rw [AList.lookup_erase_ne same]
    · rw [AList.lookup_insert_ne same]

theorem tidy_leave (tidy : subs.Tidy) (channel : Bytes) (left : Table MsgCh Unit) :
    (leave channel left subs).Tidy := by
  intro other inner found
  rw [lookup_leave] at found
  split at found
  · split at found
    · cases found
    · rename_i nonempty
      cases found
      exact nonempty
  · exact tidy other inner found

theorem mem_getD_lookup {channel : Bytes} {ch : MsgCh} :
    ch ∈ (subs.lookup channel).getD ∅ ↔ subs.Has channel ch := by
  unfold Has
  cases subs.lookup channel <;> simp [AList.notMem_empty]

theorem has_subscribe (ch other : MsgCh) (channel name : Bytes) :
    (subscribe ch channel subs).Has name other ↔
      subs.Has name other ∨ name = channel ∧ other = ch := by
  by_cases same : name = channel
  · subst same
    rw [← mem_getD_lookup, subscribe, AList.lookup_insert, Option.getD_some, AList.mem_insert,
      mem_getD_lookup]
    simp [or_comm]
  · unfold Has subscribe
    rw [AList.lookup_insert_ne same]
    simp [same]

theorem tidy_subscribe (tidy : subs.Tidy) (ch : MsgCh) (channel : Bytes) :
    (subscribe ch channel subs).Tidy := by
  intro name inner found
  by_cases same : name = channel
  · subst same
    rw [subscribe, AList.lookup_insert] at found
    cases found
    simp [AList.keys_insert]
  · rw [subscribe, AList.lookup_insert_ne same] at found
    exact tidy name inner found

theorem has_leave {channel : Bytes} {ch : MsgCh} {inner : Table MsgCh Unit} {name : Bytes}
    {other : MsgCh} : (leave channel (inner.erase ch) subs).Has name other ↔
      if name = channel then other ≠ ch ∧ other ∈ inner else subs.Has name other := by
  unfold Has
  rw [lookup_leave]
  by_cases same : name = channel
  · rw [if_pos same, if_pos same, ← AList.mem_erase]
    split
    · rename_i isEmpty
      have noKeys := List.length_eq_zero_iff.mp isEmpty
      simp [AList.mem_keys, noKeys]
    · simp
  · rw [if_neg same, if_neg same]

theorem has_unsubscribe (ch other : MsgCh) (channel name : Bytes) :
    (unsubscribe ch channel subs).Has name other ↔
      subs.Has name other ∧ ¬ (name = channel ∧ other = ch) := by
  rw [unsubscribe, has_leave]
  by_cases same : name = channel
  · subst same
    rw [if_pos rfl, mem_getD_lookup]
    simp [and_comm]
  · rw [if_neg same]
    simp [same]

theorem lookup_unsubscribeAll (ch : MsgCh) (order : RangeOrder Bytes) (channel : Bytes) :
    (unsubscribeAll ch order subs).lookup channel =
      ((subs.lookup channel).map fun inner =>
        if (inner.erase ch).keys.length = 0 then none else some (inner.erase ch)).getD none := by
  rw [unsubscribeAll, Table.lookup_updateAll order subs
    fun table entry key => lookup_leave entry.1 key (entry.2.erase ch) table]
  cases subs.lookup channel <;> rfl

theorem has_unsubscribeAll (ch other : MsgCh) (order : RangeOrder Bytes) (channel : Bytes) :
    (unsubscribeAll ch order subs).Has channel other ↔ subs.Has channel other ∧ other ≠ ch := by
  unfold Has
  rw [lookup_unsubscribeAll]
  cases subs.lookup channel with
  | none => simp
  | some inner =>
      rw [Option.map_some, Option.getD_some]
      split
      · rename_i isEmpty
        have noKeys := List.length_eq_zero_iff.mp isEmpty
        have noMember : ¬ (other ≠ ch ∧ other ∈ inner) := by
          rw [← AList.mem_erase, AList.mem_keys, noKeys]
          exact List.not_mem_nil
        simp only [reduceCtorEq, false_and, exists_false, Option.some.injEq, exists_eq_left',
          false_iff]
        exact fun both => noMember ⟨both.2, both.1⟩
      · simp [AList.mem_erase, and_comm]

theorem tidy_unsubscribeAll (ch : MsgCh) (order : RangeOrder Bytes) :
    (unsubscribeAll ch order subs).Tidy := by
  intro channel inner found
  rw [lookup_unsubscribeAll] at found
  cases stored : subs.lookup channel with
  | none =>
      rw [stored] at found
      cases found
  | some before =>
      rw [stored, Option.map_some, Option.getD_some] at found
      split at found
      · cases found
      · rename_i nonempty
        cases found
        exact nonempty

end

end PubSub

namespace Server

/-! ## Connections -/

/-- The size of the buffer of a message channel. -/
def msgChSize : Nat :=
  256

/-- What a connection changes by its commands: its own `subChannels` and the shared map. -/
structure Subscriptions where
  subChannels : Table Bytes Bool
  subs : PubSub

/-- One channel of `SUBSCRIBE`. -/
def subscribeTo (msgCh : MsgCh) (ch : Bytes) (own : Subscriptions) : Subscriptions :=
  if own.subChannels.lookup ch = some true then own
  else ⟨own.subChannels.insert ch true, own.subs.subscribe msgCh ch⟩

/-- One channel of `UNSUBSCRIBE`. -/
def unsubscribeFrom (msgCh : MsgCh) (ch : Bytes) (own : Subscriptions) : Subscriptions :=
  if own.subChannels.lookup ch = some true then
    ⟨own.subChannels.erase ch, own.subs.unsubscribe msgCh ch⟩
  else own

/-- The answer for one channel. -/
def countLine (verb : String) (ch : Bytes) (count : Nat) : Bytes :=
  ascii s!"+{verb} " ++ ch ++ ascii " " ++ decimal count

/-- The loop of `SUBSCRIBE` and `UNSUBSCRIBE` over the channels. -/
def forChannels (verb : String) (change : Bytes → Subscriptions → Subscriptions) :
    List Bytes → Subscriptions → Subscriptions × List Bytes
  | [], own => (own, [])
  | ch :: rest, own =>
      let next := change ch own
      let (last, lines) := forChannels verb change rest next
      (last, countLine verb ch next.subChannels.keys.length :: lines)

/-- The non-blocking sends of `Publish`, and how many went through. -/
def sendAll (msg : Message) : List MsgCh → (MsgCh → List Message) → (MsgCh → List Message) × Nat
  | [], buffers => (buffers, 0)
  | ch :: rest, buffers =>
      if (buffers ch).length < msgChSize then
        let (last, sent) := sendAll msg rest (Function.update buffers ch (buffers ch ++ [msg]))
        (last, sent + 1)
      else sendAll msg rest buffers

/-- The shared map, the `subChannels` of the connections that are open, and the messages in
the buffers. -/
structure Hub where
  subs : PubSub
  conns : MsgCh → Option (Table Bytes Bool)
  buffers : MsgCh → List Message

namespace Hub

/-- The server before the first connection. -/
def start : Hub :=
  ⟨∅, fun _ => none, fun _ => []⟩

/-- What can happen: a connection is opened with a new message channel, sends a command or
ends, or its forwarder takes a message out of the buffer. -/
inductive Event where
  | connect (msgCh : MsgCh)
  | subscribe (msgCh : MsgCh) (args : List Bytes)
  | unsubscribe (msgCh : MsgCh) (args : List Bytes) (order : RangeOrder Bytes)
  | publish (msgCh : MsgCh) (args : List Bytes) (order : RangeOrder MsgCh)
  | forward (msgCh : MsgCh)
  | disconnect (msgCh : MsgCh) (order : RangeOrder Bytes)

/-- Change what is known of a connection, and the shared map with it. -/
def withConn (hub : Hub) (msgCh : MsgCh) (conn : Option (Table Bytes Bool)) (subs : PubSub) : Hub :=
  { hub with subs := subs, conns := Function.update hub.conns msgCh conn }

/-- Change the buffers. -/
def withBuffers (hub : Hub) (buffers : MsgCh → List Message) : Hub :=
  { hub with buffers := buffers }

/-- The loop of a command of the connection over channels. -/
def change (hub : Hub) (msgCh : MsgCh) (subChannels : Table Bytes Bool) (verb : String)
    (one : Bytes → Subscriptions → Subscriptions) (channels : List Bytes) : Hub × List Bytes :=
  let (own, lines) := forChannels verb one channels ⟨subChannels, hub.subs⟩
  (hub.withConn msgCh (some own.subChannels) own.subs, lines)

/-- One event, with the lines that are sent to the connection; `none` if it cannot happen. -/
def step (hub : Hub) : Event → Option (Hub × List Bytes)
  | .connect msgCh =>
      match hub.conns msgCh with
      | some _ => none
      | none =>
          some ((hub.withConn msgCh (some ∅) hub.subs).withBuffers
            (Function.update hub.buffers msgCh []), [])
  | .subscribe msgCh args =>
      (hub.conns msgCh).map fun subChannels =>
        if args = [] then (hub, [ascii "-ERROR: SUBSCRIBE requires at least one channel"])
        else hub.change msgCh subChannels "SUBSCRIBE" (subscribeTo msgCh) args
  | .unsubscribe msgCh args order =>
      (hub.conns msgCh).map fun subChannels =>
        hub.change msgCh subChannels "UNSUBSCRIBE" (unsubscribeFrom msgCh)
          (if args = [] then order.arrange subChannels.keys else args)
  | .publish msgCh args order =>
      (hub.conns msgCh).map fun _ =>
        match args with
        | channel :: payload :: _ =>
            let (buffers, sent) := sendAll ⟨channel, payload⟩
              (order.arrange ((hub.subs.lookup channel).getD ∅).keys) hub.buffers
            (hub.withBuffers buffers, [number sent])
        | _ => (hub, [ascii "-ERROR: PUBLISH requires channel and message"])
  | .forward msgCh =>
      match hub.buffers msgCh with
      | [] => none
      | msg :: rest =>
          some (hub.withBuffers (Function.update hub.buffers msgCh rest),
            [ascii "+MESSAGE " ++ msg.channel ++ ascii " " ++ msg.payload])
  | .disconnect msgCh order =>
      (hub.conns msgCh).map fun _ =>
        (hub.withConn msgCh none (hub.subs.unsubscribeAll msgCh order), [])

/-- The state after some events, if they can happen. -/
def run (hub : Hub) : List Event → Option Hub
  | [] => some hub
  | event :: rest => (hub.step event).bind fun next => next.1.run rest

/-- The channels a connection is subscribed to; none if it is not open. -/
def subscribed (hub : Hub) (msgCh : MsgCh) : Finset Bytes :=
  ((hub.conns msgCh).getD ∅).keys.toFinset

/-! ## The sets of a connection -/

/-- The answers of a command that changes a set by one channel after the other. -/
def reports (verb : String) (change : Bytes → Finset Bytes → Finset Bytes) :
    List Bytes → Finset Bytes → List Bytes
  | [], _ => []
  | ch :: rest, channels =>
      countLine verb ch (change ch channels).card :: reports verb change rest (change ch channels)

end Hub

namespace Subscriptions

/-- The set of channels the connection has. -/
def channels (own : Subscriptions) : Finset Bytes :=
  own.subChannels.keys.toFinset

/-- The shared map has the connection under the channels it has itself, and the others under
theirs. -/
structure Agrees (msgCh : MsgCh) (others : Bytes → MsgCh → Prop) (own : Subscriptions) : Prop where
  has_iff : ∀ channel ch, own.subs.Has channel ch ↔
    if ch = msgCh then channel ∈ own.channels else others channel ch
  tidy : own.subs.Tidy
  marked : ∀ channel mark, own.subChannels.lookup channel = some mark → mark = true

section

variable {msgCh : MsgCh} {others : Bytes → MsgCh → Prop} {own : Subscriptions}

theorem card_channels (own : Subscriptions) : own.channels.card = own.subChannels.keys.length :=
  List.toFinset_card_of_nodup own.subChannels.nodupKeys

theorem Agrees.mem_channels (agrees : own.Agrees msgCh others) {channel : Bytes} :
    channel ∈ own.channels ↔ own.subChannels.lookup channel = some true := by
  rw [channels, List.mem_toFinset, ← AList.mem_keys, ← AList.lookup_isSome,
    Option.isSome_iff_exists]
  constructor
  · rintro ⟨mark, found⟩
    rw [found, agrees.marked channel mark found]
  · exact fun found => ⟨true, found⟩

theorem Agrees.subscribeTo (agrees : own.Agrees msgCh others) (ch : Bytes) :
    (subscribeTo msgCh ch own).Agrees msgCh others ∧
      (subscribeTo msgCh ch own).channels = insert ch own.channels := by
  unfold Server.subscribeTo
  by_cases already : own.subChannels.lookup ch = some true
  · rw [if_pos already]
    exact ⟨agrees, (Finset.insert_eq_of_mem (agrees.mem_channels.mpr already)).symm⟩
  · rw [if_neg already]
    have channelsEq : (Subscriptions.mk (own.subChannels.insert ch true)
        (own.subs.subscribe msgCh ch)).channels = insert ch own.channels := by
      ext channel
      simp only [channels, List.mem_toFinset, Finset.mem_insert, ← AList.mem_keys, AList.mem_insert]
    refine ⟨⟨?_, PubSub.tidy_subscribe agrees.tidy _ _, ?_⟩, channelsEq⟩
    · intro channel other
      rw [channelsEq, PubSub.has_subscribe, agrees.has_iff]
      by_cases same : other = msgCh
      · simp [same, or_comm]
      · simp [same]
    · intro channel mark found
      by_cases same : channel = ch
      · subst same
        rw [AList.lookup_insert] at found
        exact (Option.some.inj found).symm
      · rw [AList.lookup_insert_ne same] at found
        exact agrees.marked channel mark found

theorem Agrees.unsubscribeFrom (agrees : own.Agrees msgCh others) (ch : Bytes) :
    (unsubscribeFrom msgCh ch own).Agrees msgCh others ∧
      (unsubscribeFrom msgCh ch own).channels = own.channels.erase ch := by
  unfold Server.unsubscribeFrom
  by_cases present : own.subChannels.lookup ch = some true
  · rw [if_pos present]
    have channelsEq : (Subscriptions.mk (own.subChannels.erase ch)
        (own.subs.unsubscribe msgCh ch)).channels = own.channels.erase ch := by
      ext channel
      simp only [channels, List.mem_toFinset, Finset.mem_erase, ← AList.mem_keys, AList.mem_erase]
    refine ⟨⟨?_, PubSub.tidy_leave agrees.tidy _ _, ?_⟩, channelsEq⟩
    · intro channel other
      rw [channelsEq, PubSub.has_unsubscribe, agrees.has_iff]
      by_cases same : other = msgCh
      · simp [same, and_comm]
      · simp [same]
    · intro channel mark found
      by_cases same : channel = ch
      · subst same
        rw [AList.lookup_erase] at found
        cases found
      · rw [AList.lookup_erase_ne same] at found
        exact agrees.marked channel mark found
  · rw [if_neg present]
    exact ⟨agrees, (Finset.erase_eq_of_notMem (mt agrees.mem_channels.mp present)).symm⟩

/-- A loop over channels whose rounds each change the set. -/
theorem Agrees.forChannels {one : Bytes → Subscriptions → Subscriptions}
    {change : Bytes → Finset Bytes → Finset Bytes}
    (round : ∀ ch own, Agrees msgCh others own →
      (one ch own).Agrees msgCh others ∧ (one ch own).channels = change ch own.channels)
    (agrees : own.Agrees msgCh others) (verb : String) (list : List Bytes) :
    (forChannels verb one list own).1.Agrees msgCh others ∧
      (forChannels verb one list own).1.channels =
        list.foldl (fun set ch => change ch set) own.channels ∧
      (forChannels verb one list own).2 = Hub.reports verb change list own.channels := by
  induction list generalizing own with
  | nil => exact ⟨agrees, rfl, rfl⟩
  | cons ch rest ih =>
      rcases round ch own agrees with ⟨nextAgrees, channelsEq⟩
      rcases ih nextAgrees with ⟨lastAgrees, lastEq, linesEq⟩
      rw [channelsEq] at lastEq linesEq
      refine ⟨lastAgrees, lastEq, ?_⟩
      change countLine verb ch (one ch own).subChannels.keys.length :: _ = _
      rw [← card_channels, channelsEq, linesEq]
      rfl

end

end Subscriptions

/-! ## Messages -/

/-- Every message channel in the list with room in its buffer gets the message once. -/
theorem sendAll_spec (msg : Message) {list : List MsgCh} (nodup : list.Nodup)
    (buffers : MsgCh → List Message) :
    (∀ ch, (sendAll msg list buffers).1 ch =
        if ch ∈ list.toFinset.filter (fun ch => (buffers ch).length < msgChSize) then
          buffers ch ++ [msg]
        else buffers ch) ∧
      (sendAll msg list buffers).2 =
        (list.toFinset.filter fun ch => (buffers ch).length < msgChSize).card := by
  induction list generalizing buffers with
  | nil => exact ⟨fun _ => rfl, rfl⟩
  | cons first rest ih =>
      rcases List.nodup_cons.mp nodup with ⟨absent, restNodup⟩
      rw [List.toFinset_cons, Finset.filter_insert]
      by_cases room : (buffers first).length < msgChSize
      · have same : rest.toFinset.filter (fun ch =>
            (Function.update buffers first (buffers first ++ [msg]) ch).length < msgChSize) =
            rest.toFinset.filter fun ch => (buffers ch).length < msgChSize := by
          refine Finset.filter_congr fun ch mem => ?_
          have different : ch ≠ first := fun isFirst => absent (isFirst ▸ List.mem_toFinset.mp mem)
          rw [Function.update_of_ne different]
        have outside : first ∉ rest.toFinset.filter fun ch => (buffers ch).length < msgChSize :=
          fun mem => absent (List.mem_toFinset.mp (Finset.mem_filter.mp mem).1)
        rcases ih restNodup (Function.update buffers first (buffers first ++ [msg])) with
          ⟨buffersEq, sentEq⟩
        rw [same] at sentEq
        simp only [same] at buffersEq
        simp only [sendAll, if_pos room]
        constructor
        · intro ch
          rw [buffersEq]
          by_cases isFirst : ch = first
          · subst isFirst
            rw [if_neg outside, if_pos (Finset.mem_insert_self _ _), Function.update_self]
          · rw [Function.update_of_ne isFirst]
            simp only [Finset.mem_insert, isFirst, false_or]
        · rw [sentEq, Finset.card_insert_of_notMem outside]
      · simp only [sendAll, if_neg room]
        exact ih restNodup buffers

namespace Hub

/-! ## Steps -/

/-- The shared map and the sets of the connections agree. -/
structure Agrees (hub : Hub) : Prop where
  has_iff : ∀ channel ch, hub.subs.Has channel ch ↔ channel ∈ hub.subscribed ch
  tidy : hub.subs.Tidy
  marked : ∀ ch subChannels, hub.conns ch = some subChannels →
    ∀ channel mark, subChannels.lookup channel = some mark → mark = true

/-- A connection has changed its set of channels, and nothing else has changed. -/
structure Resubscribed (hub next : Hub) (msgCh : MsgCh) (channels : Finset Bytes) : Prop where
  own : next.subscribed msgCh = channels
  others : ∀ other ≠ msgCh, next.subscribed other = hub.subscribed other
  buffers_eq : next.buffers = hub.buffers

/-- What an event does and what is answered. -/
def Serves (hub next : Hub) (lines : List Bytes) : Event → Prop
  | .connect msgCh =>
      next.subscribed = hub.subscribed ∧ next.buffers = Function.update hub.buffers msgCh []
  | .subscribe msgCh args =>
      if args = [] then next = hub
      else Resubscribed hub next msgCh (hub.subscribed msgCh ∪ args.toFinset) ∧
        lines = reports "SUBSCRIBE" insert args (hub.subscribed msgCh)
  | .unsubscribe msgCh args _ =>
      ∃ channels : List Bytes,
        (if args = [] then channels.Nodup ∧ channels.toFinset = hub.subscribed msgCh
          else channels = args) ∧
        Resubscribed hub next msgCh (hub.subscribed msgCh \ channels.toFinset) ∧
        lines = reports "UNSUBSCRIBE" (fun ch set => set.erase ch) channels (hub.subscribed msgCh)
  | .publish _ (channel :: payload :: _) _ =>
      ∃ receivers : Finset MsgCh,
        (∀ ch, ch ∈ receivers ↔
          channel ∈ hub.subscribed ch ∧ (hub.buffers ch).length < msgChSize) ∧
        next = { hub with buffers := next.buffers } ∧
        (∀ ch, next.buffers ch =
          if ch ∈ receivers then hub.buffers ch ++ [⟨channel, payload⟩] else hub.buffers ch) ∧
        lines = [number receivers.card]
  | .publish _ _ _ => next = hub
  | .forward msgCh =>
      next.subscribed = hub.subscribed ∧
        ∃ msg, hub.buffers msgCh = msg :: next.buffers msgCh ∧
          ∀ other ≠ msgCh, next.buffers other = hub.buffers other
  | .disconnect msgCh _ => Resubscribed hub next msgCh ∅

section

variable {hub : Hub}

/-- The agreement seen by one connection. -/
theorem Agrees.own (agrees : hub.Agrees) {msgCh : MsgCh} {subChannels : Table Bytes Bool}
    (isOpen : hub.conns msgCh = some subChannels) :
    Subscriptions.Agrees msgCh (fun channel ch => channel ∈ hub.subscribed ch)
      ⟨subChannels, hub.subs⟩ := by
  refine ⟨fun channel ch => ?_, agrees.tidy, agrees.marked msgCh subChannels isOpen⟩
  rw [agrees.has_iff]
  by_cases same : ch = msgCh
  · subst same
    rw [if_pos rfl, subscribed, isOpen]
    rfl
  · rw [if_neg same]

theorem subscribed_withConn (msgCh ch : MsgCh) (conn : Option (Table Bytes Bool)) (subs : PubSub) :
    (hub.withConn msgCh conn subs).subscribed ch =
      if ch = msgCh then (conn.getD ∅).keys.toFinset else hub.subscribed ch := by
  by_cases same : ch = msgCh
  · subst same
    simp [subscribed, withConn]
  · simp [subscribed, withConn, same]

/-- The agreement after one connection has changed. -/
theorem Agrees.withConn (agrees : hub.Agrees) {msgCh : MsgCh} {conn : Option (Table Bytes Bool)}
    {subs : PubSub} (hasIff : ∀ channel ch, subs.Has channel ch ↔
      if ch = msgCh then channel ∈ (conn.getD ∅).keys.toFinset else channel ∈ hub.subscribed ch)
    (tidy : subs.Tidy) (marked : ∀ subChannels, conn = some subChannels →
      ∀ channel mark, subChannels.lookup channel = some mark → mark = true) :
    (hub.withConn msgCh conn subs).Agrees ∧
      Resubscribed hub (hub.withConn msgCh conn subs) msgCh (conn.getD ∅).keys.toFinset := by
  have connsEq : ∀ ch, (hub.withConn msgCh conn subs).conns ch =
      if ch = msgCh then conn else hub.conns ch := fun ch => Function.update_apply _ _ _ _
  refine ⟨⟨fun channel ch => ?_, tidy, fun ch subChannels isOpen => ?_⟩, ?_, ?_, rfl⟩
  · rw [subscribed_withConn]
    refine (hasIff channel ch).trans ?_
    split <;> rfl
  · rw [connsEq] at isOpen
    split at isOpen
    · exact marked subChannels isOpen
    · exact agrees.marked ch subChannels isOpen
  · rw [subscribed_withConn, if_pos rfl]
  · intro other different
    rw [subscribed_withConn, if_neg different]

/-- The buffers do not matter for the agreement. -/
theorem Agrees.withBuffers (agrees : hub.Agrees) (buffers : MsgCh → List Message) :
    (hub.withBuffers buffers).Agrees :=
  ⟨agrees.has_iff, agrees.tidy, agrees.marked⟩

theorem foldl_insert (list : List Bytes) (set : Finset Bytes) :
    list.foldl (fun set ch => insert ch set) set = set ∪ list.toFinset := by
  induction list generalizing set with
  | nil => simp
  | cons ch rest ih =>
      rw [List.foldl_cons, ih]
      ext channel
      simp only [Finset.mem_union, Finset.mem_insert, List.toFinset_cons]
      tauto

theorem foldl_erase (list : List Bytes) (set : Finset Bytes) :
    list.foldl (fun set ch => set.erase ch) set = set \ list.toFinset := by
  induction list generalizing set with
  | nil => simp
  | cons ch rest ih =>
      rw [List.foldl_cons, ih]
      ext channel
      simp only [Finset.mem_sdiff, Finset.mem_erase, List.toFinset_cons, Finset.mem_insert]
      tauto

/-- A command that changes the set of its connection channel by channel. -/
theorem Agrees.change (agrees : hub.Agrees) {msgCh : MsgCh} {subChannels : Table Bytes Bool}
    (isOpen : hub.conns msgCh = some subChannels) {one : Bytes → Subscriptions → Subscriptions}
    {effect : Bytes → Finset Bytes → Finset Bytes}
    (round : ∀ ch own others, Subscriptions.Agrees msgCh others own →
      (one ch own).Agrees msgCh others ∧ (one ch own).channels = effect ch own.channels)
    (verb : String) (list : List Bytes) :
    (hub.change msgCh subChannels verb one list).1.Agrees ∧
      Resubscribed hub (hub.change msgCh subChannels verb one list).1 msgCh
        (list.foldl (fun set ch => effect ch set) (hub.subscribed msgCh)) ∧
      (hub.change msgCh subChannels verb one list).2 =
        reports verb effect list (hub.subscribed msgCh) := by
  have ownEq : hub.subscribed msgCh = (Subscriptions.mk subChannels hub.subs).channels := by
    rw [subscribed, isOpen]
    rfl
  rcases (agrees.own isOpen).forChannels (fun ch own => round ch own _) verb list with
    ⟨lastAgrees, channelsEq, linesEq⟩
  rcases @Agrees.withConn _ agrees msgCh (some _) _ lastAgrees.has_iff lastAgrees.tidy
    fun _ isOwn => Option.some.inj isOwn ▸ lastAgrees.marked with ⟨nextAgrees, resubscribed⟩
  rw [ownEq]
  exact ⟨nextAgrees, channelsEq ▸ resubscribed, linesEq⟩

theorem Agrees.disconnect (agrees : hub.Agrees) (msgCh : MsgCh) (order : RangeOrder Bytes) :
    (hub.withConn msgCh none (hub.subs.unsubscribeAll msgCh order)).Agrees ∧
      Resubscribed hub (hub.withConn msgCh none (hub.subs.unsubscribeAll msgCh order)) msgCh ∅ := by
  refine agrees.withConn (fun channel ch => ?_) (PubSub.tidy_unsubscribeAll msgCh order)
    fun _ isOpen => by cases isOpen
  rw [PubSub.has_unsubscribeAll, agrees.has_iff]
  by_cases same : ch = msgCh
  · simp [same]
  · simp [same]

theorem Agrees.connect (agrees : hub.Agrees) {msgCh : MsgCh} (isNew : hub.conns msgCh = none) :
    (hub.withConn msgCh (some ∅) hub.subs).Agrees ∧
      (hub.withConn msgCh (some ∅) hub.subs).subscribed = hub.subscribed := by
  have subscribedEq : ∀ ch, (if ch = msgCh then ∅ else hub.subscribed ch) = hub.subscribed ch := by
    intro ch
    split
    · rename_i same
      rw [same, subscribed, isNew]
      rfl
    · rfl
  constructor
  · refine (agrees.withConn (fun channel ch => ?_) agrees.tidy fun _ isNew => ?_).1
    · rw [agrees.has_iff, ← subscribedEq]
      split <;> rfl
    · obtain rfl := Option.some.inj isNew
      intro channel mark found
      cases found
  · funext ch
    rw [subscribed_withConn]
    exact subscribedEq ch

/-- Every event keeps the agreement and does what it should. -/
theorem Agrees.step (agrees : hub.Agrees) {event : Event} {next : Hub} {lines : List Bytes}
    (happens : hub.step event = some (next, lines)) :
    next.Agrees ∧ Serves hub next lines event := by
  cases event with
  | connect msgCh =>
      rw [Hub.step] at happens
      split at happens
      · cases happens
      · rename_i isNew
        cases happens
        rcases agrees.connect isNew with ⟨nextAgrees, subscribedEq⟩
        exact ⟨nextAgrees.withBuffers _, subscribedEq, rfl⟩
  | subscribe msgCh args =>
      rcases Option.map_eq_some_iff.mp happens with ⟨subChannels, isOpen, changed⟩
      rw [Serves]
      split at changed
      · rename_i noArgs
        cases changed
        rw [if_pos noArgs]
        exact ⟨agrees, rfl⟩
      · rename_i hasArgs
        rw [if_neg hasArgs]
        rcases agrees.change isOpen (fun ch own others ownAgrees => ownAgrees.subscribeTo ch)
          "SUBSCRIBE" args with ⟨nextAgrees, resubscribed, linesEq⟩
        rw [foldl_insert] at resubscribed
        rw [changed] at nextAgrees resubscribed linesEq
        exact ⟨nextAgrees, resubscribed, linesEq⟩
  | unsubscribe msgCh args order =>
      rcases Option.map_eq_some_iff.mp happens with ⟨subChannels, isOpen, changed⟩
      rcases @Agrees.change _ agrees _ _ isOpen _ (fun ch set => set.erase ch)
        (fun ch own others ownAgrees => ownAgrees.unsubscribeFrom ch) "UNSUBSCRIBE"
        (if args = [] then order.arrange subChannels.keys else args) with
        ⟨nextAgrees, resubscribed, linesEq⟩
      rw [foldl_erase] at resubscribed
      rw [changed] at nextAgrees resubscribed linesEq
      refine ⟨nextAgrees, _, ?_, resubscribed, linesEq⟩
      by_cases noArgs : args = []
      · rw [if_pos noArgs, if_pos noArgs, subscribed, isOpen, Option.getD_some]
        exact ⟨(order.perm _).nodup_iff.mpr subChannels.nodupKeys,
          List.toFinset_eq_of_perm _ _ (order.perm _)⟩
      · rw [if_neg noArgs, if_neg noArgs]
  | publish msgCh args order =>
      rcases Option.map_eq_some_iff.mp happens with ⟨_, _, sent⟩
      rcases args with _ | ⟨channel, _ | ⟨payload, rest⟩⟩
      · cases sent
        exact ⟨agrees, rfl⟩
      · cases sent
        exact ⟨agrees, rfl⟩
      · cases sent
        refine ⟨agrees.withBuffers _, ?_⟩
        set keys := order.arrange ((hub.subs.lookup channel).getD ∅).keys with keysDef
        have nodup : keys.Nodup := (order.perm _).nodup_iff.mpr (AList.nodupKeys _)
        rcases sendAll_spec ⟨channel, payload⟩ nodup hub.buffers with ⟨buffersEq, countEq⟩
        refine ⟨_, fun ch => ?_, rfl, buffersEq,
          congrArg (fun count : Nat => [number count]) countEq⟩
        rw [Finset.mem_filter, List.mem_toFinset, keysDef, (order.perm _).mem_iff,
          ← AList.mem_keys, PubSub.mem_getD_lookup, agrees.has_iff]
  | forward msgCh =>
      rw [Hub.step] at happens
      split at happens
      · cases happens
      · rename_i msg rest pending
        cases happens
        refine ⟨agrees.withBuffers _, rfl, msg, ?_, fun other different => ?_⟩
        · have left : (hub.withBuffers (Function.update hub.buffers msgCh rest)).buffers msgCh =
              rest := Function.update_self _ _ _
          rw [pending, left]
        · exact Function.update_of_ne different _ _
  | disconnect msgCh order =>
      rcases Option.map_eq_some_iff.mp happens with ⟨_, _, ended⟩
      cases ended
      exact agrees.disconnect msgCh order

theorem Agrees.run (agrees : hub.Agrees) {events : List Event} {last : Hub}
    (ran : hub.run events = some last) : last.Agrees := by
  induction events generalizing hub with
  | nil => exact Option.some.inj ran ▸ agrees
  | cons event rest ih =>
      rcases Option.bind_eq_some_iff.mp ran with ⟨⟨next, lines⟩, happens, ran⟩
      exact ih (agrees.step happens).1 ran

end

/-- The shared map holds exactly the message channels of the subscribed connections, and no
channel without any. -/
structure Exact (hub : Hub) : Prop where
  mem_iff : ∀ channel inner, hub.subs.lookup channel = some inner →
    ∀ ch, ch ∈ inner ↔ channel ∈ hub.subscribed ch
  absent_iff : ∀ channel, hub.subs.lookup channel = none ↔ ∀ ch, channel ∉ hub.subscribed ch

theorem Agrees.exact {hub : Hub} (agrees : hub.Agrees) : hub.Exact := by
  constructor
  · intro channel inner found ch
    rw [← agrees.has_iff, ← PubSub.mem_getD_lookup, found, Option.getD_some]
  · intro channel
    constructor
    · intro absent ch
      rw [← agrees.has_iff, ← PubSub.mem_getD_lookup, absent]
      exact AList.notMem_empty ch
    · intro nobody
      cases found : hub.subs.lookup channel with
      | none => rfl
      | some inner =>
          obtain ⟨ch, mem⟩ := List.exists_mem_of_ne_nil _
            (List.ne_nil_of_length_pos (Nat.pos_of_ne_zero (agrees.tidy channel inner found)))
          exact absurd ((agrees.has_iff channel ch).mp ⟨inner, found, mem⟩) (nobody ch)

/-- Two connections subscribe, one of them twice, and one leaves again. -/
def sample : List Event :=
  [.connect 0, .subscribe 0 [[97], [97], [98]], .connect 1, .subscribe 1 [[97]],
    .publish 1 [[97], [120]] (.asStored _), .unsubscribe 0 [] (.asStored _)]

end Hub

end Server

end BriseDB
