import SemanticHighlight.Workspace.Feed

/-!
# Channels that keep the last events

Events reach the subscribers through a channel that keeps the last of them only. A receiver takes
one thing at a time: the next event, or, when that is gone, the number of those that are. What is
assumed of a channel is what its documentation says of a single operation; that draining it gives
the last events, behind the number of those that are gone, follows from there. The feed of a
workspace is such a channel.
-/

set_option autoImplicit false

namespace SemanticHighlight

/-- A channel with its receivers, and what is assumed of sending, subscribing and receiving. -/
structure Channel (State Receiver : Type) where
  blank : State
  send : State → Event → State
  subscribe : State → Receiver × State
  /-- Hands over one thing, or nothing when nothing waits. -/
  receive : State → Receiver → Option Delivery × Receiver
  /-- Whether what is sent is kept. As long as nobody has subscribed, it need not be. -/
  attended : State → Bool
  /-- How many events were sent and kept. -/
  sent : State → Nat
  /-- The events that are still kept, the oldest first. -/
  held : State → List Event
  /-- How many of the events sent are behind a receiver. -/
  position : Receiver → Nat
  sent_blank : sent blank = 0
  held_blank : held blank = []
  send_unattended : ∀ state event, attended state = false → send state event = state
  attended_send : ∀ state event, attended state = true → attended (send state event) = true
  sent_send : ∀ state event, attended state = true → sent (send state event) = sent state + 1
  /-- A channel that is full lets the oldest event go. -/
  held_send : ∀ state event, attended state = true → held (send state event) =
    (held state ++ [event]).drop ((held state).length + 1 - Feed.capacity)
  attended_subscribe : ∀ state, attended (subscribe state).2 = true
  sent_subscribe : ∀ state, sent (subscribe state).2 = sent state
  held_subscribe : ∀ state, held (subscribe state).2 = held state
  /-- A receiver gets the events sent after it was made. -/
  position_subscribe : ∀ state, position (subscribe state).1 = sent state
  receive_nothing : ∀ state receiver, sent state ≤ position receiver →
    receive state receiver = (none, receiver)
  /-- A receiver that fell behind the oldest event kept is told how many it missed, and goes on with
  that event. -/
  receive_lagged : ∀ state receiver, position receiver + (held state).length < sent state →
    ∃ read, receive state receiver =
        (some (.lagged (sent state - (held state).length - position receiver)), read) ∧
      position read = sent state - (held state).length
  receive_event : ∀ state receiver, position receiver < sent state →
    sent state ≤ position receiver + (held state).length →
      ∃ event read,
        (held state)[position receiver + (held state).length - sent state]? = some event ∧
          receive state receiver = (some (.event event), read) ∧
          position read = position receiver + 1

/-- What is handed over for events that were not read yet: the last of them, behind the number of
those that are gone. -/
def Delivery.owed (unread : List Event) : List Delivery :=
  if Feed.capacity < unread.length then
    .lagged (unread.length - Feed.capacity) ::
      (unread.drop (unread.length - Feed.capacity)).map .event
  else
    unread.map .event

namespace Delivery

/-- Deliveries that tell of every event once and in order: it is handed over, or it is counted among
those that are gone. -/
inductive Tell : List Delivery → List Event → Prop where
  | nothing : Tell [] []
  | event {deliveries : List Delivery} {events : List Event} (event : Event)
      (rest : Tell deliveries events) : Tell (.event event :: deliveries) (event :: events)
  | lagged {deliveries : List Delivery} {events : List Event} (gone : List Event)
      (rest : Tell deliveries events) : Tell (.lagged gone.length :: deliveries) (gone ++ events)

theorem Tell.append {deliveries more : List Delivery} {events later : List Event}
    (tell : Tell deliveries events) (onward : Tell more later) :
    Tell (deliveries ++ more) (events ++ later) := by
  induction tell with
  | nothing => exact onward
  | event event _ ih => exact .event event ih
  | lagged gone _ ih =>
      rw [List.append_assoc]
      exact .lagged gone ih

theorem tell_events (events : List Event) : Tell (events.map .event) events := by
  induction events with
  | nil => exact .nothing
  | cons event events ih => exact .event event ih

theorem tell_owed (unread : List Event) : Tell (owed unread) unread := by
  unfold owed
  split
  · have told := Tell.lagged (unread.take (unread.length - Feed.capacity))
      (tell_events (unread.drop (unread.length - Feed.capacity)))
    rwa [List.take_append_drop, List.length_take_of_le (Nat.sub_le _ _)] at told
  · exact tell_events unread

theorem tell_flatten_owed (batches : List (List Event)) :
    Tell (batches.map owed).flatten batches.flatten := by
  induction batches with
  | nil => exact .nothing
  | cons unread batches ih => exact (tell_owed unread).append ih

end Delivery

/-- Of a list that has lost all but its last items, one more item leaves the same as of the whole
list. -/
private theorem drop_concat_drop {α : Type} (items : List α) (item : α) (capacity : Nat) :
    (items.drop (items.length - capacity) ++ [item]).drop
        ((items.drop (items.length - capacity)).length + 1 - capacity) =
      (items ++ [item]).drop ((items ++ [item]).length - capacity) := by
  have count : items.length - capacity + (items.length - (items.length - capacity) + 1 - capacity) =
      items.length + 1 - capacity := by omega
  rw [← List.drop_append_of_le_length (Nat.sub_le _ _), List.drop_drop, List.length_drop, count,
    List.length_append, List.length_singleton]

namespace Channel

variable {State Receiver : Type} (channel : Channel State Receiver)

theorem receive_advances {state : State} {receiver read : Receiver} {delivery : Delivery}
    (received : channel.receive state receiver = (some delivery, read)) :
    channel.sent state - channel.position read <
      channel.sent state - channel.position receiver := by
  by_cases waiting : channel.position receiver < channel.sent state
  · by_cases lags : channel.position receiver + (channel.held state).length < channel.sent state
    · obtain ⟨reached, told, moved⟩ := channel.receive_lagged state receiver lags
      rw [told] at received
      cases received
      omega
    · obtain ⟨event, reached, _, told, moved⟩ :=
        channel.receive_event state receiver waiting (Nat.not_lt.mp lags)
      rw [told] at received
      cases received
      omega
  · rw [channel.receive_nothing state receiver (Nat.not_lt.mp waiting)] at received
    cases received

/-- Receives until nothing waits any more. -/
def drain (state : State) (receiver : Receiver) : List Delivery × Receiver :=
  match _ : channel.receive state receiver with
  | (none, read) => ([], read)
  | (some delivery, read) =>
      let later := drain state read
      (delivery :: later.1, later.2)
termination_by channel.sent state - channel.position receiver
decreasing_by exact channel.receive_advances ‹_›

theorem drain_of_none {state : State} {receiver read : Receiver}
    (received : channel.receive state receiver = (none, read)) :
    channel.drain state receiver = ([], read) := by
  rw [drain]
  split
  · rename_i told
    rw [received] at told
    cases told
    rfl
  · rename_i told
    rw [received] at told
    cases told

theorem drain_of_some {state : State} {receiver read : Receiver} {delivery : Delivery}
    (received : channel.receive state receiver = (some delivery, read)) :
    channel.drain state receiver =
      (delivery :: (channel.drain state read).1, (channel.drain state read).2) := by
  rw [drain]
  split
  · rename_i told
    rw [received] at told
    cases told
  · rename_i told
    rw [received] at told
    cases told
    rfl

/-! ## What a channel keeps of all that was sent -/

/-- A channel that the events of a log went through. -/
structure Carries (log : List Event) (state : State) : Prop where
  sent : channel.sent state = log.length
  held : channel.held state = log.drop (log.length - Feed.capacity)

variable {channel} {log : List Event} {state : State} {receiver : Receiver}

theorem carries_blank : channel.Carries [] channel.blank :=
  ⟨channel.sent_blank, channel.held_blank⟩

theorem Carries.subscribe (carries : channel.Carries log state) :
    channel.Carries log (channel.subscribe state).2 :=
  ⟨(channel.sent_subscribe state).trans carries.sent,
    (channel.held_subscribe state).trans carries.held⟩

theorem Carries.send (carries : channel.Carries log state)
    (attended : channel.attended state = true) (event : Event) :
    channel.Carries (log ++ [event]) (channel.send state event) := by
  refine ⟨?_, ?_⟩
  · rw [channel.sent_send state event attended, carries.sent, List.length_append,
      List.length_singleton]
  · rw [channel.held_send state event attended, carries.held]
    exact drop_concat_drop log event Feed.capacity

theorem attended_sendAll (attended : channel.attended state = true) (events : List Event) :
    channel.attended (events.foldl channel.send state) = true := by
  induction events generalizing state with
  | nil => exact attended
  | cons event events ih => exact ih (channel.attended_send state event attended)

theorem Carries.sendAll (carries : channel.Carries log state)
    (attended : channel.attended state = true) (events : List Event) :
    channel.Carries (log ++ events) (events.foldl channel.send state) := by
  induction events generalizing log state with
  | nil =>
      rw [List.append_nil]
      exact carries
  | cons event events ih =>
      rw [List.append_cons]
      exact ih (carries.send attended event) (channel.attended_send state event attended)

theorem sendAll_unattended (unattended : channel.attended state = false) (events : List Event) :
    events.foldl channel.send state = state := by
  induction events with
  | nil => rfl
  | cons event events ih =>
      rw [List.foldl_cons, channel.send_unattended state event unattended]
      exact ih

/-- A receiver that has not fallen behind is handed all that it has not read. -/
theorem Carries.drain_of_kept (carries : channel.Carries log state)
    (inside : channel.position receiver ≤ log.length)
    (kept : log.length ≤ channel.position receiver + Feed.capacity) :
    (channel.drain state receiver).1 =
        (log.drop (channel.position receiver)).map .event ∧
      channel.position (channel.drain state receiver).2 = log.length := by
  obtain ⟨waiting, counts⟩ : ∃ waiting, log.length - channel.position receiver = waiting :=
    ⟨_, rfl⟩
  induction waiting generalizing receiver with
  | zero =>
      have reached : channel.position receiver = log.length := by omega
      have nothing := channel.receive_nothing state receiver (by rw [carries.sent]; omega)
      rw [channel.drain_of_none nothing, reached, List.drop_length]
      exact ⟨rfl, rfl⟩
  | succ waiting ih =>
      have length : (channel.held state).length = min log.length Feed.capacity := by
        rw [carries.held, List.length_drop]
        omega
      obtain ⟨event, read, stands, told, moved⟩ := channel.receive_event state receiver
        (by rw [carries.sent]; omega) (by rw [carries.sent, length]; omega)
      obtain ⟨rest, reached⟩ := @ih read (by omega) (by omega) (by omega)
      have next : log[channel.position receiver]? = some event := by
        rw [← stands, carries.held, List.getElem?_drop, carries.sent, List.length_drop]
        congr 1
        omega
      obtain ⟨bound, same⟩ := List.getElem?_eq_some_iff.mp next
      rw [channel.drain_of_some told, List.drop_eq_getElem_cons bound, same, List.map_cons, rest,
        moved]
      exact ⟨rfl, reached⟩

theorem Carries.drain (carries : channel.Carries log state)
    (inside : channel.position receiver ≤ log.length) :
    (channel.drain state receiver).1 =
        Delivery.owed (log.drop (channel.position receiver)) ∧
      channel.position (channel.drain state receiver).2 = log.length := by
  unfold Delivery.owed
  rw [List.length_drop]
  split
  · rename_i behind
    have length : (channel.held state).length = Feed.capacity := by
      rw [carries.held, List.length_drop]
      omega
    obtain ⟨read, told, moved⟩ := channel.receive_lagged state receiver
      (by rw [carries.sent, length]; omega)
    rw [carries.sent, length] at told moved
    obtain ⟨rest, reached⟩ :=
      @Carries.drain_of_kept _ _ _ _ _ read carries (by omega) (by omega)
    have missed : log.length - Feed.capacity - channel.position receiver =
        log.length - channel.position receiver - Feed.capacity := Nat.sub_right_comm ..
    have oldest : log.length - Feed.capacity =
        channel.position receiver + (log.length - channel.position receiver - Feed.capacity) := by
      omega
    rw [channel.drain_of_some told, rest, moved, List.drop_drop, missed, oldest]
    exact ⟨rfl, reached⟩
  · exact carries.drain_of_kept inside (by omega)

end Channel

/-! ## The feed of a workspace as a channel -/

namespace Feed

/-- Hands over one thing: the next event of the log, or the number of those that are gone. -/
def receive (feed : Feed) (subscription : Subscription) : Option Delivery × Subscription :=
  let oldest := feed.log.length - capacity
  if subscription.position < oldest then
    (some (.lagged (oldest - subscription.position)), ⟨oldest⟩)
  else
    match feed.log[subscription.position]? with
    | none => (none, subscription)
    | some event => (some (.event event), ⟨subscription.position + 1⟩)

def channel : Channel Feed Subscription where
  blank := empty
  send feed event := feed.send [event]
  subscribe feed := (feed.subscribe, feed)
  receive := receive
  attended _ := true
  sent feed := feed.log.length
  held feed := feed.log.drop (feed.log.length - capacity)
  position := Subscription.position
  sent_blank := rfl
  held_blank := rfl
  send_unattended _ _ unattended := by cases unattended
  attended_send _ _ _ := rfl
  sent_send feed event _ := List.length_append
  held_send feed event _ := (drop_concat_drop feed.log event capacity).symm
  attended_subscribe _ := rfl
  sent_subscribe _ := rfl
  held_subscribe _ := rfl
  position_subscribe _ := rfl
  receive_nothing feed subscription reached := by
    have nothing : feed.log[subscription.position]? = none := List.getElem?_eq_none reached
    have current : ¬ subscription.position < feed.log.length - capacity := by omega
    simp only [receive, current, ↓reduceIte, nothing]
  receive_lagged feed subscription behind := by
    rw [List.length_drop] at behind ⊢
    have oldest : feed.log.length - (feed.log.length - (feed.log.length - capacity)) =
        feed.log.length - capacity := by omega
    rw [oldest]
    exact ⟨_, if_pos (by omega), rfl⟩
  receive_event feed subscription waiting kept := by
    rw [List.length_drop] at kept ⊢
    have current : ¬ subscription.position < feed.log.length - capacity := by omega
    have stands : feed.log[subscription.position]? = some feed.log[subscription.position] :=
      List.getElem?_eq_getElem waiting
    refine ⟨feed.log[subscription.position], ⟨subscription.position + 1⟩, ?_, ?_, rfl⟩
    · rw [List.getElem?_drop, ← stands]
      congr 1
      omega
    · simp only [receive, current, ↓reduceIte, stands]

theorem carries_channel (feed : Feed) : channel.Carries feed.log feed :=
  ⟨rfl, rfl⟩

/-- Draining a feed is receiving from it until nothing waits. -/
theorem drain_channel {feed : Feed} {subscription : Subscription}
    (inside : subscription.position ≤ feed.log.length) :
    channel.drain feed subscription = feed.drain subscription := by
  obtain ⟨handed, reached⟩ := (carries_channel feed).drain inside
  have position : (channel.drain feed subscription).2 = feed.subscribe :=
    congrArg Subscription.mk reached
  rw [Prod.ext_iff, handed, position]
  refine ⟨?_, rfl⟩
  change Delivery.owed (feed.log.drop subscription.position) = (feed.drain subscription).1
  unfold Delivery.owed drain
  dsimp only
  split
  · rename_i behind
    rw [if_neg (by omega)]
  · rename_i current
    have none : (feed.log.drop subscription.position).length - capacity = 0 := by omega
    rw [if_pos none, none, List.drop_zero]

end Feed

end SemanticHighlight
