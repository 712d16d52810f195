/-!
# The feed of events

Subscribers learn of updated and closed documents. A subscription sees the events sent after it was
made. Events wait for it until it is drained, but only the last 64 of them; the number of those
that are gone is told in their place.
-/

set_option autoImplicit false

namespace SemanticHighlight

inductive Event where
  | updated (uri resultId : String)
  | closed (uri : String)
deriving DecidableEq

/-- Every event sent so far, in order. -/
structure Feed where
  log : List Event
deriving DecidableEq

/-- How far into the log a subscriber has read. -/
structure Subscription where
  position : Nat
deriving DecidableEq

inductive Delivery where
  | event (event : Event)
  /-- This many events are gone. -/
  | lagged (count : Nat)
deriving DecidableEq

namespace Feed

def capacity : Nat := 64

def empty : Feed := ⟨[]⟩

def send (feed : Feed) (events : List Event) : Feed :=
  ⟨feed.log ++ events⟩

/-- Begins a subscription behind all events sent so far. -/
def subscribe (feed : Feed) : Subscription :=
  ⟨feed.log.length⟩

/-- Hands over what waits for a subscription. -/
def drain (feed : Feed) (subscription : Subscription) : List Delivery × Subscription :=
  let unread := feed.log.drop subscription.position
  let lost := unread.length - capacity
  let kept := (unread.drop lost).map .event
  (if lost = 0 then kept else .lagged lost :: kept, feed.subscribe)

@[simp] theorem log_send (feed : Feed) (events : List Event) :
    (feed.send events).log = feed.log ++ events := rfl

end Feed

end SemanticHighlight
