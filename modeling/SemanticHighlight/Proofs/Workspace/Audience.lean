import SemanticHighlight.Proofs.Workspace.Announced
import SemanticHighlight.Proofs.Workspace.Channel

/-!
# What subscribers receive

Any number of subscribers listen to a workspace, each from a moment of its own, and drain what waits
for them whenever they like. Each drain hands over what was sent since the one before it, as far as
the channel has kept it, and says how much it has not. Subscribers do not notice each other.
-/

set_option autoImplicit false

namespace SemanticHighlight

/-- The events that lead from one workspace to a later one. -/
def Workspace.sentUntil (before after : Workspace) : List Event :=
  after.feed.log.drop before.feed.log.length

/-- A workspace, the channel that carries its events, and the subscribers in the order in which they
came. -/
structure Audience (State Receiver : Type) where
  workspace : Workspace
  state : State
  receivers : List Receiver

namespace Audience

inductive Act where
  | call (fresh : FreshIds) (call : Workspace.Call)
  | subscribe
  | drain (number : Nat)
deriving DecidableEq

def calls (acts : List Act) : List (FreshIds × Workspace.Call) :=
  acts.filterMap fun
    | .call fresh call => some (fresh, call)
    | .subscribe | .drain _ => none

/-- Whether something matters to a subscription: it is a call or a drain of that subscription. -/
def Act.matters (number : Nat) : Act → Bool
  | .call _ _ => true
  | .subscribe => false
  | .drain other => other == number

variable {State Receiver : Type} (channel : Channel State Receiver)

def opening (workspace : Workspace) : Audience State Receiver :=
  ⟨workspace, channel.blank, []⟩

/-- Does one thing. A drain shows what it hands over, and to which subscription. -/
def perform (audience : Audience State Receiver) :
    Act → Option (Nat × List Delivery) × Audience State Receiver
  | .call fresh call =>
      let after := (audience.workspace.perform fresh call).2
      let state := (audience.workspace.sentUntil after).foldl channel.send audience.state
      (none, { audience with workspace := after, state := state })
  | .subscribe =>
      let subscribed := channel.subscribe audience.state
      (none, { audience with
        state := subscribed.2, receivers := audience.receivers ++ [subscribed.1] })
  | .drain number =>
      match audience.receivers[number]? with
      | none => (none, audience)
      | some receiver =>
          let drained := channel.drain audience.state receiver
          (some (number, drained.1), { audience with
            receivers := audience.receivers.set number drained.2 })

def run (audience : Audience State Receiver) :
    List Act → List (Nat × List Delivery) × Audience State Receiver
  | [] => ([], audience)
  | act :: acts =>
      let performed := audience.perform channel act
      let later := performed.2.run acts
      (performed.1.toList ++ later.1, later.2)

/-- What a subscription was handed, drain by drain. -/
def handed (number : Nat) (drains : List (Nat × List Delivery)) : List (List Delivery) :=
  drains.filterMap fun drained => if drained.1 = number then some drained.2 else none

/-- The events sent between one drain of a subscription and the next, and those that still wait at
the end, when `unread` are waiting at the beginning. -/
def batches (number : Nat) (workspace : Workspace) (unread : List Event) :
    List Act → List (List Event) × List Event
  | [] => ([], unread)
  | .call fresh call :: acts =>
      let after := (workspace.perform fresh call).2
      batches number after (unread ++ workspace.sentUntil after) acts
  | .subscribe :: acts => batches number workspace unread acts
  | .drain other :: acts =>
      if other = number then
        let later := batches number workspace [] acts
        (unread :: later.1, later.2)
      else
        batches number workspace unread acts

end Audience

/-! ## The events of a run -/

namespace Workspace

theorem log_sentUntil_run (workspace : Workspace) (calls : List (FreshIds × Call)) :
    workspace.feed.log ++ workspace.sentUntil (workspace.run calls).2 =
      (workspace.run calls).2.feed.log := by
  obtain ⟨sent, grown⟩ : workspace.feed.log <+: (workspace.run calls).2.feed.log :=
    log_prefix_run workspace [] calls
  rw [sentUntil, ← grown, List.drop_left]

theorem log_sentUntil_perform (workspace : Workspace) (fresh : FreshIds) (call : Call) :
    workspace.feed.log ++ workspace.sentUntil (workspace.perform fresh call).2 =
      (workspace.perform fresh call).2.feed.log :=
  log_sentUntil_run workspace [(fresh, call)]

theorem sentUntil_cons (workspace : Workspace) (fresh : FreshIds) (call : Call)
    (calls : List (FreshIds × Call)) :
    let after := (workspace.perform fresh call).2
    workspace.sentUntil (workspace.run ((fresh, call) :: calls)).2 =
      workspace.sentUntil after ++ after.sentUntil (after.run calls).2 := by
  intro after
  have grown : workspace.feed.log ++
      workspace.sentUntil (workspace.run ((fresh, call) :: calls)).2 =
        workspace.feed.log ++
          (workspace.sentUntil after ++ after.sentUntil (after.run calls).2) := by
    rw [log_sentUntil_run, ← List.append_assoc, log_sentUntil_perform, log_sentUntil_run]
    rfl
  exact List.append_cancel_left grown

end Workspace

namespace Audience

variable {State Receiver : Type} {channel : Channel State Receiver}

theorem flatten_batches (number : Nat) (workspace : Workspace) (unread : List Event)
    (acts : List Act) :
    (batches number workspace unread acts).1.flatten ++
        (batches number workspace unread acts).2 =
      unread ++ workspace.sentUntil (workspace.run (calls acts)).2 := by
  induction acts generalizing workspace unread with
  | nil =>
      change [] ++ unread = unread ++ workspace.feed.log.drop workspace.feed.log.length
      rw [List.drop_length, List.append_nil, List.nil_append]
  | cons act acts ih =>
      cases act with
      | call fresh call =>
          refine (ih _ _).trans ?_
          rw [List.append_assoc, ← Workspace.sentUntil_cons]
          rfl
      | subscribe => exact ih workspace unread
      | drain other =>
          rw [batches]
          split
          · rw [List.flatten_cons, List.append_assoc, ih]
            rfl
          · exact ih workspace unread

theorem batches_filter_matters (number : Nat) (workspace : Workspace) (unread : List Event)
    (acts : List Act) :
    batches number workspace unread (acts.filter (Act.matters number)) =
      batches number workspace unread acts := by
  induction acts generalizing workspace unread with
  | nil => rfl
  | cons act acts ih =>
      cases act with
      | call fresh call => exact ih _ _
      | subscribe => exact ih workspace unread
      | drain other =>
          rw [batches]
          split
          · rename_i own
            have matters : (Act.drain other).matters number = true := beq_iff_eq.mpr own
            rw [List.filter_cons_of_pos matters, batches, if_pos own, ih]
          · rename_i apart
            have idle : ¬ (Act.drain other).matters number = true := apart ∘ beq_iff_eq.mp
            rw [List.filter_cons_of_neg idle, ih]

/-! ## What one thing does -/

section Step

variable {audience : Audience State Receiver} {number : Nat}

theorem workspace_perform (act : Act) :
    (audience.perform channel act).2.workspace =
      (audience.workspace.run (calls [act])).2 := by
  cases act with
  | call fresh call => rfl
  | subscribe => rfl
  | drain number =>
      rw [perform]
      split <;> rfl

theorem length_receivers_perform (act : Act) :
    (audience.perform channel act).2.receivers.length =
      audience.receivers.length + [act].count .subscribe := by
  cases act with
  | call fresh call => rfl
  | subscribe => exact List.length_append
  | drain number =>
      rw [perform]
      split
      · rfl
      · exact List.length_set

theorem carries_perform {log : List Event} (carries : channel.Carries log audience.state)
    (act : Act) : ∃ grown, channel.Carries grown (audience.perform channel act).2.state := by
  cases act with
  | call fresh call =>
      cases attended : channel.attended audience.state with
      | true => exact ⟨_, carries.sendAll attended _⟩
      | false =>
          refine ⟨log, ?_⟩
          rw [perform]
          dsimp only
          rw [Channel.sendAll_unattended attended]
          exact carries
  | subscribe => exact ⟨log, carries.subscribe⟩
  | drain number =>
      rw [perform]
      split <;> exact ⟨log, carries⟩

/-- A subscription for which `unread` is waiting in the channel. -/
structure Awaits (channel : Channel State Receiver) (number : Nat) (unread : List Event)
    (audience : Audience State Receiver) : Prop where
  attended : channel.attended audience.state = true
  stands : ∃ log receiver, channel.Carries log audience.state ∧
    audience.receivers[number]? = some receiver ∧ channel.position receiver ≤ log.length ∧
    log.drop (channel.position receiver) = unread

theorem awaits_subscribe {log : List Event} (carries : channel.Carries log audience.state) :
    Awaits channel audience.receivers.length [] (audience.perform channel .subscribe).2 := by
  have position : channel.position (channel.subscribe audience.state).1 = log.length := by
    rw [channel.position_subscribe, carries.sent]
  refine ⟨channel.attended_subscribe audience.state, log, (channel.subscribe audience.state).1,
    carries.subscribe, List.getElem?_concat_length, position.le, ?_⟩
  rw [position]
  exact List.drop_length

variable {unread : List Event}

theorem Awaits.call (awaits : Awaits channel number unread audience) (fresh : FreshIds)
    (call : Workspace.Call) :
    let next := (audience.perform channel (.call fresh call)).2
    Awaits channel number (unread ++ audience.workspace.sentUntil next.workspace) next := by
  intro next
  obtain ⟨log, receiver, carries, stands, inside, rfl⟩ := awaits.stands
  refine ⟨Channel.attended_sendAll awaits.attended _, _, receiver,
    carries.sendAll awaits.attended _, stands, ?_, ?_⟩
  · rw [List.length_append]
    exact Nat.le_add_right_of_le inside
  · exact List.drop_append_of_le_length inside

theorem Awaits.subscribe (awaits : Awaits channel number unread audience) :
    Awaits channel number unread (audience.perform channel .subscribe).2 := by
  obtain ⟨log, receiver, carries, stands, kept⟩ := awaits.stands
  obtain ⟨bound, _⟩ := List.getElem?_eq_some_iff.mp stands
  exact ⟨channel.attended_subscribe audience.state, log, receiver, carries.subscribe,
    (List.getElem?_append_left bound).trans stands, kept⟩

theorem Awaits.drain (awaits : Awaits channel number unread audience) :
    ∃ next, audience.perform channel (.drain number) = (some (number, Delivery.owed unread), next) ∧
      next.workspace = audience.workspace ∧ Awaits channel number [] next := by
  obtain ⟨log, receiver, carries, stands, inside, rfl⟩ := awaits.stands
  obtain ⟨owed, reached⟩ := carries.drain inside
  obtain ⟨bound, _⟩ := List.getElem?_eq_some_iff.mp stands
  refine ⟨{ audience with
    receivers := audience.receivers.set number (channel.drain audience.state receiver).2 },
    ?_, rfl, awaits.attended, log, _, carries, List.getElem?_set_self bound, reached.le, ?_⟩
  · simp only [perform, stands, owed]
  · rw [reached]
    exact List.drop_length

theorem Awaits.drain_of_ne (awaits : Awaits channel number unread audience) {other : Nat}
    (apart : other ≠ number) :
    handed number (audience.perform channel (.drain other)).1.toList = [] ∧
      Awaits channel number unread (audience.perform channel (.drain other)).2 := by
  rw [perform]
  split
  · exact ⟨rfl, awaits⟩
  · rename_i receiver _
    obtain ⟨log, ours, carries, stands, kept⟩ := awaits.stands
    refine ⟨?_, awaits.attended, log, ours, carries,
      (List.getElem?_set_ne apart).trans stands, kept⟩
    exact List.filterMap_cons_none (if_neg apart)

end Step

/-! ## Runs -/

section Runs

variable {audience : Audience State Receiver} {number : Nat} {unread : List Event}

theorem handed_append (number : Nat) (drains later : List (Nat × List Delivery)) :
    handed number (drains ++ later) = handed number drains ++ handed number later :=
  List.filterMap_append

theorem handed_own (number : Nat) (deliveries : List Delivery) :
    handed number [(number, deliveries)] = [deliveries] :=
  List.filterMap_cons_some (if_pos rfl)

/-- A subscription is handed what it is owed of each of its batches. -/
theorem Awaits.run (awaits : Awaits channel number unread audience) (acts : List Act) :
    handed number (audience.run channel acts).1 =
      (batches number audience.workspace unread acts).1.map Delivery.owed := by
  induction acts generalizing audience unread with
  | nil => rfl
  | cons act acts ih =>
      rw [Audience.run]
      dsimp only
      rw [handed_append]
      cases act with
      | call fresh call => exact ih (awaits.call fresh call)
      | subscribe => exact ih awaits.subscribe
      | drain other =>
          rw [batches]
          by_cases own : other = number
          · subst own
            obtain ⟨next, handsOver, same, empty⟩ := awaits.drain
            rw [if_pos rfl, handsOver, ih empty, same, Option.toList_some, handed_own]
            rfl
          · obtain ⟨nothing, waiting⟩ := awaits.drain_of_ne own
            rw [if_neg own, nothing, ih waiting, workspace_perform]
            rfl

theorem run_append (audience : Audience State Receiver) (front later : List Act) :
    audience.run channel (front ++ later) =
      ((audience.run channel front).1 ++ ((audience.run channel front).2.run channel later).1,
        ((audience.run channel front).2.run channel later).2) := by
  induction front generalizing audience with
  | nil => rfl
  | cons act front ih =>
      rw [List.cons_append, Audience.run, ih, Audience.run, List.append_assoc]

theorem calls_cons (act : Act) (acts : List Act) :
    calls (act :: acts) = calls [act] ++ calls acts := by
  rw [calls, calls, calls, ← List.filterMap_append, List.singleton_append]

theorem workspace_run (audience : Audience State Receiver) (acts : List Act) :
    (audience.run channel acts).2.workspace = (audience.workspace.run (calls acts)).2 := by
  induction acts generalizing audience with
  | nil => rfl
  | cons act acts ih =>
      refine (ih _).trans ?_
      rw [workspace_perform, calls_cons act acts, Workspace.run_append]

theorem length_receivers_run (audience : Audience State Receiver) (acts : List Act) :
    (audience.run channel acts).2.receivers.length =
      audience.receivers.length + acts.count .subscribe := by
  induction acts generalizing audience with
  | nil => rfl
  | cons act acts ih =>
      refine (ih _).trans ?_
      rw [length_receivers_perform, Nat.add_assoc, ← List.count_append, List.singleton_append]

theorem carries_run {log : List Event} (carries : channel.Carries log audience.state)
    (acts : List Act) : ∃ grown, channel.Carries grown (audience.run channel acts).2.state := by
  induction acts generalizing audience log with
  | nil => exact ⟨log, carries⟩
  | cons act acts ih =>
      obtain ⟨_, next⟩ := carries_perform carries act
      exact ih next

/-- A subscription that is not made is handed nothing. -/
theorem handed_run_of_absent {acts : List Act}
    (absent : audience.receivers.length + acts.count .subscribe ≤ number) :
    handed number (audience.run channel acts).1 = [] := by
  induction acts generalizing audience with
  | nil => rfl
  | cons act acts ih =>
      have counted : (audience.perform channel act).2.receivers.length +
          acts.count .subscribe ≤ number := by
        rw [length_receivers_perform, Nat.add_assoc, ← List.count_append]
        exact absent
      rw [Audience.run]
      dsimp only
      rw [handed_append, ih counted, List.append_nil]
      cases act with
      | call fresh call => rfl
      | subscribe => rfl
      | drain other =>
          rw [perform]
          split
          · rfl
          · rename_i stands
            obtain ⟨bound, _⟩ := List.getElem?_eq_some_iff.mp stands
            exact List.filterMap_cons_none (if_neg (by omega))

end Runs

theorem handed_run_subscribed (start : Workspace) (front later : List Act) {number : Nat}
    (counts : front.count .subscribe = number) :
    handed number ((opening channel start).run channel (front ++ .subscribe :: later)).1 =
      (batches number (start.run (calls front)).2 [] later).1.map Delivery.owed := by
  have counted : ((opening channel start).run channel front).2.receivers.length = number := by
    rw [length_receivers_run, counts]
    exact Nat.zero_add _
  have silence : handed number ((opening channel start).run channel front).1 = [] :=
    handed_run_of_absent ((Nat.zero_add _).trans counts).le
  have blank : channel.Carries [] (opening channel start).state := channel.carries_blank
  obtain ⟨log, carries⟩ := carries_run blank front
  have begun := awaits_subscribe carries
  rw [counted] at begun
  rw [run_append, handed_append, silence, List.nil_append, run]
  refine (begun.run later).trans ?_
  rw [workspace_perform, workspace_run]
  rfl

/-- Each drain of a subscription hands over the last of the events sent since the one before it, or
since the subscription was made, behind the number of those that the channel has let go. So every
event sent since is handed over once and in order, is counted once, or still waits. What other
subscribers do, and when, makes no difference. -/
theorem handed_of_batches (channel : Channel State Receiver) (start : Workspace)
    (front later : List Act) :
    let number := front.count .subscribe
    let received (acts : List Act) := handed number ((opening channel start).run channel acts).1
    let before := (start.run (calls front)).2
    let after := (before.run (calls later)).2
    let sent := batches number before [] later
    received (front ++ .subscribe :: later) = sent.1.map Delivery.owed ∧
      sent.1.flatten ++ sent.2 = before.sentUntil after ∧
      Delivery.Tell (received (front ++ .subscribe :: later)).flatten sent.1.flatten ∧
      ∀ otherFront otherLater, otherFront.count .subscribe = number →
        calls otherFront = calls front →
          otherLater.filter (Act.matters number) = later.filter (Act.matters number) →
            received (otherFront ++ .subscribe :: otherLater) =
              received (front ++ .subscribe :: later) := by
  intro number received before after sent
  have handsOver : received (front ++ .subscribe :: later) = sent.1.map Delivery.owed :=
    handed_run_subscribed start front later rfl
  refine ⟨handsOver, flatten_batches number before [] later, ?_, ?_⟩
  · rw [handsOver]
    exact Delivery.tell_flatten_owed sent.1
  · intro otherFront otherLater counted sameCalls sameMatters
    have others := @handed_run_subscribed _ _ channel start otherFront otherLater _ counted
    rw [sameCalls, ← batches_filter_matters, sameMatters, batches_filter_matters] at others
    exact others.trans handsOver.symm

/-- The first subscription has missed two events when it is drained, and the second none. A third
that is made and drained between them makes no difference. -/
theorem handed_of_batches_lagged :
    let start : Workspace := ⟨.standard, ⟨[], []⟩, [], .empty⟩
    let update (id : String) : Act := .call ⟨"a", id⟩ (.full "left" [])
    let updated (id : String) : Event := .updated "left" id
    let many := List.replicate 64 (update "d")
    let later := .drain 1 :: update "c" :: many ++ [update "e", .drain 1, update "f", .drain 1]
    let soon := update "b" :: List.replicate 63 (update "d") ++ [.drain 0]
    let received (number : Nat) (acts : List Act) :=
      handed number ((opening Feed.channel start).run Feed.channel acts).1
    received 1 ([.subscribe, update "b"] ++ .subscribe :: later) =
        [[], .lagged 2 :: List.replicate 63 (.event (updated "d")) ++ [.event (updated "e")],
          [.event (updated "f")]] ∧
      received 1 ([.subscribe, update "b"] ++ .subscribe :: .drain 0 :: .subscribe :: later) =
        received 1 ([.subscribe, update "b"] ++ .subscribe :: later) ∧
      received 0 ([] ++ .subscribe :: soon) =
        [.event (updated "b") :: List.replicate 63 (.event (updated "d"))] := by
  intro start update updated many later soon received
  obtain ⟨late, _, _, others⟩ :=
    handed_of_batches Feed.channel start [.subscribe, update "b"] later
  obtain ⟨early, _⟩ := handed_of_batches Feed.channel start [] soon
  refine ⟨late.trans ?_, others _ _ rfl rfl rfl, early.trans ?_⟩
  · decide +kernel
  · decide +kernel

/-! ## The feed as the channel -/

/-- The channel of the audience is the feed of the workspace. -/
structure OnFeed (audience : Audience Feed Subscription) : Prop where
  state : audience.state = audience.workspace.feed
  inside : ∀ receiver ∈ audience.receivers,
    receiver.position ≤ audience.workspace.feed.log.length

theorem foldl_send (feed : Feed) (events : List Event) :
    events.foldl Feed.channel.send feed = feed.send events := by
  induction events generalizing feed with
  | nil => exact congrArg Feed.mk (List.append_nil feed.log).symm
  | cons event events ih =>
      refine (ih (feed.send [event])).trans (congrArg Feed.mk ?_)
      exact (List.append_cons feed.log event events).symm

theorem OnFeed.perform {audience : Audience Feed Subscription} (onFeed : audience.OnFeed)
    (act : Act) : (audience.perform Feed.channel act).2.OnFeed := by
  obtain ⟨same, inside⟩ := onFeed
  cases act with
  | call fresh call =>
      have logged := Workspace.log_sentUntil_perform audience.workspace fresh call
      refine ⟨?_, fun receiver member => (inside receiver member).trans ?_⟩
      · refine (foldl_send audience.state _).trans ?_
        rw [same]
        exact congrArg Feed.mk logged
      · change _ ≤ (audience.workspace.perform fresh call).2.feed.log.length
        rw [← logged, List.length_append]
        exact Nat.le_add_right _ _
  | subscribe =>
      refine ⟨same, fun receiver member => ?_⟩
      rcases List.mem_append.mp member with before | new
      · exact inside receiver before
      · rw [List.mem_singleton.mp new, same]
        exact le_rfl
  | drain number =>
      rw [Audience.perform]
      split
      · exact ⟨same, inside⟩
      · rename_i subscription stands
        have bound := inside subscription (List.mem_of_getElem? stands)
        refine ⟨same, fun receiver member => ?_⟩
        rcases List.mem_or_eq_of_mem_set member with before | rfl
        · exact inside receiver before
        · dsimp only
          rw [same, Feed.drain_channel bound]
          exact le_rfl

theorem OnFeed.run {audience : Audience Feed Subscription} (onFeed : audience.OnFeed)
    (acts : List Act) : (audience.run Feed.channel acts).2.OnFeed := by
  induction acts generalizing audience with
  | nil => exact onFeed
  | cons act acts ih => exact ih (onFeed.perform act)

/-- Through its feed, a workspace hands over what draining the feed gives. -/
theorem drain_run_feed {start : Workspace} (silent : start.feed = .empty) (acts : List Act)
    {number : Nat} {subscription : Subscription} :
    let audience := ((opening Feed.channel start).run Feed.channel acts).2
    audience.receivers[number]? = some subscription →
      (audience.perform Feed.channel (.drain number)).1 =
        some (number, (audience.workspace.feed.drain subscription).1) := by
  intro audience stands
  have begun : (opening Feed.channel start).OnFeed := ⟨silent.symm, nofun⟩
  have onFeed : audience.OnFeed := begun.run acts
  have bound := onFeed.inside subscription (List.mem_of_getElem? stands)
  simp only [perform, stands, onFeed.state, Feed.drain_channel bound]

end Audience

end SemanticHighlight
