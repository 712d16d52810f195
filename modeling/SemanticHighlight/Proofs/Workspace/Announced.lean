import Mathlib.Data.List.Nodup
import SemanticHighlight.Proofs.Workspace.Issued
import SemanticHighlight.Proofs.Workspace.OpenUris

/-!
# The feed says what the replies say

What a call sends to the subscribers can be told from its reply: one event for the id of an answer,
one for a URI that is closed, and one for each open URI when everything is closed. Nothing else is
ever sent, so that a URI is open whenever it is said to be updated, and is opened again before it is
said to be closed again.
-/

set_option autoImplicit false

namespace SemanticHighlight.Workspace

/-- The events that a call sends, told from its reply. Where everything is closed, `uris` are those
that are open. -/
def announced (uris : List String) : Call → Reply → List Event
  | .full uri _, reply | .fullDelta uri _ _, reply | .part uri _ _, reply =>
      reply.resultIds.map (.updated uri)
  | .close uri, .flag true => [.closed uri]
  | .clear, _ => uris.map .closed
  | .close _, _ | .openDocument _, _ | .contains _, _ | .step _ _, _ => []

/-- The events that a run of calls sends, one call after the other. It makes no difference in which
order the open URIs are named when everything is closed. -/
inductive Sends : Workspace → List (FreshIds × Call) → List Event → Prop where
  | nothing (workspace : Workspace) : Sends workspace [] []
  | call {workspace : Workspace} {fresh : FreshIds} {call : Call}
      {later : List (FreshIds × Call)} {uris : List String} {events : List Event}
      (once : uris.Nodup) (all : ∀ uri, uri ∈ uris ↔ workspace.contains uri = true)
      (rest : Sends (workspace.perform fresh call).2 later events) :
      Sends workspace ((fresh, call) :: later)
        (announced uris call (workspace.perform fresh call).1 ++ events)

/-! ## One call -/

theorem resultIds_eq_nil_or_singleton (reply : Reply) :
    reply.resultIds = [] ∨ ∃ id, reply.resultIds = [id] := by
  cases reply with
  | opened handle => exact Or.inl rfl
  | flag value => exact Or.inl rfl
  | done => exact Or.inl rfl
  | snapshot response =>
      obtain ⟨_ | (_ | snapshot), _⟩ := response
      · exact Or.inl rfl
      · exact Or.inl rfl
      · exact Or.inr ⟨snapshot.resultId, rfl⟩
  | answer response =>
      obtain ⟨_ | (_ | answer), _⟩ := response
      · exact Or.inl rfl
      · exact Or.inl rfl
      · exact Or.inr ⟨answer.resultId, rfl⟩
  | stepped outcome =>
      rcases outcome with _ | (_ | snapshot | answer)
      · exact Or.inl rfl
      · exact Or.inl rfl
      · exact Or.inr ⟨snapshot.resultId, rfl⟩
      · exact Or.inr ⟨answer.resultId, rfl⟩

theorem nodup_announced {uris : List String} (once : uris.Nodup) (call : Call) (reply : Reply) :
    (announced uris call reply).Nodup := by
  have updates (uri : String) : (reply.resultIds.map (Event.updated uri)).Nodup := by
    rcases resultIds_eq_nil_or_singleton reply with silent | ⟨id, told⟩
    · rw [silent]
      exact List.nodup_nil
    · rw [told]
      exact List.nodup_cons.mpr ⟨List.not_mem_nil, List.nodup_nil⟩
  cases call with
  | full uri => exact updates uri
  | fullDelta uri => exact updates uri
  | part uri => exact updates uri
  | close uri =>
      unfold announced
      split <;> simp_all
  | clear => exact List.Nodup.map (fun _ _ => Event.closed.inj) once
  | openDocument | contains | step => exact List.nodup_nil

/-- A call about a URI that does not close it sends the ids that it replies with. -/
theorem Does.log_of_about {workspace after : Workspace} {fresh : FreshIds} {call : Call}
    {reply : Reply} {uri : String} (does : Does workspace fresh call reply after)
    (about : call.uri? = some uri) (keeps : call.closes uri = false) :
    after.feed.log = workspace.feed.log ++ reply.resultIds.map (.updated uri) := by
  cases does with
  | nothing unused silent => rw [silent, List.map_nil, List.append_nil]
  | puts other document ids aboutOther =>
      rw [about, Option.some.injEq] at aboutOther
      rw [aboutOther, send, Feed.log_send, feed_put]
  | closes other =>
      cases about
      simp [Call.closes] at keeps
  | clears => cases about
  | steps => cases about

theorem log_close (workspace : Workspace) (uri : String) :
    (workspace.close uri).2.feed.log =
      workspace.feed.log ++ if workspace.contains uri then [.closed uri] else [] := by
  unfold close
  split
  · rfl
  · exact (List.append_nil _).symm

theorem announced_close (fresh : FreshIds) (workspace : Workspace) (uri : String)
    (uris : List String) :
    announced uris (.close uri) (workspace.perform fresh (.close uri)).1 =
      if workspace.contains uri then [.closed uri] else [] := by
  change announced uris (.close uri) (.flag (workspace.close uri).1) = _
  unfold close
  split <;> rfl

theorem feed_performAt (fresh : String) (handle : Nat) (step : Document.Step)
    (workspace : Workspace) : (workspace.performAt fresh handle step).2.feed = workspace.feed := by
  unfold performAt
  split <;> rfl

theorem log_perform (fresh : FreshIds) (workspace : Workspace) (call : Call) :
    (workspace.perform fresh call).2.feed.log =
      workspace.feed.log ++
        announced workspace.openUris call (workspace.perform fresh call).1 := by
  have does := does_perform fresh workspace call
  cases call with
  | full | fullDelta | part | openDocument | contains => exact does.log_of_about rfl rfl
  | close uri =>
      rw [announced_close]
      exact log_close workspace uri
  | clear => rfl
  | step handle step =>
      change (workspace.performAt fresh.encoded handle step).2.feed.log = workspace.feed.log ++ []
      rw [feed_performAt, List.append_nil]

/-- A URI that a call says to be closed was open until then. -/
theorem contains_of_closed_mem {fresh : FreshIds} {workspace : Workspace} {call : Call}
    {uri : String}
    (sent : .closed uri ∈ announced workspace.openUris call (workspace.perform fresh call).1) :
    workspace.contains uri = true ∧ (workspace.perform fresh call).2.contains uri = false := by
  have ofClosing (closes : call.closes uri = true) :
      (workspace.perform fresh call).2.contains uri = false := by
    rw [contains, document?_perform_of_closes closes]
    rfl
  cases call with
  | close other =>
      rw [announced_close] at sent
      split at sent
      · rename_i isOpen
        cases Event.closed.inj (List.mem_singleton.mp sent)
        exact ⟨isOpen, ofClosing (beq_self_eq_true uri)⟩
      · cases sent
  | clear =>
      obtain ⟨other, member, same⟩ := List.mem_map.mp sent
      cases Event.closed.inj same
      exact ⟨mem_openUris_iff.mp member, ofClosing rfl⟩
  | full | fullDelta | part =>
      obtain ⟨_, _, impossible⟩ := List.mem_map.mp sent
      cases impossible
  | openDocument | contains | step => cases sent

/-- A URI that a call says to be updated is open behind the call, which says nothing else. -/
theorem contains_of_updated_mem {fresh : FreshIds} {workspace : Workspace} {call : Call}
    {uri id : String}
    (sent : .updated uri id ∈
      announced workspace.openUris call (workspace.perform fresh call).1) :
    announced workspace.openUris call (workspace.perform fresh call).1 = [.updated uri id] ∧
      (workspace.perform fresh call).2.contains uri = true := by
  have ofTold {other : String} (about : call.uri? = some other)
      (told : .updated uri id ∈
        (workspace.perform fresh call).1.resultIds.map (Event.updated other)) :
      (workspace.perform fresh call).1.resultIds.map (Event.updated other) = [.updated uri id] ∧
        (workspace.perform fresh call).2.contains uri = true := by
    obtain ⟨shown, member, same⟩ := List.mem_map.mp told
    cases same
    rcases resultIds_eq_nil_or_singleton (workspace.perform fresh call).1 with silent | ⟨_, only⟩
    · rw [silent] at member
      cases member
    · rw [only, List.mem_singleton] at member
      refine ⟨by rw [only, member, List.map_singleton], ?_⟩
      have does := does_perform fresh workspace call
      generalize (workspace.perform fresh call).1 = reply,
        (workspace.perform fresh call).2 = after at only does
      cases does with
      | nothing unused silent =>
          rw [silent] at only
          cases only
      | puts named document ids aboutNamed =>
          rw [about, Option.some.injEq] at aboutNamed
          rw [contains, document?_send, aboutNamed, document?_put_self]
          rfl
      | closes => cases only
      | clears => cases only
      | steps => cases about
  cases call with
  | full | fullDelta | part => exact ofTold rfl sent
  | close other =>
      rw [announced_close] at sent
      split at sent
      · cases List.mem_singleton.mp sent
      · cases sent
  | clear =>
      obtain ⟨_, _, impossible⟩ := List.mem_map.mp sent
      cases impossible
  | openDocument | contains | step => cases sent

/-! ## Runs -/

theorem sends_run {start : Workspace} (once : start.openUris.Nodup)
    (calls : List (FreshIds × Call)) :
    ∃ events, start.Sends calls events ∧
      (start.run calls).2.feed.log = start.feed.log ++ events := by
  induction calls generalizing start with
  | nil => exact ⟨[], .nothing start, (List.append_nil _).symm⟩
  | cons turn calls ih =>
      obtain ⟨fresh, call⟩ := turn
      obtain ⟨events, sends, logged⟩ := ih ((does_perform fresh start call).nodup_openUris once)
      refine ⟨_, .call once (fun _ => mem_openUris_iff) sends, ?_⟩
      rw [← List.append_assoc, ← log_perform]
      exact logged

/-- The last event of a part of the log that reaches into a batch of events lies in the log in front
of the batch, or in the batch. -/
private theorem prefix_concat_append {log batch done : List Event} {event : Event}
    (sent : done ++ [event] <+: log ++ batch) :
    done ++ [event] <+: log ∨ ∃ front, done = log ++ front ∧ front ++ [event] <+: batch := by
  rcases List.prefix_or_prefix_of_prefix sent (List.prefix_append log batch) with earlier | reaches
  · exact Or.inl earlier
  · rcases List.prefix_concat_iff.mp reaches with same | ⟨front, rfl⟩
    · exact Or.inl (same ▸ List.prefix_refl _)
    · rw [List.append_assoc] at sent
      exact Or.inr ⟨front, rfl, (List.prefix_append_right_inj log).mp sent⟩

section Moments

variable {start : Workspace} {calls : List (FreshIds × Call)}

theorem log_run_snoc (start : Workspace) (calls : List (FreshIds × Call))
    (turn : FreshIds × Call) :
    let before := (start.run calls).2
    (start.run (calls ++ [turn])).2.feed.log =
      before.feed.log ++
        announced before.openUris turn.2 (before.perform turn.1 turn.2).1 := by
  intro before
  rw [run_snoc]
  exact log_perform turn.1 before turn.2

/-- Every event of the feed was sent by one call of the run. -/
theorem exists_sender (silent : start.feed = .empty) {done : List Event} {event : Event}
    (sent : done ++ [event] <+: (start.run calls).2.feed.log) :
    ∃ front turn later batch, calls = front ++ turn :: later ∧
      let before := (start.run front).2
      done = before.feed.log ++ batch ∧
        batch ++ [event] <+: announced before.openUris turn.2 (before.perform turn.1 turn.2).1 := by
  induction calls using List.reverseRecOn with
  | nil =>
      change _ <+: start.feed.log at sent
      rw [silent] at sent
      exact absurd (List.prefix_nil.mp sent) (by simp)
  | append_singleton calls turn ih =>
      rw [log_run_snoc] at sent
      rcases prefix_concat_append sent with earlier | ⟨batch, reaches, among⟩
      · obtain ⟨front, sender, later, batch, rfl, reaches, among⟩ := ih earlier
        exact ⟨front, sender, later ++ [turn], batch, by simp, reaches, among⟩
      · exact ⟨calls, turn, [], batch, rfl, reaches, among⟩

/-- A URI that was said to be closed and is open has been opened since. -/
theorem reopened_of_contains (silent : start.feed = .empty) {head : List Event} {uri : String}
    (sent : head ++ [.closed uri] <+: (start.run calls).2.feed.log)
    (isOpen : (start.run calls).2.contains uri = true) :
    ∃ front turn later, calls = front ++ turn :: later ∧
      head ++ [.closed uri] <+: (start.run front).2.feed.log ∧
      (start.run front).2.contains uri = false ∧
      (start.run (front ++ [turn])).2.contains uri = true := by
  induction calls using List.reverseRecOn with
  | nil =>
      change _ <+: start.feed.log at sent
      rw [silent] at sent
      exact absurd (List.prefix_nil.mp sent) (by simp)
  | append_singleton calls turn ih =>
      rw [log_run_snoc] at sent
      rcases prefix_concat_append sent with earlier | ⟨batch, _, among⟩
      · cases wasOpen : (start.run calls).2.contains uri with
        | true =>
            obtain ⟨front, opener, later, rfl, before, closed, reopened⟩ := ih earlier wasOpen
            exact ⟨front, opener, later ++ [turn], by simp, before, closed, reopened⟩
        | false => exact ⟨calls, turn, [], rfl, earlier, wasOpen, isOpen⟩
      · -- It would be the last call that says so, and the URI is not open behind that call.
        have closes := among.subset (List.mem_append_right batch List.mem_cons_self)
        rw [run_snoc, (contains_of_closed_mem closes).2] at isOpen
        cases isOpen

theorem log_prefix_run (start : Workspace) (front later : List (FreshIds × Call)) :
    (start.run front).2.feed.log <+: (start.run (front ++ later)).2.feed.log := by
  induction later using List.reverseRecOn with
  | nil => rw [List.append_nil]
  | append_singleton later turn ih =>
      rw [← List.append_assoc, log_run_snoc]
      exact ih.trans (List.prefix_append _ _)

/-- Between two events that say that a URI is closed, a call finds it closed and opens it. -/
theorem reopened_between (once : start.openUris.Nodup) (silent : start.feed = .empty)
    {head between : List Event} {uri : String}
    (sent : head ++ .closed uri :: between ++ [.closed uri] <+: (start.run calls).2.feed.log) :
    ∃ front turn later, calls = front ++ turn :: later ∧
      let before := (start.run front).2
      let after := (start.run (front ++ [turn])).2
      head ++ [.closed uri] <+: before.feed.log ∧
        after.feed.log <+: head ++ .closed uri :: between ∧
        before.contains uri = false ∧ after.contains uri = true := by
  obtain ⟨front, closer, later, batch, rfl, reaches, among⟩ := exists_sender silent sent
  have closes := contains_of_closed_mem
    (among.subset (List.mem_append_right batch List.mem_cons_self))
  -- A call says once at most that a URI is closed, so the first time was in front of this call.
  have single : (batch ++ [Event.closed uri]).Nodup :=
    (nodup_announced (nodup_openUris_run once front) _ _).sublist among.sublist
  have first : head ++ [.closed uri] <+: (start.run front).2.feed.log := by
    have part : head ++ [.closed uri] <+: (start.run front).2.feed.log ++ batch := by
      rw [← reaches]
      simp
    rcases prefix_concat_append part with earlier | ⟨_, _, inBatch⟩
    · exact earlier
    · have again := inBatch.subset (List.mem_append_right _ List.mem_cons_self)
      exact absurd rfl ((List.nodup_append.mp single).2.2 _ again _ List.mem_cons_self)
  obtain ⟨earlier, opener, rest, rfl, before, closed, reopened⟩ :=
    reopened_of_contains silent first closes.1
  refine ⟨earlier, opener, rest ++ closer :: later, by simp, before, ?_, closed, reopened⟩
  have grown := log_prefix_run start (earlier ++ [opener]) rest
  rw [List.append_assoc, List.singleton_append] at grown
  rw [reaches]
  exact grown.trans (List.prefix_append _ _)

/-- The call that says that a URI is updated says nothing else and leaves it open. -/
theorem contains_of_updated (silent : start.feed = .empty) {head : List Event} {uri id : String}
    (sent : head ++ [.updated uri id] <+: (start.run calls).2.feed.log) :
    ∃ front turn later, calls = front ++ turn :: later ∧
      (start.run front).2.feed.log = head ∧
      (start.run (front ++ [turn])).2.feed.log = head ++ [.updated uri id] ∧
      (start.run (front ++ [turn])).2.contains uri = true := by
  obtain ⟨front, turn, later, batch, rfl, reaches, among⟩ := exists_sender silent sent
  obtain ⟨only, isOpen⟩ := contains_of_updated_mem
    (among.subset (List.mem_append_right batch List.mem_cons_self))
  rw [only] at among
  have alone : batch = [] := by
    have bound := among.length_le
    rw [List.length_append, List.length_singleton] at bound
    exact List.length_eq_zero_iff.mp (by simpa using bound)
  rw [alone, List.append_nil] at reaches
  refine ⟨front, turn, later, rfl, reaches.symm, ?_, ?_⟩
  · rw [log_run_snoc, only, reaches]
  · rw [run_snoc]
    exact isOpen

end Moments

/-- A run sends what its replies say, call by call, and nothing else. Between two events that say
that a URI is closed there is a call that finds it closed and opens it, and a URI that is said to be
updated is open behind the call that says so. -/
theorem sends_what_replies_say {start : Workspace} (blank : start.sessions = [])
    (silent : start.feed = .empty) (calls : List (FreshIds × Call)) :
    let log := (start.run calls).2.feed.log
    start.Sends calls log ∧
      (∀ uri head between tail, log = head ++ .closed uri :: between ++ .closed uri :: tail →
        ∃ front turn later, calls = front ++ turn :: later ∧
          let before := (start.run front).2
          let after := (start.run (front ++ [turn])).2
          head ++ [.closed uri] <+: before.feed.log ∧
            after.feed.log <+: head ++ .closed uri :: between ∧
            before.contains uri = false ∧ after.contains uri = true) ∧
      ∀ uri id head tail, log = head ++ .updated uri id :: tail →
        ∃ front turn later, calls = front ++ turn :: later ∧
          (start.run front).2.feed.log = head ∧
          (start.run (front ++ [turn])).2.feed.log = head ++ [.updated uri id] ∧
          (start.run (front ++ [turn])).2.contains uri = true := by
  intro log
  have once : start.openUris.Nodup := by
    rw [openUris_of_blank blank]
    exact List.nodup_nil
  refine ⟨?_, ?_, ?_⟩
  · obtain ⟨events, sends, logged⟩ := sends_run once calls
    rw [silent] at logged
    have same : log = events := logged
    rw [same]
    exact sends
  · intro uri head between tail same
    apply reopened_between once silent
    rw [List.append_cons] at same
    exact ⟨tail, same.symm⟩
  · intro uri id head tail same
    apply contains_of_updated silent
    rw [List.append_cons] at same
    exact ⟨tail, same.symm⟩

/-- A URI is closed twice, and a request for a part of it has opened it in between. -/
theorem sends_what_replies_say_reopened :
    let start : Workspace := ⟨.standard, ⟨[], []⟩, [], .empty⟩
    let word := Push.token ⟨0, 0, 3, 0, 0⟩
    let broken : Span := ⟨⟨1, 4⟩, ⟨2, 0⟩⟩
    let calls : List (FreshIds × Call) :=
      [(⟨"a", "b"⟩, .full "left" [word]), (⟨"c", "d"⟩, .openDocument "right"),
        (⟨"e", "f"⟩, .fullDelta "left" "b" [.encodedSpan broken 0 0]),
        (⟨"g", "h"⟩, .close "left"), (⟨"i", "j"⟩, .close "left"),
        (⟨"k", "l"⟩, .part "left" broken [word]), (⟨"m", "n"⟩, .step 1 .full),
        (⟨"o", "p"⟩, .clear)]
    let log : List Event :=
      [.updated "left" "b", .closed "left", .updated "left" "l", .closed "right", .closed "left"]
    start.sessions = [] ∧ start.feed = .empty ∧ (start.run calls).2.feed.log = log ∧
      start.Sends calls log ∧
      (∃ front turn later, calls = front ++ turn :: later ∧
        (start.run front).2.contains "left" = false ∧
        (start.run (front ++ [turn])).2.contains "left" = true ∧
        [.updated "left" "b", .closed "left"] <+: (start.run front).2.feed.log ∧
        (start.run (front ++ [turn])).2.feed.log <+: log.take 4) ∧
      ∃ front turn later, calls = front ++ turn :: later ∧
        (start.run front).2.feed.log = log.take 2 ∧
        (start.run (front ++ [turn])).2.contains "left" = true := by
  intro start word broken calls log
  have logged : (start.run calls).2.feed.log = log := by decide +kernel
  obtain ⟨sends, reopens, isOpen⟩ := @sends_what_replies_say start rfl rfl calls
  obtain ⟨front, turn, later, split, before, after, closed, opened⟩ :=
    reopens "left" [.updated "left" "b"] [.updated "left" "l", .closed "right"] [] logged
  obtain ⟨other, sender, rest, cut, reached, _, shows⟩ :=
    isOpen "left" "l" [.updated "left" "b", .closed "left"] [.closed "right", .closed "left"] logged
  exact ⟨rfl, rfl, logged, logged ▸ sends,
    ⟨front, turn, later, split, closed, opened, before, after⟩,
    other, sender, rest, cut, reached, shows⟩

end SemanticHighlight.Workspace
