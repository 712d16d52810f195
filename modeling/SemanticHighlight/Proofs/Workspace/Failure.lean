import SemanticHighlight.Proofs.Workspace.Invariant

/-!
# Requests that come to nothing

A request that the settings refuse does not run its tokenizer and changes nothing. When a tokenizer
fails, the array committed last stays, and so do all other documents and the feed; what is left of
the request is that its document is open and that an encoding has begun in it.
-/

set_option autoImplicit false

namespace SemanticHighlight

/-- A tokenizer gives up with `fault` behind `count` pushes that work. -/
def Push.GivesUp (legend : Legend) (pushes : List Push) (count : Nat) (fault : Fault) : Prop :=
  ∃ front item later, pushes = front ++ item :: later ∧ front.length = count ∧
    (∀ earlier ∈ front, (earlier.resolve legend).isOk = true) ∧ item.resolve legend = .error fault

/-- What was pushed in front of the fault is counted push by push, and what comes behind it is not
reached. -/
theorem Draft.Writes.pushAll_of_givesUp {legend : Legend} {draft : Draft} {tokens : List Token}
    {pushes : List Push} {count : Nat} {fault : Fault} (writes : draft.Writes tokens)
    (givesUp : Push.GivesUp legend pushes count fault) :
    draft.pushAll legend pushes = ⟨List.range' (tokens.length + 1) count, .error fault⟩ := by
  obtain ⟨front, item, later, rfl, rfl, works, fails⟩ := givesUp
  induction front generalizing draft tokens with
  | nil =>
      rw [List.nil_append, Draft.pushAll, Draft.push, fails]
      rfl
  | cons first front ih =>
      obtain ⟨firstWorks, restWorks⟩ := List.forall_mem_cons.mp works
      rw [List.cons_append, Draft.pushAll, Draft.push]
      cases resolved : first.resolve legend with
      | error cause =>
          rw [resolved] at firstWorks
          cases firstWorks
      | ok token =>
          have grown := writes.add token
          have rest := ih grown restWorks
          rw [List.length_append, List.length_singleton] at rest
          simp only [Except.map, rest, grown.tokenCount_eq, List.length_append, List.length_cons,
            List.length_nil, Nat.zero_add, List.range'_succ]

namespace Workspace

/-! ## Refused requests -/

/-- Requests that the settings refuse are answered with nothing, or with a fault where only parts
are switched off. Their tokenizers are not run, and the workspace stays as it is. -/
structure RefusesUntouched (workspace : Workspace) : Prop where
  full : ∀ fresh uri pushes,
    workspace.settings.enabled = false ∨ workspace.settings.full = false →
      workspace.full fresh uri pushes = (⟨.ok none, none⟩, workspace)
  fullDelta : ∀ fresh uri previous pushes,
    workspace.settings.enabled = false ∨
        (workspace.settings.delta = false ∧ workspace.settings.full = false) →
      workspace.fullDelta fresh uri previous pushes = (⟨.ok none, none⟩, workspace)
  partOfNothing : ∀ fresh uri span pushes, workspace.settings.enabled = false →
    workspace.part fresh uri span pushes = (⟨.ok none, none⟩, workspace)
  part : ∀ fresh uri span pushes,
    workspace.settings.enabled = true → workspace.settings.range = false →
      workspace.part fresh uri span pushes = (⟨.error .rangeUnsupported, none⟩, workspace)

theorem refusesUntouched (workspace : Workspace) : workspace.RefusesUntouched := by
  have full : ∀ fresh uri pushes,
      workspace.settings.enabled = false ∨ workspace.settings.full = false →
        workspace.full fresh uri pushes = (⟨.ok none, none⟩, workspace) := by
    intro fresh uri pushes refused
    apply full_of_refused
    rw [Bool.and_eq_true_iff]
    rintro ⟨enabled, admitted⟩
    rcases refused with disabled | off
    · rw [enabled] at disabled
      cases disabled
    · rw [admitted] at off
      cases off
  refine ⟨full, ?_, ?_, ?_⟩
  · intro fresh uri previous pushes refused
    cases delta : workspace.settings.delta with
    | false =>
        -- The request goes on as one for all tokens, which is refused in its turn.
        rw [fullDelta_of_off delta, full fresh uri pushes (refused.imp_right And.right)]
        rfl
    | true =>
        rcases refused with disabled | ⟨off, _⟩
        · exact fullDelta_of_disabled delta disabled
        · rw [delta] at off
          cases off
  · intro fresh uri span pushes disabled
    rw [Workspace.part, disabled]
    rfl
  · intro fresh uri span pushes enabled off
    rw [Workspace.part, enabled, off]
    rfl

/-! ## Requests whose tokenizer fails -/

/-- The tokenizer of a request failed, and `document` is what is left at its URI. -/
structure Failed {α : Type} (workspace : Workspace) (uri : String) (count : Nat) (fault : Fault)
    (document : Document) (served : Response α × Workspace) : Prop where
  result : served.1.result = .error fault
  trace : served.1.trace = some (List.range' 1 count)
  feed : served.2.feed = workspace.feed
  itself : served.2.document? uri = some document
  others : ∀ other, other ≠ uri → served.2.document? other = workspace.document? other
  /-- Also documents that no URI leads to any more stay as they are. -/
  handles : ∀ handle kept, workspace.documentAt? handle = some kept →
    workspace.handle? uri ≠ some handle → served.2.documentAt? handle = some kept

theorem documentAt?_put_of_ne {workspace : Workspace} {uri : String} {handle : Nat}
    {kept : Document} (document : Document) (stands : workspace.documentAt? handle = some kept)
    (apart : workspace.handle? uri ≠ some handle) :
    (workspace.put uri document).documentAt? handle = some kept := by
  unfold put
  cases found : workspace.handle? uri with
  | some other =>
      rw [found, ne_eq, Option.some.injEq] at apart
      rw [← stands]
      exact documentAt?_putAt_of_ne document (Ne.symm apart)
  | none =>
      obtain ⟨session, inside, rfl⟩ := Option.map_eq_some_iff.mp stands
      obtain ⟨bound, _⟩ := List.getElem?_eq_some_iff.mp inside
      simp only [documentAt?, List.getElem?_append_left bound, inside, Option.map_some]

theorem failed_put (workspace : Workspace) {α : Type} (uri : String) (count : Nat) (fault : Fault)
    (document : Document) :
    Failed workspace uri count fault document
      ((⟨.error fault, some (List.range' 1 count)⟩, workspace.put uri document) :
        Response α × Workspace) where
  result := rfl
  trace := rfl
  feed := feed_put workspace uri document
  itself := document?_put_self workspace uri document
  others _ apart := document?_put_of_ne document apart
  handles _ _ stands apart := documentAt?_put_of_ne document stands apart

section Failing

variable {workspace : Workspace} {pushes : List Push} {count : Nat} {fault : Fault}
  (own : workspace.All fun document => document.legend = workspace.legend)
  (givesUp : Push.GivesUp workspace.legend pushes count fault)

include own givesUp

theorem pushAll_documentFor (fresh uri : String) :
    Draft.empty.pushAll (workspace.documentFor fresh uri).legend pushes =
      ⟨List.range' 1 count, .error fault⟩ := by
  rw [own.documentFor (fun _ => rfl) fresh uri]
  exact Draft.writes_empty.pushAll_of_givesUp givesUp

theorem Renews.failed {α : Type} {fresh : FreshIds} {uri : String} {answer : List UInt32 → α}
    {served : Response α × Workspace} (renews : workspace.Renews fresh uri pushes answer served) :
    let found := workspace.documentFor fresh.opened uri
    workspace.Failed uri count fault ⟨found.legend, fresh.encoded, found.data, none⟩ served := by
  intro found
  have outcome := pushAll_documentFor own givesUp fresh.opened uri
  rcases renews with ⟨cause, failed, rfl⟩ | ⟨draft, succeeded, _⟩
  · rw [outcome] at failed ⊢
    cases failed
    exact failed_put workspace uri count fault _
  · rw [outcome] at succeeded
    cases succeeded

theorem failed_fullDelta_of_current {fresh : FreshIds} {uri previous : String}
    (on : workspace.settings.delta = true) (enabled : workspace.settings.enabled = true)
    (current : previous = (workspace.documentFor fresh.opened uri).id) :
    let found := workspace.documentFor fresh.opened uri
    workspace.Failed uri count fault ⟨found.legend, found.id, found.data, some found.data⟩
      (workspace.fullDelta fresh uri previous pushes) := by
  intro found
  have outcome := pushAll_documentFor own givesUp fresh.opened uri
  rcases @fullDelta_cases_of_current workspace fresh uri previous pushes on enabled current with
    ⟨cause, failed, served⟩ | ⟨draft, succeeded, _⟩
  · rw [outcome] at failed served
    cases failed
    rw [served]
    exact failed_put workspace uri count fault _
  · rw [outcome] at succeeded
    cases succeeded

theorem failed_fullDelta_of_off {fresh : FreshIds} {uri previous : String}
    (off : workspace.settings.delta = false)
    (admitted : (workspace.settings.enabled && workspace.settings.full) = true) :
    let found := workspace.documentFor fresh.opened uri
    workspace.Failed uri count fault ⟨found.legend, fresh.encoded, found.data, none⟩
      (workspace.fullDelta fresh uri previous pushes) := by
  intro found
  have failed : workspace.Failed uri count fault ⟨found.legend, fresh.encoded, found.data, none⟩
      (workspace.full fresh uri pushes) := Renews.failed own givesUp (renews_full admitted)
  rw [fullDelta_of_off off]
  exact ⟨by simp only [failed.result, Except.map], failed.trace, failed.feed, failed.itself,
    failed.others, failed.handles⟩

end Failing

/-- Requests whose tokenizer fails return its fault. The array that was committed last stays. The id
stays too, and its array becomes the base, when edits were asked for with the current id; otherwise
the id is the one drawn for the request, and there is no base. -/
structure FailsUntouched (workspace : Workspace) : Prop where
  full : ∀ fresh uri pushes count fault,
    workspace.settings.enabled = true → workspace.settings.full = true →
      Push.GivesUp workspace.legend pushes count fault →
        let found := workspace.documentFor fresh.opened uri
        workspace.Failed uri count fault ⟨found.legend, fresh.encoded, found.data, none⟩
          (workspace.full fresh uri pushes)
  part : ∀ fresh uri span pushes count fault,
    workspace.settings.enabled = true → workspace.settings.range = true →
      Push.GivesUp workspace.legend pushes count fault →
        let found := workspace.documentFor fresh.opened uri
        workspace.Failed uri count fault ⟨found.legend, fresh.encoded, found.data, none⟩
          (workspace.part fresh uri span pushes)
  fullDeltaOff : ∀ fresh uri previous pushes count fault,
    workspace.settings.enabled = true → workspace.settings.delta = false →
      workspace.settings.full = true → Push.GivesUp workspace.legend pushes count fault →
        let found := workspace.documentFor fresh.opened uri
        workspace.Failed uri count fault ⟨found.legend, fresh.encoded, found.data, none⟩
          (workspace.fullDelta fresh uri previous pushes)
  fullDelta : ∀ fresh uri previous pushes count fault,
    workspace.settings.enabled = true → workspace.settings.delta = true →
      Push.GivesUp workspace.legend pushes count fault →
        let found := workspace.documentFor fresh.opened uri
        workspace.Failed uri count fault
          (if previous = found.id then ⟨found.legend, found.id, found.data, some found.data⟩
          else ⟨found.legend, fresh.encoded, found.data, none⟩)
          (workspace.fullDelta fresh uri previous pushes)

theorem All.failsUntouched {workspace : Workspace}
    (own : workspace.All fun document => document.legend = workspace.legend) :
    workspace.FailsUntouched where
  full _ _ _ _ _ enabled full givesUp :=
    Renews.failed own givesUp (renews_full (Bool.and_eq_true_iff.mpr ⟨enabled, full⟩))
  part _ _ _ _ _ _ enabled range givesUp :=
    Renews.failed own givesUp (renews_part (Bool.and_eq_true_iff.mpr ⟨enabled, range⟩))
  fullDeltaOff _ _ _ _ _ _ enabled off full givesUp :=
    failed_fullDelta_of_off own givesUp off (Bool.and_eq_true_iff.mpr ⟨enabled, full⟩)
  fullDelta fresh uri previous pushes count fault enabled delta givesUp := by
    intro found
    split
    · rename_i current
      exact failed_fullDelta_of_current own givesUp delta enabled current
    · rename_i stale
      exact Renews.failed own givesUp (renews_fullDelta_of_stale delta enabled stale)

/-- Whatever was done before, a request that is refused or whose tokenizer fails leaves behind no
more than an encoding that has begun. -/
theorem untouched_of_no_answer {start : Workspace} (blank : start.sessions = [])
    (calls : List (FreshIds × Call)) :
    (start.run calls).2.RefusesUntouched ∧ (start.run calls).2.FailsUntouched := by
  refine ⟨refusesUntouched _, ?_⟩
  have own := all_legend_run blank calls
  rw [← legend_run start calls] at own
  exact own.failsUntouched

/-- Parts are switched off, and a span that leaves its line stops an edit of the current array and a
request for a URI that is not open any more. -/
theorem untouched_of_no_answer_behind_span :
    let start : Workspace := ⟨{ Settings.standard with range := false }, ⟨[], []⟩, [], .empty⟩
    let first := Push.token ⟨0, 4, 3, 1, 0⟩
    let broken : Span := ⟨⟨3, 1⟩, ⟨4, 9⟩⟩
    let calls : List (FreshIds × Call) :=
      [(⟨"a", "b"⟩, .full "left" [first]), (⟨"c", "d"⟩, .full "right" [first]),
        (⟨"e", "f"⟩, .close "right")]
    let workspace := (start.run calls).2
    let pushes := [first, first, .encodedSpan broken 0 0, first]
    start.sessions = [] ∧ Push.GivesUp workspace.legend pushes 2 (.invalidSpan broken) ∧
      workspace.part ⟨"g", "h"⟩ "left" broken pushes =
        (⟨.error .rangeUnsupported, none⟩, workspace) ∧
      workspace.Failed "left" 2 (.invalidSpan broken)
        ⟨⟨[], []⟩, "b", [0, 4, 3, 1, 0], some [0, 4, 3, 1, 0]⟩
        (workspace.fullDelta ⟨"g", "h"⟩ "left" "b" pushes) ∧
      workspace.Failed "right" 2 (.invalidSpan broken) ⟨⟨[], []⟩, "h", [], none⟩
        (workspace.fullDelta ⟨"g", "h"⟩ "right" "d" pushes) := by
  intro start first broken calls workspace pushes
  have givesUp : Push.GivesUp workspace.legend pushes 2 (.invalidSpan broken) :=
    ⟨[first, first], .encodedSpan broken 0 0, [first], rfl, rfl, by decide, rfl⟩
  obtain ⟨refuses, fails⟩ : workspace.RefusesUntouched ∧ workspace.FailsUntouched :=
    untouched_of_no_answer rfl calls
  exact ⟨rfl, givesUp, refuses.part ⟨"g", "h"⟩ "left" broken pushes rfl rfl,
    fails.fullDelta ⟨"g", "h"⟩ "left" "b" pushes 2 _ rfl rfl givesUp,
    fails.fullDelta ⟨"g", "h"⟩ "right" "d" pushes 2 _ rfl rfl givesUp⟩

end Workspace

end SemanticHighlight
