import SemanticHighlight.Proofs.Document.History

/-!
# Properties that documents keep

All that is ever done with a document comes down to five things: it is made, an encoding begins in
it, it takes its own array as a base, it drops its base, and a draft is committed. A property that
none of them takes away holds after every step and every run.
-/

set_option autoImplicit false

namespace SemanticHighlight.Document

/-- A property of the documents of a legend that is kept as long as drafts are committed for which
`committable` holds. -/
structure Stable (legend : Legend) (committable : Draft → Prop) (holds : Document → Prop) :
    Prop where
  ofLegend : ∀ {document}, holds document → document.legend = legend
  new : ∀ id, holds (.new legend id)
  create : ∀ {document} (fresh), holds document → holds (document.create fresh)
  rebase : ∀ {document}, holds document → holds { document with base := some document.data }
  unbase : ∀ {document}, holds document → holds { document with base := none }
  commit : ∀ {document draft}, holds document → committable draft →
    holds (document.commit draft)

def Step.pushes : Step → List Push
  | .create pushes _ | .edit _ pushes _ => pushes
  | .full | .part _ | .edits => []

namespace Stable

variable {legend : Legend} {committable : Draft → Prop} {holds : Document → Prop}
  {document : Document}

theorem edit (stable : Stable legend committable holds) (held : holds document)
    (fresh previous : String) : holds (document.edit fresh previous) := by
  unfold Document.edit
  split
  · exact stable.rebase held
  · exact stable.create fresh held

theorem encode (stable : Stable legend committable holds) (held : holds document)
    {pushes : List Push} (commits : committable (Draft.empty.pushEach legend pushes).2)
    (committed : Bool) : holds (document.encode pushes committed).2 := by
  cases committed with
  | false => exact held
  | true =>
      rw [← stable.ofLegend held] at commits
      exact stable.commit held commits

theorem perform (stable : Stable legend committable holds) (held : holds document)
    (fresh : String) {step : Step}
    (commits : committable (Draft.empty.pushEach legend step.pushes).2) :
    holds (document.perform fresh step).2 := by
  cases step with
  | create pushes committed => exact stable.encode (stable.create fresh held) commits committed
  | edit previous pushes committed =>
      exact stable.encode (stable.edit held fresh previous) commits committed
  | full => exact stable.unbase held
  | part span => exact stable.unbase held
  | edits =>
      change holds document.edits.2
      rw [snd_edits]
      exact held

theorem run (stable : Stable legend committable holds) (held : holds document)
    {steps : List (String × Step)}
    (commits : ∀ step ∈ steps, committable (Draft.empty.pushEach legend step.2.pushes).2) :
    holds (document.run steps) := by
  induction steps generalizing document with
  | nil => exact held
  | cons step steps ih =>
      obtain ⟨first, later⟩ := List.forall_mem_cons.mp commits
      exact ih (stable.perform held step.1 first) later

end Stable

theorem stable_legend (legend : Legend) :
    Stable legend (fun _ => True) (fun document => document.legend = legend) where
  ofLegend held := held
  new _ := rfl
  create _ held := held
  rebase held := held
  unbase held := held
  commit held _ := held

theorem stable_whole (legend : Legend) :
    Stable legend (fun draft => draft.data.toList.length % wordsPerToken = 0)
      (fun document => document.legend = legend ∧ document.Whole) where
  ofLegend held := held.1
  new id := ⟨rfl, whole_new legend id⟩
  create _ held := held
  rebase held := held
  unbase held := held
  commit held committed := ⟨held.1, committed⟩

end SemanticHighlight.Document
