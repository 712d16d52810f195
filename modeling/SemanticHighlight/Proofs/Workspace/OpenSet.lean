import Mathlib.Data.Set.Card
import SemanticHighlight.Proofs.Workspace.Handles

/-!
# Which URIs a run leaves open

A call opens its URI unless the settings refuse it, whether or not its tokenizer succeeds. A URI is
open exactly when it was opened and no call has closed it since, so that the open URIs can be told
from the calls alone.
-/

set_option autoImplicit false

namespace SemanticHighlight.Workspace

/-- Whether a call opens a URI, should it not be open. With edits switched off, a request for them
is let through like one for all tokens. -/
def Call.opens (settings : Settings) (uri : String) : Call → Bool
  | .openDocument other => other == uri
  | .full other _ => other == uri && (settings.enabled && settings.full)
  | .fullDelta other _ _ => other == uri && (settings.enabled && (settings.delta || settings.full))
  | .part other _ _ => other == uri && (settings.enabled && settings.range)
  | .contains _ | .close _ | .clear | .step _ _ => false

/-- A call of the run opens the URI, and none of those behind it closes it. -/
def OpenedIn (settings : Settings) (uri : String) (calls : List (FreshIds × Call)) : Prop :=
  ∃ front opener later, calls = front ++ opener :: later ∧
    opener.2.opens settings uri = true ∧ ∀ turn ∈ later, turn.2.closes uri = false

/-! ## One call -/

section Requests

variable {α : Type} (workspace : Workspace) (uri other : String)

theorem contains_put (document : Document) :
    (workspace.put uri document).contains other = (uri == other || workspace.contains other) := by
  rw [contains, document?_put, contains]
  by_cases same : other = uri
  · simp [same]
  · simp [same, Ne.symm same]

theorem contains_serve (start : Document → Document) (finish : Document → α × Document)
    (resultId : α → String) (fresh : FreshIds) (pushes : List Push) :
    (workspace.serve start finish resultId fresh uri pushes).2.contains other =
      (uri == other || workspace.contains other) := by
  rcases serve_cases start finish resultId fresh uri pushes workspace with
    ⟨fault, _, failed⟩ | ⟨draft, answered, _, _, succeeded⟩
  · rw [failed]
    exact contains_put workspace uri other _
  · rw [succeeded]
    exact contains_put workspace uri other _

theorem contains_openDocument (fresh : String) :
    (workspace.openDocument fresh uri).2.contains other =
      (uri == other || workspace.contains other) := by
  rw [contains, document?_openDocument, contains]
  by_cases same : other = uri
  · simp [same]
  · simp [same, Ne.symm same]

theorem contains_full (fresh : FreshIds) (pushes : List Push) :
    (workspace.full fresh uri pushes).2.contains other =
      (uri == other && (workspace.settings.enabled && workspace.settings.full) ||
        workspace.contains other) := by
  unfold full
  split
  · rename_i admitted
    rw [contains_serve, admitted, Bool.and_true]
  · rename_i refused
    rw [Bool.not_eq_true] at refused
    rw [refused, Bool.and_false, Bool.false_or]
    rfl

theorem contains_fullDelta (previous : String) (fresh : FreshIds) (pushes : List Push) :
    (workspace.fullDelta fresh uri previous pushes).2.contains other =
      (uri == other &&
          (workspace.settings.enabled && (workspace.settings.delta || workspace.settings.full)) ||
        workspace.contains other) := by
  cases delta : workspace.settings.delta with
  | false =>
      rw [fullDelta_of_off delta, Bool.false_or]
      exact contains_full workspace uri other fresh pushes
  | true =>
      rw [fullDelta, delta, Bool.true_or, Bool.and_true]
      cases enabled : workspace.settings.enabled with
      | false =>
          rw [Bool.and_false, Bool.false_or]
          rfl
      | true =>
          rw [Bool.and_true]
          exact contains_serve workspace uri other _ _ _ fresh pushes

theorem contains_part (span : Span) (fresh : FreshIds) (pushes : List Push) :
    (workspace.part fresh uri span pushes).2.contains other =
      (uri == other && (workspace.settings.enabled && workspace.settings.range) ||
        workspace.contains other) := by
  cases admitted : workspace.settings.enabled && workspace.settings.range with
  | false =>
      obtain ⟨result, refused⟩ := part_of_refused (Bool.not_eq_true _ ▸ admitted)
      rw [refused, Bool.and_false, Bool.false_or]
  | true =>
      obtain ⟨enabled, range⟩ := Bool.and_eq_true_iff.mp admitted
      simp only [part, enabled, range, Bool.not_true, Bool.false_eq_true, ↓reduceIte]
      rw [contains_serve, Bool.and_true]

end Requests

/-- A URI is open behind a call that opens it, and else if it was open and the call does not close
it. -/
theorem contains_perform (fresh : FreshIds) (workspace : Workspace) (call : Call) (uri : String) :
    (workspace.perform fresh call).2.contains uri =
      (call.opens workspace.settings uri || workspace.contains uri && !call.closes uri) := by
  have kept {opens after : Bool} (same : after = (opens || workspace.contains uri)) :
      after = (opens || workspace.contains uri && !false) := by
    rw [same, Bool.not_false, Bool.and_true]
  cases call with
  | openDocument other => exact kept (contains_openDocument workspace other uri fresh.opened)
  | full other pushes => exact kept (contains_full workspace other uri fresh pushes)
  | fullDelta other previous pushes =>
      exact kept (contains_fullDelta workspace other uri previous fresh pushes)
  | part other span pushes => exact kept (contains_part workspace other uri span fresh pushes)
  | contains other => exact kept (Bool.false_or _).symm
  | step handle step =>
      exact kept ((contains_performAt fresh.encoded handle step workspace uri).trans
        (Bool.false_or _).symm)
  | close other =>
      change (workspace.close other).2.contains uri =
        (false || workspace.contains uri && !(other == uri))
      rw [contains, document?_close, Bool.false_or, contains]
      by_cases same : uri = other
      · simp [same]
      · simp [same, Ne.symm same]
  | clear =>
      change workspace.clear.contains uri = (false || workspace.contains uri && !true)
      rw [contains, document?_clear, Bool.not_true, Bool.and_false]
      rfl

/-! ## Runs -/

section Runs

variable {settings : Settings} {uri : String} {calls : List (FreshIds × Call)}

theorem not_openedIn_nil : ¬ OpenedIn settings uri [] := by
  rintro ⟨front, opener, later, split, _⟩
  cases front <;> cases split

theorem openedIn_snoc {turn : FreshIds × Call} :
    OpenedIn settings uri (calls ++ [turn]) ↔
      turn.2.opens settings uri = true ∨
        OpenedIn settings uri calls ∧ turn.2.closes uri = false := by
  constructor
  · rintro ⟨front, opener, later, split, opens, keeps⟩
    -- The call that opens the URI is the last of the run, or one in front of it.
    rcases List.eq_nil_or_concat later with rfl | ⟨between, last, rfl⟩
    · obtain ⟨-, same⟩ := List.append_inj' split rfl
      rw [List.singleton_inj.mp same]
      exact Or.inl opens
    · rw [List.concat_eq_append, ← List.cons_append, ← List.append_assoc] at split
      obtain ⟨earlier, same⟩ := List.append_inj' split rfl
      rw [List.singleton_inj.mp same]
      rw [List.concat_eq_append, List.forall_mem_append, List.forall_mem_singleton] at keeps
      exact Or.inr ⟨⟨front, opener, between, earlier, opens, keeps.1⟩, keeps.2⟩
  · rintro (opens | ⟨⟨front, opener, later, rfl, opens, keeps⟩, last⟩)
    · exact ⟨calls, turn, [], rfl, opens, fun _ member => absurd member List.not_mem_nil⟩
    · refine ⟨front, opener, later ++ [turn], by simp, opens, ?_⟩
      rw [List.forall_mem_append, List.forall_mem_singleton]
      exact ⟨keeps, last⟩

theorem contains_run_iff {start : Workspace} (blank : start.sessions = []) :
    (start.run calls).2.contains uri = true ↔ OpenedIn start.settings uri calls := by
  induction calls using List.reverseRecOn with
  | nil =>
      refine iff_of_false ?_ not_openedIn_nil
      change ¬ start.contains uri = true
      rw [← mem_openUris_iff, openUris_of_blank blank]
      exact List.not_mem_nil
  | append_singleton calls turn ih =>
      rw [run_snoc, contains_perform, settings_run, Bool.or_eq_true, Bool.and_eq_true, ih,
        Bool.not_eq_true', openedIn_snoc]

end Runs

theorem fst_close (workspace : Workspace) (uri : String) :
    (workspace.close uri).1 = workspace.contains uri := by
  unfold close
  split
  · rename_i isOpen
    exact isOpen.symm
  · rename_i closed
    exact (Bool.not_eq_true _ ▸ closed).symm

theorem isEmpty_iff {workspace : Workspace} :
    workspace.isEmpty = true ↔ workspace.size = 0 := by
  rw [isEmpty, List.isEmpty_iff, size, List.length_eq_zero_iff]

/-- The open URIs are those that the calls have opened and not closed since; they are counted once
each. Closing replies whether a URI was open, and every document that is open goes by the legend of
the workspace. -/
theorem open_iff_opened_since {start : Workspace} (blank : start.sessions = [])
    (calls : List (FreshIds × Call)) :
    let after := (start.run calls).2
    (∀ uri, after.contains uri = true ↔ OpenedIn start.settings uri calls) ∧
      (∀ fresh uri, (after.perform fresh (.contains uri)).1 = .flag (after.contains uri)) ∧
      {uri | OpenedIn start.settings uri calls}.encard = after.size ∧
      (after.isEmpty = true ↔ after.size = 0) ∧
      (∀ fresh uri, (after.perform fresh (.close uri)).1 = .flag (after.contains uri)) ∧
      after.legend = start.legend ∧
      ∀ uri document, after.document? uri = some document → document.legend = after.legend := by
  intro after
  have opened (uri : String) : after.contains uri = true ↔ OpenedIn start.settings uri calls :=
    contains_run_iff blank
  have once : after.openUris.Nodup := by
    refine nodup_openUris_run ?_ calls
    rw [openUris_of_blank blank]
    exact List.nodup_nil
  have counted : {uri | OpenedIn start.settings uri calls} = ↑after.openUris.toFinset := by
    ext uri
    rw [Set.mem_ofPred_eq, Finset.mem_coe, List.mem_toFinset, mem_openUris_iff, opened]
  refine ⟨opened, fun _ _ => rfl, ?_, isEmpty_iff, ?_, legend_run start calls, ?_⟩
  · rw [counted, Set.encard_coe_eq_coe_finsetCard, List.toFinset_card_of_nodup once, size]
  · intro fresh uri
    change Reply.flag (after.close uri).1 = _
    rw [fst_close]
  · intro uri document found
    exact ((all_legend_run blank calls).document? found).trans (legend_run start calls).symm

/-- With full answers and edits switched off, requests for them do not open a URI, and a request for
a part whose tokenizer fails opens one again that was closed. -/
theorem open_iff_opened_since_refused :
    let settings : Settings := ⟨true, false, false, true, none, none⟩
    let start : Workspace := ⟨settings, ⟨[], []⟩, [], .empty⟩
    let broken : Span := ⟨⟨1, 4⟩, ⟨2, 0⟩⟩
    let calls : List (FreshIds × Call) :=
      [(⟨"a", "b"⟩, .full "left" []), (⟨"c", "d"⟩, .openDocument "right"),
        (⟨"e", "f"⟩, .openDocument "middle"), (⟨"g", "h"⟩, .fullDelta "left" "b" []),
        (⟨"i", "j"⟩, .close "right"), (⟨"k", "l"⟩, .close "middle"),
        (⟨"m", "n"⟩, .part "right" broken [.encodedSpan broken 0 0])]
    let after := (start.run calls).2
    start.sessions = [] ∧ ¬ OpenedIn settings "left" calls ∧ ¬ OpenedIn settings "middle" calls ∧
      OpenedIn settings "right" calls ∧ {uri | OpenedIn settings uri calls}.encard = 1 ∧
      (after.perform ⟨"o", "p"⟩ (.close "right")).1 = .flag true ∧
      after.document? "right" = some ⟨⟨[], []⟩, "n", [], none⟩ := by
  intro settings start broken calls after
  obtain ⟨opened, _, counted, _, closes, _⟩ := @open_iff_opened_since start rfl calls
  have shows : after.document? "right" = some ⟨⟨[], []⟩, "n", [], none⟩ := by decide +kernel
  have left : after.contains "left" = false := by decide +kernel
  have middle : after.contains "middle" = false := by decide +kernel
  have right : after.contains "right" = true := contains_eq_true_iff.mpr ⟨_, shows⟩
  have single : after.size = 1 := by decide +kernel
  refine ⟨rfl, ?_, ?_, (opened "right").mp right, ?_, ?_, shows⟩
  · rw [← opened, left]
    exact Bool.false_ne_true
  · rw [← opened, middle]
    exact Bool.false_ne_true
  · rw [counted, single, Nat.cast_one]
  · rw [closes, right]

end SemanticHighlight.Workspace
