import Mathlib.Data.List.Basic
import Mathlib.Data.List.Induction
import Mathlib.Data.List.Infix
import SemanticHighlight.Document
import SemanticHighlight.Proofs.Draft.Writes
import SemanticHighlight.Proofs.Edit.Between

/-!
# What a document answers follows from its history

A document has a base exactly when the last thing done with it, asking for edits apart, was an edit
of the array it had then; and the base is that array.
-/

set_option autoImplicit false

namespace SemanticHighlight.Document

/-! ## One step -/

@[simp] theorem base_encode (pushes : List Push) (committed : Bool) (document : Document) :
    (document.encode pushes committed).2.base = document.base := by
  cases committed <;> rfl

theorem snd_edits (document : Document) : document.edits.2 = document := by
  obtain ⟨legend, id, data, base⟩ := document
  cases base <;> rfl

/-- The base behind one step. -/
theorem base_perform (fresh : String) (document : Document) (step : Step) :
    (document.perform fresh step).2.base =
      match step with
      | .create _ _ => none
      | .edit previous _ _ => if previous = document.id then some document.data else none
      | .full => none
      | .part _ => none
      | .edits => document.base := by
  cases step with
  | create pushes committed => exact base_encode pushes committed _
  | edit previous pushes committed =>
      simp only [perform, base_encode, edit]
      split <;> rfl
  | full => rfl
  | part span => rfl
  | edits => exact congrArg base (snd_edits document)

/-- The array of a document consists of whole tokens. -/
def Whole (document : Document) : Prop :=
  document.data.length % wordsPerToken = 0

theorem whole_new (legend : Legend) (id : String) : (new legend id).Whole := rfl

theorem Whole.encode {document : Document} (whole : document.Whole) (pushes : List Push)
    (committed : Bool) : (document.encode pushes committed).2.Whole := by
  cases committed with
  | false => exact whole
  | true => exact (Draft.writes_empty.pushEach pushes).whole

theorem Whole.edit {document : Document} (whole : document.Whole) (fresh previous : String) :
    (document.edit fresh previous).Whole := by
  unfold Document.edit
  split <;> exact whole

theorem Whole.perform {document : Document} (whole : document.Whole) (fresh : String)
    (step : Step) : (document.perform fresh step).2.Whole := by
  cases step with
  | create pushes committed =>
      have created : (document.create fresh).Whole := whole
      exact created.encode pushes committed
  | edit previous pushes committed => exact (whole.edit fresh previous).encode pushes committed
  | full => exact whole
  | part span => exact whole
  | edits =>
      change document.edits.2.Whole
      rw [snd_edits]
      exact whole

/-! ## Runs -/

theorem run_append (document : Document) (earlier later : List (String × Step)) :
    document.run (earlier ++ later) = (document.run earlier).run later :=
  List.foldl_append

theorem run_snoc (document : Document) (steps : List (String × Step)) (fresh : String)
    (step : Step) :
    document.run (steps ++ [(fresh, step)]) = ((document.run steps).perform fresh step).2 := by
  rw [run_append]
  rfl

theorem Whole.run {document : Document} (whole : document.Whole) (steps : List (String × Step)) :
    (document.run steps).Whole := by
  induction steps generalizing document with
  | nil => exact whole
  | cons step steps ih => exact ih (whole.perform step.1 step.2)

/-- The last of the steps that does not ask for edits is an edit announced under the id that the
document has at that moment, and `before` is the document at that moment. -/
def EditedFrom (start : Document) (steps : List (String × Step)) (before : Document) : Prop :=
  ∃ earlier fresh pushes committed later,
    steps = earlier ++ (fresh, .edit before.id pushes committed) :: later ∧
      (∀ step ∈ later, step.2 = .edits) ∧ start.run earlier = before

theorem not_editedFrom_nil {start before : Document} : ¬ EditedFrom start [] before := by
  intro edited
  obtain ⟨earlier, _, _, _, later, split, _⟩ := edited
  cases earlier <;> cases split

theorem editedFrom_snoc {start before : Document} {steps : List (String × Step)} {fresh : String}
    {step : Step} :
    EditedFrom start (steps ++ [(fresh, step)]) before ↔
      step = .edits ∧ EditedFrom start steps before ∨
        (∃ pushes committed, step = .edit before.id pushes committed) ∧
          start.run steps = before := by
  constructor
  · intro edited
    obtain ⟨earlier, drawn, pushes, committed, later, split, onlyEdits, reached⟩ := edited
    rcases List.eq_nil_or_concat' later with rfl | ⟨front, last, rfl⟩
    · obtain ⟨rfl, same⟩ := List.append_inj' split rfl
      cases same
      exact Or.inr ⟨⟨pushes, committed, rfl⟩, reached⟩
    · rw [← List.cons_append, ← List.append_assoc] at split
      obtain ⟨rfl, same⟩ := List.append_inj' split rfl
      cases same
      have asked := onlyEdits (fresh, step) (List.mem_append_right _ List.mem_cons_self)
      exact Or.inl ⟨asked, earlier, drawn, pushes, committed, front, rfl,
        fun step member => onlyEdits step (List.mem_append_left _ member), reached⟩
  · intro last
    rcases last with ⟨rfl, edited⟩ | ⟨⟨pushes, committed, rfl⟩, reached⟩
    · obtain ⟨earlier, drawn, pushes, committed, later, rfl, onlyEdits, reached⟩ := edited
      refine ⟨earlier, drawn, pushes, committed, later ++ [(fresh, .edits)], by simp, ?_, reached⟩
      intro step member
      rcases List.mem_append.mp member with member | member
      · exact onlyEdits step member
      · rw [List.mem_singleton.mp member]
    · exact ⟨steps, fresh, pushes, committed, [], rfl, by simp, reached⟩

/-- The history decides the base. -/
theorem base_run_eq_some_iff {start : Document} (blank : start.base = none)
    {steps : List (String × Step)} {data : List UInt32} :
    (start.run steps).base = some data ↔
      ∃ before, EditedFrom start steps before ∧ before.data = data := by
  induction steps using List.reverseRecOn with
  | nil =>
      change start.base = some data ↔ _
      simp [blank, not_editedFrom_nil]
  | append_singleton steps last ih =>
      obtain ⟨fresh, step⟩ := last
      rw [run_snoc, base_perform]
      simp only [editedFrom_snoc]
      cases step with
      | edits => simpa using ih
      | edit previous pushes committed =>
          simp only [reduceCtorEq, false_and, false_or, Step.edit.injEq]
          constructor
          · intro kept
            split at kept
            · rename_i current
              exact ⟨_, ⟨⟨pushes, committed, current, rfl, rfl⟩, rfl⟩, Option.some.inj kept⟩
            · cases kept
          · intro edited
            obtain ⟨_, ⟨⟨_, _, current, _, _⟩, rfl⟩, rfl⟩ := edited
            rw [if_pos current]
      | create pushes committed => simp
      | full => simp
      | part span => simp

theorem hasBase_run_iff {start : Document} (blank : start.base = none)
    {steps : List (String × Step)} :
    (start.run steps).hasBase = true ↔ ∃ before, EditedFrom start steps before := by
  rw [hasBase, Option.isSome_iff_exists]
  simp only [base_run_eq_some_iff blank]
  constructor
  · intro held
    obtain ⟨_, before, edited, _⟩ := held
    exact ⟨before, edited⟩
  · intro edited
    obtain ⟨before, edited⟩ := edited
    exact ⟨before.data, before, edited, rfl⟩

theorem edits_of_base {document : Document} {data : List UInt32}
    (held : document.base = some data) :
    document.edits = (.delta ⟨document.id, [.between data document.data]⟩, document) := by
  unfold edits
  rw [held]

theorem edits_of_no_base {document : Document} (blank : document.base = none) :
    document.edits = (.full ⟨document.id, document.data⟩, document) := by
  unfold edits full
  rw [blank]
  exact congrArg (Prod.mk _) (by rw [← blank])

theorem isDelta_edits (document : Document) : document.edits.1.isDelta = document.hasBase := by
  unfold edits hasBase
  cases document.base <;> rfl

/-- After any run the edits are a delta just when the last step other than asking for edits was an
edit of the array the document had, and the delta leads from that array to the current one. -/
theorem edits_after_run (legend : Legend) (id : String) (steps : List (String × Step))
    (short : ∀ done, done <+: steps → ((new legend id).run done).data.length < UInt32.size) :
    let document := (new legend id).run steps
    (document.edits.1.isDelta = true ↔ ∃ before, EditedFrom (new legend id) steps before) ∧
      (document.hasBase = true ↔ ∃ before, EditedFrom (new legend id) steps before) ∧
      (∀ before, EditedFrom (new legend id) steps before →
        ∃ edit, document.edits.1 = .delta ⟨document.id, [edit]⟩ ∧
          Edit.applyAll before.data [edit] = .ok document.data) ∧
      ((¬ ∃ before, EditedFrom (new legend id) steps before) →
        document.edits.1 = .full ⟨document.id, document.data⟩) ∧
      document.edits.2.edits = document.edits := by
  intro document
  have known : document.hasBase = true ↔ ∃ before, EditedFrom (new legend id) steps before :=
    hasBase_run_iff rfl
  refine ⟨?_, known, ?_, ?_, ?_⟩
  · rw [isDelta_edits]
    exact known
  · intro before edited
    have held := (base_run_eq_some_iff rfl).mpr ⟨before, edited, rfl⟩
    refine ⟨.between before.data document.data, by rw [edits_of_base held], ?_⟩
    obtain ⟨earlier, fresh, pushes, committed, later, split, _, reached⟩ := edited
    have earlierShort := short earlier ⟨_, split.symm⟩
    rw [reached] at earlierShort
    exact Edit.applyAll_between earlierShort ((whole_new legend id).run steps)
  · intro never
    have blank : document.base = none := by
      rw [← known, hasBase, Option.not_isSome_iff_eq_none] at never
      exact never
    rw [edits_of_no_base blank]
  · rw [snd_edits]

/-- The same with an edit that drops a token, whose edits are asked for twice. -/
theorem edits_after_run_edited :
    let start := new ⟨[], []⟩ "a"
    let creation : String × Step := ("b", .create [.token ⟨0, 0, 3, 1, 0⟩, .token ⟨2, 5, 2, 2, 0⟩] true)
    let steps := [creation, ("c", .edit "b" [.token ⟨0, 0, 3, 1, 0⟩, .fail .rangeUnsupported] true),
      ("d", .edits), ("e", .edits)]
    (∀ done, done <+: steps → (start.run done).data.length < UInt32.size) ∧
      EditedFrom start steps (start.run [creation]) ∧
      ∃ edit, (start.run steps).edits.1 = .delta ⟨"b", [edit]⟩ ∧
        Edit.applyAll [0, 0, 3, 1, 0, 2, 5, 2, 2, 0] [edit] = .ok [0, 0, 3, 1, 0] := by
  intro start creation steps
  have short : ∀ done, done <+: steps → (start.run done).data.length < UInt32.size := by
    intro done front
    rw [← List.mem_inits] at front
    revert front done
    decide
  have edited : EditedFrom start steps (start.run [creation]) :=
    ⟨[creation], "c", _, _, [("d", .edits), ("e", .edits)], rfl, by simp, rfl⟩
  exact ⟨short, edited, (edits_after_run _ _ _ short).2.2.1 _ edited⟩

end SemanticHighlight.Document
