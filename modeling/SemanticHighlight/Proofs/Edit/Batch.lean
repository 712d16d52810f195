import SemanticHighlight.Edit

/-!
# Edits in one batch and in two

A batch of edits ends in one of three ways. It leads to an array of whole tokens, which takes the
place of the first one; an edit reaches past the end of the array that the edits in front of it lead
to; or all edits fit, and the last array does not consist of whole tokens. In the last two ways the
first array stays. Only the end of a batch is asked for whole tokens, so a batch joined to another is
the other made on what the first leads to, even where the first alone is refused for its length.
-/

set_option autoImplicit false

namespace SemanticHighlight.Edit

/-- Each edit lies within the array that the edits in front of it lead to, and all of them lead from
the first array to the last. -/
inductive Patches : List UInt32 → List Edit → List UInt32 → Prop where
  | nil {data : List UInt32} : Patches data [] data
  | cons {data patched : List UInt32} {edit : Edit} {edits : List Edit} :
      edit.start.toNat + edit.deleteCount.toNat ≤ data.length →
      Patches (splice data edit.start.toNat edit.deleteCount.toNat edit.data) edits patched →
      Patches data (edit :: edits) patched

/-- `edit` is the first that reaches past the end, and `reached` the array that it does not fit. -/
def FirstOutside (data : List UInt32) (edits : List Edit) (edit : Edit) (reached : List UInt32) :
    Prop :=
  ∃ front back, edits = front ++ edit :: back ∧ Patches data front reached ∧
    reached.length < edit.start.toNat + edit.deleteCount.toNat

/-- The ways in which edits made in place end, with the array that stands there afterwards. -/
inductive Ends (data : List UInt32) (edits : List Edit) : Except Fault Unit × List UInt32 → Prop where
  | made {patched : List UInt32} :
      Patches data edits patched → patched.length % wordsPerToken = 0 →
      Ends data edits (.ok (), patched)
  | outside {edit : Edit} {reached : List UInt32} :
      FirstOutside data edits edit reached →
      Ends data edits (.error (.editOutOfBounds edit.start edit.deleteCount reached.length), data)
  | misaligned {patched : List UInt32} :
      Patches data edits patched → patched.length % wordsPerToken ≠ 0 →
      Ends data edits (.error (.malformedData patched.length), data)

/-! ## Edits made in turn -/

theorem applyInTurn_eq_ok_iff {data patched : List UInt32} {edits : List Edit} :
    applyInTurn data edits = .ok patched ↔ Patches data edits patched := by
  induction edits generalizing data with
  | nil =>
      constructor
      · intro made
        cases made
        exact .nil
      · intro patches
        cases patches
        rfl
  | cons edit edits ih =>
      rw [applyInTurn_cons, apply]
      split
      · rename_i inside
        constructor
        · intro made
          exact .cons inside (ih.mp made)
        · intro patches
          cases patches with
          | cons _ later => exact ih.mpr later
      · rename_i outside
        constructor
        · intro refused
          cases refused
        · intro patches
          cases patches with
          | cons inside _ => exact absurd inside outside

theorem Patches.unique {data patched other : List UInt32} {edits : List Edit}
    (patches : Patches data edits patched) (otherwise : Patches data edits other) :
    patched = other := by
  induction patches with
  | nil =>
      cases otherwise
      rfl
  | cons _ _ ih =>
      cases otherwise with
      | cons _ later => exact ih later

theorem firstOutside_cons {data reached : List UInt32} {first edit : Edit} {edits : List Edit} :
    FirstOutside data (first :: edits) edit reached ↔
      if first.start.toNat + first.deleteCount.toNat ≤ data.length then
        FirstOutside (splice data first.start.toNat first.deleteCount.toNat first.data) edits edit
          reached
      else first = edit ∧ data = reached := by
  constructor
  · intro outside
    obtain ⟨front, back, split, patches, past⟩ := outside
    cases patches with
    | nil =>
        cases split
        rw [if_neg (Nat.not_le.mpr past)]
        exact ⟨rfl, rfl⟩
    | cons inside later =>
        cases split
        rw [if_pos inside]
        exact ⟨_, back, rfl, later, past⟩
  · split
    · rename_i inside
      intro outside
      obtain ⟨front, back, rfl, patches, past⟩ := outside
      exact ⟨first :: front, back, rfl, .cons inside patches, past⟩
    · rename_i past
      intro here
      obtain ⟨rfl, rfl⟩ := here
      exact ⟨[], edits, rfl, .nil, Nat.not_le.mp past⟩

theorem applyInTurn_eq_error_iff {data : List UInt32} {edits : List Edit} {fault : Fault} :
    applyInTurn data edits = .error fault ↔
      ∃ edit reached, FirstOutside data edits edit reached ∧
        fault = .editOutOfBounds edit.start edit.deleteCount reached.length := by
  induction edits generalizing data with
  | nil =>
      constructor
      · intro impossible
        cases impossible
      · intro refused
        obtain ⟨_, _, ⟨front, _, split, _⟩, _⟩ := refused
        cases front <;> cases split
  | cons edit edits ih =>
      simp only [applyInTurn_cons, apply, firstOutside_cons]
      split
      · exact ih
      · constructor
        · intro refused
          cases refused
          exact ⟨edit, data, ⟨rfl, rfl⟩, rfl⟩
        · intro refused
          obtain ⟨_, _, ⟨rfl, rfl⟩, rfl⟩ := refused
          rfl

theorem FirstOutside.append {data reached : List UInt32} {edits : List Edit} {edit : Edit}
    (outside : FirstOutside data edits edit reached) (later : List Edit) :
    FirstOutside data (edits ++ later) edit reached := by
  obtain ⟨front, back, rfl, patches, past⟩ := outside
  exact ⟨front, back ++ later, by simp, patches, past⟩

/-! ## Edits made in place -/

theorem run_patch_of_patches {data patched : List UInt32} {edits : List Edit}
    (patches : Patches data edits patched) :
    (patch edits).run.run data =
      if patched.length % wordsPerToken = 0 then (.ok (), patched)
      else (.error (.malformedData patched.length), data) := by
  rw [run_patch, applyAll, applyInTurn_eq_ok_iff.mpr patches]
  by_cases whole : patched.length % wordsPerToken = 0
  · simp [checkWholeTokens, whole, bind, Except.bind, pure, Except.pure]
  · simp [checkWholeTokens, whole, bind, Except.bind]

theorem run_patch_of_firstOutside {data reached : List UInt32} {edits : List Edit} {edit : Edit}
    (outside : FirstOutside data edits edit reached) :
    (patch edits).run.run data =
      (.error (.editOutOfBounds edit.start edit.deleteCount reached.length), data) := by
  rw [run_patch, applyAll, applyInTurn_eq_error_iff.mpr ⟨edit, reached, outside, rfl⟩]
  rfl

theorem patches_or_firstOutside (data : List UInt32) (edits : List Edit) :
    (∃ patched, Patches data edits patched) ∨
      ∃ edit reached, FirstOutside data edits edit reached := by
  cases made : applyInTurn data edits with
  | ok patched => exact .inl ⟨patched, applyInTurn_eq_ok_iff.mp made⟩
  | error fault =>
      obtain ⟨edit, reached, outside, _⟩ := applyInTurn_eq_error_iff.mp made
      exact .inr ⟨edit, reached, outside⟩

theorem run_patch_eq_iff {data : List UInt32} {edits : List Edit}
    {result : Except Fault Unit × List UInt32} :
    (patch edits).run.run data = result ↔ Ends data edits result := by
  constructor
  · rintro rfl
    rcases patches_or_firstOutside data edits with ⟨patched, patches⟩ | ⟨edit, reached, outside⟩
    · rw [run_patch_of_patches patches]
      split
      · rename_i whole
        exact .made patches whole
      · rename_i broken
        exact .misaligned patches broken
    · rw [run_patch_of_firstOutside outside]
      exact .outside outside
  · intro ends
    cases ends with
    | made patches whole => rw [run_patch_of_patches patches, if_pos whole]
    | outside outside => exact run_patch_of_firstOutside outside
    | misaligned patches broken => rw [run_patch_of_patches patches, if_neg broken]

theorem ends_patch (data : List UInt32) (edits : List Edit) :
    Ends data edits ((patch edits).run.run data) :=
  run_patch_eq_iff.mp rfl

/-! ## One batch after another -/

/-- The same ending, but with `data` in its place after a fault. -/
def restoring (data : List UInt32) :
    Except Fault Unit × List UInt32 → Except Fault Unit × List UInt32
  | (.ok (), patched) => (.ok (), patched)
  | (.error fault, _) => (.error fault, data)

theorem Patches.run_patch_append {data between : List UInt32} {first : List Edit}
    (patches : Patches data first between) (second : List Edit) :
    (patch (first ++ second)).run.run data = restoring data ((patch second).run.run between) := by
  have joined : applyAll data (first ++ second) = applyAll between second := by
    rw [applyAll, applyInTurn_append, applyInTurn_eq_ok_iff.mpr patches]
    rfl
  rw [run_patch, run_patch, joined]
  cases applyAll between second <;> rfl

/-- Made in place, edits end in one of three ways, and a fault leaves the array as it was. Where a
batch succeeds, the same batch with a second one behind it ends as the second does on what the first
leads to; where an edit of the first reaches past the end, it ends with the same fault; and where the
first is refused only for the length it leads to, it ends as the second does on that array. -/
theorem patch_append (data : List UInt32) (first second : List Edit) :
    (∀ result, (patch first).run.run data = result ↔ Ends data first result) ∧
      (∀ between, (patch first).run.run data = (.ok (), between) →
        (patch (first ++ second)).run.run data =
          restoring data ((patch second).run.run between)) ∧
      (∀ start deleteCount length,
        ((patch first).run.run data).1 = .error (.editOutOfBounds start deleteCount length) →
          (patch (first ++ second)).run.run data =
            (.error (.editOutOfBounds start deleteCount length), data)) ∧
      ∀ length, ((patch first).run.run data).1 = .error (.malformedData length) →
        ∃ between, Patches data first between ∧ between.length = length ∧
          (patch (first ++ second)).run.run data =
            restoring data ((patch second).run.run between) := by
  refine ⟨fun result => run_patch_eq_iff, ?_, ?_, ?_⟩
  · intro between made
    cases run_patch_eq_iff.mp made with
    | made patches _ => exact patches.run_patch_append second
  · intro start deleteCount length refused
    have ends := ends_patch data first
    generalize (patch first).run.run data = result at refused ends
    cases ends with
    | made | misaligned => cases refused
    | outside outside =>
        cases refused
        exact run_patch_of_firstOutside (outside.append second)
  · intro length refused
    have ends := ends_patch data first
    generalize (patch first).run.run data = result at refused ends
    cases ends with
    | made | outside => cases refused
    | misaligned patches _ =>
        cases refused
        exact ⟨_, patches, rfl, patches.run_patch_append second⟩

/-- A batch that is refused for its length and made good by another, one with an edit past the end,
and one that succeeds in front of an edit past the end. -/
theorem patch_append_misaligned :
    let data : List UInt32 := [0, 0, 3, 1, 0]
    let longer : List Edit := [⟨5, 0, [7]⟩]
    let shorter : List Edit := [⟨0, 1, []⟩]
    let past : List Edit := [⟨0, 5, []⟩, ⟨9, 1, []⟩]
    let twice : List Edit := [⟨5, 0, [1, 0, 2, 1, 0]⟩]
    (patch longer).run.run data = (.error (.malformedData 6), data) ∧
      (patch (longer ++ shorter)).run.run data = (.ok (), [0, 3, 1, 0, 7]) ∧
      (patch past).run.run data = (.error (.editOutOfBounds 9 1 0), data) ∧
      (patch (past ++ longer)).run.run data = (.error (.editOutOfBounds 9 1 0), data) ∧
      (patch twice).run.run data = (.ok (), [0, 0, 3, 1, 0, 1, 0, 2, 1, 0]) ∧
      (patch (twice ++ past)).run.run data = (.error (.editOutOfBounds 9 1 5), data) := by
  intro data longer shorter past twice
  have leadsLonger : Patches data longer [0, 0, 3, 1, 0, 7] := .cons (by decide) .nil
  have leadsShorter : Patches [0, 0, 3, 1, 0, 7] shorter [0, 3, 1, 0, 7] := .cons (by decide) .nil
  have leadsTwice : Patches data twice [0, 0, 3, 1, 0, 1, 0, 2, 1, 0] := .cons (by decide) .nil
  have outsideFirst : FirstOutside data past ⟨9, 1, []⟩ [] :=
    ⟨[⟨0, 5, []⟩], [], rfl, .cons (by decide) .nil, by decide⟩
  have outsideLater : FirstOutside [0, 0, 3, 1, 0, 1, 0, 2, 1, 0] past ⟨9, 1, []⟩ [1, 0, 2, 1, 0] :=
    ⟨[⟨0, 5, []⟩], [], rfl, .cons (by decide) .nil, by decide⟩
  have lengthRefused : (patch longer).run.run data = (.error (.malformedData 6), data) :=
    run_patch_eq_iff.mpr (.misaligned leadsLonger (by decide))
  have endRefused : (patch past).run.run data = (.error (.editOutOfBounds 9 1 0), data) :=
    run_patch_eq_iff.mpr (.outside outsideFirst)
  have made : (patch twice).run.run data = (.ok (), [0, 0, 3, 1, 0, 1, 0, 2, 1, 0]) :=
    run_patch_eq_iff.mpr (.made leadsTwice (by decide))
  obtain ⟨_, _, _, misaligned⟩ := patch_append data longer shorter
  obtain ⟨_, _, outside, _⟩ := patch_append data past longer
  obtain ⟨_, after, _, _⟩ := patch_append data twice past
  obtain ⟨between, leads, _, joined⟩ := misaligned 6 (congrArg Prod.fst lengthRefused)
  cases leadsLonger.unique leads
  refine ⟨lengthRefused, ?_, endRefused, outside 9 1 0 (congrArg Prod.fst endRefused), made, ?_⟩
  · rw [joined, run_patch_eq_iff.mpr (.made leadsShorter (by decide))]
    rfl
  · rw [after _ made, run_patch_eq_iff.mpr (.outside outsideLater)]
    rfl

end SemanticHighlight.Edit
