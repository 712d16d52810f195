import SemanticHighlight.Answer
import SemanticHighlight.Proofs.Edit.Between

/-!
# The edit between two arrays is the least one

Whatever run of the first array another edit exchanges, the edit between two arrays takes out no
more words and puts in no more. What carries this is that no edit keeps more words than lie in the
common beginning and the common end together: taking the beginning as long as it goes costs no word
of the end that could have been kept.
-/

set_option autoImplicit false

namespace SemanticHighlight.Edit

/-! ## The longest common beginning and end -/

theorem length_le_sharedStart {common left right : List UInt32} (leftBegins : common <+: left)
    (rightBegins : common <+: right) : common.length ≤ sharedStart left right := by
  induction common generalizing left right with
  | nil => exact Nat.zero_le _
  | cons word common ih =>
      obtain ⟨leftRest, rfl⟩ := leftBegins
      obtain ⟨rightRest, rfl⟩ := rightBegins
      simp only [List.cons_append, sharedStart, ↓reduceIte, List.length_cons]
      exact Nat.succ_le_succ (ih (List.prefix_append ..) (List.prefix_append ..))

/-- A common end lies in the longest one, unless that fills all the room that it was left. -/
theorem length_le_sharedEnd (kept : Nat) {common left right : List UInt32}
    (leftEnds : common <:+ left) (rightEnds : common <:+ right) :
    min common.length (min left.length right.length - kept) ≤ sharedEnd kept left right := by
  have reversed := length_le_sharedStart (List.reverse_prefix.mpr leftEnds)
    (List.reverse_prefix.mpr rightEnds)
  rw [List.length_reverse] at reversed
  unfold sharedEnd
  omega

/-! ## The words that an edit keeps -/

theorem prefix_splice (data : List UInt32) (start count : Nat) (inserted : List UInt32) :
    data.take start <+: splice data start count inserted := by
  simp only [splice, List.append_assoc]
  exact List.prefix_append ..

theorem suffix_splice (data : List UInt32) (start count : Nat) (inserted : List UInt32) :
    data.drop (start + count) <:+ splice data start count inserted :=
  List.suffix_append ..

section Kept

variable {previous current inserted : List UInt32} {start count : Nat}
  (inside : start + count ≤ previous.length)
  (leads : splice previous start count inserted = current)

include inside leads

theorem start_le_sharedStart : start ≤ sharedStart previous current := by
  have begins : previous.take start <+: current := leads ▸ prefix_splice ..
  have shared := length_le_sharedStart (List.take_prefix start previous) begins
  rw [List.length_take] at shared
  omega

/-- No edit keeps more words than the common beginning and the common end have together. -/
theorem kept_le_shared :
    previous.length - count ≤
      sharedStart previous current + sharedEnd (sharedStart previous current) previous current := by
  have front : start ≤ sharedStart previous current := start_le_sharedStart inside leads
  have ends : previous.drop (start + count) <:+ current := leads ▸ suffix_splice ..
  have back := length_le_sharedEnd (sharedStart previous current)
    (List.drop_suffix (start + count) previous) ends
  have total := length_splice inserted inside
  rw [leads] at total
  rw [List.length_drop] at back
  have leftBound := sharedStart_le_left previous current
  have rightBound := sharedStart_le_right previous current
  omega

end Kept

/-! ## The edit between two arrays -/

theorem sharedStart_self (data : List UInt32) : sharedStart data data = data.length :=
  Nat.le_antisymm (sharedStart_le_left data data)
    (length_le_sharedStart List.prefix_rfl List.prefix_rfl)

theorem between_self (data : List UInt32) : between data data = empty :=
  if_pos ⟨sharedStart_self data, sharedStart_self data⟩

theorem between_of_ne {previous current : List UInt32} (differ : previous ≠ current) :
    between previous current =
      let leading := sharedStart previous current
      let trailing := sharedEnd leading previous current
      { start := .ofNat leading
        deleteCount := .ofNat (previous.length - trailing - leading)
        data := (current.take (current.length - trailing)).drop leading } :=
  if_neg fun same => differ (eq_of_sharedStart_eq_length same.1 same.2)

theorem start_between {previous current : List UInt32} (fits : previous.length < UInt32.size)
    (differ : previous ≠ current) :
    (between previous current).start.toNat = sharedStart previous current := by
  have bound := sharedStart_le_left previous current
  rw [between_of_ne differ]
  exact UInt32.toNat_ofNat_of_lt' (by omega)

theorem deleteCount_between {previous current : List UInt32}
    (fits : previous.length < UInt32.size) :
    (between previous current).deleteCount.toNat =
      previous.length - sharedEnd (sharedStart previous current) previous current -
        sharedStart previous current := by
  by_cases same : previous = current
  · simp [same, between_self, sharedStart_self, empty]
  · rw [between_of_ne same]
    exact UInt32.toNat_ofNat_of_lt' (by omega)

theorem length_data_between (previous current : List UInt32) :
    (between previous current).data.length =
      current.length - sharedEnd (sharedStart previous current) previous current -
        sharedStart previous current := by
  by_cases same : previous = current
  · simp [same, between_self, sharedStart_self, empty]
  · rw [between_of_ne same]
    simp

theorem eq_of_apply_noop {data patched : List UInt32} {edit : Edit} (noop : edit.isNoop = true)
    (applied : apply data edit = .ok patched) : patched = data := by
  obtain ⟨nothingTaken, nothingPut⟩ := isNoop_iff.mp noop
  obtain ⟨_, rfl⟩ := apply_eq_ok_iff.mp applied
  simp [splice, nothingTaken, nothingPut]

theorem isNoop_between_iff {previous current : List UInt32}
    (fits : previous.length < UInt32.size) :
    (between previous current).isNoop = true ↔ previous = current := by
  constructor
  · intro noop
    exact (eq_of_apply_noop noop (apply_between fits current)).symm
  · intro same
    rw [same, between_self]
    rfl

/-- The edit between two arrays leads from the one to the other. No other edit that does so takes
out fewer words, puts in fewer or, unless the arrays are equal, begins later. The edit changes
nothing when the arrays are equal, and only then. -/
theorem between_least {previous current : List UInt32} (fits : previous.length < UInt32.size) :
    apply previous (between previous current) = .ok current ∧
      (∀ start count inserted, start + count ≤ previous.length →
        splice previous start count inserted = current →
          (between previous current).deleteCount.toNat ≤ count ∧
          (between previous current).data.length ≤ inserted.length ∧
          (previous ≠ current → start ≤ (between previous current).start.toNat)) ∧
      ((between previous current).isNoop = true ↔ previous = current) ∧
      (∀ resultId,
        (Delta.mk resultId [between previous current]).hasChanges = true ↔ previous ≠ current) ∧
      (previous = current → (between previous current).start = 0) := by
  have noop : (between previous current).isNoop = true ↔ previous = current :=
    isNoop_between_iff fits
  refine ⟨apply_between fits current, ?_, noop, ?_, ?_⟩
  · intro start count inserted inside leads
    have kept := kept_le_shared inside leads
    have total := length_splice inserted inside
    rw [leads] at total
    rw [deleteCount_between fits, length_data_between]
    refine ⟨by omega, by omega, fun differ => ?_⟩
    rw [start_between fits differ]
    exact start_le_sharedStart inside leads
  · intro resultId
    simp only [Delta.hasChanges, List.any_cons, List.any_nil, Bool.or_false, Bool.not_eq_true',
      ← Bool.not_eq_true, noop]
  · intro same
    rw [same, between_self]
    rfl

/-- One word is repeated throughout, so edits at any place lead from the one array to the other. The
one computed keeps all five words, and begins behind them. -/
theorem between_least_repeated :
    let previous : List UInt32 := [1, 1, 1, 1, 1]
    let current : List UInt32 := [1, 1, 1, 1, 1, 1, 1]
    previous.length < UInt32.size ∧ 1 + 3 ≤ previous.length ∧
      splice previous 1 3 [1, 1, 1, 1, 1] = current ∧
      between previous current = ⟨5, 0, [1, 1]⟩ ∧
      (between previous current).deleteCount.toNat ≤ 3 ∧
      (between previous current).data.length ≤ 5 ∧
      1 ≤ (between previous current).start.toNat ∧
      (Delta.mk "1" [between previous current]).hasChanges = true := by
  intro previous current
  have fits : previous.length < UInt32.size := by decide
  have inside : 1 + 3 ≤ previous.length := by decide
  have leads : splice previous 1 3 [1, 1, 1, 1, 1] = current := by decide
  have differ : previous ≠ current := by decide
  obtain ⟨_, least, _, changes, _⟩ := @between_least previous current fits
  obtain ⟨deleted, put, begins⟩ := least 1 3 [1, 1, 1, 1, 1] inside leads
  exact ⟨fits, inside, leads, by decide, deleted, put, begins differ, (changes "1").mpr differ⟩

end SemanticHighlight.Edit
