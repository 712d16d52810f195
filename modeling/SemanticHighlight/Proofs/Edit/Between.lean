import SemanticHighlight.Edit.Between

/-!
# The edit between two arrays leads from the one to the other

The shared beginning and the shared end do not overlap, so an array is its beginning, its middle
and its end, and the edit exchanges the middle.
-/

set_option autoImplicit false

namespace SemanticHighlight.Edit

theorem take_eq_of_le_sharedStart {left right : List UInt32} {count : Nat}
    (bound : count ≤ sharedStart left right) : left.take count = right.take count := by
  have shared := congrArg (List.take count) (take_sharedStart left right)
  rwa [List.take_take, List.take_take, Nat.min_eq_left bound] at shared

theorem drop_sharedEnd (kept : Nat) (left right : List UInt32) :
    left.drop (left.length - sharedEnd kept left right) =
      right.drop (right.length - sharedEnd kept left right) := by
  have shared := take_eq_of_le_sharedStart (Nat.min_le_left
    (sharedStart left.reverse right.reverse) (min left.length right.length - kept))
  rw [List.take_reverse, List.take_reverse, List.reverse_inj] at shared
  exact shared

theorem sharedStart_add_sharedEnd_le (previous current : List UInt32) :
    sharedStart previous current + sharedEnd (sharedStart previous current) previous current ≤
      min previous.length current.length := by
  have left := sharedStart_le_left previous current
  have right := sharedStart_le_right previous current
  unfold sharedEnd
  omega

theorem eq_of_sharedStart_eq_length {previous current : List UInt32}
    (left : sharedStart previous current = previous.length)
    (right : sharedStart previous current = current.length) : previous = current := by
  have shared := take_sharedStart previous current
  rwa [left, List.take_length, ← left, right, List.take_length] at shared

/-- The middle of one array between the beginning and the end of the other gives the other. -/
theorem splice_between (previous current : List UInt32) :
    let leading := sharedStart previous current
    let trailing := sharedEnd leading previous current
    splice previous leading (previous.length - trailing - leading)
      ((current.take (current.length - trailing)).drop leading) = current := by
  intro leading trailing
  have apart : leading + trailing ≤ min previous.length current.length :=
    sharedStart_add_sharedEnd_le previous current
  have front : previous.take leading = (current.take (current.length - trailing)).take leading := by
    rw [List.take_take, take_sharedStart, Nat.min_eq_left (by omega)]
  have back : previous.drop (leading + (previous.length - trailing - leading)) =
      current.drop (current.length - trailing) := by
    rw [← drop_sharedEnd leading previous current]
    congr 1
    omega
  rw [splice, front, back, List.take_append_drop, List.take_append_drop]

/-- Whatever the length of the arrays, the edit writes down a run of the first that gives the second
when it is exchanged. -/
theorem exists_splice_between (previous current : List UInt32) :
    ∃ start count inserted, between previous current = ⟨.ofNat start, .ofNat count, inserted⟩ ∧
      start + count ≤ previous.length ∧ splice previous start count inserted = current := by
  have apart := sharedStart_add_sharedEnd_le previous current
  by_cases same : sharedStart previous current = previous.length ∧
      sharedStart previous current = current.length
  · refine ⟨0, 0, [], if_pos same, Nat.zero_le _, ?_⟩
    rw [eq_of_sharedStart_eq_length same.1 same.2]
    simp [splice]
  · exact ⟨_, _, _, if_neg same, by omega, splice_between previous current⟩

/-- Only the words of the array that is edited have to be counted in 32 bits. -/
theorem apply_between {previous : List UInt32} (fits : previous.length < UInt32.size)
    (current : List UInt32) : apply previous (between previous current) = .ok current := by
  obtain ⟨start, count, inserted, written, inside, exchanged⟩ :=
    exists_splice_between previous current
  rw [apply_eq_ok_iff, written, UInt32.toNat_ofNat_of_lt' (by omega),
    UInt32.toNat_ofNat_of_lt' (by omega)]
  exact ⟨inside, exchanged⟩

/-- An edit computed between arrays of words is accepted, and leads to the second of them. -/
theorem applyAll_between {previous current : List UInt32} (fits : previous.length < UInt32.size)
    (whole : current.length % wordsPerToken = 0) :
    applyAll previous [between previous current] = .ok current := by
  have patched : applyInTurn previous [between previous current] = .ok current := by
    rw [applyInTurn_cons, apply_between fits current]
    rfl
  rw [applyAll, patched]
  simp only [bind, Except.bind, checkWholeTokens_eq_ok_iff.mpr whole]
  rfl

theorem sharedStart_append (data inserted : List UInt32) :
    sharedStart data (data ++ inserted) = data.length := by
  induction data with
  | nil => cases inserted <;> rfl
  | cons word data ih => simp only [List.cons_append, sharedStart, ↓reduceIte, ih, List.length_cons]

/-- Words that are put behind an array leave the whole array in front of the edit. -/
theorem between_append (data : List UInt32) {inserted : List UInt32} (longer : inserted ≠ []) :
    between data (data ++ inserted) = ⟨.ofNat data.length, 0, inserted⟩ := by
  have apart : data.length ≠ (data ++ inserted).length := by
    simp [longer]
  have noEnd : sharedEnd data.length data (data ++ inserted) = 0 := by
    simp only [sharedEnd, List.length_append]
    omega
  simp only [between, sharedStart_append, noEnd, apart, and_false, ↓reduceIte, Nat.sub_zero,
    Nat.sub_self, List.take_length, List.drop_left]
  rfl

end SemanticHighlight.Edit
