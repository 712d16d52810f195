import SemanticHighlight.Edit

/-!
# The edit between two arrays

Two arrays share a beginning and an end. The edit between them replaces what lies in the middle of
the one by what lies in the middle of the other; the beginning is taken as long as it goes, and the
end does not reach into it.
-/

set_option autoImplicit false

namespace SemanticHighlight.Edit

/-- The length of the longest common beginning. -/
def sharedStart : List UInt32 → List UInt32 → Nat
  | left :: lefts, right :: rights => if left = right then sharedStart lefts rights + 1 else 0
  | _, _ => 0

/-- The length of the longest common end that leaves `kept` words in front of it in both. -/
def sharedEnd (kept : Nat) (left right : List UInt32) : Nat :=
  min (sharedStart left.reverse right.reverse) (min left.length right.length - kept)

/-- The edit that makes `current` of `previous`. Equal arrays give the empty edit at 0. -/
def between (previous current : List UInt32) : Edit :=
  let leading := sharedStart previous current
  let trailing := sharedEnd leading previous current
  if leading = previous.length ∧ leading = current.length then
    empty
  else
    { start := .ofNat leading
      deleteCount := .ofNat (previous.length - trailing - leading)
      data := (current.take (current.length - trailing)).drop leading }

theorem sharedStart_le_left (left right : List UInt32) : sharedStart left right ≤ left.length := by
  fun_induction sharedStart left right <;> simp_all

theorem sharedStart_le_right (left right : List UInt32) : sharedStart left right ≤ right.length := by
  fun_induction sharedStart left right <;> simp_all

theorem take_sharedStart (left right : List UInt32) :
    left.take (sharedStart left right) = right.take (sharedStart left right) := by
  fun_induction sharedStart left right <;> simp_all

end SemanticHighlight.Edit
