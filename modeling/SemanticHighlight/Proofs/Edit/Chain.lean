import Mathlib.Data.Nat.PSub
import SemanticHighlight.Proofs.Edit.Between

/-!
# Edits along a sequence of arrays

The edits from each array of a sequence to the next lead from the first to the last, whatever lies
in between; only the last array has to consist of whole tokens.

An edit is worked out from differences of lengths and from a run of the second array. None of the
differences falls below zero, and the run lies within the array.
-/

set_option autoImplicit false

namespace SemanticHighlight.Edit

/-! ## The differences and runs that an edit is made of -/

/-- The words from `start` up to, and without, `stop`: `none` when there is no such run. -/
def slice? (words : List UInt32) (start stop : Nat) : Option (List UInt32) :=
  if start ≤ stop ∧ stop ≤ words.length then some ((words.take stop).drop start) else none

/-- The length of the longest common end: `none` when no end leaves `kept` words in front of it. -/
def checkedSharedEnd? (kept : Nat) (left right : List UInt32) : Option Nat := do
  let room ← (min left.length right.length).psub kept
  return min (sharedStart left.reverse right.reverse) room

/-- The edit between two arrays, told apart by what is left of them behind the common beginning:
`none` when a difference falls below zero or a run leaves the array. -/
def checkedBetween? (previous current : List UInt32) : Option Edit := do
  let leading := sharedStart previous current
  let trailing ← checkedSharedEnd? leading previous current
  if leading < current.length ∧ leading < previous.length then
    let unshared ← previous.length.psub trailing
    let deleted ← unshared.psub leading
    let stop ← current.length.psub trailing
    let inserted ← slice? current leading stop
    return ⟨.ofNat leading, .ofNat deleted, inserted⟩
  else if leading < current.length then
    let inserted ← slice? current leading current.length
    return ⟨.ofNat leading, 0, inserted⟩
  else if leading < previous.length then
    let deleted ← previous.length.psub leading
    return ⟨.ofNat leading, .ofNat deleted, []⟩
  else
    return empty

theorem slice?_of_le {words : List UInt32} {start stop : Nat} (ordered : start ≤ stop)
    (inside : stop ≤ words.length) :
    slice? words start stop = some ((words.take stop).drop start) :=
  if_pos ⟨ordered, inside⟩

theorem checkedSharedEnd?_eq (previous current : List UInt32) :
    let leading := sharedStart previous current
    checkedSharedEnd? leading previous current = some (sharedEnd leading previous current) := by
  intro leading
  have left : leading ≤ previous.length := sharedStart_le_left previous current
  have right : leading ≤ current.length := sharedStart_le_right previous current
  rw [checkedSharedEnd?, Nat.psub_eq_sub (Nat.le_min.mpr ⟨left, right⟩)]
  rfl

theorem checkedBetween?_eq (previous current : List UInt32) :
    checkedBetween? previous current = some (between previous current) := by
  have left := sharedStart_le_left previous current
  have right := sharedStart_le_right previous current
  have apart := sharedStart_add_sharedEnd_le previous current
  have shared := checkedSharedEnd?_eq previous current
  rw [Nat.le_min] at apart
  unfold checkedBetween? between
  generalize sharedStart previous current = leading at left right apart shared ⊢
  dsimp only at shared ⊢
  rw [shared, Option.bind_eq_bind, Option.bind_some]
  generalize sharedEnd leading previous current = trailing at apart ⊢
  by_cases behindCurrent : leading < current.length
  · rw [if_neg (show ¬ (leading = previous.length ∧ leading = current.length) by omega)]
    by_cases behindPrevious : leading < previous.length
    · rw [if_pos ⟨behindCurrent, behindPrevious⟩, Nat.psub_eq_sub (by omega), Option.bind_some,
        Nat.psub_eq_sub (by omega), Option.bind_some, Nat.psub_eq_sub (by omega), Option.bind_some,
        slice?_of_le (by omega) (by omega)]
      rfl
    · have none : trailing = 0 := by omega
      rw [if_neg (behindPrevious ∘ And.right), if_pos behindCurrent, slice?_of_le right (le_refl _),
        none, show previous.length - 0 - leading = 0 by omega]
      rfl
  · have none : trailing = 0 := by omega
    rw [if_neg (behindCurrent ∘ And.left), if_neg behindCurrent]
    by_cases behindPrevious : leading < previous.length
    · rw [if_neg (show ¬ (leading = previous.length ∧ leading = current.length) by omega),
        if_pos behindPrevious, Nat.psub_eq_sub left, none, Nat.sub_zero, Nat.sub_zero,
        List.take_length, List.drop_eq_nil_of_le (by omega)]
      rfl
    · rw [if_pos (show leading = previous.length ∧ leading = current.length by omega),
        if_neg behindPrevious]
      rfl

/-! ## One edit after the other -/

/-- The edits from each array to the next, beginning with `first`. -/
def along (first : List UInt32) : List (List UInt32) → List Edit
  | [] => []
  | next :: later => between first next :: along next later

theorem applyInTurn_along {first : List UInt32} {later : List (List UInt32)}
    (fits : ∀ array ∈ first :: later, array.length < UInt32.size) :
    applyInTurn first (along first later) = .ok (later.getLastD first) := by
  induction later generalizing first with
  | nil => rfl
  | cons next later ih =>
      obtain ⟨firstFits, laterFit⟩ := List.forall_mem_cons.mp fits
      rw [along, applyInTurn_cons, apply_between firstFits next, List.getLastD_cons]
      exact ih laterFit

/-- Made in one go, the edits along a sequence leave its last array when that consists of whole
tokens, and else a fault with its length and the first array. -/
theorem patch_along {first : List UInt32} {later : List (List UInt32)}
    (fits : ∀ array ∈ first :: later, array.length < UInt32.size) :
    let last := later.getLastD first
    (patch (along first later)).run.run first =
        (if last.length % wordsPerToken = 0 then (.ok (), last)
        else (.error (.malformedData last.length), first)) ∧
      ∀ previous current, checkedBetween? previous current = some (between previous current) := by
  intro last
  refine ⟨?_, checkedBetween?_eq⟩
  have made : applyAll first (along first later) =
      checkWholeTokens last >>= fun _ => .ok last := by
    rw [applyAll, applyInTurn_along fits]
    rfl
  rw [run_patch, made, checkWholeTokens]
  by_cases whole : last.length % wordsPerToken = 0
  · rw [if_pos whole, if_pos whole]
    rfl
  · rw [if_neg whole, if_neg whole]
    rfl

/-- Two arrays in between do not consist of whole tokens, and the edits are made all the same. Where
the last array does not, the first one stays. -/
theorem patch_along_misaligned :
    let first : List UInt32 := [0, 0, 3, 1, 0]
    let between : List (List UInt32) := [[0, 0, 3], [0, 0, 3, 3, 3, 1, 0]]
    let whole : List UInt32 := [0, 0, 3, 1, 0, 0, 3, 3, 1, 0]
    (∀ array ∈ first :: (between ++ [whole]), array.length < UInt32.size) ∧
      (patch (along first (between ++ [whole]))).run.run first = (.ok (), whole) ∧
      (∀ array ∈ first :: between, array.length < UInt32.size) ∧
      (patch (along first between)).run.run first = (.error (.malformedData 7), first) := by
  intro first between whole
  have fits : ∀ array ∈ first :: (between ++ [whole]), array.length < UInt32.size := by decide
  have misaligned : ∀ array ∈ first :: between, array.length < UInt32.size := by decide
  exact ⟨fits, (patch_along fits).1.trans (if_pos (by decide)), misaligned,
    (patch_along misaligned).1.trans (if_neg (by decide))⟩

end SemanticHighlight.Edit
