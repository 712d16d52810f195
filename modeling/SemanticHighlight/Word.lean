/-!
# Sums and differences of 32-bit words

Columns and lines are 32-bit words. A sum that leaves the words is either refused or held at the
greatest word, and a difference below zero is refused.
-/

set_option autoImplicit false

namespace SemanticHighlight.Word

/-- Holds both words together: `none` when the sum is no word. -/
def sum? (left right : UInt32) : Option UInt32 :=
  if left.toNat + right.toNat < UInt32.size then some (left + right) else none

/-- Takes the second word from the first: `none` when the second is the greater. -/
def difference? (left right : UInt32) : Option UInt32 :=
  if right ≤ left then some (left - right) else none

/-- Holds both words together, or gives the greatest word when the sum is no word. -/
def saturatedSum (left right : UInt32) : UInt32 :=
  (sum? left right).getD 4294967295

theorem sum?_eq_some_iff {left right sum : UInt32} :
    sum? left right = some sum ↔ left.toNat + right.toNat = sum.toNat := by
  have bound := sum.toNat_lt
  unfold sum?
  split
  · rename_i fits
    have exact : (left + right).toNat = left.toNat + right.toNat := by
      rw [UInt32.toNat_add]; exact Nat.mod_eq_of_lt fits
    rw [Option.some.injEq, ← UInt32.toNat_inj, exact]
  · rename_i overflow
    simp only [UInt32.size] at overflow
    constructor
    · intro impossible; cases impossible
    · intro equal; omega

theorem sum?_eq_none_iff {left right : UInt32} :
    sum? left right = none ↔ UInt32.size ≤ left.toNat + right.toNat := by
  unfold sum?
  split <;> simp_all

theorem eq_add_of_sum? {left right sum : UInt32} (fits : sum? left right = some sum) :
    sum = left + right := by
  unfold sum? at fits
  split at fits
  · exact (Option.some.inj fits).symm
  · cases fits

theorem eq_sub_of_difference? {left right difference : UInt32}
    (fits : difference? left right = some difference) : difference = left - right := by
  unfold difference? at fits
  split at fits
  · exact (Option.some.inj fits).symm
  · cases fits

theorem sum?_sub (left right : UInt32) :
    sum? left (right - left) = if left ≤ right then some right else none := by
  have leftBound := left.toNat_lt
  have rightBound := right.toNat_lt
  have difference := UInt32.toNat_sub right left
  split
  · rename_i ordered
    rw [UInt32.le_iff_toNat_le] at ordered
    rw [sum?_eq_some_iff]
    omega
  · rename_i reversed
    rw [UInt32.le_iff_toNat_le] at reversed
    rw [sum?_eq_none_iff, UInt32.size]
    omega

theorem eq_sub_of_sum? {left right sum : UInt32} (fits : sum? left right = some sum) :
    left ≤ sum ∧ right = sum - left := by
  rw [sum?_eq_some_iff] at fits
  have ordered : left ≤ sum := by
    rw [UInt32.le_iff_toNat_le]
    omega
  refine ⟨ordered, ?_⟩
  rw [← UInt32.toNat_inj, UInt32.toNat_sub_of_le sum left ordered]
  omega

theorem toNat_max (left right : UInt32) :
    (max left right).toNat = max left.toNat right.toNat := by
  change (if left ≤ right then right else left).toNat = _
  split <;> rename_i order <;> rw [UInt32.le_iff_toNat_le] at order <;> omega

theorem toNat_min (left right : UInt32) :
    (min left right).toNat = min left.toNat right.toNat := by
  change (if left ≤ right then left else right).toNat = _
  split <;> rename_i order <;> rw [UInt32.le_iff_toNat_le] at order <;> omega

theorem toNat_saturatedSum (left right : UInt32) :
    (saturatedSum left right).toNat = min (left.toNat + right.toNat) 4294967295 := by
  unfold saturatedSum
  cases result : sum? left right with
  | none =>
      rw [sum?_eq_none_iff] at result
      simp only [UInt32.size] at result
      simp only [Option.getD_none, UInt32.reduceToNat]
      omega
  | some sum =>
      rw [sum?_eq_some_iff] at result
      have bound := sum.toNat_lt
      simp only [Option.getD_some]
      omega

end SemanticHighlight.Word
