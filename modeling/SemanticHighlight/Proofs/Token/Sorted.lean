import SemanticHighlight.Proofs.Token.RoundTrip

/-!
# Sorting before writing

Tokens are sorted by all their fields, the position first. No two different tokens stand equal in
that order, so a list has one sorted form, and lists with the same tokens have the same. A sorted
list is in order by position, hence it is read back from its writing. The writing of the sorted form
therefore stands for the tokens of a list whatever their order.
-/

set_option autoImplicit false

namespace SemanticHighlight.Token

/-! ## The order of tokens -/

section Order

variable {left middle right : Token}

theorem compare_eq (left right : Token) :
    compare left right =
      (compare left.line right.line).then ((compare left.start right.start).then
        ((compare left.length right.length).then ((compare left.typeId right.typeId).then
          (compare left.modifiers right.modifiers)))) :=
  rfl

/-- The first field that differs decides. -/
theorem precedes_iff :
    left.precedes right = true ↔
      left.line < right.line ∨ left.line = right.line ∧
        (left.start < right.start ∨ left.start = right.start ∧
          (left.length < right.length ∨ left.length = right.length ∧
            (left.typeId < right.typeId ∨ left.typeId = right.typeId ∧
              left.modifiers ≤ right.modifiers))) := by
  simp only [precedes, compare_eq, Ordering.isLE_then_iff_or, Std.compare_eq_lt,
    Std.compare_eq_iff_eq, Std.isLE_compare]

theorem precedes_trans (first : left.precedes middle = true)
    (second : middle.precedes right = true) : left.precedes right = true := by
  simp only [precedes_iff, UInt32.lt_iff_toNat_lt, UInt32.le_iff_toNat_le, ← UInt32.toNat_inj]
    at first second ⊢
  omega

theorem precedes_total (left right : Token) :
    (left.precedes right || right.precedes left) = true := by
  simp only [Bool.or_eq_true, precedes_iff, UInt32.lt_iff_toNat_lt, UInt32.le_iff_toNat_le,
    ← UInt32.toNat_inj]
  omega

theorem precedes_antisymm (forward : left.precedes right = true)
    (backward : right.precedes left = true) : left = right := by
  cases left
  cases right
  simp only [precedes_iff, UInt32.lt_iff_toNat_lt, UInt32.le_iff_toNat_le, ← UInt32.toNat_inj,
    Token.mk.injEq] at forward backward ⊢
  omega

theorem position_le_of_precedes (first : left.precedes right = true) :
    left.position ≤ right.position := by
  simp only [precedes_iff, position, Position.le_iff, UInt32.lt_iff_toNat_lt,
    UInt32.le_iff_toNat_le, ← UInt32.toNat_inj] at first ⊢
  omega

end Order

/-! ## Sorted lists -/

/-- Every token precedes those behind it. -/
def Sorted (tokens : List Token) : Prop :=
  tokens.Pairwise fun earlier later => earlier.precedes later = true

instance (tokens : List Token) : Decidable (Sorted tokens) :=
  inferInstanceAs (Decidable (tokens.Pairwise fun earlier later => earlier.precedes later = true))

variable {tokens others : List Token}

theorem sorted_sort (tokens : List Token) : Sorted (sort tokens) := by
  apply List.pairwise_mergeSort
  · intro left middle right
    exact precedes_trans
  · exact precedes_total

theorem sort_perm (tokens : List Token) : (sort tokens).Perm tokens :=
  List.mergeSort_perm tokens precedes

theorem Sorted.inOrder (sorted : Sorted tokens) : InOrder tokens :=
  sorted.imp position_le_of_precedes

theorem Sorted.eq_of_perm (sorted : Sorted tokens) (otherSorted : Sorted others)
    (same : tokens.Perm others) : tokens = others :=
  same.eq_of_pairwise (fun _ _ _ _ => precedes_antisymm) sorted otherSorted

theorem sort_eq_iff : sort tokens = sort others ↔ tokens.Perm others := by
  constructor
  · intro same
    exact (sort_perm tokens).symm.trans (same ▸ sort_perm others)
  · intro same
    apply (sorted_sort tokens).eq_of_perm (sorted_sort others)
    exact (sort_perm tokens).trans (same.trans (sort_perm others).symm)

theorem encode_inj (ordered : InOrder tokens) (otherOrdered : InOrder others) :
    encode tokens = encode others ↔ tokens = others := by
  constructor
  · intro same
    have read := decode_encode ordered
    rw [same, decode_encode otherOrdered] at read
    exact (Except.ok.inj read).symm
  · exact congrArg encode

/-- The sorted form of a list has the tokens of the list, each as often, and is the only sorted
list that has. It is read back from its writing, and two lists have the same such writing just when
they have the same tokens, each as often. -/
theorem encode_sort_canonical (tokens : List Token) :
    (sort tokens).Perm tokens ∧ Sorted (sort tokens) ∧
      (∀ sorted, Sorted sorted → sorted.Perm tokens → sorted = sort tokens) ∧
      decode (encode (sort tokens)) = .ok (sort tokens) ∧
      ∀ others, encode (sort tokens) = encode (sort others) ↔ tokens.Perm others := by
  refine ⟨sort_perm tokens, sorted_sort tokens, ?_, ?_, ?_⟩
  · intro sorted isSorted same
    exact isSorted.eq_of_perm (sorted_sort tokens) (same.trans (sort_perm tokens).symm)
  · exact decode_encode (sorted_sort tokens).inOrder
  · intro others
    rw [encode_inj (sorted_sort tokens).inOrder (sorted_sort others).inOrder, sort_eq_iff]

/-- Two tokens are the same and a third differs from them in its modifiers only. -/
theorem encode_sort_canonical_tied :
    let tokens : List Token := [⟨1, 0, 2, 4, 3⟩, ⟨0, 7, 9, 9, 9⟩, ⟨1, 0, 2, 4, 1⟩, ⟨1, 0, 2, 4, 3⟩]
    let sorted : List Token := [⟨0, 7, 9, 9, 9⟩, ⟨1, 0, 2, 4, 1⟩, ⟨1, 0, 2, 4, 3⟩, ⟨1, 0, 2, 4, 3⟩]
    Sorted sorted ∧ sorted.Perm tokens ∧ sorted = sort tokens ∧
      encode (sort tokens) = encode (sort sorted) ∧
      encode (sort tokens) ≠ encode (sort sorted.eraseDups) := by
  intro tokens sorted
  have isSorted : Sorted sorted := by decide
  have same : sorted.Perm tokens := by decide
  obtain ⟨_, _, unique, _, iff⟩ := encode_sort_canonical tokens
  refine ⟨isSorted, same, unique sorted isSorted same, (iff sorted).mpr same.symm, ?_⟩
  intro written
  exact absurd ((iff sorted.eraseDups).mp written) (by decide)

end SemanticHighlight.Token
