import Mathlib.Data.Nat.Bitwise
import Mathlib.Data.List.Induction
import Mathlib.Data.List.Basic
import SemanticHighlight.Token.Named

/-!
# Names that a legend gives back

A name that is looked up in a legend comes back from its number if the legend lists it. The names
of modifiers come back from a mask in the legend's order and each once, as far as the mask has room.
-/

set_option autoImplicit false

namespace SemanticHighlight.Legend

/-! ## Types -/

/-- The name that stands for a type once it has been through the legend: its own if it is listed,
and else that of the type with number 0. -/
def shownType (legend : Legend) (name : String) : String :=
  if name ≠ "" ∧ ⟨name⟩ ∈ legend.types then name
  else (legend.types.head?.map TokenType.name).getD "unknown"

theorem typeIndex?_eq_none_iff {legend : Legend} {name : String} :
    legend.typeIndex? name = none ↔ ⟨name⟩ ∉ legend.types := by
  simp only [typeIndex?, List.findIdx?_eq_none_iff, beq_eq_false_iff_ne]
  constructor
  · intro apart listed
    exact apart ⟨name⟩ listed rfl
  · rintro unlisted ⟨other⟩ listed rfl
    exact unlisted listed

theorem getElem?_of_typeIndex? {legend : Legend} {name : String} {index : Nat}
    (found : legend.typeIndex? name = some index) : legend.types[index]? = some ⟨name⟩ := by
  obtain ⟨inside, same, _⟩ := List.findIdx?_eq_some_iff_getElem.mp found
  rw [List.getElem?_eq_getElem inside, Option.some.injEq]
  cases stands : legend.types[index] with
  | mk other =>
      rw [stands, beq_iff_eq] at same
      rw [← same]

theorem typeId_of_typeIndex? {legend : Legend} {name : String} {index : Nat} (named : name ≠ "")
    (found : legend.typeIndex? name = some index) : legend.typeId name = .ofNat index := by
  have filled : ¬ name.isEmpty = true := by
    rw [String.isEmpty_iff]
    exact named
  rw [typeId, if_neg filled, found, Option.getD_some]

theorem typeId_of_unlisted {legend : Legend} {name : String}
    (unlisted : ¬ (name ≠ "" ∧ ⟨name⟩ ∈ legend.types)) : legend.typeId name = 0 := by
  unfold typeId
  split
  · rfl
  · rename_i filled
    rw [String.isEmpty_iff] at filled
    have missing : ⟨name⟩ ∉ legend.types := fun listed => unlisted ⟨filled, listed⟩
    rw [typeIndex?_eq_none_iff.mpr missing]
    rfl

theorem typeName?_typeId {legend : Legend} {name : String}
    (few : legend.types.length < UInt32.size) (named : name ≠ "")
    (listed : ⟨name⟩ ∈ legend.types) : legend.typeName? (legend.typeId name) = some name := by
  cases found : legend.typeIndex? name with
  | none => exact absurd listed (typeIndex?_eq_none_iff.mp found)
  | some index =>
      have stands := getElem?_of_typeIndex? found
      obtain ⟨inside, _⟩ := List.getElem?_eq_some_iff.mp stands
      -- The index fits into a word, since there are no more types than words.
      have exact : (UInt32.ofNat index).toNat = index :=
        UInt32.toNat_ofNat_of_lt' (Nat.lt_trans inside few)
      rw [typeId_of_typeIndex? named found, typeName?, exact, stands]
      rfl

theorem typeName?_zero (legend : Legend) :
    legend.typeName? 0 = legend.types.head?.map TokenType.name := by
  rw [typeName?, UInt32.toNat_zero, List.head?_eq_getElem?]

theorem getD_typeName?_typeId {legend : Legend} (few : legend.types.length < UInt32.size)
    (name : String) :
    (legend.typeName? (legend.typeId name)).getD "unknown" = legend.shownType name := by
  unfold shownType
  split
  · rename_i listed
    rw [typeName?_typeId few listed.1 listed.2, Option.getD_some]
  · rename_i unlisted
    rw [typeId_of_unlisted unlisted, typeName?_zero]

/-! ## Bits of a mask -/

theorem shift?_eq {amount : Nat} (fits : amount < maskWidth) : shift? amount = some (bit amount) := by
  simp only [bit, shift?, fits, ↓reduceIte, Option.getD_some]

theorem toNat_bit {place : Nat} (fits : place < maskWidth) : (bit place).toNat = 2 ^ place := by
  have small : place < 32 := fits
  have bound : 2 ^ place < 2 ^ 32 := Nat.pow_lt_pow_right (by decide) small
  rw [bit, shift?, if_pos fits, Option.getD_some, UInt32.toNat_shiftLeft, UInt32.toNat_one,
    UInt32.toNat_ofNat_of_lt' (Nat.lt_trans small (by decide)), Nat.mod_eq_of_lt small,
    Nat.one_shiftLeft, Nat.mod_eq_of_lt bound]

theorem and_bit_eq_zero_iff {mask : UInt32} {place : Nat} (fits : place < maskWidth) :
    mask &&& bit place = 0 ↔ mask.toNat.testBit place = false := by
  rw [← UInt32.toNat_inj, UInt32.toNat_and, toNat_bit fits, Nat.and_two_pow, UInt32.toNat_zero]
  cases mask.toNat.testBit place <;> simp

theorem testBit_bit {place other : Nat} (fits : place < maskWidth) :
    (bit other).toNat.testBit place = true ↔ other = place := by
  by_cases otherFits : other < maskWidth
  · simp only [toNat_bit otherFits, Nat.testBit_two_pow, decide_eq_true_eq]
  · have apart : other ≠ place := by
      rintro rfl
      exact otherFits fits
    simp [bit, shift?, otherFits, apart]

/-! ## Bits of modifiers -/

theorem entryAt?_of_lt {modifier : Modifier} {index : Nat} (inside : index < UInt32.size) :
    entryAt? (modifier, index) = (shift? index).map fun set => (modifier.name, set) := by
  rw [entryAt?, UInt32.toNat_ofNat_of_lt' inside]

theorem lt_size_of_lt_maskWidth {index : Nat} (fits : index < maskWidth) : index < UInt32.size :=
  Nat.lt_trans fits (by decide)

theorem fst_of_mem_entryAt? {modifier : Modifier} {index : Nat} {entry : String × UInt32}
    (made : entryAt? (modifier, index) = some entry) : entry.1 = modifier.name := by
  obtain ⟨_, _, rfl⟩ := Option.map_eq_some_iff.mp made
  rfl

theorem lookup_filterMap_entryAt? {modifiers : List Modifier} {name : String} {start index : Nat}
    (found : modifiers.findIdx? (fun candidate => candidate.name == name) = some index)
    (fits : start + index < maskWidth) :
    ((modifiers.zipIdx start).filterMap entryAt?).lookup name = some (bit (start + index)) := by
  induction modifiers generalizing start index with
  | nil => cases found
  | cons modifier modifiers ih =>
      rw [List.zipIdx_cons, List.filterMap_cons]
      rw [List.findIdx?_cons] at found
      by_cases same : modifier.name = name
      · simp only [same, beq_self_eq_true, ↓reduceIte, Option.some.injEq] at found
        subst found
        simp only [Nat.add_zero] at fits ⊢
        simp only [entryAt?_of_lt (lt_size_of_lt_maskWidth fits), shift?_eq fits, Option.map_some,
          List.lookup_cons, same, beq_self_eq_true]
      · simp only [beq_eq_false_iff_ne.mpr same, Bool.false_eq_true, ↓reduceIte] at found
        obtain ⟨later, foundLater, rfl⟩ := Option.map_eq_some_iff.mp found
        have inside : start + 1 + later < maskWidth := by
          omega
        have rest := ih foundLater inside
        rw [Nat.add_right_comm, Nat.add_assoc] at rest
        cases made : entryAt? (modifier, start) with
        | none => exact rest
        | some entry =>
            have apart : (name == entry.1) = false := by
              rw [fst_of_mem_entryAt? made]
              exact beq_false_of_ne (Ne.symm same)
            obtain ⟨entryName, set⟩ := entry
            simp only [List.lookup_cons, apart]
            exact rest

/-- A modifier whose first place is in the mask has the bit there, whatever stands behind it. -/
theorem modifierBit_of_lt {legend : Legend} {name : String} {index : Nat}
    (found : legend.modifierIndex? name = some index) (fits : index < maskWidth) :
    legend.modifierBit name = bit index := by
  have inside : 0 + index < maskWidth := by
    rwa [Nat.zero_add]
  have entry := lookup_filterMap_entryAt? found inside
  rw [Nat.zero_add] at entry
  rw [modifierBit, modifierEntries, entry, Option.getD_some]

theorem le_of_modifierIndex? {legend : Legend} {name : String} {index first : Nat}
    (stands : legend.modifiers[index]? = some ⟨name⟩)
    (found : legend.modifierIndex? name = some first) : first ≤ index := by
  obtain ⟨_, _, noneBefore⟩ := List.findIdx?_eq_some_iff_getElem.mp found
  obtain ⟨_, here⟩ := List.getElem?_eq_some_iff.mp stands
  apply Nat.not_lt.mp
  intro before
  exact noneBefore index before (by simp only [here, beq_self_eq_true])

theorem exists_modifierIndex? {legend : Legend} {name : String} {index : Nat}
    (stands : legend.modifiers[index]? = some ⟨name⟩) :
    ∃ first, legend.modifierIndex? name = some first := by
  refine ⟨_, List.findIdx?_eq_some_of_exists ⟨⟨name⟩, List.mem_of_getElem? stands, ?_⟩⟩
  exact beq_self_eq_true name

/-- As long as every index is a word of its own, only names with a first place in the mask have a
bit. -/
theorem modifierBit_of_outside {legend : Legend} {name : String}
    (few : legend.modifiers.length ≤ UInt32.size)
    (outside : ∀ index < maskWidth, legend.modifierIndex? name ≠ some index) :
    legend.modifierBit name = 0 := by
  have missing : legend.modifierEntries.lookup name = none := by
    rw [List.lookup_eq_none_iff]
    intro entry member
    obtain ⟨⟨modifier, index⟩, listed, made⟩ := List.mem_filterMap.mp member
    rw [bne_iff_ne]
    intro same
    rw [fst_of_mem_entryAt? made] at same
    subst same
    have stands := List.mk_mem_zipIdx_iff_getElem?.mp listed
    have inside : index < UInt32.size :=
      Nat.lt_of_lt_of_le (List.getElem?_eq_some_iff.mp stands).1 few
    have fits : index < maskWidth := by
      apply Decidable.of_not_not
      intro past
      simp [entryAt?_of_lt inside, shift?, past] at made
    obtain ⟨first, found⟩ := exists_modifierIndex? stands
    exact outside first (Nat.lt_of_le_of_lt (le_of_modifierIndex? stands found) fits) found
  rw [modifierBit, missing, Option.getD_none]

theorem testBit_modifierBit {legend : Legend} (few : legend.modifiers.length ≤ UInt32.size)
    {name : String} {place : Nat} (fits : place < maskWidth) :
    (legend.modifierBit name).toNat.testBit place = true ↔
      legend.modifierIndex? name = some place := by
  by_cases inside : ∃ index < maskWidth, legend.modifierIndex? name = some index
  · obtain ⟨index, indexFits, found⟩ := inside
    rw [modifierBit_of_lt found indexFits, testBit_bit fits, found, Option.some.injEq]
  · simp only [not_exists, not_and] at inside
    simp [modifierBit_of_outside few inside, inside place fits]

theorem testBit_modifierMask {legend : Legend} {names : List String} {place : Nat} :
    (legend.modifierMask names).toNat.testBit place = true ↔
      ∃ name ∈ names, (legend.modifierBit name).toNat.testBit place = true := by
  induction names with
  | nil => simp [modifierMask]
  | cons name names ih =>
      rw [modifierMask_cons, UInt32.toNat_or, Nat.testBit_or, Bool.or_eq_true, ih,
        List.exists_mem_cons_iff]

/-- A bit of a mask is set when one of the names has its first place there. -/
theorem testBit_modifierMask_of_few {legend : Legend}
    (few : legend.modifiers.length ≤ UInt32.size) {names : List String} {place : Nat}
    (fits : place < maskWidth) :
    (legend.modifierMask names).toNat.testBit place = true ↔
      ∃ name ∈ names, legend.modifierIndex? name = some place := by
  simp only [testBit_modifierMask, testBit_modifierBit few fits]

/-! ## Modifiers -/

theorem lt_maskWidth_of_mem_zipIdx {α : Type} {items : List α} {item : α} {index : Nat}
    (member : (item, index) ∈ (items.take maskWidth).zipIdx) : index < maskWidth := by
  have inside := List.snd_lt_of_mem_zipIdx member
  simp only [List.length_take] at inside
  exact Nat.lt_of_lt_of_le inside (Nat.min_le_left ..)

/-- The names that a mask has room for, each at its first place. -/
def maskedNames (legend : Legend) : List String :=
  ((legend.modifiers.take maskWidth).map Modifier.name).eraseDups

/-- The modifiers that come back when these names have been through the legend. -/
def shownModifiers (legend : Legend) (names : List String) : List String :=
  legend.maskedNames.filter (· ∈ names)

/-- The names that stand in a list for the first time. -/
def firstNames (names : List String) : List String :=
  names.zipIdx.filterMap fun entry =>
    if names.findIdx? (· == entry.1) = some entry.2 then some entry.1 else none

theorem findIdx?_append_of_mem {names later : List String} {name : String}
    (present : name ∈ names) :
    (names ++ later).findIdx? (· == name) = names.findIdx? (· == name) := by
  rw [List.findIdx?_append]
  cases found : names.findIdx? (· == name) with
  | some index => rfl
  | none =>
      have apart := List.findIdx?_eq_none_iff.mp found name present
      rw [beq_self_eq_true] at apart
      cases apart

theorem findIdx?_concat_self_iff {names : List String} {last : String} :
    (names ++ [last]).findIdx? (· == last) = some names.length ↔ last ∉ names := by
  constructor
  · intro found present
    rw [findIdx?_append_of_mem present] at found
    obtain ⟨inside, _⟩ := List.findIdx?_eq_some_iff_getElem.mp found
    exact Nat.lt_irrefl _ inside
  · intro absent
    have missing : names.findIdx? (· == last) = none := by
      rw [List.findIdx?_eq_none_iff]
      rintro name present
      rw [beq_eq_false_iff_ne]
      rintro rfl
      exact absent present
    rw [List.findIdx?_append, missing, List.findIdx?_singleton, beq_self_eq_true, if_pos rfl,
      Option.none_or, Option.map_some, Nat.zero_add]

theorem firstNames_concat (names : List String) (last : String) :
    firstNames (names ++ [last]) = firstNames names ++ if last ∈ names then [] else [last] := by
  have front : (names.zipIdx.filterMap fun entry =>
      if (names ++ [last]).findIdx? (· == entry.1) = some entry.2 then some entry.1 else none) =
        firstNames names := by
    apply List.filterMap_congr
    rintro ⟨name, index⟩ member
    have present : name ∈ names := List.fst_mem_of_mem_zipIdx member
    simp only [findIdx?_append_of_mem present]
  rw [firstNames, List.zipIdx_append, List.filterMap_append, front, List.zipIdx_singleton,
    Nat.zero_add]
  by_cases present : last ∈ names
  · simp only [List.filterMap_cons, findIdx?_concat_self_iff, present, not_true_eq_false,
      ↓reduceIte, List.filterMap_nil]
  · simp only [List.filterMap_cons, findIdx?_concat_self_iff, present, not_false_eq_true,
      ↓reduceIte, List.filterMap_nil]

theorem firstNames_eq_eraseDups (names : List String) : firstNames names = names.eraseDups := by
  induction names using List.reverseRecOn with
  | nil => rfl
  | append_singleton names last ih =>
      rw [firstNames_concat, ih, List.eraseDups_append]
      by_cases present : last ∈ names
      · simp [List.removeAll, present]
      · simp [List.removeAll, present, List.eraseDups_cons]

/-- A name has its first place within a mask's reach just where it has it among the names there. -/
theorem modifierIndex?_eq_some_iff {legend : Legend} {name : String} {index : Nat}
    (fits : index < maskWidth) :
    legend.modifierIndex? name = some index ↔
      ((legend.modifiers.take maskWidth).map Modifier.name).findIdx? (· == name) = some index := by
  rw [List.findIdx?_map, List.findIdx?_take, modifierIndex?]
  change _ ↔ (legend.modifiers.findIdx? fun candidate => candidate.name == name).bind _ = _
  cases legend.modifiers.findIdx? fun candidate => candidate.name == name with
  | none => simp
  | some other =>
      simp only [Option.bind_some, Option.guard, decide_eq_true_eq, Option.some.injEq]
      constructor
      · rintro rfl
        rw [if_pos fits]
      · intro found
        split at found
        · exact Option.some.inj found
        · cases found

theorem name_eq_of_modifierIndex? {legend : Legend} {modifier : Modifier} {name : String}
    {index : Nat} (found : legend.modifierIndex? name = some index)
    (stands : legend.modifiers[index]? = some modifier) : modifier.name = name := by
  obtain ⟨inside, same, _⟩ := List.findIdx?_eq_some_iff_getElem.mp found
  rw [List.getElem?_eq_getElem inside, Option.some.injEq] at stands
  rw [stands, beq_iff_eq] at same
  exact same

/-- Names that are looked up for a mask come back from it once each and in the legend's order. -/
theorem modifierNames_modifierMask {legend : Legend}
    (few : legend.modifiers.length ≤ UInt32.size) (names : List String) :
    legend.modifierNames (legend.modifierMask names) = legend.shownModifiers names := by
  unfold shownModifiers maskedNames modifierNames
  rw [← firstNames_eq_eraseDups, firstNames, List.filter_filterMap, List.zipIdx_map,
    List.filterMap_map]
  apply List.filterMap_congr
  rintro ⟨modifier, index⟩ member
  have stands := List.mk_mem_zipIdx_iff_getElem?.mp member
  have fits := lt_maskWidth_of_mem_zipIdx member
  -- The bit here is set by no other name than the one that stands here.
  have unset : legend.modifierMask names &&& bit index = 0 ↔
      ¬ (legend.modifierIndex? modifier.name = some index ∧ modifier.name ∈ names) := by
    rw [and_bit_eq_zero_iff fits, ← Bool.not_eq_true, testBit_modifierMask_of_few few fits,
      not_iff_not]
    constructor
    · rintro ⟨name, given, found⟩
      rw [List.getElem?_take_of_lt fits] at stands
      rw [name_eq_of_modifierIndex? found stands]
      exact ⟨found, given⟩
    · rintro ⟨found, given⟩
      exact ⟨modifier.name, given, found⟩
  simp only [Function.comp_apply, Prod.map_apply, id_eq, unset, ← modifierIndex?_eq_some_iff fits]
  by_cases first : legend.modifierIndex? modifier.name = some index
  · by_cases given : modifier.name ∈ names <;> simp [first, given, Option.filter]
  · simp [first]

/-! ## More modifiers than a mask has room for -/

/-- A legend whose last modifier has a name of its own, and all those in front of it another. -/
def crowded (count : Nat) : Legend :=
  ofNames [] (List.replicate count "static" ++ ["async"])

theorem modifiers_crowded (count : Nat) :
    (crowded count).modifiers = List.replicate count ⟨"static"⟩ ++ [⟨"async"⟩] := by
  simp only [crowded, ofNames, List.map_append, List.map_replicate, List.map_singleton]

theorem take_modifiers_crowded {count : Nat} (full : maskWidth ≤ count) :
    (crowded count).modifiers.take maskWidth = List.replicate maskWidth ⟨"static"⟩ := by
  rw [modifiers_crowded, List.take_append_of_le_length (by simpa only [List.length_replicate]),
    List.take_replicate, Nat.min_eq_left full]

/-- The last modifier gets the bit for its index as a word, wherever it stands. -/
theorem modifierMask_crowded (count : Nat) :
    (crowded count).modifierMask ["async"] = (shift? (UInt32.ofNat count).toNat).getD 0 := by
  have front : (((List.replicate count (Modifier.mk "static")).zipIdx).filterMap entryAt?).lookup
      "async" = none := by
    rw [List.lookup_eq_none_iff]
    intro entry member
    obtain ⟨⟨modifier, index⟩, listed, made⟩ := List.mem_filterMap.mp member
    have common : modifier = ⟨"static"⟩ :=
      List.eq_of_mem_replicate (List.fst_mem_of_mem_zipIdx listed)
    rw [fst_of_mem_entryAt? made, common]
    decide
  rw [modifierMask, List.foldl_cons, List.foldl_nil, UInt32.zero_or, modifierBit, modifierEntries,
    modifiers_crowded, List.zipIdx_append, List.filterMap_append, List.lookup_append, front,
    List.length_replicate, Nat.zero_add, Option.none_or, List.zipIdx_singleton,
    List.filterMap_cons, entryAt?]
  cases shift? (UInt32.ofNat count).toNat with
  | none => rfl
  | some set => rfl

/-- Behind as many modifiers as there are words, the last one gets the bit of the first. -/
theorem modifierNames_modifierMask_crowded :
    (crowded UInt32.size).modifierNames ((crowded UInt32.size).modifierMask ["async"]) =
      ["static"] := by
  rw [modifierMask_crowded, modifierNames, take_modifiers_crowded (by decide)]
  decide

theorem shownModifiers_crowded {count : Nat} (full : maskWidth ≤ count) :
    (crowded count).shownModifiers ["async"] = [] := by
  rw [shownModifiers, maskedNames, take_modifiers_crowded full]
  decide

end SemanticHighlight.Legend
