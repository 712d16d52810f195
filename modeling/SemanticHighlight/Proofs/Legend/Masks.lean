import Mathlib.Data.List.Nodup
import SemanticHighlight.Proofs.Legend.Names
import SemanticHighlight.Proofs.Legend.Tables

/-!
# Masks and the names behind their bits

A set bit stands for the name at its index, and a name for the bit of its first index. Going from a
mask to names and back therefore moves each bit to the first index of its name, and going from names
to a mask and back gives the names at first indices, as long as every index is a word of its own.
Two masks are the same when they have the same bits, so every statement here comes down to one about
a single bit.
-/

set_option autoImplicit false

namespace SemanticHighlight.Legend

/-! ## Words made of bits -/

/-- The word with the bits of the given indices. -/
def maskOf (indices : List Nat) : UInt32 :=
  indices.foldr (fun index mask => bit index ||| mask) 0

/-- The indices of the bits that are set, below a bound. -/
def setBits (mask : UInt32) (bound : Nat) : List Nat :=
  (List.range bound).filter mask.toNat.testBit

theorem testBit_maskOf {indices : List Nat} {index : Nat} (fits : index < maskWidth) :
    (maskOf indices).toNat.testBit index = true ↔ index ∈ indices := by
  induction indices with
  | nil => simp [maskOf]
  | cons first indices ih =>
      simp only [maskOf, List.foldr_cons, UInt32.toNat_or, Nat.testBit_or, Bool.or_eq_true,
        testBit_bit fits, List.mem_cons, @eq_comm _ index]
      exact or_congr_right ih

theorem testBit_eq_false_of_le (mask : UInt32) {index : Nat} (past : maskWidth ≤ index) :
    mask.toNat.testBit index = false :=
  Nat.testBit_lt_two_pow (Nat.lt_of_lt_of_le mask.toNat_lt (Nat.pow_le_pow_right (by decide) past))

theorem eq_of_testBit_iff {left right : UInt32}
    (same : ∀ index < maskWidth,
      left.toNat.testBit index = true ↔ right.toNat.testBit index = true) : left = right := by
  apply UInt32.toNat_inj.mp
  apply Nat.eq_of_testBit_eq
  intro index
  by_cases fits : index < maskWidth
  · exact Bool.eq_iff_iff.mpr (same index fits)
  · have past := Nat.not_lt.mp fits
    exact (testBit_eq_false_of_le left past).trans (testBit_eq_false_of_le right past).symm

theorem toNat_maskOf_setBits (mask : UInt32) {bound : Nat} (room : bound ≤ maskWidth) :
    (maskOf (setBits mask bound)).toNat = mask.toNat % 2 ^ bound := by
  apply Nat.eq_of_testBit_eq
  intro index
  rw [Nat.testBit_mod_two_pow, Bool.eq_iff_iff]
  by_cases fits : index < maskWidth
  · simp only [testBit_maskOf fits, setBits, List.mem_filter, List.mem_range, Bool.and_eq_true,
      decide_eq_true_eq]
  · have past : ¬ index < bound := by omega
    simp [testBit_eq_false_of_le _ (Nat.not_lt.mp fits), past]

/-! ## Names at their indices -/

def modifierName? (legend : Legend) (index : Nat) : Option String :=
  legend.modifiers[index]?.map Modifier.name

/-- How many of the modifiers have a bit. -/
def room (legend : Legend) : Nat :=
  min maskWidth legend.modifiers.length

/-- The first index of the name that stands at `index`. -/
def firstIndex (legend : Legend) (index : Nat) : Nat :=
  legend.modifiers.findIdx fun candidate => legend.modifiers[index]? = some candidate

/-- The indices with a bit at which a name stands for the first time. -/
def firstIndices (legend : Legend) : List Nat :=
  (List.range legend.room).filter fun index => legend.firstIndex index = index

theorem modifierName?_eq_some_iff {legend : Legend} {index : Nat} {name : String} :
    legend.modifierName? index = some name ↔ legend.modifiers[index]? = some ⟨name⟩ := by
  simp only [modifierName?, Option.map_eq_some_iff]
  constructor
  · rintro ⟨⟨_⟩, stands, rfl⟩
    exact stands
  · intro stands
    exact ⟨_, stands, rfl⟩

theorem exists_modifierName? {legend : Legend} {index : Nat} (inside : index < legend.room) :
    ∃ name, legend.modifierName? index = some name := by
  have listed : index < legend.modifiers.length := Nat.lt_of_lt_of_le inside (Nat.min_le_right ..)
  exact ⟨_, by rw [modifierName?, List.getElem?_eq_getElem listed, Option.map_some]⟩

theorem modifierIndex?_eq_firstIndex {legend : Legend} {index : Nat} {name : String}
    (stands : legend.modifierName? index = some name) :
    legend.modifierIndex? name = some (legend.firstIndex index) := by
  have found := modifierName?_eq_some_iff.mp stands
  have sameTest : (fun candidate : Modifier => candidate.name == name) =
      fun candidate => legend.modifiers[index]? = some candidate := by
    funext ⟨candidate⟩
    simp only [found, Option.some.injEq, Modifier.mk.injEq]
    exact BEq.comm
  rw [modifierIndex?, firstIndex, sameTest, List.findIdx?_eq_some_iff_findIdx_eq]
  refine ⟨List.findIdx_lt_length_of_exists ⟨⟨name⟩, List.mem_of_getElem? found, ?_⟩, rfl⟩
  simp [found]

theorem filterMap_zipIdx {α β : Type} (items : List α) (pick : α × Nat → Option β) :
    items.zipIdx.filterMap pick =
      (List.range items.length).filterMap fun index =>
        items[index]?.bind fun item => pick (item, index) := by
  induction items using List.reverseRecOn with
  | nil => rfl
  | append_singleton items last ih =>
      have front : ((List.range items.length).filterMap fun index =>
          (items ++ [last])[index]?.bind fun item => pick (item, index)) =
            (List.range items.length).filterMap fun index =>
              items[index]?.bind fun item => pick (item, index) := by
        apply List.filterMap_congr
        intro index member
        rw [List.getElem?_append_left (List.mem_range.mp member)]
      rw [List.zipIdx_append, List.filterMap_append, ih, List.length_append, List.length_singleton,
        List.range_succ, List.filterMap_append, front]
      simp only [List.zipIdx_singleton, Nat.zero_add, List.filterMap_cons, List.filterMap_nil,
        List.getElem?_concat_length, Option.bind_some]

/-- The names behind a mask are those at the bits that are set. -/
theorem modifierNames_eq (legend : Legend) (mask : UInt32) :
    legend.modifierNames mask = (setBits mask legend.room).filterMap legend.modifierName? := by
  rw [modifierNames, filterMap_zipIdx, setBits, List.filterMap_filter, List.length_take, room]
  apply List.filterMap_congr
  intro index member
  have inside := List.mem_range.mp member
  have fits : index < maskWidth := Nat.lt_of_lt_of_le inside (Nat.min_le_left ..)
  rw [List.getElem?_take_of_lt fits, modifierName?]
  cases legend.modifiers[index]? with
  | none => simp
  | some modifier =>
      simp only [Option.bind_some, Option.map_some, and_bit_eq_zero_iff fits]
      cases mask.toNat.testBit index <;> rfl

theorem mem_modifierNames_iff {legend : Legend} {mask : UInt32} {name : String} :
    name ∈ legend.modifierNames mask ↔
      ∃ index ∈ setBits mask legend.room, legend.modifierName? index = some name := by
  simp only [modifierNames_eq, List.mem_filterMap]

/-! ## From a mask to names and back -/

theorem firstIndex_le {legend : Legend} {index : Nat} (inside : index < legend.room) :
    legend.firstIndex index ≤ index := by
  obtain ⟨name, stands⟩ := exists_modifierName? inside
  exact le_of_modifierIndex? (modifierName?_eq_some_iff.mp stands)
    (modifierIndex?_eq_firstIndex stands)

/-- Names that stand in the mask have the bit of their first index, whatever stands behind them. -/
theorem modifierBit_eq_bit_firstIndex {legend : Legend} {index : Nat} {name : String}
    (inside : index < legend.room) (stands : legend.modifierName? index = some name) :
    legend.modifierBit name = bit (legend.firstIndex index) := by
  apply modifierBit_of_lt (modifierIndex?_eq_firstIndex stands)
  calc legend.firstIndex index ≤ index := firstIndex_le inside
    _ < maskWidth := Nat.lt_of_lt_of_le inside (Nat.min_le_left ..)

theorem modifierMask_modifierNames (legend : Legend) (mask : UInt32) :
    legend.modifierMask (legend.modifierNames mask) =
      maskOf ((setBits mask legend.room).map legend.firstIndex) := by
  apply eq_of_testBit_iff
  intro index fits
  simp only [testBit_modifierMask, testBit_maskOf fits, mem_modifierNames_iff, List.mem_map]
  constructor
  · rintro ⟨name, ⟨other, set, stands⟩, found⟩
    have inside := List.mem_range.mp (List.mem_filter.mp set).1
    rw [modifierBit_eq_bit_firstIndex inside stands, testBit_bit fits] at found
    exact ⟨other, set, found⟩
  · rintro ⟨other, set, rfl⟩
    have inside := List.mem_range.mp (List.mem_filter.mp set).1
    obtain ⟨name, stands⟩ := exists_modifierName? inside
    refine ⟨name, ⟨other, set, stands⟩, ?_⟩
    rw [modifierBit_eq_bit_firstIndex inside stands, testBit_bit fits]

theorem firstIndex_of_nodup {legend : Legend} (distinct : legend.modifiers.Nodup) {index : Nat}
    (inside : index < legend.modifiers.length) : legend.firstIndex index = index := by
  rw [firstIndex, List.findIdx_eq inside]
  constructor
  · simp
  · intro earlier before
    simp [List.getElem?_eq_getElem inside, List.Nodup.getElem_inj_iff distinct,
      Nat.ne_of_gt before]

theorem toNat_modifierMask_modifierNames {legend : Legend} (distinct : legend.modifiers.Nodup)
    (mask : UInt32) :
    (legend.modifierMask (legend.modifierNames mask)).toNat = mask.toNat % 2 ^ legend.room := by
  have still : (setBits mask legend.room).map legend.firstIndex = setBits mask legend.room := by
    refine (List.map_congr_left ?_).trans (List.map_id _)
    intro index set
    apply firstIndex_of_nodup distinct
    exact Nat.lt_of_lt_of_le (List.mem_range.mp (List.mem_filter.mp set).1) (Nat.min_le_right ..)
  simp only [modifierMask_modifierNames, still]
  exact toNat_maskOf_setBits mask (Nat.min_le_left ..)

/-! ## From names to a mask and back -/

section Few

variable {legend : Legend} (few : legend.modifiers.length ≤ UInt32.size)

include few

theorem testBit_modifierMask_iff {names : List String} {index : Nat} {name : String}
    (fits : index < maskWidth) (stands : legend.modifierName? index = some name) :
    (legend.modifierMask names).toNat.testBit index = true ↔
      legend.firstIndex index = index ∧ name ∈ names := by
  rw [testBit_modifierMask_of_few few fits]
  constructor
  · rintro ⟨given, member, found⟩
    have same : name = given :=
      name_eq_of_modifierIndex? found (modifierName?_eq_some_iff.mp stands)
    subst same
    simp only [modifierIndex?_eq_firstIndex stands, Option.some.injEq] at found
    exact ⟨found, member⟩
  · rintro ⟨first, member⟩
    exact ⟨name, member, (modifierIndex?_eq_firstIndex stands).trans (congrArg some first)⟩

theorem modifierNames_modifierMask_eq (names : List String) :
    legend.modifierNames (legend.modifierMask names) =
      (legend.firstIndices.filterMap legend.modifierName?).filter (· ∈ names) := by
  rw [modifierNames_eq, setBits, firstIndices, List.filterMap_filter, List.filterMap_filter,
    List.filter_filterMap]
  apply List.filterMap_congr
  intro index member
  have inside := List.mem_range.mp member
  obtain ⟨name, stands⟩ := exists_modifierName? inside
  have placed := Nat.lt_of_lt_of_le inside (Nat.min_le_left ..)
  have set : (legend.modifierMask names).toNat.testBit index = true ↔
      legend.firstIndex index = index ∧ name ∈ names :=
    testBit_modifierMask_iff few placed stands
  simp only [set, stands, decide_eq_true_eq]
  by_cases first : legend.firstIndex index = index <;> by_cases given : name ∈ names <;>
    simp [first, given, Option.filter]

theorem nodup_modifierNames_modifierMask (names : List String) :
    (legend.modifierNames (legend.modifierMask names)).Nodup := by
  rw [modifierNames_modifierMask_eq few]
  apply List.Nodup.filter
  rw [firstIndices, List.Nodup, List.pairwise_filterMap, List.pairwise_filter]
  apply List.nodup_range.imp
  -- One name at two indices has one first index, so only one of them is a first index itself.
  rintro index other apart first otherFirst name stands _ otherStands rfl
  have same := (modifierIndex?_eq_firstIndex stands).symm.trans
    (modifierIndex?_eq_firstIndex otherStands)
  simp only [decide_eq_true_eq] at first otherFirst
  simp only [first, otherFirst, Option.some.injEq] at same
  exact apart same

end Few

theorem modifierMask_congr {legend : Legend} {names others : List String}
    (same : ∀ name, name ∈ names ↔ name ∈ others) :
    legend.modifierMask names = legend.modifierMask others := by
  apply eq_of_testBit_iff
  intro index fits
  simp only [testBit_modifierMask, same]

/-! ## Shifts -/

/-- The names behind the bits of a mask: `none` when a shift on the way is too wide. -/
def checkedModifierNames? (legend : Legend) (mask : UInt32) : Option (List String) :=
  (legend.modifiers.take maskWidth).zipIdx.filterMapM fun (modifier, index) => do
    let set ← shift? index
    return if mask &&& set = 0 then none else some modifier.name

theorem filterMapM_eq_some {α β : Type} {pick : α → Option (Option β)} {sure : α → Option β}
    {items : List α} (picks : ∀ item ∈ items, pick item = some (sure item)) :
    items.filterMapM pick = some (items.filterMap sure) := by
  induction items with
  | nil => rfl
  | cons item items ih =>
      obtain ⟨first, later⟩ := List.forall_mem_cons.mp picks
      simp only [List.filterMapM_cons, first, ih later]
      cases chosen : sure item <;> simp [chosen]

theorem checkedModifierNames?_eq (legend : Legend) (mask : UInt32) :
    legend.checkedModifierNames? mask = some (legend.modifierNames mask) := by
  apply filterMapM_eq_some
  rintro ⟨modifier, index⟩ member
  simp only [shift?_eq (lt_maskWidth_of_mem_zipIdx member)]
  rfl

/-! ## Masks and names -/

/-- A mask and the names behind it determine each other up to names that stand more than once and
names past the last bit. The tables answer as the lists do, and no shift is too wide. Names come
back from a mask as long as there are no more modifiers than words. -/
theorem masks_read_back (legend : Legend) :
    (∀ mask, legend.modifierMask (legend.modifierNames mask) =
      maskOf ((setBits mask legend.room).map legend.firstIndex)) ∧
    (legend.modifiers.Nodup → ∀ mask,
      (legend.modifierMask (legend.modifierNames mask)).toNat = mask.toNat % 2 ^ legend.room) ∧
    (legend.modifiers.length ≤ UInt32.size → ∀ names,
      legend.modifierNames (legend.modifierMask names) =
          (legend.firstIndices.filterMap legend.modifierName?).filter (· ∈ names) ∧
        (legend.modifierNames (legend.modifierMask names)).Nodup) ∧
    (∀ names others, (∀ name, name ∈ names ↔ name ∈ others) →
      legend.modifierMask names = legend.modifierMask others) ∧
    (∀ first second, legend.modifierMask (first ++ second) =
      legend.modifierMask first ||| legend.modifierMask second) ∧
    (∀ mask, legend.checkedModifierNames? mask = some (legend.modifierNames mask)) ∧
    (∀ names, legend.indexed.modifierMask names = legend.modifierMask names) := by
  refine ⟨modifierMask_modifierNames legend, toNat_modifierMask_modifierNames, ?_, ?_,
    modifierMask_append legend, checkedModifierNames?_eq legend,
    IndexedLegend.modifierMask_indexed legend⟩
  · intro few names
    exact ⟨modifierNames_modifierMask_eq few names, nodup_modifierNames_modifierMask few names⟩
  · intro names others
    exact modifierMask_congr

/-- The first legend has a name that is empty, one that stands thirty times and one without a bit;
the names of the second are distinct. -/
theorem masks_read_back_repeated :
    (∀ name, name ∈ ["c", "b", "c"] ↔ name ∈ ["b", "c"]) ∧
    (ofNames [] ("" :: List.replicate 30 "a" ++ ["b", "c"])).modifierMask ["c", "b", "c"] =
      (ofNames [] ("" :: List.replicate 30 "a" ++ ["b", "c"])).modifierMask ["b", "c"] ∧
    (ofNames [] ("" :: List.replicate 30 "a" ++ ["b", "c"])).modifierMask ["b", "c"] =
      0x80000000 ∧
    (ofNames [] ["a", "", "b"]).modifiers.Nodup ∧
    ((ofNames [] ["a", "", "b"]).modifierMask
      ((ofNames [] ["a", "", "b"]).modifierNames 14)).toNat = 6 ∧
    (ofNames [] ["a", "", "b"]).modifiers.length ≤ UInt32.size ∧
    (ofNames [] ["a", "", "b"]).modifierNames
      ((ofNames [] ["a", "", "b"]).modifierMask ["b", "a", "c"]) = ["a", "b"] := by
  have same : ∀ name, name ∈ ["c", "b", "c"] ↔ name ∈ ["b", "c"] := by simp
  have distinct : (ofNames [] ["a", "", "b"]).modifiers.Nodup := by decide
  have few : (ofNames [] ["a", "", "b"]).modifiers.length ≤ UInt32.size := by decide
  refine ⟨same, ?_, by decide, distinct, ?_, few, ?_⟩
  · exact (masks_read_back _).2.2.2.1 _ _ same
  · exact (masks_read_back _).2.1 distinct 14
  · rw [((masks_read_back _).2.2.1 few _).1]
    decide

/-- Behind as many modifiers as there are words, a name gets the bit of index 0, and another name
comes back for it. -/
theorem masks_read_back_not_past_words :
    (crowded UInt32.size).modifierNames ((crowded UInt32.size).modifierMask ["async"]) =
      ["static"] ∧
    ((crowded UInt32.size).firstIndices.filterMap (crowded UInt32.size).modifierName?).filter
      (· ∈ ["async"]) = [] := by
  have full : maskWidth ≤ UInt32.size := by decide
  constructor
  · exact modifierNames_modifierMask_crowded
  · rw [List.filter_eq_nil_iff]
    intro name member
    obtain ⟨index, first, stands⟩ := List.mem_filterMap.mp member
    have inside : index < maskWidth := by
      have within := List.mem_range.mp (List.mem_filter.mp first).1
      exact Nat.lt_of_lt_of_le within (Nat.min_le_left ..)
    rw [modifierName?, ← List.getElem?_take_of_lt inside, take_modifiers_crowded full,
      List.getElem?_replicate_of_lt inside] at stands
    cases stands
    decide

end SemanticHighlight.Legend
