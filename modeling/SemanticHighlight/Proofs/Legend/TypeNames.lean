import Mathlib
import SemanticHighlight.Proofs.Json.RoundTrip
import SemanticHighlight.Proofs.Legend.Names

/-!
# Types and their numbers

A type that is listed has the number of the first index of its name, and that number gives the name
back. Going the other way, from an index to the name there and to its number, ends at the index
again unless the name is empty or stands at a smaller index too; at index 0 it always does, since
that is also the number of names that are not listed.
-/

set_option autoImplicit false

namespace SemanticHighlight

/-- The ways in which legends come about, with their tables. -/
inductive IndexedLegend.Made : IndexedLegend → Prop where
  | ofLists (types : List TokenType) (modifiers : List Modifier) :
      Made (Legend.indexed ⟨types, modifiers⟩)
  | ofNames (types modifiers : List String) : Made (Legend.ofNames types modifiers).indexed
  | standard : Made Legend.standard.indexed
  | read {text : String} {legend : IndexedLegend} (accepted : Json.ofText? text = some legend) :
      Made legend
  | configured (settings : Settings) : Made settings.legend.indexed

/-- The tables are always those of the lists that they stand beside. -/
theorem IndexedLegend.Made.indexed {legend : IndexedLegend} (made : legend.Made) :
    legend.legend.indexed = legend := by
  cases made with
  | ofLists | ofNames | standard | configured => rfl
  | read accepted =>
      obtain ⟨value, _, form⟩ := Option.bind_eq_some_iff.mp accepted
      obtain ⟨lists, _, tables⟩ := Option.map_eq_some_iff.mp form
      subst tables
      rfl

namespace Legend

/-- The name stands at this index, and at no smaller one. -/
def FirstAt (legend : Legend) (name : String) (index : Nat) : Prop :=
  legend.types[index]? = some ⟨name⟩ ∧ ∀ earlier < index, legend.types[earlier]? ≠ some ⟨name⟩

variable {legend : Legend} {name : String} {index : Nat}

theorem FirstAt.unique {other : Nat} (first : legend.FirstAt name index)
    (otherFirst : legend.FirstAt name other) : index = other := by
  apply Nat.le_antisymm
  · exact Nat.not_lt.mp fun before => first.2 other before otherFirst.1
  · exact Nat.not_lt.mp fun before => otherFirst.2 index before first.1

theorem firstAt_of_typeIndex? (found : legend.typeIndex? name = some index) :
    legend.FirstAt name index := by
  refine ⟨getElem?_of_typeIndex? found, fun earlier before stands => ?_⟩
  obtain ⟨_, _, noneBefore⟩ := List.findIdx?_eq_some_iff_getElem.mp found
  obtain ⟨_, here⟩ := List.getElem?_eq_some_iff.mp stands
  exact noneBefore earlier before (by simp only [here, beq_self_eq_true])

theorem exists_typeIndex? (listed : ⟨name⟩ ∈ legend.types) :
    ∃ index, legend.typeIndex? name = some index := by
  cases found : legend.typeIndex? name with
  | none => exact absurd listed (typeIndex?_eq_none_iff.mp found)
  | some index => exact ⟨index, rfl⟩

section Few

variable (few : legend.types.length < UInt32.size)

include few

theorem firstAt_typeId (named : name ≠ "") (listed : ⟨name⟩ ∈ legend.types) :
    legend.FirstAt name (legend.typeId name).toNat := by
  obtain ⟨index, found⟩ := exists_typeIndex? listed
  have first := firstAt_of_typeIndex? found
  obtain ⟨inside, _⟩ := List.getElem?_eq_some_iff.mp first.1
  have exact : (UInt32.ofNat index).toNat = index :=
    UInt32.toNat_ofNat_of_lt' (Nat.lt_trans inside few)
  simpa only [typeId_of_typeIndex? named found, exact] using first

/-- The number of the name at an index is that index just at the first index of a name that is not
empty, and at index 0. -/
theorem toNat_typeId_eq_iff (stands : legend.types[index]? = some ⟨name⟩) :
    (legend.typeId name).toNat = index ↔
      index = 0 ∨ name ≠ "" ∧ ∀ earlier < index, legend.types[earlier]? ≠ some ⟨name⟩ := by
  have listed : ⟨name⟩ ∈ legend.types := List.mem_of_getElem? stands
  by_cases named : name = ""
  · have zero : legend.typeId name = 0 := typeId_of_unlisted fun both => both.1 named
    constructor
    · intro same
      exact Or.inl (same.symm.trans (congrArg UInt32.toNat zero))
    · intro place
      have first : index = 0 := place.resolve_right fun both => both.1 named
      exact (congrArg UInt32.toNat zero).trans first.symm
  · have first := firstAt_typeId few named listed
    constructor
    · intro same
      exact Or.inr ⟨named, same ▸ first.2⟩
    · intro place
      cases place with
      | inl zero =>
          subst zero
          -- Nothing stands before index 0, so it is the first index of the name there.
          exact first.unique ⟨stands, fun earlier before => absurd before (Nat.not_lt_zero earlier)⟩
      | inr place => exact first.unique ⟨stands, place.2⟩

theorem typeName?_ofNat (inside : index < legend.types.length) :
    legend.typeName? (.ofNat index) = legend.types[index]?.map TokenType.name := by
  have exact : (UInt32.ofNat index).toNat = index :=
    UInt32.toNat_ofNat_of_lt' (Nat.lt_trans inside few)
  simp only [typeName?, exact]

end Few

end Legend

namespace IndexedLegend

/-- Names and numbers of types determine each other up to names that are empty or stand more than
once, in every legend that comes about. -/
theorem types_read_back {legend : IndexedLegend} (made : legend.Made)
    (few : legend.legend.types.length < UInt32.size) :
    (∀ name, name ≠ "" → ⟨name⟩ ∈ legend.legend.types →
      legend.legend.FirstAt name (legend.typeId name).toNat ∧
        legend.legend.typeName? (legend.typeId name) = some name) ∧
    (∀ name, name = "" ∨ ⟨name⟩ ∉ legend.legend.types → legend.typeId name = 0) ∧
    (∀ index < legend.legend.types.length, ∃ name,
      legend.legend.types[index]? = some ⟨name⟩ ∧
        legend.legend.typeName? (.ofNat index) = some name ∧
        ((legend.typeId name).toNat = index ↔ index = 0 ∨
          name ≠ "" ∧ ∀ earlier < index, legend.legend.types[earlier]? ≠ some ⟨name⟩)) ∧
    (∀ id, legend.legend.types.length ≤ id.toNat → legend.legend.typeName? id = none) ∧
    ∀ name, legend.typeId name = legend.legend.typeId name := by
  have asListed (name : String) : legend.typeId name = legend.legend.typeId name := by
    have answered := typeId_indexed legend.legend name
    rwa [made.indexed] at answered
  simp only [asListed]
  refine ⟨?_, ?_, ?_, ?_, fun _ => trivial⟩
  · intro name named listed
    exact ⟨Legend.firstAt_typeId few named listed, Legend.typeName?_typeId few named listed⟩
  · intro name untold
    apply Legend.typeId_of_unlisted
    intro both
    exact untold.elim both.1 fun unlisted => unlisted both.2
  · intro index inside
    have stands := List.getElem?_eq_getElem inside
    refine ⟨legend.legend.types[index].name, stands, ?_, Legend.toNat_typeId_eq_iff few stands⟩
    simp only [Legend.typeName?_ofNat few inside, stands, Option.map_some]
  · intro id past
    simp only [Legend.typeName?, List.getElem?_eq_none past, Option.map_none]

/-- A legend that is read from JSON, with an empty name and one that stands twice. -/
theorem types_read_back_repeated :
    let legend := (Legend.ofNames ["a", "", "b", "b"] []).indexed
    Json.ofText? "\x7b\"tokenModifiers\":[],\"tokenTypes\":[\"a\",\"\",\"b\",\"b\"]\x7d" =
        some legend ∧
      legend.legend.types.length < UInt32.size ∧ legend.typeId "" = 0 ∧
      legend.legend.FirstAt "b" (legend.typeId "b").toNat ∧
      legend.legend.typeName? (legend.typeId "b") = some "b" ∧
      legend.legend.typeName? 4 = none := by
  intro legend
  have accepted :
      Json.ofText? "\x7b\"tokenModifiers\":[],\"tokenTypes\":[\"a\",\"\",\"b\",\"b\"]\x7d" =
        some legend := by
    cbv
  have few : legend.legend.types.length < UInt32.size := by decide
  obtain ⟨forward, unlisted, _, past, _⟩ := types_read_back (.read accepted) few
  obtain ⟨first, named⟩ := forward "b" (by decide) (by decide)
  exact ⟨accepted, few, unlisted "" (Or.inl rfl), first, named, past 4 (by decide)⟩

end IndexedLegend

end SemanticHighlight
