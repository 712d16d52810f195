import SemanticHighlight.Legend

/-!
# Legends with tables

The lookups of a legend can be answered from two tables, which are built once from its lists. A
name that is listed again does not change the entry that it has. So the tables answer as the lists
do.
-/

set_option autoImplicit false

namespace SemanticHighlight

abbrev NameTable := List (String × UInt32)

namespace NameTable

/-- Adds an entry unless its name has one. -/
def addNew (table : NameTable) (entry : String × UInt32) : NameTable :=
  if (table.lookup entry.1).isSome then table else entry :: table

def collect (entries : List (String × UInt32)) : NameTable :=
  entries.foldl addNew []

/-- The entries of names at their indices, from a first index on. -/
def entries (value : Nat → UInt32) (names : List String) (start : Nat) :
    List (String × UInt32) :=
  (names.zipIdx start).map fun (name, index) => (name, value index)

theorem lookup_addNew (table : NameTable) (entry : String × UInt32) (name : String) :
    (table.addNew entry).lookup name = (table.lookup name).or ([entry].lookup name) := by
  obtain ⟨listed, value⟩ := entry
  unfold addNew
  by_cases same : name = listed
  · subst same
    cases found : table.lookup name <;> simp [found]
  · have apart : (name == listed) = false := beq_false_of_ne same
    split <;> simp [List.lookup_cons, apart]

theorem lookup_collect (entries : List (String × UInt32)) (name : String) :
    (collect entries).lookup name = entries.lookup name := by
  have general : ∀ table : NameTable, (entries.foldl addNew table).lookup name =
      (table.lookup name).or (entries.lookup name) := by
    induction entries with
    | nil => simp
    | cons entry entries ih =>
        intro table
        rw [List.foldl_cons, ih, lookup_addNew, Option.or_assoc, ← List.lookup_append,
          List.singleton_append]
  exact general []

theorem lookup_entries (value : Nat → UInt32) (names : List String) (start : Nat) (name : String) :
    (entries value names start).lookup name =
      (names.findIdx? (· == name)).map fun index => value (index + start) := by
  induction names generalizing start with
  | nil => rfl
  | cons first names ih =>
      rw [entries, List.zipIdx_cons, List.map_cons, List.lookup_cons, List.findIdx?_cons,
        BEq.comm (a := name)]
      cases first == name with
      | true => simp
      | false =>
          refine (ih (start + 1)).trans ?_
          simp [Function.comp_def, Nat.add_assoc, Nat.add_comm 1]

end NameTable

/-- A legend with a table of the numbers of types, and one of the bits of modifiers. -/
structure IndexedLegend where
  legend : Legend
  typeIds : NameTable
  modifierBits : NameTable
deriving DecidableEq

/-- Builds the tables. Modifiers that a mask has no room for get no entry. -/
def Legend.indexed (legend : Legend) : IndexedLegend where
  legend
  typeIds := .collect (NameTable.entries .ofNat (legend.types.map TokenType.name) 0)
  modifierBits := .collect legend.modifierEntries

namespace IndexedLegend

def typeId (legend : IndexedLegend) (name : String) : UInt32 :=
  if name.isEmpty then 0 else (legend.typeIds.lookup name).getD 0

def optionalTypeId (legend : IndexedLegend) : Option TokenType → UInt32
  | none => 0
  | some tokenType => legend.typeId tokenType.name

def modifierMask (legend : IndexedLegend) (names : List String) : UInt32 :=
  (names.filterMap fun name => legend.modifierBits.lookup name).foldl (· ||| ·) 0

/-! ## The tables answer as the lists do -/

variable (legend : Legend)

theorem lookup_typeIds (name : String) :
    legend.indexed.typeIds.lookup name = (legend.typeIndex? name).map UInt32.ofNat := by
  rw [Legend.indexed, NameTable.lookup_collect, NameTable.lookup_entries, List.findIdx?_map]
  rfl

theorem lookup_modifierBits (name : String) :
    (legend.indexed.modifierBits.lookup name).getD 0 = legend.modifierBit name := by
  rw [Legend.indexed, NameTable.lookup_collect, Legend.modifierBit]

theorem typeId_indexed (name : String) : legend.indexed.typeId name = legend.typeId name := by
  rw [typeId, Legend.typeId, lookup_typeIds]
  split
  · rfl
  · cases legend.typeIndex? name <;> rfl

theorem optionalTypeId_indexed (tokenType : Option TokenType) :
    legend.indexed.optionalTypeId tokenType = legend.optionalTypeId tokenType := by
  cases tokenType with
  | none => rfl
  | some tokenType => exact typeId_indexed legend tokenType.name

theorem modifierMask_indexed (names : List String) :
    legend.indexed.modifierMask names = legend.modifierMask names := by
  rw [modifierMask, Legend.modifierMask, List.foldl_filterMap]
  congr 1
  funext mask name
  rw [← lookup_modifierBits]
  cases legend.indexed.modifierBits.lookup name <;> simp

/-- Every lookup is answered as by the legend without tables. -/
structure AnswersAs (indexed : IndexedLegend) (legend : Legend) : Prop where
  typeId : ∀ name, indexed.typeId name = legend.typeId name
  optionalTypeId : ∀ tokenType, indexed.optionalTypeId tokenType = legend.optionalTypeId tokenType
  modifierMask : ∀ names, indexed.modifierMask names = legend.modifierMask names
  typeName? : ∀ id, indexed.legend.typeName? id = legend.typeName? id
  modifierNames : ∀ mask, indexed.legend.modifierNames mask = legend.modifierNames mask

theorem indexed_answersAs : legend.indexed.AnswersAs legend where
  typeId := typeId_indexed legend
  optionalTypeId := optionalTypeId_indexed legend
  modifierMask := modifierMask_indexed legend
  typeName? _ := rfl
  modifierNames _ := rfl

end IndexedLegend

end SemanticHighlight
