/-!
# Legends

A legend lists the names of token types and of modifiers. A type is written as the index of its
name, and a set of modifiers as a word with a bit for the index of each. The first index counts
where a name stands more than once, and modifiers past the 32nd have no bit. Indices are counted in
words, so they start again from 0 in lists that are longer than there are words.
-/

set_option autoImplicit false

namespace SemanticHighlight

structure TokenType where
  name : String
deriving DecidableEq

structure Modifier where
  name : String
deriving DecidableEq

instance : Ord TokenType where
  compare := compareOn TokenType.name

instance : Ord Modifier where
  compare := compareOn Modifier.name

/-- How many modifiers a mask has room for. -/
def maskWidth : Nat := 32

structure Legend where
  types : List TokenType
  modifiers : List Modifier
deriving DecidableEq

namespace Legend

def ofNames (types modifiers : List String) : Legend :=
  ⟨types.map .mk, modifiers.map .mk⟩

/-- The smallest index of a type with this name. -/
def typeIndex? (legend : Legend) (name : String) : Option Nat :=
  legend.types.findIdx? fun candidate => candidate.name == name

/-- The number of a type. The empty name and unknown names have number 0. -/
def typeId (legend : Legend) (name : String) : UInt32 :=
  if name.isEmpty then 0 else .ofNat ((legend.typeIndex? name).getD 0)

/-- The number of a type that may be left out; without one it is 0. -/
def optionalTypeId (legend : Legend) : Option TokenType → UInt32
  | none => 0
  | some tokenType => legend.typeId tokenType.name

/-- The smallest index of a modifier with this name. -/
def modifierIndex? (legend : Legend) (name : String) : Option Nat :=
  legend.modifiers.findIdx? fun candidate => candidate.name == name

/-- The mask with one bit, moved up by so many places; `none` past the width of a mask. -/
def shift? (amount : Nat) : Option UInt32 :=
  if amount < maskWidth then some ((1 : UInt32) <<< UInt32.ofNat amount) else none

/-- The mask with just the bit at one place; no bit past the width of a mask. -/
def bit (place : Nat) : UInt32 :=
  (shift? place).getD 0

/-- The name of a modifier with the bit for its index: `none` when the index, as a word, has no
place in a mask. -/
def entryAt? : Modifier × Nat → Option (String × UInt32)
  | (modifier, index) => (shift? (UInt32.ofNat index).toNat).map fun set => (modifier.name, set)

/-- The modifiers that have a bit. -/
def modifierEntries (legend : Legend) : List (String × UInt32) :=
  legend.modifiers.zipIdx.filterMap entryAt?

/-- The bit of a modifier, from its first entry; unknown names have none. -/
def modifierBit (legend : Legend) (name : String) : UInt32 :=
  (legend.modifierEntries.lookup name).getD 0

def modifierMask (legend : Legend) (names : List String) : UInt32 :=
  names.foldl (fun mask name => mask ||| legend.modifierBit name) 0

def typeName? (legend : Legend) (id : UInt32) : Option String :=
  legend.types[id.toNat]?.map TokenType.name

/-- The names behind the bits of a mask, in the legend's order. -/
def modifierNames (legend : Legend) (mask : UInt32) : List String :=
  (legend.modifiers.take maskWidth).zipIdx.filterMap fun (modifier, index) =>
    if mask &&& bit index = 0 then none else some modifier.name

theorem modifierMask_cons (legend : Legend) (name : String) (names : List String) :
    legend.modifierMask (name :: names) =
      legend.modifierBit name ||| legend.modifierMask names := by
  have general : ∀ (mask : UInt32),
      names.foldl (fun mask name => mask ||| legend.modifierBit name) mask =
        mask ||| legend.modifierMask names := by
    unfold modifierMask
    induction names with
    | nil => intro mask; simp
    | cons next names inductionHypothesis =>
        intro mask
        rw [List.foldl_cons, List.foldl_cons, inductionHypothesis, inductionHypothesis (0 ||| _),
          UInt32.zero_or, UInt32.or_assoc]
  rw [modifierMask, List.foldl_cons, general, UInt32.zero_or]

theorem modifierMask_append (legend : Legend) (first second : List String) :
    legend.modifierMask (first ++ second) =
      legend.modifierMask first ||| legend.modifierMask second := by
  induction first with
  | nil => simp [modifierMask]
  | cons name first inductionHypothesis =>
      rw [List.cons_append, modifierMask_cons, modifierMask_cons, inductionHypothesis,
        UInt32.or_assoc]

end Legend

end SemanticHighlight
