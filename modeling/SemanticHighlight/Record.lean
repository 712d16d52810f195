/-!
# Records

A record has fields with a key each. It is read from members, which come in any order and may have
others among them, or from items in the order of the fields. While it is read there is a slot for
each field. A slot is filled when its field is met, and at the end the record is put together from
all of them.
-/

set_option autoImplicit false

namespace SemanticHighlight

/-- How items of a type are made of fields. -/
structure Shape (α : Type) where
  Field : Type
  [decidableEq : DecidableEq Field]
  /-- The fields in the order of items. -/
  fields : List Field
  key : Field → String
  Content : Field → Type
  get : (field : Field) → α → Content field
  make : ((field : Field) → Content field) → α
  /-- The item that gives a field its content when it is left out. Without one, no field may be. -/
  standard : Option α
  complete : ∀ field, field ∈ fields
  distinct : (fields.map key).Nodup
  get_make : ∀ contents field, get field (make contents) = contents field
  make_get : ∀ item, (make fun field => get field item) = item

namespace Shape

variable {α : Type} (shape : Shape α)

instance : DecidableEq shape.Field := shape.decidableEq

/-- The contents that were read so far. -/
def Slots : Type :=
  (field : shape.Field) → Option (shape.Content field)

def blank : shape.Slots :=
  fun _ => none

def fill (slots : shape.Slots) (field : shape.Field) (content : shape.Content field) :
    shape.Slots :=
  fun other => if same : field = other then some (same ▸ content) else slots other

/-- How the contents of fields are read from values. -/
structure Readers (Value : Type) where
  read? : (field : shape.Field) → Value → Option (shape.Content field)
  /-- What the type of a field has in place of a value that is missing. -/
  missing? : (field : shape.Field) → Option (shape.Content field)

def standard? (field : shape.Field) : Option (shape.Content field) :=
  shape.standard.map (shape.get field)

/-- Puts an item together if there is something for each field. -/
def collect? (contents : (field : shape.Field) → Option (shape.Content field)) : Option α :=
  if all : ∀ field ∈ shape.fields, (contents field).isSome then
    some (shape.make fun field => (contents field).get (all field (shape.complete field)))
  else
    none

end Shape

/-- The single operations of reading a record. They are told its fields and how to read their
contents, and each of them may refuse. -/
structure RecordReader (Value : Type) where
  /-- Takes one member, with its key if that is a text. -/
  member? : {α : Type} → (shape : Shape α) → shape.Readers Value → shape.Slots →
    Option String × Value → Option shape.Slots
  /-- Ends a record that was read from members. -/
  finish? : {α : Type} → (shape : Shape α) → shape.Readers Value → shape.Slots → Option α
  /-- Takes one item with its index. -/
  item? : {α : Type} → (shape : Shape α) → shape.Readers Value → shape.Slots → Value × Nat →
    Option shape.Slots
  /-- Ends a record that was read from items. -/
  finishItems? : {α : Type} → (shape : Shape α) → shape.Readers Value → shape.Slots → Option α

namespace RecordReader

variable {α Value : Type} (reader : RecordReader Value) (shape : Shape α)
  (readers : shape.Readers Value)

/-- Members with a text for each key. -/
def keyed (members : List (String × Value)) : List (Option String × Value) :=
  members.map fun member => (some member.1, member.2)

def object? (members : List (Option String × Value)) : Option α := do
  reader.finish? shape readers (← members.foldlM (reader.member? shape readers) shape.blank)

def array? (items : List Value) : Option α := do
  reader.finishItems? shape readers (← items.zipIdx.foldlM (reader.item? shape readers) shape.blank)

/-- Passes over members that are no fields and refuses a field that was met before, a key that is
no text, and items behind the last field. -/
def tracking (Value : Type) : RecordReader Value where
  member? shape readers slots
    | (none, _) => none
    | (some key, value) =>
        match shape.fields.find? fun field => shape.key field == key with
        | none => some slots
        | some field =>
            match slots field with
            | none => (readers.read? field value).map (shape.fill slots field)
            | some _ => none
  finish? shape readers slots :=
    shape.collect? fun field => slots field <|> shape.standard? field <|> readers.missing? field
  item? shape readers slots
    | (value, index) => do
        let field ← shape.fields[index]?
        let content ← readers.read? field value
        return shape.fill slots field content
  finishItems? shape _ slots := shape.collect? fun field => slots field <|> shape.standard? field

end RecordReader

/-! ## Records of two fields -/

inductive Side where
  | first
  | second
deriving DecidableEq

namespace Side

variable {β γ δ : Type}

def pick (first second : δ) : Side → δ
  | .first => first
  | .second => second

def Content (β γ : Type) : Side → Type
  | .first => β
  | .second => γ

end Side

/-- Items with two fields, which may not be left out. -/
def Shape.pair {α β γ : Type} (first second : String) (getFirst : α → β) (getSecond : α → γ)
    (make : β → γ → α) (apart : first ≠ second)
    (getFirst_make : ∀ left right, getFirst (make left right) = left)
    (getSecond_make : ∀ left right, getSecond (make left right) = right)
    (make_get : ∀ item, make (getFirst item) (getSecond item) = item) : Shape α where
  Field := Side
  fields := [.first, .second]
  key := Side.pick first second
  Content := Side.Content β γ
  get
    | .first => getFirst
    | .second => getSecond
  make contents := make (contents .first) (contents .second)
  standard := none
  complete field := by cases field <;> decide
  distinct := by simp [Side.pick, apart]
  get_make contents field := by
    cases field with
    | first => exact getFirst_make ..
    | second => exact getSecond_make ..
  make_get := make_get

end SemanticHighlight
