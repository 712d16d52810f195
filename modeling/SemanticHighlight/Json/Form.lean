import SemanticHighlight.Json.Reader
import SemanticHighlight.Json.Writer
import SemanticHighlight.Record

/-!
# Typed forms of JSON

A type with a codec is written as a value and read from values. Codecs are put together from those
of flags, words and texts by a library, which also turns values into texts and back. So the codec of
a type can be told for any library, and its form is the one made with the library that stands at the
end here.

Reading with that one is strict about kinds: a word has to be written as a plain integer, and no
kind stands in for another. A record is an object with a member for each field or an array of its
fields.
-/

set_option autoImplicit false

namespace SemanticHighlight.Json

structure Codec (α : Type) where
  toValue : α → Value
  /-- The inverse of `toValue`, for values that someone else may have written. -/
  ofValue? : Value → Option α
  /-- What a field of this type has when it is left out; `none` when it may not be. -/
  ofMissing? : Option α := none

/-- How the contents of the fields of a record are read. -/
def readers {α : Type} {shape : Shape α}
    (codecs : (field : shape.Field) → Codec (shape.Content field)) : shape.Readers Value where
  read? field := (codecs field).ofValue?
  missing? field := (codecs field).ofMissing?

/-- What codecs and texts are made with. -/
structure Library where
  parse? : String → Option Value
  render : Value → String
  records : RecordReader Value
  flag : Codec Bool
  word : Codec UInt32
  text : Codec String
  list : {α : Type} → Codec α → Codec (List α)
  option : {α : Type} → Codec α → Codec (Option α)
  record : {α : Type} → (shape : Shape α) →
    ((field : shape.Field) → Codec (shape.Content field)) → Codec α
  /-- One of two kinds with a name each. -/
  either : {α β : Type} → String → Codec α → String → Codec β → Codec (α ⊕ β)
  /-- Writes and reads items as those of another type that they are turned into. -/
  through : {α β : Type} → (α → β) → (β → α) → Codec β → Codec α

namespace Library

variable (library : Library) {α : Type}

def toText (codec : Codec α) (item : α) : String :=
  library.render (codec.toValue item)

def ofText? (codec : Codec α) (text : String) : Option α :=
  (library.parse? text).bind codec.ofValue?

end Library

/-! ## The library that runs -/

namespace Own

variable {α β : Type}

def flag : Codec Bool where
  toValue := .boolean
  ofValue?
    | .boolean value => some value
    | _ => none

def word : Codec UInt32 where
  toValue word := .natural word.toNat
  ofValue?
    | .natural value => if value < UInt32.size then some (.ofNat value) else none
    | _ => none

def text : Codec String where
  toValue := .ofString
  ofValue?
    | .text content => content
    | _ => none

def list (codec : Codec α) : Codec (List α) where
  toValue items := .array (items.map codec.toValue)
  ofValue?
    | .array items => items.mapM codec.ofValue?
    | _ => none

def option (codec : Codec α) : Codec (Option α) where
  toValue
    | none => .null
    | some item => codec.toValue item
  ofValue?
    | .null => some none
    | value => (codec.ofValue? value).map some
  ofMissing? := some none

def record (shape : Shape α) (codecs : (field : shape.Field) → Codec (shape.Content field)) :
    Codec α where
  toValue item :=
    .record (shape.fields.map fun field =>
      (shape.key field, (codecs field).toValue (shape.get field item)))
  ofValue?
    | .object members => (RecordReader.tracking Value).object? shape (readers codecs) members
    | .array items => (RecordReader.tracking Value).array? shape (readers codecs) items
    | _ => none

/-- An object with a single member, whose key tells which of the two it is. -/
def either (leftKey : String) (left : Codec α) (rightKey : String) (right : Codec β) :
    Codec (α ⊕ β) where
  toValue
    | .inl item => .record [(leftKey, left.toValue item)]
    | .inr item => .record [(rightKey, right.toValue item)]
  ofValue?
    | .object [(some key, value)] =>
        if key = leftKey then (left.ofValue? value).map .inl
        else if key = rightKey then (right.ofValue? value).map .inr
        else none
    | _ => none

def through (unwrap : α → β) (wrap : β → α) (codec : Codec β) : Codec α where
  toValue item := codec.toValue (unwrap item)
  ofValue? value := (codec.ofValue? value).map wrap

end Own

def library : Library where
  parse?
  render
  records := .tracking Value
  flag := Own.flag
  word := Own.word
  text := Own.text
  list := Own.list
  option := Own.option
  record := Own.record
  either := Own.either
  through := Own.through

/-- How items of a type are exchanged. -/
class Form (α : Type) where
  codec : Codec α

def toText {α : Type} [Form α] (item : α) : String :=
  library.toText Form.codec item

def ofText? {α : Type} [Form α] (text : String) : Option α :=
  library.ofText? Form.codec text

end SemanticHighlight.Json
