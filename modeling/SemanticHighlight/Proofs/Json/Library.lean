import SemanticHighlight.Json.Form
import SemanticHighlight.Proofs.Json.Reader
import SemanticHighlight.Proofs.Record

/-!
# What is assumed of a JSON library

A library writes and reads values, and it makes the codecs of flags, words, texts, lists, options,
records and choices. What is assumed of it is what its documentation says of each of these on its
own. The library that runs is one that does what the documentation says.
-/

set_option autoImplicit false

namespace SemanticHighlight.Json

/-- What the documentation says of texts and of each way to make a codec. -/
structure Library.Documented (library : Library) : Prop where
  /-- The text that is written for a value is read as this value. -/
  parse?_render : ∀ value : Value, value.Plain → library.parse? (library.render value) = some value
  records : library.records.Documented
  flag_toValue : ∀ flag, library.flag.toValue flag = .boolean flag
  flag_ofValue? : ∀ flag, library.flag.ofValue? (.boolean flag) = some flag
  word_toValue : ∀ word, library.word.toValue word = .natural word.toNat
  word_ofValue? : ∀ word : UInt32, library.word.ofValue? (.natural word.toNat) = some word
  text_toValue : ∀ text, library.text.toValue text = .ofString text
  text_ofValue? : ∀ text, library.text.ofValue? (.ofString text) = some text
  list_toValue : ∀ {α : Type} (codec : Codec α) items,
    (library.list codec).toValue items = .array (items.map codec.toValue)
  list_nil : ∀ {α : Type} (codec : Codec α), (library.list codec).ofValue? (.array []) = some []
  list_cons : ∀ {α : Type} (codec : Codec α) value values,
    (library.list codec).ofValue? (.array (value :: values)) =
      (codec.ofValue? value).bind fun item =>
        ((library.list codec).ofValue? (.array values)).map (item :: ·)
  option_none : ∀ {α : Type} (codec : Codec α), (library.option codec).toValue none = .null
  option_some : ∀ {α : Type} (codec : Codec α) item,
    (library.option codec).toValue (some item) = codec.toValue item
  option_null : ∀ {α : Type} (codec : Codec α),
    (library.option codec).ofValue? .null = some none
  option_value : ∀ {α : Type} (codec : Codec α) value, value ≠ .null →
    (library.option codec).ofValue? value = (codec.ofValue? value).map some
  /-- The fields are written in their order. -/
  record_toValue : ∀ {α : Type} (shape : Shape α) codecs item,
    (library.record shape codecs).toValue item = .record (shape.fields.map fun field =>
      (shape.key field, (codecs field).toValue (shape.get field item)))
  record_object : ∀ {α : Type} (shape : Shape α) codecs members,
    (library.record shape codecs).ofValue? (.object members) =
      library.records.object? shape (readers codecs) members
  record_array : ∀ {α : Type} (shape : Shape α) codecs items,
    (library.record shape codecs).ofValue? (.array items) =
      library.records.array? shape (readers codecs) items
  record_other : ∀ {α : Type} (shape : Shape α) codecs value,
    (∀ members, value ≠ .object members) → (∀ items, value ≠ .array items) →
      (library.record shape codecs).ofValue? value = none
  either_inl : ∀ {α β : Type} leftKey (left : Codec α) rightKey (right : Codec β) item,
    (library.either leftKey left rightKey right).toValue (.inl item) =
      .record [(leftKey, left.toValue item)]
  either_inr : ∀ {α β : Type} leftKey (left : Codec α) rightKey (right : Codec β) item,
    (library.either leftKey left rightKey right).toValue (.inr item) =
      .record [(rightKey, right.toValue item)]
  either_left : ∀ {α β : Type} leftKey (left : Codec α) rightKey (right : Codec β) value,
    (library.either leftKey left rightKey right).ofValue? (.record [(leftKey, value)]) =
      (left.ofValue? value).map .inl
  either_right : ∀ {α β : Type} leftKey (left : Codec α) rightKey (right : Codec β) value,
    leftKey ≠ rightKey →
      (library.either leftKey left rightKey right).ofValue? (.record [(rightKey, value)]) =
        (right.ofValue? value).map .inr
  through_toValue : ∀ {α β : Type} (unwrap : α → β) wrap codec item,
    (library.through unwrap wrap codec).toValue item = codec.toValue (unwrap item)
  through_ofValue? : ∀ {α β : Type} (unwrap : α → β) wrap codec value,
    (library.through unwrap wrap codec).ofValue? value = (codec.ofValue? value).map wrap
  /-- Flags, words, texts, lists and records have nothing in place of a missing value. -/
  flag_missing : library.flag.ofMissing? = none
  word_missing : library.word.ofMissing? = none
  text_missing : library.text.ofMissing? = none
  list_missing : ∀ {α : Type} (codec : Codec α), (library.list codec).ofMissing? = none
  record_missing : ∀ {α : Type} (shape : Shape α) codecs,
    (library.record shape codecs).ofMissing? = none

theorem documented_library : library.Documented where
  parse?_render _ plain := parse?_render plain
  records := RecordReader.documented_tracking
  flag_toValue _ := rfl
  flag_ofValue? _ := rfl
  word_toValue _ := rfl
  word_ofValue? word := by simp [library, Own.word, word.toNat_lt]
  text_toValue _ := rfl
  text_ofValue? _ := rfl
  list_toValue _ _ := rfl
  list_nil _ := rfl
  list_cons codec value values := by
    change (value :: values).mapM codec.ofValue? = _
    rw [List.mapM_cons]
    cases codec.ofValue? value with
    | none => rfl
    | some item =>
        change ((values.mapM codec.ofValue?).bind fun items => some (item :: items)) =
          (values.mapM codec.ofValue?).map (item :: ·)
        rw [Option.map_eq_bind]
        rfl
  option_none _ := rfl
  option_some _ _ := rfl
  option_null _ := rfl
  option_value _ value apart := by
    cases value with
    | null => exact absurd rfl apart
    | boolean | natural | number | text | array | object => rfl
  record_toValue _ _ _ := rfl
  record_object _ _ _ := rfl
  record_array _ _ _ := rfl
  record_other _ _ value noObject noArray := by
    cases value with
    | object members => exact absurd rfl (noObject members)
    | array items => exact absurd rfl (noArray items)
    | null | boolean | natural | number | text => rfl
  either_inl _ _ _ _ _ := rfl
  either_inr _ _ _ _ _ := rfl
  either_left _ _ _ _ _ := if_pos rfl
  either_right _ _ _ _ _ apart := (if_neg (Ne.symm apart)).trans (if_pos rfl)
  through_toValue _ _ _ _ := rfl
  through_ofValue? _ _ _ _ := rfl
  flag_missing := rfl
  word_missing := rfl
  text_missing := rfl
  list_missing _ := rfl
  record_missing _ _ := rfl

end SemanticHighlight.Json
