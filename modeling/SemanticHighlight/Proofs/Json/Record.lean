import SemanticHighlight.Json.Shared
import SemanticHighlight.Proofs.Json.Library
import SemanticHighlight.Proofs.Legend.Tables

/-!
# Records in JSON

A record is read from an object exactly when each of its fields is given once, or is left out where
that is allowed, with a value that is accepted for its type. The order of the members makes no
difference, and neither do members that are none of the fields. The array of the fields in their
order is read like the object.
-/

set_option autoImplicit false

namespace SemanticHighlight.Json

variable {α : Type}

/-- Items are read as records with these fields. -/
structure Codec.ReadsFields (codec : Codec α) (shape : Shape α)
    (codecs : (field : shape.Field) → Codec (shape.Content field)) : Prop where
  /-- An object is accepted when each field is. -/
  accepts : ∀ members, (codec.ofValue? (.record members)).isSome = true ↔
    ∀ field, (Shape.find? (readers codecs) field members).isSome = true
  /-- The item that is read has the contents of the fields. -/
  contents : ∀ members item, codec.ofValue? (.record members) = some item ↔
    ∀ field, Shape.find? (readers codecs) field members = some (shape.get field item)
  /-- Neither the order of the members makes a difference, nor members that are no fields. -/
  rearranged : ∀ members others : List (String × Value),
    (members.filter fun member => shape.isKnown member.1).Perm
        (others.filter fun member => shape.isKnown member.1) →
      codec.ofValue? (.record members) = codec.ofValue? (.record others)
  /-- A value may stand in for another that gives the same content, as where members of an object
  within are put in another order. -/
  replaced : ∀ (front back : List (String × Value)) (key : String) (value other : Value),
    (∀ field, shape.key field = key →
      (codecs field).ofValue? value = (codecs field).ofValue? other) →
        codec.ofValue? (.record (front ++ (key, value) :: back)) =
          codec.ofValue? (.record (front ++ (key, other) :: back))
  /-- An array gives the fields in their order, and may end where all that follow may be left
  out. -/
  array : ∀ items item, codec.ofValue? (.array items) = some item ↔
    items.length ≤ shape.fields.length ∧ ∀ (index : Nat) (field : shape.Field),
      shape.fields[index]? = some field →
        Shape.ofGiven (readers codecs) field items[index]?.toList = some (shape.get field item)
  agrees : ∀ items, codec.ofValue? (.array items) =
    if items.length ≤ shape.fields.length then
      codec.ofValue? (.record ((shape.fields.map shape.key).zip items))
    else none
  /-- Objects with a key that is no text are refused. -/
  keys : ∀ members : List (Content × Value), (∃ member ∈ members, member.1 = none) →
    codec.ofValue? (.object members) = none
  /-- Nothing but objects and arrays is accepted. -/
  kinds : ∀ value, (∀ members, value ≠ .object members) → (∀ items, value ≠ .array items) →
    codec.ofValue? value = none

namespace Library

variable {library : Library} (documented : library.Documented)

include documented

theorem Documented.record_record (shape : Shape α)
    (codecs : (field : shape.Field) → Codec (shape.Content field))
    (members : List (String × Value)) :
    (library.record shape codecs).ofValue? (.record members) =
      library.records.object? shape (readers codecs) (RecordReader.keyed members) :=
  documented.record_object shape codecs _

/-- Codecs of records read the fields unless a field that has to be given may be missing. -/
theorem readsFields_record (shape : Shape α)
    {codecs : (field : shape.Field) → Codec (shape.Content field)}
    (strict : (readers codecs).Strict) :
    (library.record shape codecs).ReadsFields shape codecs := by
  have tracks := documented.records shape (readers codecs)
  constructor
  · intro members
    rw [documented.record_record]
    exact RecordReader.isSome_object?_iff tracks strict
  · intro members item
    rw [documented.record_record]
    exact RecordReader.object?_eq_some_iff tracks strict
  · intro members others rearranged
    rw [documented.record_record, documented.record_record]
    exact RecordReader.object?_perm tracks strict rearranged
  · intro front back key value other alike
    rw [documented.record_record, documented.record_record]
    exact RecordReader.object?_replace tracks strict alike
  · intro items item
    rw [documented.record_array]
    exact RecordReader.array?_eq_some_iff tracks strict
  · intro items
    rw [documented.record_array, documented.record_record]
    exact RecordReader.array?_eq tracks strict items
  · intro members broken
    rw [documented.record_object]
    exact RecordReader.object?_of_broken tracks broken
  · exact documented.record_other shape codecs

/-! ## Which fields may be left out -/

omit documented in
theorem strict_of_missing {shape : Shape α}
    {codecs : (field : shape.Field) → Codec (shape.Content field)}
    (missing : ∀ field, (codecs field).ofMissing? = none) : (readers codecs).Strict := by
  intro field
  simp only [readers, missing]
  cases shape.standard? field <;> rfl

omit documented in
theorem ofMissing?_pair {β γ : Type} {first : Codec β} {second : Codec γ}
    (missing : first.ofMissing? = none) (secondMissing : second.ofMissing? = none) (side : Side) :
    (pair first second side).ofMissing? = none := by
  cases side with
  | first => exact missing
  | second => exact secondMissing

theorem readsFields_position :
    library.position.ReadsFields Position.shape (pair library.word library.word) :=
  readsFields_record documented _ <| strict_of_missing <|
    ofMissing?_pair documented.word_missing documented.word_missing

theorem readsFields_span :
    library.span.ReadsFields Span.shape (pair library.position library.position) := by
  have missing : library.position.ofMissing? = none := documented.record_missing ..
  exact readsFields_record documented _ <| strict_of_missing <| ofMissing?_pair missing missing

theorem readsFields_snapshot :
    library.snapshot.ReadsFields Snapshot.shape (pair library.text library.words) :=
  readsFields_record documented _ <| strict_of_missing <|
    ofMissing?_pair documented.text_missing (documented.list_missing _)

theorem readsFields_edit : library.edit.ReadsFields Edit.shape library.editField := by
  refine readsFields_record documented _ (strict_of_missing fun field => ?_)
  cases field with
  | start | deleteCount => exact documented.word_missing
  | data => exact documented.list_missing _

theorem readsFields_delta :
    library.delta.ReadsFields Delta.shape (pair library.text (library.list library.edit)) :=
  readsFields_record documented _ <| strict_of_missing <|
    ofMissing?_pair documented.text_missing (documented.list_missing _)

theorem readsFields_legend :
    library.legend.ReadsFields Legend.shape
      (pair (library.list library.tokenType) (library.list library.modifier)) :=
  readsFields_record documented _ <| strict_of_missing <|
    ofMissing?_pair (documented.list_missing _) (documented.list_missing _)

/-- Settings that are left out are standard before anything else could stand for them. -/
theorem readsFields_settings : library.settings.ReadsFields Settings.shape library.settingsField :=
  readsFields_record documented _ fun _ => rfl

end Library

/-- A legend with tables is written without them, and they are built anew when it is read. -/
def Library.indexedLegend (library : Library) : Codec IndexedLegend :=
  library.through IndexedLegend.legend Legend.indexed library.legend

/-- The values that are shared as records are read from objects and arrays by their fields, of which
only those of settings may be left out, whatever the library. -/
theorem shared_records_read_fields {library : Library} (documented : library.Documented) :
    library.position.ReadsFields Position.shape (Library.pair library.word library.word) ∧
      library.span.ReadsFields Span.shape (Library.pair library.position library.position) ∧
      library.snapshot.ReadsFields Snapshot.shape (Library.pair library.text library.words) ∧
      library.edit.ReadsFields Edit.shape library.editField ∧
      library.delta.ReadsFields Delta.shape
        (Library.pair library.text (library.list library.edit)) ∧
      library.legend.ReadsFields Legend.shape
        (Library.pair (library.list library.tokenType) (library.list library.modifier)) ∧
      (∀ value, library.indexedLegend.ofValue? value =
        (library.legend.ofValue? value).map Legend.indexed) ∧
      library.settings.ReadsFields Settings.shape library.settingsField :=
  ⟨Library.readsFields_position documented, Library.readsFields_span documented,
    Library.readsFields_snapshot documented, Library.readsFields_edit documented,
    Library.readsFields_delta documented, Library.readsFields_legend documented,
    documented.through_ofValue? _ _ _, Library.readsFields_settings documented⟩

/-- Members that are no settings may be repeated, and an array of settings may end early. -/
theorem shared_records_read_fields_settings :
    library.Documented ∧
      library.settings.ofValue? (.record [("x", .null), ("range", .boolean false),
        ("x", .array []), ("token_types", .array [.ofString "a"])]) =
          some { Settings.standard with range := false, tokenTypes := some ["a"] } ∧
      library.settings.ofValue? (.array [.boolean false]) =
        some { Settings.standard with enabled := false } := by
  obtain ⟨_, _, _, _, _, _, _, settings⟩ := shared_records_read_fields documented_library
  refine ⟨documented_library, (settings.contents _ _).mpr ?_, ?_⟩
  · intro field
    cases field <;> rfl
  · rw [settings.agrees, if_pos (by decide), settings.contents]
    intro field
    cases field <;> rfl

end SemanticHighlight.Json
