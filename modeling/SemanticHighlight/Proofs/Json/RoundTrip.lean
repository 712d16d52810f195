import SemanticHighlight.Proofs.Json.Record

/-!
# Shared values are read back

An item that is written as a text is read back from it, whatever the library. What is written for a
type is made of what is written for the types within, so this is shown once for each way to make a
codec: words, lists, options, records and choices.
-/

set_option autoImplicit false

namespace SemanticHighlight.Json

variable {α β : Type}

/-- Items are written as plain values, from which they are read back. -/
def Codec.Faithful (codec : Codec α) : Prop :=
  ∀ item, (codec.toValue item).Plain ∧ codec.ofValue? (codec.toValue item) = some item

/-- Items are read back from the texts they are written as. -/
def Library.ReadsBack (library : Library) (codec : Codec α) : Prop :=
  ∀ item, library.ofText? codec (library.toText codec item) = some item

namespace Library

variable {library : Library} (documented : library.Documented)

include documented

theorem readsBack_of_faithful {codec : Codec α} (faithful : codec.Faithful) :
    library.ReadsBack codec := by
  intro item
  obtain ⟨plain, back⟩ := faithful item
  rw [ofText?, toText, documented.parse?_render _ plain, Option.bind_some, back]

/-! ## Words, lists and options -/

theorem faithful_flag : library.flag.Faithful := by
  intro flag
  rw [documented.flag_toValue, documented.flag_ofValue?]
  exact ⟨.boolean, rfl⟩

theorem faithful_word : library.word.Faithful := by
  intro word
  rw [documented.word_toValue, documented.word_ofValue?]
  exact ⟨.natural (Nat.lt_trans word.toNat_lt (by decide)), rfl⟩

theorem faithful_text : library.text.Faithful := by
  intro text
  rw [documented.text_toValue, documented.text_ofValue?]
  exact ⟨.text, rfl⟩

theorem faithful_list {codec : Codec α} (faithful : codec.Faithful) :
    (library.list codec).Faithful := by
  intro items
  rw [documented.list_toValue]
  constructor
  · refine .array fun value member => ?_
    obtain ⟨item, -, rfl⟩ := List.mem_map.mp member
    exact (faithful item).1
  · induction items with
    | nil => exact documented.list_nil codec
    | cons item items ih =>
        rw [List.map_cons, documented.list_cons, (faithful item).2, ih]
        rfl

/-- Nothing else may be written as what stands for a missing item. -/
theorem faithful_option {codec : Codec α} (faithful : codec.Faithful)
    (apart : ∀ item, codec.toValue item ≠ .null) : (library.option codec).Faithful := by
  intro item
  cases item with
  | none =>
      rw [documented.option_none, documented.option_null]
      exact ⟨.null, rfl⟩
  | some item =>
      obtain ⟨plain, back⟩ := faithful item
      rw [documented.option_some, documented.option_value codec _ (apart item), back]
      exact ⟨plain, rfl⟩

theorem faithful_through {codec : Codec β} (faithful : codec.Faithful) {unwrap : α → β}
    {wrap : β → α} (inverse : ∀ item, wrap (unwrap item) = item) :
    (library.through unwrap wrap codec).Faithful := by
  intro item
  obtain ⟨plain, back⟩ := faithful (unwrap item)
  rw [documented.through_toValue, documented.through_ofValue?, back, Option.map_some, inverse]
  exact ⟨plain, rfl⟩

/-! ## Records and choices -/

/-- A record is read back when the contents of its fields are. It is written with each field once,
so each field takes its content from the value that it is written as. -/
theorem faithful_record {shape : Shape α}
    {codecs : (field : shape.Field) → Codec (shape.Content field)}
    (reads : (library.record shape codecs).ReadsFields shape codecs)
    (faithful : ∀ field, (codecs field).Faithful) : (library.record shape codecs).Faithful := by
  intro item
  rw [documented.record_toValue]
  constructor
  · refine .record fun member listed => ?_
    obtain ⟨field, -, rfl⟩ := List.mem_map.mp listed
    exact (faithful field _).1
  · have zipped : (shape.fields.map fun field =>
        (shape.key field, (codecs field).toValue (shape.get field item))) =
          (shape.fields.map shape.key).zip
            (shape.fields.map fun field => (codecs field).toValue (shape.get field item)) := by
      rw [List.zip_map']
    have agrees := reads.agrees
      (shape.fields.map fun field => (codecs field).toValue (shape.get field item))
    rw [if_pos (Nat.le_of_eq (List.length_map _)), ← zipped] at agrees
    rw [← agrees, reads.array]
    refine ⟨Nat.le_of_eq (List.length_map _), fun index field stands => ?_⟩
    rw [List.getElem?_map, stands]
    exact (faithful field _).2

theorem faithful_either {left : Codec α} {right : Codec β} {leftKey rightKey : String}
    (faithful : left.Faithful) (rightFaithful : right.Faithful) (apart : leftKey ≠ rightKey) :
    (library.either leftKey left rightKey right).Faithful := by
  intro item
  cases item with
  | inl item =>
      obtain ⟨plain, back⟩ := faithful item
      rw [documented.either_inl, documented.either_left, back]
      exact ⟨.record (by simpa using plain), rfl⟩
  | inr item =>
      obtain ⟨plain, back⟩ := rightFaithful item
      rw [documented.either_inr, documented.either_right _ _ _ _ _ apart, back]
      exact ⟨.record (by simpa using plain), rfl⟩

omit documented in
theorem faithful_pair {γ δ : Type} {first : Codec γ} {second : Codec δ}
    (faithful : first.Faithful) (secondFaithful : second.Faithful) (side : Side) :
    (pair first second side).Faithful := by
  cases side with
  | first => exact faithful
  | second => exact secondFaithful

/-! ## Shared values -/

theorem faithful_words : library.words.Faithful :=
  faithful_list documented (faithful_word documented)

theorem faithful_position : library.position.Faithful :=
  faithful_record documented (readsFields_position documented)
    (faithful_pair (faithful_word documented) (faithful_word documented))

theorem faithful_span : library.span.Faithful :=
  faithful_record documented (readsFields_span documented)
    (faithful_pair (faithful_position documented) (faithful_position documented))

theorem faithful_snapshot : library.snapshot.Faithful :=
  faithful_record documented (readsFields_snapshot documented)
    (faithful_pair (faithful_text documented) (faithful_words documented))

theorem faithful_edit : library.edit.Faithful := by
  refine faithful_record documented (readsFields_edit documented) fun field => ?_
  cases field with
  | start | deleteCount => exact faithful_word documented
  | data => exact faithful_words documented

theorem faithful_delta : library.delta.Faithful :=
  faithful_record documented (readsFields_delta documented)
    (faithful_pair (faithful_text documented)
      (faithful_list documented (faithful_edit documented)))

theorem faithful_answer : library.answer.Faithful := by
  have either := faithful_either documented (faithful_snapshot documented)
    (faithful_delta documented) (by decide : "Full" ≠ "Delta")
  refine faithful_through documented either fun answer => ?_
  cases answer <;> rfl

theorem faithful_tokenType : library.tokenType.Faithful :=
  faithful_through documented (faithful_text documented) fun _ => rfl

theorem faithful_modifier : library.modifier.Faithful :=
  faithful_through documented (faithful_text documented) fun _ => rfl

theorem faithful_legend : library.legend.Faithful :=
  faithful_record documented (readsFields_legend documented)
    (faithful_pair (faithful_list documented (faithful_tokenType documented))
      (faithful_list documented (faithful_modifier documented)))

/-- A list of names is an array, so it is told apart from one that is not set. -/
theorem faithful_settings : library.settings.Faithful := by
  refine faithful_record documented (readsFields_settings documented) fun field => ?_
  cases field with
  | enabled | full | delta | range => exact faithful_flag documented
  | tokenTypes | tokenModifiers =>
      refine faithful_option documented (faithful_list documented (faithful_text documented)) ?_
      intro names
      rw [documented.list_toValue]
      nofun

/-- The tables of a legend are not written, but they are always those of its lists. -/
theorem indexedLegend_reads_back (legend : Legend) :
    library.ofText? library.indexedLegend (library.toText library.indexedLegend legend.indexed) =
      some legend.indexed := by
  obtain ⟨plain, back⟩ := faithful_legend documented legend
  have written : library.indexedLegend.toValue legend.indexed = library.legend.toValue legend :=
    documented.through_toValue ..
  have read : library.indexedLegend.ofValue? (library.legend.toValue legend) =
      (library.legend.ofValue? (library.legend.toValue legend)).map Legend.indexed :=
    documented.through_ofValue? ..
  rw [ofText?, toText, written, documented.parse?_render _ plain, Option.bind_some, read, back,
    Option.map_some]

end Library

instance : Form IndexedLegend := ⟨library.indexedLegend⟩

/-- The values that are shared are read back from the texts they are written as, whatever the
library. Of a legend only the lists are written, and with its tables built anew it answers every
lookup as before. -/
theorem shared_values_read_back {library : Library} (documented : library.Documented) :
    library.ReadsBack library.position ∧ library.ReadsBack library.span ∧
      library.ReadsBack library.snapshot ∧ library.ReadsBack library.edit ∧
      library.ReadsBack library.delta ∧ library.ReadsBack library.answer ∧
      library.ReadsBack library.settings ∧ library.ReadsBack library.tokenType ∧
      library.ReadsBack library.modifier ∧ library.ReadsBack library.legend ∧
      ∀ legend : Legend,
        library.indexedLegend.toValue legend.indexed = .record
          [("tokenTypes", (library.list library.tokenType).toValue legend.types),
            ("tokenModifiers", (library.list library.modifier).toValue legend.modifiers)] ∧
        ∃ read, library.ofText? library.indexedLegend
            (library.toText library.indexedLegend legend.indexed) = some read ∧
          read = legend.indexed ∧ read.AnswersAs legend := by
  have back {α : Type} {codec : Codec α} (faithful : codec.Faithful) : library.ReadsBack codec :=
    Library.readsBack_of_faithful documented faithful
  refine ⟨back (Library.faithful_position documented), back (Library.faithful_span documented),
    back (Library.faithful_snapshot documented), back (Library.faithful_edit documented),
    back (Library.faithful_delta documented), back (Library.faithful_answer documented),
    back (Library.faithful_settings documented), back (Library.faithful_tokenType documented),
    back (Library.faithful_modifier documented), back (Library.faithful_legend documented), ?_⟩
  intro legend
  exact ⟨(documented.through_toValue ..).trans (documented.record_toValue ..), legend.indexed,
    Library.indexedLegend_reads_back documented legend, rfl,
    IndexedLegend.indexed_answersAs legend⟩

/-- A text with a quote, a backslash and a control character, and lists that are not set, empty and
filled. -/
theorem shared_values_read_back_escaped :
    library.Documented ∧
      library.toText library.answer (.delta ⟨"\"\\\x01\u00e9", [⟨0, 4294967295, [7, 0]⟩]⟩) =
        "\x7b\"Delta\":\x7b\"result_id\":\"\\\"\\\\\\u0001\u00e9\",\"edits\":[\x7b\"start\":0," ++
          "\"delete_count\":4294967295,\"data\":[7,0]\x7d]\x7d\x7d" ∧
      library.ofText? library.answer (library.toText library.answer
        (.delta ⟨"\"\\\x01\u00e9", [⟨0, 4294967295, [7, 0]⟩]⟩)) =
          some (.delta ⟨"\"\\\x01\u00e9", [⟨0, 4294967295, [7, 0]⟩]⟩) ∧
      library.ofText? library.settings (library.toText library.settings
        ⟨true, false, true, false, none, some ["a", ""]⟩) =
          some ⟨true, false, true, false, none, some ["a", ""]⟩ := by
  obtain ⟨_, _, _, _, _, answer, settings, _⟩ := shared_values_read_back documented_library
  refine ⟨documented_library, ?_, answer _, settings _⟩
  rfl

end SemanticHighlight.Json
