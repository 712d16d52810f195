import Mathlib.Data.List.Basic
import Mathlib.Data.List.Nodup
import Mathlib.Data.List.Perm.Basic
import Mathlib.Tactic.Choose
import SemanticHighlight.Record

/-!
# What a record is read from

What is assumed of reading records is what the documentation says of a single member or item and of
the end. Which members and items make up a record follows from there: each field has to be met once,
or not at all where it may be left out, and nothing else makes a difference.
-/

set_option autoImplicit false

namespace SemanticHighlight

variable {α Value : Type}

/-- What the documentation says of the operations on the way to a record with these fields. -/
structure RecordReader.Tracks (reader : RecordReader Value) (shape : Shape α)
    (readers : shape.Readers Value) : Prop where
  /-- Members that are no fields are passed over. -/
  member_other : ∀ slots key value, (∀ field, shape.key field ≠ key) →
    reader.member? shape readers slots (some key, value) = some slots
  member_field : ∀ slots field value, slots field = none →
    reader.member? shape readers slots (some (shape.key field), value) =
      (readers.read? field value).map (shape.fill slots field)
  /-- A field that was met before is a fault. -/
  member_again : ∀ slots field value, slots field ≠ none →
    reader.member? shape readers slots (some (shape.key field), value) = none
  member_broken : ∀ slots value, reader.member? shape readers slots (none, value) = none
  /-- A field that was not met takes its content from the standard item, if there is one, or what
  its type has in place of a missing value. -/
  finish_whole : ∀ (slots : shape.Slots)
      (contents : (field : shape.Field) → shape.Content field),
    (∀ field, (slots field <|> shape.standard? field <|> readers.missing? field) =
      some (contents field)) →
    reader.finish? shape readers slots = some (shape.make contents)
  finish_missing : ∀ (slots : shape.Slots) (field : shape.Field),
    (slots field <|> shape.standard? field <|> readers.missing? field) = none →
    reader.finish? shape readers slots = none
  item_field : ∀ slots field value index, shape.fields[index]? = some field →
    reader.item? shape readers slots (value, index) =
      (readers.read? field value).map (shape.fill slots field)
  /-- An item behind the last field is a fault. -/
  item_past : ∀ slots value index, shape.fields.length ≤ index →
    reader.item? shape readers slots (value, index) = none
  finishItems_whole : ∀ (slots : shape.Slots)
      (contents : (field : shape.Field) → shape.Content field),
    (∀ field, (slots field <|> shape.standard? field) = some (contents field)) →
    reader.finishItems? shape readers slots = some (shape.make contents)
  finishItems_missing : ∀ (slots : shape.Slots) (field : shape.Field),
    (slots field <|> shape.standard? field) = none →
    reader.finishItems? shape readers slots = none

/-- The documentation speaks of records with any fields. -/
def RecordReader.Documented (reader : RecordReader Value) : Prop :=
  ∀ {α : Type} (shape : Shape α) (readers : shape.Readers Value), reader.Tracks shape readers

namespace Shape

variable {shape : Shape α}

/-! ## Slots -/

section Slots

variable {slots : shape.Slots} {field other : shape.Field}

@[simp] theorem fill_self (content : shape.Content field) :
    shape.fill slots field content field = some content := by
  simp [fill]

theorem fill_of_ne (apart : field ≠ other) (content : shape.Content field) :
    shape.fill slots field content other = slots other := by
  simp [fill, apart]

theorem key_injective (same : shape.key field = shape.key other) : field = other :=
  List.inj_on_of_nodup_map shape.distinct (shape.complete field) (shape.complete other) same

theorem nodup_fields (shape : Shape α) : shape.fields.Nodup :=
  .of_map shape.key shape.distinct

theorem find?_key (field : shape.Field) :
    (shape.fields.find? fun other => shape.key other == shape.key field) = some field := by
  cases found : shape.fields.find? fun other => shape.key other == shape.key field with
  | none =>
      have apart := List.find?_eq_none.mp found field (shape.complete field)
      rw [beq_self_eq_true] at apart
      exact absurd rfl apart
  | some other =>
      have same := List.find?_some found
      rw [key_injective (beq_iff_eq.mp same)]

variable {contents : (field : shape.Field) → Option (shape.Content field)}

theorem collect?_whole {found : (field : shape.Field) → shape.Content field}
    (whole : ∀ field, contents field = some (found field)) :
    shape.collect? contents = some (shape.make found) := by
  have all : ∀ field ∈ shape.fields, (contents field).isSome := by
    intro field _
    rw [whole field, Option.isSome_some]
  rw [collect?, dif_pos all]
  simp only [whole, Option.get_some]

theorem collect?_missing (missing : contents field = none) : shape.collect? contents = none := by
  rw [collect?, dif_neg]
  intro all
  have found := all field (shape.complete field)
  rw [missing] at found
  cases found

/-- A record is put together from the contents of an item just when it is that item. -/
theorem eq_some_iff_of_collects {collected : Option α} {item : α}
    (whole : ∀ found : (field : shape.Field) → shape.Content field,
      (∀ field, contents field = some (found field)) → collected = some (shape.make found))
    (missing : ∀ field, contents field = none → collected = none) :
    collected = some item ↔ ∀ field, contents field = some (shape.get field item) := by
  constructor
  · intro whole field
    subst whole
    have filled : ∀ field, ∃ content, contents field = some content := by
      intro field
      rw [← Option.ne_none_iff_exists']
      exact fun absent => Option.some_ne_none item (missing field absent)
    choose found settled using filled
    cases whole found settled
    rw [settled field, shape.get_make]
  · intro settled
    rw [whole _ settled, shape.make_get]

end Slots

/-! ## The values given for fields -/

/-- The values that stand under a key, in their order. -/
def given (key : String) (members : List (String × Value)) : List Value :=
  (members.filter fun member => member.1 == key).map Prod.snd

def isKnown (shape : Shape α) (key : String) : Bool :=
  shape.fields.any fun field => shape.key field == key

/-- The content that a field takes from the values given for it. There may be one of them, or none
if there is a standard item. -/
def ofGiven (readers : shape.Readers Value) (field : shape.Field) :
    List Value → Option (shape.Content field)
  | [] => shape.standard? field
  | [value] => readers.read? field value
  | _ :: _ :: _ => none

def find? (readers : shape.Readers Value) (field : shape.Field) (members : List (String × Value)) :
    Option (shape.Content field) :=
  ofGiven readers field (given (shape.key field) members)

section Given

variable {key : String} {members others : List (String × Value)}

theorem given_append (key : String) (front back : List (String × Value)) :
    given key (front ++ back) = given key front ++ given key back := by
  rw [given, List.filter_append, List.map_append]
  rfl

theorem given_cons_self (key : String) (value : Value) (members : List (String × Value)) :
    given key ((key, value) :: members) = value :: given key members := by
  simp [given]

theorem given_cons_of_ne {other : String} (apart : other ≠ key) (value : Value)
    (members : List (String × Value)) :
    given key ((other, value) :: members) = given key members := by
  simp [given, apart]

theorem given_zip {names : List String} (distinct : names.Nodup) {index : Nat}
    (stands : names[index]? = some key) (items : List Value) :
    given key (names.zip items) = items[index]?.toList := by
  induction names generalizing index items with
  | nil => cases stands
  | cons name names ih =>
      obtain ⟨unlisted, laterDistinct⟩ := List.nodup_cons.mp distinct
      cases items with
      | nil => rfl
      | cons item items =>
          rw [List.zip_cons_cons]
          cases index with
          | zero =>
              cases Option.some.inj stands
              have later : given key (names.zip items) = [] := by
                rw [given, List.map_eq_nil_iff, List.filter_eq_nil_iff]
                intro member inside same
                rw [← beq_iff_eq.mp same] at unlisted
                exact unlisted (List.of_mem_zip inside).1
              rw [given_cons_self, later]
              rfl
          | succ index =>
              have listed : key ∈ names := List.mem_of_getElem? stands
              have apart : name ≠ key := fun same => unlisted (same ▸ listed)
              rw [given_cons_of_ne apart]
              exact ih laterDistinct stands items

variable {readers : shape.Readers Value} {field : shape.Field}

theorem ofGiven_of_lt_length {values : List Value} (repeated : 1 < values.length) :
    ofGiven readers field values = none := by
  match values, repeated with
  | _ :: _ :: _, _ => rfl

theorem find?_perm
    (same : (given (shape.key field) members).Perm (given (shape.key field) others)) :
    find? readers field members = find? readers field others := by
  unfold find?
  generalize given (shape.key field) members = left, given (shape.key field) others = right at same
  match right with
  | [] => rw [List.perm_nil.mp same]
  | [value] => rw [List.perm_singleton.mp same]
  | _ :: _ :: _ =>
      rw [ofGiven_of_lt_length (by rw [same.length_eq]; simp)]
      rfl

theorem find?_replace {front back : List (String × Value)} {key : String} {value other : Value}
    (alike : shape.key field = key → readers.read? field value = readers.read? field other) :
    find? readers field (front ++ (key, value) :: back) =
      find? readers field (front ++ (key, other) :: back) := by
  unfold find?
  by_cases same : shape.key field = key
  · subst same
    rw [given_append, given_append, given_cons_self, given_cons_self]
    rcases given (shape.key field) front with _ | ⟨first, _ | ⟨second, later⟩⟩ <;>
      rcases given (shape.key field) back with _ | ⟨next, after⟩
    · exact alike rfl
    all_goals rfl
  · rw [given_append, given_append, given_cons_of_ne (Ne.symm same),
      given_cons_of_ne (Ne.symm same)]

theorem given_filter_isKnown (shape : Shape α) (field : shape.Field)
    (members : List (String × Value)) :
    given (shape.key field) (members.filter fun member => shape.isKnown member.1) =
      given (shape.key field) members := by
  rw [given, given, List.filter_filter]
  congr 2
  funext entry
  have known : (entry.1 == shape.key field) = true → shape.isKnown entry.1 = true := by
    intro same
    rw [isKnown, List.any_eq_true]
    exact ⟨field, shape.complete field, by rw [beq_iff_eq.mp same]; exact beq_self_eq_true _⟩
  cases same : entry.1 == shape.key field with
  | false => rfl
  | true => rw [known same]; rfl

end Given

/-- Only options may be left out without a standard item. -/
def Readers.Strict (readers : shape.Readers Value) : Prop :=
  ∀ field, (shape.standard? field <|> readers.missing? field) = shape.standard? field

/-- How a slot is filled by the values given for its field: by one of them at most. -/
inductive Fills {Content : Type} (read? : Value → Option Content) :
    Option Content → List Value → Option Content → Prop where
  | keeps (slot : Option Content) : Fills read? slot [] slot
  | takes {value : Value} {content : Content} (read : read? value = some content) :
      Fills read? none [value] (some content)

theorem fills_cons_iff {Content : Type} {read? : Value → Option Content}
    {slot after : Option Content} {value : Value} {values : List Value} :
    Fills read? slot (value :: values) after ↔ slot = none ∧
      ∃ content, read? value = some content ∧ Fills read? (some content) values after := by
  constructor
  · intro fills
    cases fills with
    | takes read => exact ⟨rfl, _, read, .keeps _⟩
  · intro taken
    obtain ⟨rfl, content, read, later⟩ := taken
    cases later with
    | keeps => exact .takes read

theorem Fills.ofGiven_eq {readers : shape.Readers Value} {field : shape.Field}
    {values : List Value} {slot : Option (shape.Content field)}
    (fills : Fills (readers.read? field) none values slot) :
    ofGiven readers field values = (slot <|> shape.standard? field) := by
  cases fills with
  | keeps => rfl
  | takes read => exact read

theorem exists_fills {readers : shape.Readers Value} {field : shape.Field} {values : List Value}
    {content : shape.Content field} (found : ofGiven readers field values = some content) :
    ∃ slot, Fills (readers.read? field) none values slot := by
  match values with
  | [] => exact ⟨none, .keeps none⟩
  | [value] => exact ⟨some content, .takes found⟩
  | _ :: _ :: _ => cases found

theorem fills_nil_iff {Content : Type} {read? : Value → Option Content}
    {slot after : Option Content} : Fills read? slot [] after ↔ after = slot := by
  constructor
  · intro fills
    cases fills with
    | keeps => rfl
  · intro same
    cases same
    exact .keeps _

end Shape

namespace RecordReader

theorem documented_tracking : (tracking Value).Documented := fun shape readers => {
  member_other := by
    intro slots key value unknown
    have missing : (shape.fields.find? fun field => shape.key field == key) = none := by
      simp [unknown]
    simp only [tracking, missing]
  member_field := by
    intro slots field value blank
    simp only [tracking, shape.find?_key, blank]
  member_again := by
    intro slots field value filled
    obtain ⟨content, found⟩ := Option.ne_none_iff_exists'.mp filled
    simp only [tracking, shape.find?_key, found]
  member_broken := fun _ _ => rfl
  finish_whole := fun _ _ whole => Shape.collect?_whole whole
  finish_missing := fun _ _ missing => Shape.collect?_missing missing
  item_field := by
    intro slots field value index stands
    simp only [tracking, stands, Option.bind_eq_bind, Option.bind_some]
    cases readers.read? field value <;> rfl
  item_past := by
    intro slots value index past
    simp only [tracking, List.getElem?_eq_none past, Option.bind_eq_bind, Option.bind_none]
  finishItems_whole := fun _ _ whole => Shape.collect?_whole whole
  finishItems_missing := fun _ _ missing => Shape.collect?_missing missing }

variable {reader : RecordReader Value} {shape : Shape α} {readers : shape.Readers Value}
  (tracks : reader.Tracks shape readers)

include tracks

/-! ## Members -/

theorem foldlM_member?_eq_some_iff {members : List (String × Value)} {slots after : shape.Slots} :
    (keyed members).foldlM (reader.member? shape readers) slots = some after ↔
      ∀ field, Shape.Fills (readers.read? field) (slots field)
        (Shape.given (shape.key field) members) (after field) := by
  induction members generalizing slots with
  | nil =>
      simp only [keyed, List.map_nil, List.foldlM_nil, Shape.given, List.filter_nil,
        Shape.fills_nil_iff]
      constructor
      · intro same field
        cases same
        rfl
      · intro same
        exact congrArg some (funext same).symm
  | cons member members ih =>
      obtain ⟨key, value⟩ := member
      simp only [keyed, List.map_cons, List.foldlM_cons, Option.bind_eq_bind] at ih ⊢
      by_cases known : ∃ field, shape.key field = key
      · obtain ⟨field, rfl⟩ := known
        cases blank : slots field with
        | some content =>
            have filled : slots field ≠ none := Option.ne_none_iff_exists'.mpr ⟨content, blank⟩
            rw [tracks.member_again slots field value filled]
            refine iff_of_false (Option.some_ne_none after).symm fun fills => ?_
            have twice := fills field
            rw [Shape.given_cons_self, Shape.fills_cons_iff] at twice
            exact filled twice.1
        | none =>
            rw [tracks.member_field slots field value blank]
            cases read : readers.read? field value with
            | none =>
                refine iff_of_false (Option.some_ne_none after).symm fun fills => ?_
                have taken := fills field
                rw [Shape.given_cons_self, Shape.fills_cons_iff, read] at taken
                obtain ⟨_, content, impossible, _⟩ := taken
                cases impossible
            | some content =>
                rw [Option.map_some, Option.bind_some, ih]
                refine forall_congr' fun other => ?_
                by_cases same : field = other
                · subst same
                  simp only [Shape.fill_self, Shape.given_cons_self, Shape.fills_cons_iff, blank,
                    read, Option.some.injEq, exists_eq_left', true_and]
                · have apart : shape.key field ≠ shape.key other := same ∘ Shape.key_injective
                  rw [Shape.fill_of_ne same, Shape.given_cons_of_ne apart]
      · have unknown : ∀ field, shape.key field ≠ key := not_exists.mp known
        rw [tracks.member_other slots key value unknown, Option.bind_some, ih]
        simp only [Shape.given_cons_of_ne (Ne.symm (unknown _))]

theorem foldlM_member?_broken {members : List (Option String × Value)}
    (broken : ∃ member ∈ members, member.1 = none) (slots : shape.Slots) :
    members.foldlM (reader.member? shape readers) slots = none := by
  induction members generalizing slots with
  | nil =>
      obtain ⟨_, impossible, _⟩ := broken
      cases impossible
  | cons member members ih =>
      obtain ⟨key, value⟩ := member
      simp only [List.foldlM_cons, Option.bind_eq_bind]
      cases key with
      | none => rw [tracks.member_broken, Option.bind_none]
      | some key =>
          have later : ∃ member ∈ members, member.1 = none := by
            obtain ⟨member, inside, noText⟩ := broken
            cases inside with
            | head => cases noText
            | tail _ inside => exact ⟨member, inside, noText⟩
          cases reader.member? shape readers slots (some key, value) with
          | none => rfl
          | some filled => exact ih later filled

/-! ## The end of a record -/

section Strict

variable (strict : readers.Strict)

include strict

theorem finish?_eq_some_iff {slots : shape.Slots} {item : α} :
    reader.finish? shape readers slots = some item ↔
      ∀ field, (slots field <|> shape.standard? field) = some (shape.get field item) := by
  have settled (field : shape.Field) :
      (slots field <|> shape.standard? field <|> readers.missing? field) =
        (slots field <|> shape.standard? field) := by
    rw [strict field]
  simp only [← settled]
  exact Shape.eq_some_iff_of_collects (tracks.finish_whole slots) (tracks.finish_missing slots)

theorem finishItems?_eq_finish? (slots : shape.Slots) :
    reader.finishItems? shape readers slots = reader.finish? shape readers slots := by
  apply Option.ext
  intro item
  rw [finish?_eq_some_iff tracks strict]
  exact Shape.eq_some_iff_of_collects (tracks.finishItems_whole slots)
    (tracks.finishItems_missing slots)

/-- A record is read from members just when each field takes its content from the values given for
it. -/
theorem object?_eq_some_iff {members : List (String × Value)} {item : α} :
    reader.object? shape readers (keyed members) = some item ↔
      ∀ field, Shape.find? readers field members = some (shape.get field item) := by
  simp only [object?, Option.bind_eq_bind, Option.bind_eq_some_iff,
    foldlM_member?_eq_some_iff tracks, finish?_eq_some_iff tracks strict]
  constructor
  · intro read field
    obtain ⟨slots, fills, settled⟩ := read
    rw [Shape.find?, (fills field).ofGiven_eq]
    exact settled field
  · intro found
    choose slots fills using fun field => Shape.exists_fills (found field)
    refine ⟨slots, fills, fun field => ?_⟩
    rw [← (fills field).ofGiven_eq]
    exact found field

theorem isSome_object?_iff {members : List (String × Value)} :
    (reader.object? shape readers (keyed members)).isSome = true ↔
      ∀ field, (Shape.find? readers field members).isSome = true := by
  simp only [Option.isSome_iff_exists, object?_eq_some_iff tracks strict]
  constructor
  · intro read field
    obtain ⟨item, found⟩ := read
    exact ⟨_, found field⟩
  · intro found
    choose contents found using found
    exact ⟨shape.make contents, fun field => by rw [found field, shape.get_make]⟩

theorem object?_congr {members others : List (String × Value)}
    (same : ∀ field, Shape.find? readers field members = Shape.find? readers field others) :
    reader.object? shape readers (keyed members) =
      reader.object? shape readers (keyed others) := by
  apply Option.ext
  intro item
  simp only [object?_eq_some_iff tracks strict, same]

/-- Neither the order of the members makes a difference, nor members that are no fields. -/
theorem object?_perm {members others : List (String × Value)}
    (rearranged : (members.filter fun member => shape.isKnown member.1).Perm
      (others.filter fun member => shape.isKnown member.1)) :
    reader.object? shape readers (keyed members) =
      reader.object? shape readers (keyed others) := by
  refine object?_congr tracks strict fun field => ?_
  apply Shape.find?_perm
  rw [← Shape.given_filter_isKnown, ← Shape.given_filter_isKnown _ _ others]
  exact (rearranged.filter _).map _

/-- A value may stand in for another that has the same content. -/
theorem object?_replace {front back : List (String × Value)} {key : String} {value other : Value}
    (alike : ∀ field, shape.key field = key →
      readers.read? field value = readers.read? field other) :
    reader.object? shape readers (keyed (front ++ (key, value) :: back)) =
      reader.object? shape readers (keyed (front ++ (key, other) :: back)) :=
  object?_congr tracks strict fun field => Shape.find?_replace (alike field)

end Strict

theorem object?_of_broken {members : List (Option String × Value)}
    (broken : ∃ member ∈ members, member.1 = none) :
    reader.object? shape readers members = none := by
  simp only [object?, foldlM_member?_broken tracks broken, Option.bind_eq_bind, Option.bind_none]

/-! ## Items -/

theorem item?_eq_member? {slots : shape.Slots} {field : shape.Field} {value : Value} {index : Nat}
    (stands : shape.fields[index]? = some field) (blank : slots field = none) :
    reader.item? shape readers slots (value, index) =
      reader.member? shape readers slots (some (shape.key field), value) := by
  rw [tracks.item_field slots field value index stands, tracks.member_field slots field value blank]

/-- As long as there is a field for each, items are read like members under the keys of the
fields. -/
theorem foldlM_item?_eq {items : List Value} {start : Nat} {slots : shape.Slots}
    (fits : start + items.length ≤ shape.fields.length)
    (blank : ∀ index field, start ≤ index → shape.fields[index]? = some field →
      slots field = none) :
    (items.zipIdx start).foldlM (reader.item? shape readers) slots =
      (keyed (((shape.fields.map shape.key).drop start).zip items)).foldlM
        (reader.member? shape readers) slots := by
  induction items generalizing start slots with
  | nil => simp [keyed]
  | cons value items ih =>
      rw [List.length_cons] at fits
      have inside : start < shape.fields.length := by omega
      have stands := List.getElem?_eq_getElem inside
      have keys : (shape.fields.map shape.key).drop start =
          shape.key shape.fields[start] :: (shape.fields.map shape.key).drop (start + 1) := by
        rw [List.drop_eq_getElem_cons (by simpa using inside), List.getElem_map]
      rw [keys, List.zipIdx_cons, List.zip_cons_cons, keyed, List.map_cons, List.foldlM_cons,
        List.foldlM_cons, item?_eq_member? tracks stands (blank start _ (Nat.le_refl _) stands)]
      rw [tracks.member_field slots _ value (blank start _ (Nat.le_refl _) stands)]
      cases readers.read? shape.fields[start] value with
      | none => rfl
      | some content =>
          refine ih (by omega) fun index field past standsLater => ?_
          have apart : shape.fields[start] ≠ field := by
            intro again
            subst again
            have same : start = index := (List.getElem?_inj inside shape.nodup_fields).mp
              (stands.trans standsLater.symm)
            omega
          rw [Shape.fill_of_ne apart]
          exact blank index field (by omega) standsLater

theorem foldlM_item?_past {items : List Value} {start : Nat} (slots : shape.Slots)
    (inside : start ≤ shape.fields.length)
    (tooMany : shape.fields.length < start + items.length) :
    (items.zipIdx start).foldlM (reader.item? shape readers) slots = none := by
  induction items generalizing start slots with
  | nil =>
      rw [List.length_nil] at tooMany
      omega
  | cons value items ih =>
      rw [List.length_cons] at tooMany
      rw [List.zipIdx_cons, List.foldlM_cons, Option.bind_eq_bind]
      by_cases past : shape.fields.length ≤ start
      · rw [tracks.item_past slots value start past, Option.bind_none]
      · cases reader.item? shape readers slots (value, start) with
        | none => rfl
        | some filled => exact ih filled (by omega) (by omega)

section Strict

variable (strict : readers.Strict)

include strict

/-- An array is read like the object of its items under the keys of the fields. -/
theorem array?_eq (items : List Value) :
    reader.array? shape readers items =
      if items.length ≤ shape.fields.length then
        reader.object? shape readers (keyed ((shape.fields.map shape.key).zip items))
      else none := by
  split
  · rename_i fits
    have inside : 0 + items.length ≤ shape.fields.length := by
      rwa [Nat.zero_add]
    have same := foldlM_item?_eq tracks inside fun _ _ _ _ => (rfl : shape.blank _ = none)
    rw [List.drop_zero] at same
    simp only [array?, object?, same, finishItems?_eq_finish? tracks strict]
  · rename_i tooMany
    have past : shape.fields.length < 0 + items.length := by
      omega
    have refused := foldlM_item?_past tracks shape.blank (Nat.zero_le _) past
    simp only [array?, refused, Option.bind_eq_bind, Option.bind_none]

theorem array?_eq_some_iff {items : List Value} {item : α} :
    reader.array? shape readers items = some item ↔
      items.length ≤ shape.fields.length ∧ ∀ (index : Nat) (field : shape.Field),
        shape.fields[index]? = some field →
          Shape.ofGiven readers field items[index]?.toList = some (shape.get field item) := by
  rw [array?_eq tracks strict]
  split
  · rename_i fits
    rw [object?_eq_some_iff tracks strict, and_iff_right fits]
    have found {index : Nat} {field : shape.Field} (stands : shape.fields[index]? = some field) :
        Shape.find? readers field ((shape.fields.map shape.key).zip items) =
          Shape.ofGiven readers field items[index]?.toList := by
      have named : (shape.fields.map shape.key)[index]? = some (shape.key field) := by
        rw [List.getElem?_map, stands, Option.map_some]
      rw [Shape.find?, Shape.given_zip shape.distinct named]
    constructor
    · intro all index field stands
      rw [← found stands]
      exact all field
    · intro all field
      obtain ⟨index, inside, stands⟩ := List.mem_iff_getElem.mp (shape.complete field)
      have placed : shape.fields[index]? = some field := by
        rw [List.getElem?_eq_getElem inside, stands]
      rw [found placed]
      exact all index field placed
  · rename_i tooMany
    exact iff_of_false (Option.some_ne_none item).symm (tooMany ∘ And.left)

end Strict

end RecordReader

end SemanticHighlight
