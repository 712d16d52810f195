import SemanticHighlight.Proofs.Document.Encoding
import SemanticHighlight.Proofs.Legend.Names

/-!
# Tokens that are pushed by name

What is pushed by name can be read again by name, as far as the legend lists the names: pushing
turns the names into numbers, committing writes the numbers as an array, and reading takes both
steps back. The numbers are words, so the legend may not list more names than there are words.
-/

set_option autoImplicit false

namespace SemanticHighlight

/-! ## One token -/

def NamedToken.position (given : NamedToken) : Position :=
  ⟨given.line, given.start⟩

/-- The names and the place of a push that gives its type by name. -/
def Push.byName? : Push → Option NamedToken
  | .named line start length typeName modifiers => some ⟨line, start, length, typeName, modifiers⟩
  | .typed line start length (some tokenType) modifiers =>
      some ⟨line, start, length, tokenType.name, modifiers.map Modifier.name⟩
  | .typed _ _ _ none _ | .token _ | .typedSpan _ _ _ | .encodedSpan _ _ _ | .fail _ => none

/-- What is left of a token's names once they have been through the legend. -/
def Legend.shown (legend : Legend) (given : NamedToken) : NamedToken where
  line := given.line
  start := given.start
  length := given.length
  tokenType := legend.shownType given.tokenType
  modifiers := legend.shownModifiers given.modifiers

/-- The token that is pushed for some names. -/
def Legend.numbered (legend : Legend) (given : NamedToken) : Token where
  line := given.line
  start := given.start
  length := given.length
  typeId := legend.typeId given.tokenType
  modifiers := legend.modifierMask given.modifiers

theorem Token.named_numbered {legend : Legend} (few : legend.types.length < UInt32.size)
    (fewModifiers : legend.modifiers.length ≤ UInt32.size) (given : NamedToken) :
    Token.named legend (legend.numbered given) = legend.shown given := by
  simp only [Token.named, Legend.numbered, Legend.shown, Legend.getD_typeName?_typeId few,
    Legend.modifierNames_modifierMask fewModifiers]

theorem Push.resolve_of_byName? {item : Push} {given : NamedToken}
    (byName : item.byName? = some given) (legend : Legend) :
    item.resolve legend = .ok (legend.numbered given) := by
  cases item with
  | named line start length typeName modifiers => cases byName; rfl
  | typed line start length tokenType modifiers =>
      cases tokenType with
      | none => cases byName
      | some tokenType => cases byName; rfl
  | token token => cases byName
  | typedSpan span tokenType modifiers => cases byName
  | encodedSpan span typeId modifiers => cases byName
  | fail cause => cases byName

/-! ## All tokens of an encoding -/

theorem Push.accepted_of_byName? {pushes : List Push} {given : List NamedToken}
    (byName : pushes.map byName? = given.map some) (legend : Legend) :
    accepted legend pushes = given.map legend.numbered := by
  induction pushes generalizing given with
  | nil =>
      cases given with
      | nil => rfl
      | cons first given => cases byName
  | cons item pushes ih =>
      cases given with
      | nil => cases byName
      | cons first given =>
          obtain ⟨itemByName, laterByName⟩ := List.cons.inj byName
          rw [accepted_cons_of_ok (resolve_of_byName? itemByName legend), ih laterByName,
            List.map_cons]

theorem Token.decodeNamed_of_decode {legend : Legend} {data : List UInt32} {tokens : List Token}
    (read : decode data = .ok tokens) :
    decodeNamed legend data = .ok (tokens.map (named legend)) := by
  rw [decodeNamed, read]
  rfl

/-- Tokens that are pushed by name and in order are all committed, each with the numbers of its
names. -/
theorem Document.decodeNamed_numbered {document : Document} {pushes : List Push}
    {given : List NamedToken} (byName : pushes.map Push.byName? = given.map some)
    (ordered : given.Pairwise fun earlier later => earlier.position ≤ later.position)
    {begun : Document} (begins : document.Begins begun) :
    ∃ results committed, begun.encode pushes true = (.drafted results, committed) ∧
      Token.decodeNamed document.legend committed.data =
        .ok (given.map fun names =>
          Token.named document.legend (document.legend.numbered names)) := by
  have accepted := Push.accepted_of_byName? byName document.legend
  have inOrder : Token.InOrder (given.map document.legend.numbered) := List.pairwise_map.mpr ordered
  refine ⟨_, _, encode_of_begins begins pushes, ?_⟩
  have written : (Draft.empty.pushEach document.legend pushes).2.data.toList =
      Token.encode (given.map document.legend.numbered) := by
    rw [(Draft.writes_empty.pushEach pushes).data, List.nil_append, accepted]
  change Token.decodeNamed _ (Draft.empty.pushEach document.legend pushes).2.data.toList = _
  rw [written, Token.decodeNamed_of_decode (Token.decode_encode inOrder), List.map_map]
  rfl

/-- Tokens that are pushed by name and in order are read again with those of their names that the
legend lists. -/
theorem Document.decodeNamed_of_byName {document : Document} {pushes : List Push}
    {given : List NamedToken} (few : document.legend.types.length < UInt32.size)
    (fewModifiers : document.legend.modifiers.length ≤ UInt32.size)
    (byName : pushes.map Push.byName? = given.map some)
    (ordered : given.Pairwise fun earlier later => earlier.position ≤ later.position) :
    ∀ begun, document.Begins begun →
      ∃ results committed, begun.encode pushes true = (.drafted results, committed) ∧
        Token.decodeNamed document.legend committed.data =
          .ok (given.map document.legend.shown) := by
  intro begun begins
  obtain ⟨results, committed, encoded, read⟩ := decodeNamed_numbered byName ordered begins
  refine ⟨results, committed, encoded, ?_⟩
  simpa only [Token.named_numbered few fewModifiers] using read

/-- Two modifiers stand where a mask has its last place and behind it, and the others repeat one
name. One type has no name, and another has the name of one in front of it. -/
theorem Document.decodeNamed_of_byName_repeated :
    let legend : Legend :=
      ⟨[⟨"keyword"⟩, ⟨""⟩, ⟨"keyword"⟩, ⟨"string"⟩],
        List.replicate 31 ⟨"static"⟩ ++ [⟨"readonly"⟩, ⟨"async"⟩]⟩
    let document := new legend "a"
    let pushes : List Push :=
      [.named 3 1 4 "string" ["async", "readonly", "static", "readonly"],
        .typed 3 1 2 (some ⟨"keyword"⟩) [⟨"static"⟩], .named 3 7 0 "" ["unknown"],
        .named 9 0 1 "number" []]
    let given : List NamedToken :=
      [⟨3, 1, 4, "string", ["async", "readonly", "static", "readonly"]⟩,
        ⟨3, 1, 2, "keyword", ["static"]⟩, ⟨3, 7, 0, "", ["unknown"]⟩, ⟨9, 0, 1, "number", []⟩]
    legend.types.length < UInt32.size ∧ legend.modifiers.length ≤ UInt32.size ∧
      pushes.map Push.byName? = given.map some ∧
      (given.Pairwise fun earlier later => earlier.position ≤ later.position) ∧
      ∃ results committed, (document.create "b").encode pushes true = (.drafted results, committed) ∧
        Token.decodeNamed legend committed.data =
          .ok [⟨3, 1, 4, "string", ["static", "readonly"]⟩, ⟨3, 1, 2, "keyword", ["static"]⟩,
            ⟨3, 7, 0, "keyword", []⟩, ⟨9, 0, 1, "keyword", []⟩] := by
  intro legend document pushes given
  have ordered : given.Pairwise fun earlier later => earlier.position ≤ later.position := by decide
  obtain ⟨results, committed, encoded, read⟩ :=
    @decodeNamed_of_byName document pushes given (by decide) (by decide) rfl ordered _ ⟨"b", Or.inl rfl⟩
  have shown : given.map legend.shown =
      [⟨3, 1, 4, "string", ["static", "readonly"]⟩, ⟨3, 1, 2, "keyword", ["static"]⟩,
        ⟨3, 7, 0, "keyword", []⟩, ⟨9, 0, 1, "keyword", []⟩] := by
    decide
  refine ⟨by decide, by decide, rfl, ordered, results, committed, encoded, ?_⟩
  rw [← shown]
  exact read

/-- Behind as many modifiers as there are words, a name is read again as that of the first of them. -/
theorem Document.decodeNamed_of_byName_not_past_words :
    (∃ results committed,
      ((new (.crowded UInt32.size) "a").create "b").encode
          [.named 0 0 1 "variable" ["async"]] true = (.drafted results, committed) ∧
        Token.decodeNamed (.crowded UInt32.size) committed.data =
          .ok [⟨0, 0, 1, "unknown", ["static"]⟩]) ∧
      (Legend.crowded UInt32.size).shown ⟨0, 0, 1, "variable", ["async"]⟩ =
        ⟨0, 0, 1, "unknown", []⟩ := by
  constructor
  · obtain ⟨results, committed, encoded, read⟩ :=
      @decodeNamed_numbered (new (.crowded UInt32.size) "a") [.named 0 0 1 "variable" ["async"]]
        [⟨0, 0, 1, "variable", ["async"]⟩] rfl (List.pairwise_singleton ..) _ ⟨"b", Or.inl rfl⟩
    refine ⟨results, committed, encoded, read.trans ?_⟩
    have named : Token.named (.crowded UInt32.size)
        ((Legend.crowded UInt32.size).numbered ⟨0, 0, 1, "variable", ["async"]⟩) =
          ⟨0, 0, 1, "unknown", ["static"]⟩ := by
      simp only [Token.named, Legend.numbered, Legend.modifierNames_modifierMask_crowded]
      rfl
    simp only [List.map_cons, List.map_nil, new, named]
  · simp only [Legend.shown, Legend.shownModifiers_crowded (by decide : maskWidth ≤ UInt32.size)]
    rfl

end SemanticHighlight
