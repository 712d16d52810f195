import SemanticHighlight.Json.Text

/-!
# Writing JSON

Values are written without blanks, the members of an object in their order.
-/

set_option autoImplicit false

namespace SemanticHighlight.Json

mutual

def writeValue : Value → List Char
  | .null => ['n', 'u', 'l', 'l']
  | .boolean true => ['t', 'r', 'u', 'e']
  | .boolean false => ['f', 'a', 'l', 's', 'e']
  | .natural value => Nat.toDigits 10 value
  | .number literal => literal
  | .text content => writeText content
  | .array [] => ['[', ']']
  | .array (item :: items) => '[' :: writeValue item ++ writeItems items ++ [']']
  | .object [] => ['\x7b', '\x7d']
  | .object ((key, value) :: members) =>
      '\x7b' :: writeText key ++ ':' :: writeValue value ++ writeMembers members ++ ['\x7d']

/-- The items behind the first, each with a comma in front. -/
def writeItems : List Value → List Char
  | [] => []
  | item :: items => ',' :: writeValue item ++ writeItems items

/-- The members behind the first, each with a comma in front. -/
def writeMembers : List (Content × Value) → List Char
  | [] => []
  | (key, value) :: members =>
      ',' :: writeText key ++ ':' :: writeValue value ++ writeMembers members

end

def render (value : Value) : String :=
  .ofList (writeValue value)

end SemanticHighlight.Json
