import SemanticHighlight.Legend

/-!
# The standard names

The token types and modifiers that editors know without being told, in the order of the standard
legend.
-/

set_option autoImplicit false

namespace SemanticHighlight

namespace TokenType

def standard : List TokenType :=
  ["namespace", "type", "class", "enum", "interface", "struct", "typeParameter", "parameter",
    "variable", "property", "enumMember", "event", "function", "method", "macro", "keyword",
    "modifier", "comment", "string", "number", "regexp", "operator", "decorator", "label"].map .mk

def standardIndex? (tokenType : TokenType) : Option Nat :=
  standard.idxOf? tokenType

end TokenType

namespace Modifier

def standard : List Modifier :=
  ["declaration", "definition", "readonly", "static", "deprecated", "abstract", "async",
    "modification", "documentation", "defaultLibrary"].map .mk

def standardIndex? (modifier : Modifier) : Option Nat :=
  standard.idxOf? modifier

end Modifier

def Legend.standard : Legend :=
  ⟨TokenType.standard, Modifier.standard⟩

end SemanticHighlight
