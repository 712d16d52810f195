import SemanticHighlight.Legend
import SemanticHighlight.Token.Relative

/-!
# Tokens with names

A legend turns the numbers of a token back into names. A type number that the legend does not
list is shown as `unknown`, and bits without a name are passed over.
-/

set_option autoImplicit false

namespace SemanticHighlight

structure NamedToken where
  line : UInt32
  start : UInt32
  length : UInt32
  tokenType : String
  modifiers : List String
deriving DecidableEq

namespace Token

def named (legend : Legend) (token : Token) : NamedToken where
  line := token.line
  start := token.start
  length := token.length
  tokenType := (legend.typeName? token.typeId).getD "unknown"
  modifiers := legend.modifierNames token.modifiers

def decodeNamed (legend : Legend) (data : List UInt32) : Except Fault (List NamedToken) :=
  (decode data).map fun tokens => tokens.map (named legend)

end Token

end SemanticHighlight
