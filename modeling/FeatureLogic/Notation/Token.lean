/-!
Tokens of the bracket notation, their places in the text and the errors of reading it.
-/

namespace FeatureLogic.Notation

/-- Line and column of a token, both counted from one. -/
structure Position where
  line : Nat
  column : Nat
  deriving DecidableEq, Repr

instance : ToString Position := ⟨fun p => s!"{p.line}:{p.column}"⟩

/-- The smallest parts of a text that mean something. -/
inductive Token
  | openBracket
  | closeBracket
  | openParen
  | closeParen
  | hash
  | number (n : Nat)
  | word (text : String)
  | quoted (text : String)
  deriving DecidableEq, Repr

/-- A token as error messages show it. -/
def Token.describe : Token → String
  | openBracket => "`[`"
  | closeBracket => "`]`"
  | openParen => "`(`"
  | closeParen => "`)`"
  | hash => "`#`"
  | number n => s!"number {n}"
  | word text => s!"`{text}`"
  | quoted text => s!"\"{text}\""

/-- Why a text is no feature structure. -/
inductive SyntaxError
  | unexpectedToken (expected found : String) (position : Position)
  | unexpectedEnd (expected : String)
  | unterminatedString (position : Position)
  | unknownFeature (name : String) (position : Position)
  | badCoreference (position : Position)
  | trailingInput (position : Position)
  deriving DecidableEq, Repr

namespace SyntaxError

def message : SyntaxError → String
  | unexpectedToken expected found position => s!"{position}: expected {expected}, found {found}"
  | unexpectedEnd expected => s!"unexpected end of input, expected {expected}"
  | unterminatedString position => s!"{position}: unterminated string"
  | unknownFeature name position => s!"{position}: unknown feature `{name}`"
  | badCoreference position => s!"{position}: coreference number out of range"
  | trailingInput position => s!"{position}: trailing input after feature structure"

end SyntaxError

end FeatureLogic.Notation
