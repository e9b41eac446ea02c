/-! What can be wrong with source text. Lines are counted from one. -/
namespace ByteFormula

/-- A failure to read source text, with the line it is reported at. -/
inductive ParseError where
  | missingEquals (line : Nat)
  | unbalancedParentheses (line : Nat)
  /-- The header is malformed; `arity` is the number it declares when that alone is wrong. -/
  | invalidHeader (line : Nat) (arity : Option String)
  | expectedDefinition (line : Nat)
  | emptyExpression (line : Nat)
  /-- The text follows no rule of the call grammar. -/
  | malformed (line : Nat)
  deriving DecidableEq, Repr

namespace ParseError

def line : ParseError → Nat
  | .missingEquals line => line
  | .unbalancedParentheses line => line
  | .invalidHeader line _ => line
  | .expectedDefinition line => line
  | .emptyExpression line => line
  | .malformed line => line

def message : ParseError → String
  | .missingEquals line => s!"line {line}: expected '=' after the definition header"
  | .unbalancedParentheses line => s!"line {line}: unbalanced parentheses"
  | .invalidHeader line (some digits) =>
    s!"line {line}: invalid definition header: arity must be 0-15 or '...', got {digits}"
  | .invalidHeader line none =>
    s!"line {line}: invalid definition header: found text that is no header"
  | .expectedDefinition line =>
    s!"line {line}: text outside of a definition, lines must start with 'def'"
  | .emptyExpression line => s!"line {line}: empty expression"
  | .malformed line => s!"line {line}: found text that is no call"

end ParseError
end ByteFormula
