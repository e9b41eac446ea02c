import ByteFormula.Code.Arity
import ByteFormula.Source.Expression
import ByteFormula.Text.Decimal
import ByteFormula.Text.Line

/-! Sources of several definitions.

A definition starts at a line `def name(arity) = body`, and the lines after it continue its body.
Two slashes start a comment. Bodies are only checked for balanced parentheses here. -/
namespace ByteFormula

/-- A named body with its declared arity and the line of its header. -/
structure Definition where
  symbol : String
  arity : Arity
  body : String
  line : Nat
  deriving DecidableEq, Repr

namespace Definition

def isNameChar (c : Char) : Bool :=
  Expression.isSymbolChar c && c != '=' && !Text.isBlank c

/-- Splits a decimal number off a text; one that starts with zero is zero. -/
def readDecimal : List Char → Option (List Char × List Char)
  | '0' :: rest => some (['0'], rest)
  | text =>
    match text.takeWhile Char.isDigit with
    | [] => none
    | digits => some (digits, text.dropWhile Char.isDigit)

/-- Reads an arity; on failure it returns the digits of a number that is too large. -/
def readArity : List Char → Except (Option String) (Arity × List Char)
  | '.' :: '.' :: '.' :: rest => .ok (.variadic, rest)
  | text =>
    match readDecimal text with
    | none => .error none
    | some (digits, rest) =>
      if Decimal.value digits ≤ maxCallArguments then .ok (.fixed (Decimal.value digits), rest)
      else .error (some (String.ofList digits))

/-- Reads an arity in parentheses, with white space around each, up to the end of the text. -/
def readParenthesizedArity (text : List Char) : Except (Option String) Arity :=
  match Text.trimLeft text with
  | '(' :: rest =>
    match readArity (Text.trimLeft rest) with
    | .error e => .error e
    | .ok (arity, rest) =>
      match Text.trimLeft rest with
      | ')' :: rest => if Text.trimLeft rest = [] then .ok arity else .error none
      | _ => .error none
  | _ => .error none

def readHeader : List Char → Except (Option String) (String × Arity)
  | 'd' :: 'e' :: 'f' :: blank :: rest =>
    if Text.isBlank blank then
      let text := Text.trimLeft rest
      match text.takeWhile isNameChar with
      | [] => .error none
      | name =>
        match readParenthesizedArity (text.dropWhile isNameChar) with
        | .error e => .error e
        | .ok arity => .ok (String.ofList name, arity)
    else .error none
  | _ => .error none

def isStart : List Char → Bool
  | 'd' :: 'e' :: 'f' :: c :: _ => Text.isBlank c
  | _ => false

def open? (line : Nat) (text : List Char) : Except ParseError Definition :=
  match text.dropWhile (· != '=') with
  | [] => .error (.missingEquals line)
  | _ :: body =>
    match readHeader (Text.trim (text.takeWhile (· != '='))) with
    | .error arity => .error (.invalidHeader line arity)
    | .ok (symbol, arity) => .ok ⟨symbol, arity, String.ofList (Text.strip body), line⟩

def close (d : Definition) : Except ParseError Definition :=
  if d.body = "" then .error (.emptyExpression d.line)
  else if Expression.balanced 0 d.body.toList then .ok d
  else .error (.unbalancedParentheses d.line)

/-- The definitions read so far, last one first, and the one whose lines are being read. -/
structure Progress where
  closed : List Definition
  current : Option Definition

def Progress.finish (progress : Progress) : Except ParseError (List Definition) :=
  match progress.current with
  | none => .ok progress.closed
  | some d =>
    match d.close with
    | .error e => .error e
    | .ok d => .ok (d :: progress.closed)

def Progress.step (progress : Progress) (numbered : List Char × Nat) : Except ParseError Progress :=
  let text := Text.trim (Text.cutComment numbered.1)
  if text = [] then .ok progress
  else if isStart text then
    match progress.finish with
    | .error e => .error e
    | .ok closed =>
      match open? numbered.2 text with
      | .error e => .error e
      | .ok d => .ok ⟨closed, some d⟩
  else
    match progress.current with
    | none => .error (.expectedDefinition numbered.2)
    | some d =>
      .ok { progress with current := some { d with body := d.body ++ String.ofList (Text.strip text) } }

def parseAll (source : String) : Except ParseError (List Definition) :=
  match ((Text.lines source.toList).zipIdx 1).foldlM Progress.step ⟨[], none⟩ with
  | .error e => .error e
  | .ok progress =>
    match progress.finish with
    | .error e => .error e
    | .ok closed => .ok closed.reverse

end Definition
end ByteFormula
