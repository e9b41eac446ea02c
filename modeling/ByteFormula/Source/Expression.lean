import ByteFormula.Source.Error
import ByteFormula.Text.Blank

/-! Call expressions and their text.

An expression is a symbol with arguments in parentheses. White space means nothing: it is removed
before the text is read, and a printed expression has none. -/
namespace ByteFormula

/-- A symbol applied to arguments; without arguments it is written alone. -/
inductive Expression where
  | call (symbol : String) (args : List Expression)

namespace Expression

def symbol : Expression → String
  | .call symbol _ => symbol

def args : Expression → List Expression
  | .call _ args => args

/-- Whether the expression stands alone: a literal, a reference or a call without arguments. -/
def isTerminal (e : Expression) : Bool :=
  e.args.isEmpty

end Expression

mutual
def Expression.chars : Expression → List Char
  | .call symbol [] => symbol.toList
  | .call symbol (arg :: rest) =>
    symbol.toList ++ '(' :: (arg.chars ++ Expression.moreChars rest)

/-- The characters of the arguments after the first, and the closing parenthesis. -/
def Expression.moreChars : List Expression → List Char
  | [] => [')']
  | arg :: rest => ',' :: (arg.chars ++ Expression.moreChars rest)
end

namespace Expression

def text (e : Expression) : String :=
  String.ofList e.chars

def isSymbolChar (c : Char) : Bool :=
  c != '(' && c != ')' && c != ','

/-- Whether every parenthesis closes one of the `opened` ones or one in the text, and none is left
open at its end. -/
def balanced (opened : Nat) : List Char → Bool
  | [] => opened == 0
  | c :: rest =>
    if c = '(' then balanced (opened + 1) rest
    else if c = ')' then
      match opened with
      | 0 => false
      | opened + 1 => balanced opened rest
    else balanced opened rest

mutual
/-- Reads one expression and returns what follows it. The fuel bounds the nesting. -/
def read : (fuel : Nat) → List Char → Option (Expression × List Char)
  | 0, _ => none
  | fuel + 1, text =>
    match text.takeWhile isSymbolChar, text.dropWhile isSymbolChar with
    | [], _ => none
    | symbol, '(' :: ')' :: rest => some (.call (String.ofList symbol) [], rest)
    | symbol, '(' :: rest =>
      match readArguments fuel rest with
      | some (args, rest) => some (.call (String.ofList symbol) args, rest)
      | none => none
    | symbol, rest => some (.call (String.ofList symbol) [], rest)

/-- Reads one or more expressions with commas between them, up to the closing parenthesis. -/
def readArguments : (fuel : Nat) → List Char → Option (List Expression × List Char)
  | 0, _ => none
  | fuel + 1, text =>
    match read fuel text with
    | some (arg, ',' :: rest) =>
      match readArguments fuel rest with
      | some (args, rest) => some (arg :: args, rest)
      | none => none
    | some (arg, ')' :: rest) => some ([arg], rest)
    | _ => none
end

/-- Reads a text that is one expression, found at the given line. Every level of nesting takes a
character, so the length of the text is fuel enough. -/
def parse (line : Nat) (source : String) : Except ParseError Expression :=
  let text := Text.strip source.toList
  if text = [] then .error (.emptyExpression line)
  else if balanced 0 text then
    match read (text.length + 1) text with
    | some (e, []) => .ok e
    | _ => .error (.malformed line)
  else .error (.unbalancedParentheses line)

end Expression
end ByteFormula
