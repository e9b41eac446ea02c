import ByteFormula.Code.Head
import ByteFormula.Text.Blank
import ByteFormula.Text.Decimal
import ByteFormula.Text.Hex

/-! Symbols that are spelled like constants or references, and so cannot name a function. -/
namespace ByteFormula.Literal

def isLiteral (symbol : String) : Bool :=
  symbol == "nil" || symbol == "false" || ['0', 'x'].isPrefixOf symbol.toList ||
    Decimal.isNumber symbol.toList

def isReference (symbol : String) : Bool :=
  ['$'].isPrefixOf symbol.toList

/-- Characters that a name cannot have: white space and what the grammar and comments use. -/
def isReservedChar (c : Char) : Bool :=
  Text.isBlank c || c == '(' || c == ')' || c == ',' || c == '=' || c == '/'

def isReserved (symbol : String) : Bool :=
  symbol.isEmpty || isLiteral symbol || isReference symbol || symbol.toList.any isReservedChar

def value (symbol : String) : Except CompileError Bytes :=
  if symbol == "nil" || symbol == "false" then .ok []
  else
    match symbol.toList with
    | '0' :: 'x' :: digits =>
      match Hex.decode digits with
      | .error _ => .error (.invalidHex symbol)
      | .ok bytes =>
        if maxInlineData < bytes.length then .error (.hexTooLong bytes.length) else .ok bytes
    | digits =>
      if Decimal.value digits < 256 then .ok [UInt8.ofNat (Decimal.value digits)]
      else .error (.literalOutOfRange symbol)

/-- The argument that a reference refers to, which has to be below the arity if there is one. -/
def reference (symbol : String) (arity : Option Nat) : Except CompileError Nat :=
  let digits := symbol.toList.drop 1
  let index := Decimal.value digits
  if Decimal.isNumber digits && decide (index < argumentCodes) then
    match arity with
    | some arity => if arity ≤ index then .error (.argumentOutOfRange index arity) else .ok index
    | none => .ok index
  else .error (.invalidArgumentReference symbol)

end ByteFormula.Literal
