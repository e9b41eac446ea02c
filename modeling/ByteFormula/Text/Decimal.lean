/-! Decimal numbers written with ASCII digits. -/
namespace ByteFormula.Decimal

def isNumber (text : List Char) : Bool :=
  !text.isEmpty && text.all Char.isDigit

def value (digits : List Char) : Nat :=
  digits.foldl (fun value c => 10 * value + (c.toNat - 48)) 0

end ByteFormula.Decimal
