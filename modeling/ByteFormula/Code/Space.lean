/-! The three ranges of function codes. -/
namespace ByteFormula

def argumentCodes : Nat := 16

/-- A range of function codes. Short codes fit one byte of bytecode, the others take two. -/
inductive CodeSpace where
  | embeddedShort
  | embeddedLong
  | extended
  deriving DecidableEq, Repr

namespace CodeSpace

def all : List CodeSpace := [.embeddedShort, .embeddedLong, .extended]

def first : CodeSpace → Nat
  | .embeddedShort => argumentCodes
  | .embeddedLong => 64
  | .extended => 256

def last : CodeSpace → Nat
  | .embeddedShort => 63
  | .embeddedLong => 255
  | .extended => 1023

def capacity (space : CodeSpace) : Nat :=
  space.last - space.first + 1

/-- Only a call with two bytes can say how many arguments it has, and only embedded functions may
ask for that. -/
def allowsVariadic : CodeSpace → Bool
  | .embeddedLong => true
  | _ => false

def text : CodeSpace → String
  | .embeddedShort => "embedded-short"
  | .embeddedLong => "embedded-long"
  | .extended => "extended"

end CodeSpace
end ByteFormula
