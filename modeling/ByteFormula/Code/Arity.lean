/-! How many arguments a function takes. -/
namespace ByteFormula

def maxCallArguments : Nat := 15

/-- A fixed number of arguments, or any number that a call can carry. -/
inductive Arity where
  | fixed (count : Nat)
  | variadic
  deriving DecidableEq, Repr

namespace Arity

def accepts : Arity → Nat → Bool
  | .fixed expected, count => expected == count
  | .variadic, count => decide (count ≤ maxCallArguments)

def text : Arity → String
  | .fixed count => toString count
  | .variadic => "..."

end Arity
end ByteFormula
