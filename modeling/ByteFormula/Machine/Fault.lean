import ByteFormula.Data.Error

/-! Faults: why an evaluation was given up, and where. -/
namespace ByteFormula

inductive FaultKind where
  | argumentOutOfBounds (index arity : Nat)
  | indexOutOfBounds (index length : Nat)
  | overflow
  | underflow
  | divisionByZero
  | wrongOperandLength (expected found : Nat)
  | operandLengthMismatch (left right : Nat)
  | operandTooLong (limit found : Nat)
  | stackOverflow (depth : Nat)
  | failed (message : String)
  | capabilityUnavailable (capability : String)
  | data (error : DataError)
  /-- A formula names a function that the registry does not have. -/
  | noFunction (index : Nat)
  /-- A reference leads to a place that is not on the stack. -/
  | noFrame (position : Nat)
  deriving DecidableEq, Repr

def FaultKind.message : FaultKind → String
  | .argumentOutOfBounds index arity =>
    s!"argument {index} requested from a call with {arity} arguments"
  | .indexOutOfBounds index length => s!"index {index} out of bounds for {length} bytes"
  | .overflow => "arithmetic overflow"
  | .underflow => "arithmetic underflow"
  | .divisionByZero => "division by zero"
  | .wrongOperandLength expected found => s!"operand must be {expected} bytes long, got {found}"
  | .operandLengthMismatch left right =>
    s!"operands differ in length ({left} and {right} bytes)"
  | .operandTooLong limit found => s!"operand of {found} bytes exceeds {limit} bytes"
  | .stackOverflow depth => s!"call depth exceeds {depth}"
  | .failed message => s!"explicit failure: {message}"
  | .capabilityUnavailable capability =>
    s!"capability `{capability}` is not provided by the global data"
  | .data error => error.message
  | .noFunction index => s!"no function has the index {index}"
  | .noFrame position => s!"no call stands at position {position} of the stack"

/-- A fault, with the innermost function that raised it and the path of the constraint. -/
structure Fault where
  kind : FaultKind
  function : Option String
  path : Option Path
  deriving DecidableEq, Repr

namespace Fault

def ofKind (kind : FaultKind) : Fault :=
  ⟨kind, none, none⟩

def within (fault : Fault) (symbol : String) : Fault :=
  match fault.function with
  | none => { fault with function := some symbol }
  | some _ => fault

def atPath (fault : Fault) (path : Option Path) : Fault :=
  match fault.path with
  | none => { fault with path := path }
  | some _ => fault

def message (fault : Fault) : String :=
  let function := match fault.function with
    | some symbol => s!" in `{symbol}`"
    | none => ""
  let path := match fault.path with
    | some path => s!" at {path.text}"
    | none => ""
  "constraint failed" ++ function ++ path ++ ": " ++ fault.kind.message

end Fault
end ByteFormula
