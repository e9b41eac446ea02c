import ByteFormula.Code.Arity
import ByteFormula.Code.Space

/-! What can be wrong with an expression, with bytecode and with a registration. -/
namespace ByteFormula

/-- Why an expression has no bytecode. -/
inductive CompileError where
  | unknownSymbol (symbol : String)
  | arityMismatch (symbol : String) (expected : Arity) (found : Nat)
  | tooManyArguments (symbol : String) (count : Nat)
  | literalOutOfRange (literal : String)
  | hexTooLong (length : Nat)
  | invalidHex (literal : String)
  | literalWithArguments (literal : String)
  | invalidArgumentReference (symbol : String)
  | argumentOutOfRange (index arity : Nat)
  | variadicDefinition (symbol : String)
  deriving DecidableEq, Repr

def CompileError.message : CompileError → String
  | .unknownSymbol symbol => s!"Unknown function `{symbol}`."
  | .arityMismatch symbol expected found =>
    s!"Function `{symbol}` takes {expected.text} arguments, called with {found}."
  | .tooManyArguments symbol count =>
    s!"Call to `{symbol}` has {count} arguments, at most 15 are allowed."
  | .literalOutOfRange literal => s!"Literal `{literal}` is not a byte value (0-255)."
  | .hexTooLong length => s!"Hex constant of {length} bytes exceeds the 127 byte limit."
  | .invalidHex literal => s!"Invalid hex constant `{literal}`."
  | .literalWithArguments literal => s!"Literal `{literal}` cannot take arguments."
  | .invalidArgumentReference symbol => s!"Invalid argument reference `{symbol}`."
  | .argumentOutOfRange index arity =>
    s!"Argument reference `${index}` is out of range for a function of arity {arity}."
  | .variadicDefinition symbol =>
    s!"Definition `{symbol}` is variadic, only embedded functions may be."

inductive DecodeError where
  | unexpectedEnd (offset : Nat)
  | unknownFunctionCode (code : Nat)
  | arityMismatch (symbol : String) (declared : Nat) (registered : Arity)
  | trailingBytes (count : Nat)
  | argumentOutOfRange (index arity : Nat)
  | tooDeep (limit offset : Nat)
  | empty
  deriving DecidableEq, Repr

def DecodeError.message : DecodeError → String
  | .unexpectedEnd offset => s!"Unexpected end of bytecode at offset {offset}."
  | .unknownFunctionCode code => s!"Unknown function code {code}."
  | .arityMismatch symbol declared registered =>
    s!"Call header declares {declared} arguments but `{symbol}` takes {registered.text}."
  | .trailingBytes count => s!"{count} trailing bytes after the expression."
  | .argumentOutOfRange index arity =>
    s!"Argument reference `${index}` is out of range for arity {arity}."
  | .tooDeep limit offset => s!"Calls nested deeper than {limit} at offset {offset}."
  | .empty => "Empty bytecode."

inductive RegistryError where
  | duplicateSymbol (symbol : String)
  | codeSpaceExhausted (space : CodeSpace)
  | arityTooLarge (symbol : String) (arity : Nat)
  | reservedSymbol (symbol : String)
  | variadicNotAllowed (symbol : String) (space : CodeSpace)
  deriving DecidableEq, Repr

def RegistryError.message : RegistryError → String
  | .duplicateSymbol symbol => s!"Function `{symbol}` is already registered."
  | .codeSpaceExhausted space => s!"The {space.text} code space is exhausted."
  | .arityTooLarge symbol arity =>
    s!"Function `{symbol}` declares arity {arity}, the maximum is 15."
  | .reservedSymbol symbol =>
    s!"`{symbol}` is a literal or argument reference and cannot name a function."
  | .variadicNotAllowed symbol space =>
    s!"Function `{symbol}` cannot be variadic in the {space.text} code space."

end ByteFormula
