import ByteFormula.Registry.Bytecode
import ByteFormula.Source.Expression

/-! Expressions as formulas over a registry.

Constants and references are recognised by their spelling; every other symbol has to name a
function that takes the given number of arguments. -/
namespace ByteFormula

structure Compiled where
  bytecode : Bytes
  numArgs : Nat
  deriving DecidableEq, Repr

namespace Registry

variable {σ : Type}

mutual
/-- The formula of an expression. With an arity, as in a definition, references have to be below
it. -/
def formulaOf (registry : Registry σ) (arity : Option Nat) :
    Expression → Except CompileError Formula
  | .call symbol args =>
    if Literal.isLiteral symbol then
      if args.isEmpty then
        match Literal.value symbol with
        | .error e => .error e
        | .ok bytes => .ok (.data bytes)
      else .error (.literalWithArguments symbol)
    else if Literal.isReference symbol then
      if args.isEmpty then
        match Literal.reference symbol arity with
        | .error e => .error e
        | .ok index => .ok (.argument index)
      else .error (.literalWithArguments symbol)
    else
      match registry.resolve symbol args.length with
      | .error e => .error e
      | .ok index =>
        match registry.formulasOf arity args with
        | .error e => .error e
        | .ok args => .ok (.call index args)

def formulasOf (registry : Registry σ) (arity : Option Nat) :
    List Expression → Except CompileError (List Formula)
  | [] => .ok []
  | e :: rest =>
    match registry.formulaOf arity e with
    | .error e => .error e
    | .ok formula =>
      match registry.formulasOf arity rest with
      | .error e => .error e
      | .ok formulas => .ok (formula :: formulas)
end

end Registry
end ByteFormula
