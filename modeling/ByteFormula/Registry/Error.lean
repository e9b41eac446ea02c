import ByteFormula.Code.Error
import ByteFormula.Files.Fault
import ByteFormula.Machine.Fault
import ByteFormula.Source.Error

/-! All that can go wrong between a source text and the value of its expression. -/
namespace ByteFormula

inductive Error where
  | parse (error : ParseError)
  | compile (error : CompileError)
  | decode (error : DecodeError)
  | registry (error : RegistryError)
  | fault (fault : Fault)
  | inDefinition (symbol : String) (line : Nat) (cause : Error)
  | file (path : String) (cause : FileFault)
  | settings (path : String)
  deriving DecidableEq, Repr

namespace Error

def message : Error → String
  | .parse error => error.message
  | .compile error => error.message
  | .decode error => error.message
  | .registry error => error.message
  | .fault f => f.message
  | .inDefinition symbol line cause =>
    s!"In definition of `{symbol}` (line {line}): " ++ cause.message
  | .file path cause => s!"I/O error on '{path}': " ++ cause.message
  | .settings path => s!"Failed to parse configuration file '{path}'"

/-- The fault of a failed evaluation, also behind the name of a definition. -/
def fault? : Error → Option Fault
  | .fault f => some f
  | .inDefinition _ _ cause => cause.fault?
  | _ => none

end Error
end ByteFormula
