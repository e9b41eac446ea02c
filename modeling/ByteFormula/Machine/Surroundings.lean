import ByteFormula.Data.Tree
import ByteFormula.Machine.Fault

/-! The data around an evaluation. -/
namespace ByteFormula

/-- The data that a constraint can reach beyond its arguments, kept in a state of type `σ`. -/
structure Surroundings (σ : Type) where
  invocationPath : Option Path
  bytesAt : Path → σ → Except FaultKind Bytes × σ

namespace Surroundings

def none {σ : Type} : Surroundings σ where
  invocationPath := Option.none
  bytesAt _ state := (.error (.capabilityUnavailable "bytes_at_path"), state)

def ofTree (invocationPath : Option Path) : Surroundings Tree where
  invocationPath := invocationPath
  bytesAt path tree :=
    match tree.bytesAt path with
    | (.ok bytes, tree) => (.ok bytes, tree)
    | (.error e, tree) => (.error (.data e), tree)

end Surroundings
end ByteFormula
