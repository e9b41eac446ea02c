import ByteFormula.Bytes

/-! Formulas: expressions whose calls name functions by their index in a registry. -/
namespace ByteFormula

/-- Data, a reference to an argument of the enclosing definition, or a call. -/
inductive Formula where
  | data (bytes : Bytes)
  | argument (index : Nat)
  | call (function : Nat) (args : List Formula)

def Formula.isData : Formula → Bool
  | .data _ => true
  | _ => false

mutual
/-- One more than the highest argument that is referred to, zero when there is none. It is counted
in a byte. -/
def Formula.numArgs : Formula → Nat
  | .data _ => 0
  | .argument index => (index + 1) % 0x100
  | .call _ args => Formula.numArgsAll args

def Formula.numArgsAll : List Formula → Nat
  | [] => 0
  | arg :: rest => max arg.numArgs (Formula.numArgsAll rest)
end

mutual
def Formula.depth : Formula → Nat
  | .data _ => 0
  | .argument _ => 0
  | .call _ args => 1 + Formula.depthAll args

def Formula.depthAll : List Formula → Nat
  | [] => 0
  | arg :: rest => max arg.depth (Formula.depthAll rest)
end

end ByteFormula
