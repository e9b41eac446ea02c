import ByteFormula.Machine.Evaluate
import ByteFormula.Registry.Extend

/-! Evaluation of formulas, bytecode and expressions over a registry. -/
namespace ByteFormula.Registry

variable {σ : Type}

/-- Evaluates a formula with arguments, and returns the state of the surroundings afterwards. A
fault gets the invocation path if there is one. -/
def evaluate (registry : Registry σ) (surroundings : Surroundings σ) (state : σ)
    (formula : Formula) (args : List Bytes) : Except Fault Bytes × σ :=
  let machine : Machine σ := ⟨#[Frame.ofArgs (args.map Formula.data) 0], state⟩
  match Machine.evaluate (Machine.call registry surroundings registry.maxCallDepth) 1 0 formula
      machine with
  | (.ok value, machine) => (.ok value, machine.state)
  | (.error fault, machine) => (.error (fault.atPath surroundings.invocationPath), machine.state)

/-- The most arguments of a whole expression: as many as there are references. -/
def maxTopLevelArguments : Nat := maxCallArguments + 1

/-- Reads and evaluates bytecode, whose references have to be covered by the arguments. -/
def evaluateBytecode (registry : Registry σ) (surroundings : Surroundings σ) (state : σ)
    (bytecode : Bytes) (args : List Bytes) : Except Error Bytes × σ :=
  if maxTopLevelArguments < args.length then
    (.error (.compile (.tooManyArguments "<top level>" args.length)), state)
  else
    match registry.decode bytecode (some args.length) with
    | .error e => (.error (.decode e), state)
    | .ok formula =>
      match registry.evaluate surroundings state formula args with
      | (.ok value, state) => (.ok value, state)
      | (.error fault, state) => (.error (.fault fault), state)

def evaluateSource (registry : Registry σ) (state : σ) (source : String) (args : List Bytes) :
    Except Error Bytes × σ :=
  match registry.compile source with
  | .error e => (.error e, state)
  | .ok compiled => registry.evaluateBytecode .none state compiled.bytecode args

end ByteFormula.Registry
