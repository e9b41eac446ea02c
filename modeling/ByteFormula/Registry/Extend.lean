import ByteFormula.Registry.Compile
import ByteFormula.Registry.Error
import ByteFormula.Source.Definition

/-! Registration of functions that are defined by source text.

A body is compiled against the functions registered before it, written as bytecode and read back.
What is registered is the formula that was read. -/
namespace ByteFormula.Registry

variable {σ : Type}

/-- Compiles an expression; its references are free and are counted in the result. -/
def compile (registry : Registry σ) (source : String) : Except Error Compiled :=
  match Expression.parse 1 source with
  | .error e => .error (.parse e)
  | .ok e =>
    match registry.formulaOf none e with
    | .error e => .error (.compile e)
    | .ok formula =>
      match registry.encode formula with
      | .error e => .error (.compile e)
      | .ok bytecode => .ok ⟨bytecode, formula.numArgs⟩

def prepare (registry : Registry σ) (symbol : String) (arity : Nat) (formula : Formula) :
    Except Error (Formula × Bytes) :=
  match registry.vet symbol (.fixed arity) .extended with
  | .error e => .error (.registry e)
  | .ok _ =>
    match registry.encode formula with
    | .error e => .error (.compile e)
    | .ok bytecode =>
      match registry.decode bytecode (some arity) with
      | .error e => .error (.decode e)
      | .ok body => .ok (body, bytecode)

def define (registry : Registry σ) (symbol : String) (arity : Nat) (formula : Formula)
    (source : String) : Except Error Nat × Registry σ :=
  match registry.prepare symbol arity formula with
  | .error e => (.error e, registry)
  | .ok (body, bytecode) =>
    match registry.insert symbol (.fixed arity) (.defined body bytecode) (some source) with
    | (.error e, after) => (.error (.registry e), after)
    | (.ok index, after) => (.ok index, after)

def recordedSource (source : String) : String :=
  String.ofList (Text.strip source.toList)

/-- Registers a body under a name. Its arity is the number of arguments that it refers to. -/
def extend (registry : Registry σ) (symbol source : String) : Except Error Nat × Registry σ :=
  match Expression.parse 1 source with
  | .error e => (.error (.parse e), registry)
  | .ok e =>
    match registry.formulaOf none e with
    | .error e => (.error (.compile e), registry)
    | .ok formula => registry.define symbol formula.numArgs formula (recordedSource source)

def extendWithArity (registry : Registry σ) (symbol : String) (arity : Arity) (source : String) :
    Except Error Nat × Registry σ :=
  match arity with
  | .variadic => (.error (.compile (.variadicDefinition symbol)), registry)
  | .fixed count =>
    if maxCallArguments < count then (.error (.registry (.arityTooLarge symbol count)), registry)
    else
      match Expression.parse 1 source with
      | .error e => (.error (.parse e), registry)
      | .ok e =>
        match registry.formulaOf (some count) e with
        | .error e => (.error (.compile e), registry)
        | .ok formula => registry.define symbol count formula (recordedSource source)

def defineParsed (registry : Registry σ) (d : Definition) (body : Expression) :
    Except Error Nat × Registry σ :=
  match d.arity with
  | .variadic => (.error (.compile (.variadicDefinition d.symbol)), registry)
  | .fixed count =>
    match registry.formulaOf (some count) body with
    | .error e => (.error (.compile e), registry)
    | .ok formula => registry.define d.symbol count formula d.body

/-- Registers one definition of a source. Errors name the definition, except for those of reading
its body, which name its line. -/
def extendOne (registry : Registry σ) (d : Definition) : Except Error Nat × Registry σ :=
  match Expression.parse d.line d.body with
  | .error e => (.error (.parse e), registry)
  | .ok body =>
    match registry.defineParsed d body with
    | (.error e, after) => (.error (.inDefinition d.symbol d.line e), after)
    | (.ok index, after) => (.ok index, after)

/-- Registers definitions in order and collects their indices. Those before a failure stay
registered. -/
def extendAll (registry : Registry σ) : List Definition → Except Error (List Nat) × Registry σ
  | [] => (.ok [], registry)
  | d :: rest =>
    match registry.extendOne d with
    | (.error e, after) => (.error e, after)
    | (.ok index, after) =>
      match after.extendAll rest with
      | (.error e, last) => (.error e, last)
      | (.ok indices, last) => (.ok (index :: indices), last)

def extendMany (registry : Registry σ) (source : String) :
    Except Error (List Nat) × Registry σ :=
  match Definition.parseAll source with
  | .error e => (.error (.parse e), registry)
  | .ok definitions => registry.extendAll definitions

end ByteFormula.Registry
