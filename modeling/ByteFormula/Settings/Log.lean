import ByteFormula.Primitive.Base
import ByteFormula.Settings.Basic

/-! What is written to the log while a registry is built and used. The entries follow from the
steps themselves, so that registration and evaluation know nothing of a log. -/
namespace ByteFormula.Log

inductive Level where
  | warn
  | info
  | debug
  | trace
  deriving DecidableEq, Repr

/-- The more often a user asks for details, the more levels are shown. -/
def Level.rank : Level → Nat
  | .warn => 0
  | .info => 1
  | .debug => 2
  | .trace => 3

def Level.text : Level → String
  | .warn => " WARN"
  | .info => " INFO"
  | .debug => "DEBUG"
  | .trace => "TRACE"

structure Entry where
  level : Level
  part : String
  message : String
  deriving DecidableEq, Repr

def Entry.line (entry : Entry) : String :=
  entry.level.text ++ " " ++ entry.part ++ ": " ++ entry.message

def ofRegistry (level : Level) (message : String) : Entry :=
  ⟨level, "easyfl::library", message⟩

variable {σ : Type}

def registered (function : Function σ) : Entry :=
  ofRegistry .debug <|
    s!"Registered {function.space.text} function `{function.symbol}` with code {function.code} " ++
    s!"and arity {function.arity.text}"

def decoded (bytecode : Bytes) (formula : Formula) : Entry :=
  ⟨.trace, "easyfl::decoder",
    s!"Decoded {Hex.encode bytecode} into a formula of depth {formula.depth}"⟩

def compiled (source : String) (bytecode : Bytes) : List Entry :=
  match Expression.parse 1 source with
  | .error _ => []
  | .ok e => [⟨.trace, "easyfl::compiler", s!"Compiled `{e.text}` to {Hex.encode bytecode}"⟩]

def definition (registry : Registry σ) (d : Definition) : List Entry :=
  match Expression.parse d.line d.body, d.arity with
  | .ok body, .fixed count =>
    match registry.formulaOf (some count) body with
    | .error _ => []
    | .ok formula =>
      match registry.prepare d.symbol count formula with
      | .error _ => []
      | .ok (body, bytecode) =>
        let built := [decoded bytecode body,
          ofRegistry .trace s!"Compiled `{d.symbol}` to {Hex.encode bytecode}"]
        match registry.insert d.symbol d.arity (.defined body bytecode) (some d.body) with
        | (.error _, _) => built
        | (.ok index, after) => built ++ ((after.function? index).map registered).toList
  | _, _ => []

def definitions (registry : Registry σ) : List Definition → List Entry
  | [] => []
  | d :: rest =>
    definition registry d ++
      match registry.extendOne d with
      | (.error _, _) => []
      | (.ok _, registry) => definitions registry rest

def extended (registry : Registry σ) (source : String) : List Entry :=
  match Definition.parseAll source with
  | .error _ => []
  | .ok ds => definitions registry ds

def embedded (registry : Registry σ) : List Entry :=
  registry.functions.toList.map registered

def maxCallDepth (registry : Registry σ) (depth : Nat) : List Entry :=
  if depth = 0 then
    [ofRegistry .warn
      s!"Ignoring a maximum call depth of 0, keeping {registry.maxCallDepth}"]
  else []

end ByteFormula.Log
