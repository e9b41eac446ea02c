import ByteFormula.Files.Name
import ByteFormula.Registry.Basic
import ByteFormula.Registry.Error
import ByteFormula.Toml.Document

/-! How a registry is to be built. -/
namespace ByteFormula

/-- The bound on nested calls, whether the base definitions are wanted, and the files with more
definitions. -/
structure Settings where
  maxCallDepth : Nat := defaultMaxCallDepth
  includeBase : Bool := true
  extensions : List String := []
  deriving DecidableEq, Repr

namespace Settings

def strings : List Toml.Value → Option (List String)
  | [] => some []
  | .string s :: rest => (strings rest).map (s :: ·)
  | _ :: _ => none

/-- Takes in one setting. Unknown keys and values of another kind are refused. -/
def put (settings : Settings) (entry : String × Toml.Value) : Option Settings :=
  match entry with
  | ("max_call_depth", .integer n) =>
    if 0 ≤ n ∧ n < 0x10000000000000000 then some { settings with maxCallDepth := n.toNat } else none
  | ("include_base", .boolean b) => some { settings with includeBase := b }
  | ("extensions", .array items) =>
    (strings items).map fun names => { settings with extensions := names }
  | _ => none

def parse (text : String) : Option Settings :=
  match Toml.parse text with
  | none => none
  | some entries => entries.foldlM put {}

/-- Names of files in settings are meant relative to the directory of the file they stand in. -/
def relativeTo (settings : Settings) (path : String) : Settings :=
  match FileName.parent? path with
  | none => settings
  | some directory =>
    { settings with extensions := settings.extensions.map (FileName.join directory) }

def load {m : Type → Type} [Monad m] (read : String → m (Except FileFault String))
    (path : String) : m (Except Error Settings) := do
  match ← read path with
  | .error e => return .error (.file path e)
  | .ok text =>
    match parse text with
    | none => return .error (.settings path)
    | some settings => return .ok (settings.relativeTo path)

end Settings
end ByteFormula
