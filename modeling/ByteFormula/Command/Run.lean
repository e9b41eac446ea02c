import ByteFormula.Command.Options
import ByteFormula.Registry.Evaluate
import ByteFormula.Settings.Build
import ByteFormula.Text.Place

/-! What the commands print. -/
namespace ByteFormula.Command

/-- What a run leaves behind: its exit status, the text of its output, and the messages of its log
and its errors. -/
structure Report where
  status : Nat
  output : String
  messages : List String
  deriving DecidableEq, Repr

/-- The lines of the messages, of which one may quote a text of several lines. -/
def Report.messageLines (report : Report) : List String :=
  report.messages.flatMap fun message =>
    (Text.lines message.toList).map fun line => String.ofList (Text.dropReturn line)

/-- The result of an action: log entries, and either output or the lines of an error. -/
abbrev Result := Logged (Except (List String) String)

def failure (entries : List Log.Entry) (message : String) : Result :=
  ⟨entries, .error [s!"Error: {message}"]⟩

/-- A character in quotes, escaped if it could not be seen. The text is read byte by byte, so that
only the first 256 characters occur. -/
def quoted (c : UInt8) : String :=
  let n := c.toNat
  let body :=
    if n = 0 then "\\0"
    else if n = 9 then "\\t"
    else if n = 10 then "\\n"
    else if n = 13 then "\\r"
    else if n = 39 then "\\'"
    else if n = 92 then "\\\\"
    else if n < 0x20 ∨ (0x7f ≤ n ∧ n ≤ 0xa0) ∨ n = 0xad then
      "\\u\x7b" ++ String.ofList (Nat.toDigits 16 n) ++ "\x7d"
    else String.singleton (Char.ofNat n)
  "'" ++ body ++ "'"

def hexMessage : Hex.Fault → String
  | .oddLength => "Odd number of digits"
  | .invalidCharacter byte position =>
    s!"Invalid character {quoted byte} at position {position}"

def hexOperand (text : String) : Except String Bytes :=
  let digits := match text.toList with
    | '0' :: 'x' :: rest => rest
    | digits => digits
  match Hex.decode digits with
  | .ok bytes => .ok bytes
  | .error fault => .error (s!"invalid hex `{text}`: " ++ hexMessage fault)

def shown (bytes : Bytes) : String :=
  if bytes = [] then "nil" else "0x" ++ Hex.encode bytes

def runCompile (registry : Registry Unit) (source : String) : Result :=
  match registry.compile source with
  | .error e => failure [] e.message
  | .ok compiled =>
    ⟨Log.compiled source compiled.bytecode,
      .ok s!"{Hex.encode compiled.bytecode}\narguments: {compiled.numArgs}\n"⟩

def runDecompile (registry : Registry Unit) (digits : String) : Result :=
  match hexOperand digits with
  | .error message => failure [] message
  | .ok bytecode =>
    match registry.decode bytecode none with
    | .error e => failure [] e.message
    | .ok formula => ⟨[Log.decoded bytecode formula], .ok (registry.render formula ++ "\n")⟩

def runBytecode (registry : Registry Unit) (entries : List Log.Entry) (bytecode : Bytes)
    (args : List Bytes) : Result :=
  let entries := entries ++
    if Registry.maxTopLevelArguments < args.length then []
    else
      match registry.decode bytecode (some args.length) with
      | .error _ => []
      | .ok formula => [Log.decoded bytecode formula]
  match (registry.evaluateBytecode .none () bytecode args).1 with
  | .error e => failure entries e.message
  | .ok value => ⟨entries, .ok (shown value ++ "\n")⟩

/-- Prints the value of an expression or of a bytecode. The arguments are looked at first. -/
def runEval (registry : Registry Unit) (input : String) (isBytecode : Bool) (args : List String) :
    Result :=
  match args.mapM hexOperand with
  | .error message => failure [] message
  | .ok values =>
    if isBytecode then
      match hexOperand input with
      | .error message => failure [] message
      | .ok bytecode => runBytecode registry [] bytecode values
    else
      match registry.compile input with
      | .error e => failure [] e.message
      | .ok compiled =>
        runBytecode registry (Log.compiled input compiled.bytecode) compiled.bytecode values

def errorLine? : Error → Option Nat
  | .parse e => some e.line
  | .inDefinition _ line _ => some line
  | _ => none

/-- The lines of an error of a file of definitions: its message and the place of its line. -/
def checkReport (file source : String) (error : Error) : List String :=
  let place := match errorLine? error with
    | none => none
    | some line => Text.placeOfSpan source.toList (Text.lineSpan source.toList line)
  match place with
  | none => [s!"Error: {error.message}"]
  | some (row, column) => [s!"Error: {error.message}", s!"{file}:{row}:{column}"]

def runCheck (registry : Registry Unit) (file source : String) : Result :=
  let entries := Log.extended registry source
  match (registry.extendMany source).1 with
  | .ok indices => ⟨entries, .ok s!"{file}: {indices.length} definitions compiled\n"⟩
  | .error e => ⟨entries, .error (checkReport file source e ++ [s!"Error: {file} has errors"])⟩

def listLine (function : Function Unit) : String :=
  let code := toString function.code
  let source := match function.source with
    | some source => " = " ++ source
    | none => ""
  String.ofList (List.replicate (4 - code.length) ' ') ++ code ++
    s!"  {function.symbol}({function.arity.text})  {function.space.text}" ++ source ++ "\n"

def runList (registry : Registry Unit) : Result :=
  ⟨[], .ok (String.join (registry.functions.toList.map listLine) ++ registry.summary ++ "\n")⟩

variable {m : Type → Type} [Monad m]

def loadRegistry (read : String → m (Except FileFault String)) (config : Option String) :
    m (Logged (Except Error (Registry Unit))) := do
  match config with
  | none => return Registry.buildBase
  | some path =>
    match ← Settings.load read path with
    | .error e => return ⟨[], .error e⟩
    | .ok settings => Registry.ofSettings read settings

def runAction (read : String → m (Except FileFault String)) (registry : Registry Unit) :
    Action → m Result
  | .compile source => return runCompile registry source
  | .decompile digits => return runDecompile registry digits
  | .eval input isBytecode args => return runEval registry input isBytecode args
  | .list => return runList registry
  | .check file => do
    match ← read file with
    | .error e => return failure [] (s!"cannot read '{file}': " ++ e.message)
    | .ok source => return runCheck registry file source

def logLines (verbosity : Nat) (entries : List Log.Entry) : List String :=
  (entries.filter fun entry => entry.level.rank ≤ verbosity).map Log.Entry.line

def runInvocation (read : String → m (Except FileFault String)) (invocation : Invocation) :
    m Report := do
  let loaded ← loadRegistry read invocation.config
  let log := logLines invocation.verbosity
  match loaded.result with
  | .error e => return ⟨1, "", log loaded.entries ++ [s!"Error: {e.message}"]⟩
  | .ok registry =>
    let start : Log.Entry :=
      ⟨.debug, "easyfl", s!"Using library with {registry.summary}"⟩
    let done ← runAction read registry invocation.action
    let lines := log (loaded.entries ++ start :: done.entries)
    match done.result with
    | .ok output => return ⟨0, output, lines⟩
    | .error messages => return ⟨1, "", lines ++ messages⟩

def usage : String :=
"Usage: easyfl [--config FILE] [-v]... COMMAND

Commands:
  compile EXPRESSION     print the bytecode of an expression
  decompile BYTECODE     print the expression of a bytecode
  eval INPUT             print the value of an expression, or of a bytecode with --bytecode;
                         each --arg HEX binds the next argument
  check FILE             compile a file of definitions
  list                   print the functions of the library
"

def run (read : String → m (Except FileFault String)) (args : List String) : m Report :=
  match Request.ofArgs args with
  | .version => return ⟨0, "easyfl 0.1.0\n", []⟩
  | .help => return ⟨0, usage, []⟩
  | .misuse => return ⟨2, "", []⟩
  | .run invocation => runInvocation read invocation

end ByteFormula.Command
