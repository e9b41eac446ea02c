/-! The command line: options, a command and its operands. -/
namespace ByteFormula.Command

inductive Action where
  | compile (expression : String)
  | decompile (bytecode : String)
  | eval (input : String) (isBytecode : Bool) (args : List String)
  | check (file : String)
  | list
  deriving DecidableEq, Repr

/-- An action, the file with the settings of the registry, and how much is to be logged. -/
structure Invocation where
  config : Option String
  verbosity : Nat
  action : Action
  deriving DecidableEq, Repr

inductive Request where
  | run (invocation : Invocation)
  | version
  | help
  | misuse
  deriving DecidableEq, Repr

inductive Verb where
  | compile
  | decompile
  | eval
  | check
  | list
  deriving DecidableEq, Repr

def Verb.ofName? : String → Option Verb
  | "compile" => some .compile
  | "decompile" => some .decompile
  | "eval" => some .eval
  | "check" => some .check
  | "list" => some .list
  | _ => none

/-- The options and operands seen so far, either before the action's name or after it. -/
structure Seen where
  verb : Option Verb := none
  config : Option String := none
  verbosity : Nat := 0
  isBytecode : Bool := false
  args : List String := []
  operands : List String := []

inductive Word where
  | option (name : String) (value : Option String)
  | flags (letters : List Char)
  | plain

/-- Two dashes start an option, which may carry a value behind an equals sign; one dash starts
flags of one letter. A dash alone is plain. -/
def Word.ofText (text : String) : Word :=
  match text.toList with
  | '-' :: '-' :: rest =>
    let name := String.ofList (rest.takeWhile (· != '='))
    match rest.dropWhile (· != '=') with
    | [] => .option name none
    | _ :: value => .option name (some (String.ofList value))
  | '-' :: c :: rest => .flags (c :: rest)
  | _ => .plain

def isValue (text : String) : Bool :=
  match Word.ofText text with
  | .plain => true
  | _ => false

/-- Takes a flag of one letter. A flag may settle what the whole line asks for. -/
def Seen.flag (seen : Seen) (letter : Char) : Except Request Seen :=
  match letter, seen.verb with
  | 'v', _ => .ok { seen with verbosity := seen.verbosity + 1 }
  | 'h', _ => .error .help
  | 'V', none => .error .version
  | _, _ => .error .misuse

def Seen.switch (seen : Seen) (name : String) : Except Request Seen :=
  match name, seen.verb with
  | "verbose", _ => .ok { seen with verbosity := seen.verbosity + 1 }
  | "help", _ => .error .help
  | "version", none => .error .version
  | "bytecode", some .eval =>
    if seen.isBytecode then .error .misuse else .ok { seen with isBytecode := true }
  | _, _ => .error .misuse

def Seen.takesValue (seen : Seen) (name : String) : Bool :=
  name == "config" || (name == "arg" && seen.verb == some .eval)

/-- Takes an option with its value. A file needs a name and may be given once. -/
def Seen.option (seen : Seen) (name value : String) : Except Request Seen :=
  if name = "arg" then .ok { seen with args := seen.args ++ [value] }
  else if seen.config.isSome || value.isEmpty then .error .misuse
  else .ok { seen with config := some value }

/-- Takes an operand. Every action but the list has one, and a file needs a name. -/
def Seen.operand (seen : Seen) (text : String) : Except Request Seen :=
  let free := seen.operands.isEmpty && match seen.verb with
    | none => false
    | some .list => false
    | some .check => !text.isEmpty
    | some _ => true
  if free then .ok { seen with operands := [text] } else .error .misuse

def Seen.action? (seen : Seen) : Option Action :=
  match seen.verb, seen.operands with
  | some .compile, [expression] => some (.compile expression)
  | some .decompile, [bytecode] => some (.decompile bytecode)
  | some .eval, [input] => some (.eval input seen.isBytecode seen.args)
  | some .check, [file] => some (.check file)
  | some .list, [] => some .list
  | _, _ => none

inductive Mode where
  | anything
  /-- Operands only: two dashes have stood alone. -/
  | operands
  /-- The value of an option. -/
  | value (option : String)
  /-- The command that help is asked for, if any. -/
  | topic
  /-- Nothing: help is asked for a command. -/
  | nothing
  deriving DecidableEq, Repr

structure Reading where
  /-- What stood before the action's name. -/
  before : Seen := {}
  seen : Seen := {}
  mode : Mode := .anything

def Reading.word (reading : Reading) (text : String) : Except Request Reading :=
  let seen := reading.seen
  let goOn (result : Except Request Seen) : Except Request Reading :=
    result.map fun seen => { reading with seen := seen }
  match Word.ofText text with
  | .plain => goOn (seen.operand text)
  | .flags letters => goOn (letters.foldlM Seen.flag seen)
  | .option "" none => .ok { reading with mode := .operands }
  | .option name (some value) =>
    if seen.takesValue name then goOn (seen.option name value) else .error .misuse
  | .option name none =>
    if seen.takesValue name then .ok { reading with mode := .value name }
    else goOn (seen.switch name)

def isTopic (text : String) : Bool :=
  text == "help" || (Verb.ofName? text).isSome

def Reading.step (reading : Reading) (text : String) : Except Request Reading :=
  match reading.mode with
  | .value name =>
    if isValue text then
      (reading.seen.option name text).map fun seen =>
        { reading with seen := seen, mode := .anything }
    else .error .misuse
  | .operands => (reading.seen.operand text).map fun seen => { reading with seen := seen }
  | .topic => if isTopic text then .ok { reading with mode := .nothing } else .error .misuse
  | .nothing => .error .misuse
  | .anything =>
    match reading.seen.verb, Verb.ofName? text with
    | none, some verb => .ok { before := reading.seen, seen := { verb := some verb } }
    | none, none =>
      if text = "help" then .ok { reading with mode := .topic } else reading.word text
    | some _, _ => reading.word text

/-- The invocation at the end of a line. Options after the action's name win over those before
it. -/
def Reading.invocation? (reading : Reading) : Option Invocation :=
  reading.seen.action?.map fun action =>
    let verbosity :=
      if reading.seen.verbosity = 0 then reading.before.verbosity else reading.seen.verbosity
    ⟨reading.seen.config.or reading.before.config, verbosity, action⟩

def Reading.finish (reading : Reading) : Request :=
  match reading.mode, reading.invocation? with
  | .topic, _ => .help
  | .nothing, _ => .help
  | .value _, _ => .misuse
  | _, some invocation => .run invocation
  | _, none => .misuse

def Request.ofArgs (args : List String) : Request :=
  match args.foldlM Reading.step {} with
  | .error request => request
  | .ok reading => reading.finish

end ByteFormula.Command
