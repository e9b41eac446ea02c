import ByteFormula.Code.Error
import ByteFormula.Code.Formula
import ByteFormula.Machine.Host
import ByteFormula.Source.Literal

/-! The registry of functions.

Functions are registered one after the other and never change afterwards. Each gets the next code
of its space, so the order of registration fixes all codes. -/
namespace ByteFormula

/-- What a function does: a program of the host, or a formula over functions registered before. -/
inductive Body (σ : Type) where
  | short (program : Host σ Bytes)
  | long (program : Host σ Bytes)
  | defined (formula : Formula) (bytecode : Bytes)

def Body.space {σ : Type} : Body σ → CodeSpace
  | .short _ => .embeddedShort
  | .long _ => .embeddedLong
  | .defined _ _ => .extended

/-- A registered function. Defined functions keep the text they were compiled from. -/
structure Function (σ : Type) where
  symbol : String
  code : Nat
  arity : Arity
  body : Body σ
  source : Option String

def Function.space {σ : Type} (function : Function σ) : CodeSpace :=
  function.body.space

def defaultMaxCallDepth : Nat := 512

/-- A table from keys to indices of functions. The latest entry for a key is the one that counts. -/
structure Index (κ : Type) where
  entries : List (κ × Nat)

namespace Index

variable {κ : Type} [DecidableEq κ]

def empty : Index κ :=
  ⟨[]⟩

def find? (table : Index κ) (key : κ) : Option Nat :=
  table.entries.lookup key

def insert (table : Index κ) (key : κ) (index : Nat) : Index κ :=
  ⟨(key, index) :: table.entries⟩

end Index

/-- The functions in order of registration, with a table of their names and one of their codes, and
the bound on nested calls. -/
structure Registry (σ : Type) where
  functions : Array (Function σ)
  names : Index String
  codes : Index Nat
  maxCallDepth : Nat

namespace Registry

variable {σ : Type}

def empty : Registry σ :=
  ⟨#[], .empty, .empty, defaultMaxCallDepth⟩

def size (registry : Registry σ) : Nat :=
  registry.functions.size

def setMaxCallDepth (registry : Registry σ) (depth : Nat) : Registry σ :=
  if depth = 0 then registry else { registry with maxCallDepth := depth }

def function? (registry : Registry σ) (index : Nat) : Option (Function σ) :=
  registry.functions[index]?

def lookup? {κ : Type} [DecidableEq κ] (registry : Registry σ) (table : Index κ) (key : κ) :
    Option (Nat × Function σ) :=
  match table.find? key with
  | none => none
  | some index => (registry.function? index).map fun function => (index, function)

def byName? (registry : Registry σ) (symbol : String) : Option (Nat × Function σ) :=
  registry.lookup? registry.names symbol

def byCode? (registry : Registry σ) (code : Nat) : Option (Nat × Function σ) :=
  registry.lookup? registry.codes code

def used (registry : Registry σ) (space : CodeSpace) : Nat :=
  registry.functions.toList.countP fun function => function.space == space

def nextCode (registry : Registry σ) (space : CodeSpace) : Except RegistryError Nat :=
  let used := registry.used space
  if space.capacity ≤ used then .error (.codeSpaceExhausted space) else .ok (space.first + used)

def vet (registry : Registry σ) (symbol : String) (arity : Arity) (space : CodeSpace) :
    Except RegistryError Unit :=
  if Literal.isReserved symbol then .error (.reservedSymbol symbol)
  else if (registry.names.find? symbol).isSome then .error (.duplicateSymbol symbol)
  else
    match arity with
    | .fixed count =>
      if maxCallArguments < count then .error (.arityTooLarge symbol count) else .ok ()
    | .variadic =>
      if space.allowsVariadic then .ok () else .error (.variadicNotAllowed symbol space)

/-- Registers a function: it is stored behind the others, and then entered in both tables. Returns
its index, and the registry as it is left, also if the function is refused. -/
def insert (registry : Registry σ) (symbol : String) (arity : Arity) (body : Body σ)
    (source : Option String) : Except RegistryError Nat × Registry σ :=
  match registry.vet symbol arity body.space with
  | .error e => (.error e, registry)
  | .ok _ =>
    match registry.nextCode body.space with
    | .error e => (.error e, registry)
    | .ok code =>
      let index := registry.size
      let registry :=
        { registry with functions := registry.functions.push ⟨symbol, code, arity, body, source⟩ }
      let registry := { registry with names := registry.names.insert symbol index }
      let registry := { registry with codes := registry.codes.insert code index }
      (.ok index, registry)

def embedShort (registry : Registry σ) (symbol : String) (arity : Nat) (program : Host σ Bytes) :
    Except RegistryError Nat × Registry σ :=
  registry.insert symbol (.fixed arity) (.short program) none

/-- Registers a host function that is called by two bytes and may be variadic. -/
def embedLong (registry : Registry σ) (symbol : String) (arity : Arity) (program : Host σ Bytes) :
    Except RegistryError Nat × Registry σ :=
  registry.insert symbol arity (.long program) none

/-- The index of the function for a call by name with a given number of arguments. -/
def resolve (registry : Registry σ) (symbol : String) (count : Nat) : Except CompileError Nat :=
  if maxCallArguments < count then .error (.tooManyArguments symbol count)
  else
    match registry.byName? symbol with
    | none => .error (.unknownSymbol symbol)
    | some (index, function) =>
      if function.arity.accepts count then .ok index
      else .error (.arityMismatch symbol function.arity count)

def summary (registry : Registry σ) : String :=
  let part (space : CodeSpace) : String :=
    s!"{registry.used space}/{space.capacity} {space.text}"
  s!"{registry.size} functions: " ++ ", ".intercalate (CodeSpace.all.map part)

end Registry
end ByteFormula
