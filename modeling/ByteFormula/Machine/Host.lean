import ByteFormula.Machine.Fault

/-! Host functions as programs of requests.

A host function never touches the machine. It asks for what it needs, one request at a time, and
goes on with the answer: the value of an argument, the shape of its call, the data around the
evaluation, or the host's own state. What it may ask for is thereby visible in its program. -/
namespace ByteFormula

structure Outline where
  functions : Nat
  maxCallDepth : Nat
  deriving DecidableEq, Repr

/-- A program with a state of type `σ` to share and a result of type `α`. -/
inductive Host (σ : Type) (α : Type) : Type where
  | done (value : α)
  | raise (fault : Fault)
  /-- The value of an argument of the call, or the fault that came out of it. -/
  | argument (index : Nat) (next : Except Fault Bytes → Host σ α)
  /-- The number of arguments of the call. -/
  | arity (next : Nat → Host σ α)
  /-- How many calls are going on, this one included. -/
  | depth (next : Nat → Host σ α)
  | outline (next : Outline → Host σ α)
  /-- The path of the constraint that is evaluated. -/
  | invocationPath (next : Option Path → Host σ α)
  /-- The bytes at a path of the data around the evaluation. -/
  | bytesAt (path : Path) (next : Except FaultKind Bytes → Host σ α)
  /-- Changes the shared state and returns what it was. -/
  | exchange (change : σ → σ) (next : σ → Host σ α)

namespace Host

variable {σ α β : Type}

def bind : Host σ α → (α → Host σ β) → Host σ β
  | .done value, f => f value
  | .raise fault, _ => .raise fault
  | .argument index next, f => .argument index fun answer => (next answer).bind f
  | .arity next, f => .arity fun answer => (next answer).bind f
  | .depth next, f => .depth fun answer => (next answer).bind f
  | .outline next, f => .outline fun answer => (next answer).bind f
  | .invocationPath next, f => .invocationPath fun answer => (next answer).bind f
  | .bytesAt path next, f => .bytesAt path fun answer => (next answer).bind f
  | .exchange change next, f => .exchange change fun answer => (next answer).bind f

instance : Monad (Host σ) where
  pure := .done
  bind := bind

def fail (kind : FaultKind) : Host σ α :=
  .raise (Fault.ofKind kind)

def lift : Except FaultKind α → Host σ α
  | .ok value => .done value
  | .error kind => fail kind

def arg (index : Nat) : Host σ Bytes :=
  .argument index fun
    | .ok value => .done value
    | .error fault => .raise fault

def argIsTrue (index : Nat) : Host σ Bool := do
  return !(← arg index).isEmpty

def argsFrom (first : Nat) : (count : Nat) → Host σ (List Bytes)
  | 0 => return []
  | count + 1 => do
    let value ← arg first
    return value :: (← argsFrom (first + 1) count)

def allArgs : Host σ (List Bytes) :=
  .arity fun count => argsFrom 0 count

end Host
end ByteFormula
