import ByteFormula.Machine.Surroundings
import ByteFormula.Registry.Basic

/-! Evaluation with arguments by need.

A call pushes a frame with the formulas of its arguments. An argument is evaluated when the callee
first asks for it, and its value stays in the frame. References in a formula lead to the frame of
the call whose definition the formula belongs to. -/
namespace ByteFormula

/-- An argument of a call: its formula, and its value once it has been asked for. -/
structure Slot where
  formula : Formula
  value : Option Bytes

/-- A call: its arguments, and the position of the frame that their references lead to. -/
structure Frame where
  slots : Array Slot
  scope : Nat

def Frame.ofArgs (args : List Formula) (scope : Nat) : Frame :=
  ⟨(args.map fun formula => ⟨formula, none⟩).toArray, scope⟩

/-- The stack of calls, the outermost first, and the state of the surroundings. -/
structure Machine (σ : Type) where
  frames : Array Frame
  state : σ

namespace Machine

variable {σ : Type}

/-- What an evaluation returns: a value or a fault, and the machine afterwards. -/
abbrev Outcome (σ : Type) := Except Fault Bytes × Machine σ

def store (machine : Machine σ) (position index : Nat) (value : Bytes) : Machine σ :=
  { machine with
    frames := machine.frames.modify position fun frame =>
      { frame with slots := frame.slots.modify index fun slot => { slot with value := some value } } }

def push (machine : Machine σ) (frame : Frame) : Machine σ :=
  { machine with frames := machine.frames.push frame }

def pop (machine : Machine σ) : Machine σ :=
  { machine with frames := machine.frames.pop }

/-- How a call is entered: the index of its function, its arguments and the position that their
references lead to. -/
abbrev Enter (σ : Type) := Nat → List Formula → Nat → Machine σ → Outcome σ

/-- Evaluates a formula whose references lead to the frame at `scope`. A reference to a reference
goes to a frame further out, so `reach` need only be the number of frames up to `scope`. -/
def evaluate (enter : Enter σ) : (reach scope : Nat) → Formula → Machine σ → Outcome σ
  | _, _, .data bytes, machine => (.ok bytes, machine)
  | _, scope, .call function args, machine => enter function args scope machine
  | 0, scope, .argument _, machine => (.error (Fault.ofKind (.noFrame scope)), machine)
  | reach + 1, scope, .argument index, machine =>
    match machine.frames[scope]? with
    | none => (.error (Fault.ofKind (.noFrame scope)), machine)
    | some frame =>
      match frame.slots[index]? with
      | none => (.error (Fault.ofKind (.argumentOutOfBounds index frame.slots.size)), machine)
      | some ⟨_, some value⟩ => (.ok value, machine)
      | some ⟨formula, none⟩ =>
        match evaluate enter reach frame.scope formula machine with
        | (.error fault, machine) => (.error fault, machine)
        | (.ok value, machine) => (.ok value, machine.store scope index value)

structure Desk (σ : Type) where
  argument : Nat → Machine σ → Outcome σ
  arity : Nat
  depth : Nat
  outline : Outline
  surroundings : Surroundings σ

def serve (desk : Desk σ) : Host σ Bytes → Machine σ → Outcome σ
  | .done value, machine => (.ok value, machine)
  | .raise fault, machine => (.error fault, machine)
  | .argument index next, machine =>
    match desk.argument index machine with
    | (answer, machine) => serve desk (next answer) machine
  | .arity next, machine => serve desk (next desk.arity) machine
  | .depth next, machine => serve desk (next desk.depth) machine
  | .outline next, machine => serve desk (next desk.outline) machine
  | .invocationPath next, machine =>
    serve desk (next desk.surroundings.invocationPath) machine
  | .bytesAt path next, machine =>
    match desk.surroundings.bytesAt path machine.state with
    | (answer, state) => serve desk (next answer) { machine with state := state }
  | .exchange change next, machine =>
    serve desk (next machine.state) { machine with state := change machine.state }

/-- Runs the body of a function whose frame is the last one of the machine. -/
def runBody (registry : Registry σ) (surroundings : Surroundings σ) (enter : Enter σ)
    (function : Function σ) (arity own : Nat) (machine : Machine σ) : Outcome σ :=
  let host (program : Host σ Bytes) : Outcome σ :=
    serve {
      argument := fun index => evaluate enter (own + 1) own (.argument index)
      arity := arity
      depth := own
      outline := ⟨registry.size, registry.maxCallDepth⟩
      surroundings := surroundings } program machine
  match function.body with
  | .short program => host program
  | .long program => host program
  | .defined formula _ => evaluate enter (own + 1) own formula machine

/-- Calls a function while `room` more calls may be nested. Faults get the name of the function
unless an inner one is named already. -/
def call (registry : Registry σ) (surroundings : Surroundings σ) : (room : Nat) → Enter σ
  | room, index, args, scope, machine =>
    match registry.function? index with
    | none => (.error (Fault.ofKind (.noFunction index)), machine)
    | some function =>
      match room with
      | 0 =>
        let fault := Fault.ofKind (.stackOverflow registry.maxCallDepth)
        (.error (fault.within function.symbol), machine)
      | room + 1 =>
        match runBody registry surroundings (call registry surroundings room) function args.length
            machine.frames.size (machine.push (Frame.ofArgs args scope)) with
        | (.ok value, machine) => (.ok value, machine.pop)
        | (.error fault, machine) => (.error (fault.within function.symbol), machine.pop)

end Machine
end ByteFormula
