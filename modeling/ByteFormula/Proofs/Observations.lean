import ByteFormula.Proofs.Frames
import ByteFormula.Proofs.Meaning
import ByteFormula.Registry.Evaluate

/-! What can be observed while an evaluation goes on: what it looks up on the stack and among the
functions, and what happens to calls and their arguments. Each part of the evaluator has a companion
that lists what is observed in it, and lookups and events are the two sides of that one list. -/
namespace ByteFormula

variable {σ : Type}

inductive Lookup where
  | frame (position : Nat)
  /-- An argument of a call, with the value that is kept for it. -/
  | slot (position index : Nat)
  | function (index : Nat)
  /-- A reference at the end of the reach, which is not followed. -/
  | unreached

structure Moment where
  lookup : Lookup
  frames : Stack

/-- Something that happens in an evaluation. Calls are told apart by numbers, here by their positions
on the stack. -/
inductive Event where
  /-- A call is entered. The references of its arguments lead to the call `scope`. -/
  | enter (call function : Nat) (args : List Formula) (scope : Nat)
  | leave (call : Nat)
  /-- The program of a host function asks for an argument of its call. -/
  | ask (call index : Nat)
  /-- The evaluation of the formula of an argument starts. -/
  | start (call index : Nat)
  | keep (call index : Nat) (value : Bytes)
  /-- A fault has come out of the formula of an argument. -/
  | abandon (call index : Nat)

inductive Observation where
  | look (moment : Moment)
  | happen (event : Event)

def Observation.moment? : Observation → Option Moment
  | .look moment => some moment
  | .happen _ => none

def Observation.event? : Observation → Option Event
  | .look _ => none
  | .happen event => some event

def looks (observed : List Observation) : List Moment :=
  observed.filterMap Observation.moment?

def happenings (observed : List Observation) : List Event :=
  observed.filterMap Observation.event?

section

variable (moment : Moment) (event : Event) (observed rest : List Observation)

@[simp] theorem looks_append : looks (observed ++ rest) = looks observed ++ looks rest :=
  List.filterMap_append

@[simp] theorem happenings_nil : happenings [] = [] := rfl

@[simp] theorem happenings_look : happenings (.look moment :: observed) = happenings observed := rfl

@[simp] theorem happenings_happen :
    happenings (.happen event :: observed) = event :: happenings observed := rfl

@[simp] theorem happenings_append :
    happenings (observed ++ rest) = happenings observed ++ happenings rest :=
  List.filterMap_append

end

namespace Machine

def depth (machine : Machine σ) : Nat :=
  machine.frames.size - 1

def looksUp (machine : Machine σ) (lookup : Lookup) : Moment :=
  ⟨lookup, machine.frames⟩

abbrev Observed (σ : Type) := Nat → List Formula → Nat → Machine σ → List Observation

/-- What is observed in `evaluate`. The frame and the argument of a reference are looked up a second
time to keep the value. -/
def observeEvaluate (enter : Enter σ) (entered : Observed σ) :
    (reach scope : Nat) → Formula → Machine σ → List Observation
  | _, _, .data _, _ => []
  | _, scope, .call function args, machine => entered function args scope machine
  | 0, _, .argument _, machine => [.look (machine.looksUp .unreached)]
  | reach + 1, scope, .argument index, machine =>
    .look (machine.looksUp (.frame scope)) ::
      match machine.frames[scope]? with
      | none => []
      | some frame =>
        .look (machine.looksUp (.slot scope index)) ::
          match frame.slots[index]? with
          | none => []
          | some ⟨_, some _⟩ => []
          | some ⟨formula, none⟩ =>
            .happen (.start scope index) ::
              observeEvaluate enter entered reach frame.scope formula machine ++
              match evaluate enter reach frame.scope formula machine with
              | (.error _, _) => [.happen (.abandon scope index)]
              | (.ok value, after) =>
                [.look (after.looksUp (.frame scope)), .look (after.looksUp (.slot scope index)),
                  .happen (.keep scope index value)]

def observeServe (desk : Desk σ) (asked : Nat → Machine σ → List Observation) :
    Host σ Bytes → Machine σ → List Observation
  | .done _, _ => []
  | .raise _, _ => []
  | .argument index next, machine =>
    .happen (.ask machine.depth index) :: asked index machine ++
      match desk.argument index machine with
      | (answer, machine) => observeServe desk asked (next answer) machine
  | .arity next, machine => observeServe desk asked (next desk.arity) machine
  | .depth next, machine => observeServe desk asked (next desk.depth) machine
  | .outline next, machine => observeServe desk asked (next desk.outline) machine
  | .invocationPath next, machine =>
    observeServe desk asked (next desk.surroundings.invocationPath) machine
  | .bytesAt path next, machine =>
    match desk.surroundings.bytesAt path machine.state with
    | (answer, state) => observeServe desk asked (next answer) { machine with state := state }
  | .exchange change next, machine =>
    observeServe desk asked (next machine.state) { machine with state := change machine.state }

def Desk.ofCall (registry : Registry σ) (surroundings : Surroundings σ) (enter : Enter σ)
    (arity own : Nat) : Desk σ where
  argument index := evaluate enter (own + 1) own (.argument index)
  arity := arity
  depth := own
  outline := ⟨registry.size, registry.maxCallDepth⟩
  surroundings := surroundings

def observeBody (registry : Registry σ) (surroundings : Surroundings σ) (enter : Enter σ)
    (entered : Observed σ) (function : Function σ) (arity own : Nat) (machine : Machine σ) :
    List Observation :=
  match function.body with
  | .short program | .long program =>
    observeServe (.ofCall registry surroundings enter arity own)
      (fun index => observeEvaluate enter entered (own + 1) own (.argument index)) program machine
  | .defined formula _ => observeEvaluate enter entered (own + 1) own formula machine

def observeCall (registry : Registry σ) (surroundings : Surroundings σ) :
    (room : Nat) → Observed σ
  | room, index, args, scope, machine =>
    .look (machine.looksUp (.function index)) ::
      match registry.function? index with
      | none => []
      | some function =>
        match room with
        | 0 => []
        | room + 1 =>
          .happen (.enter machine.frames.size index args scope) ::
            observeBody registry surroundings (call registry surroundings room)
              (observeCall registry surroundings room) function args.length machine.frames.size
              (machine.push (Frame.ofArgs args scope)) ++ [.happen (.leave machine.frames.size)]

/-- Embedded functions with a short and with a long code run alike. -/
theorem runBody_host (registry : Registry σ) (surroundings : Surroundings σ) (enter : Enter σ)
    (entered : Observed σ) {function : Function σ} {program : Host σ Bytes}
    (h : function.body.program? = some program) (arity own : Nat) (machine : Machine σ) :
    runBody registry surroundings enter function arity own machine =
        serve (.ofCall registry surroundings enter arity own) program machine ∧
      observeBody registry surroundings enter entered function arity own machine =
        observeServe (.ofCall registry surroundings enter arity own)
          (fun index => observeEvaluate enter entered (own + 1) own (.argument index)) program
          machine := by
  unfold runBody observeBody
  cases hbody : function.body with
  | short found | long found =>
    rw [hbody] at h
    cases h
    exact ⟨rfl, rfl⟩
  | defined formula bytecode =>
    rw [hbody] at h
    cases h

def start (state : σ) (args : List Bytes) : Machine σ :=
  ⟨#[Frame.ofArgs (args.map Formula.data) 0], state⟩

end Machine

namespace Registry

def observations (registry : Registry σ) (surroundings : Surroundings σ) (state : σ)
    (formula : Formula) (args : List Bytes) : List Observation :=
  Machine.observeEvaluate (Machine.call registry surroundings registry.maxCallDepth)
    (Machine.observeCall registry surroundings registry.maxCallDepth) 1 0 formula
    (.start state args)

/-- The lookups of an evaluation in their order. -/
def trail (registry : Registry σ) (surroundings : Surroundings σ) (state : σ) (formula : Formula)
    (args : List Bytes) : List Moment :=
  looks (registry.observations surroundings state formula args)

/-- What happens in an evaluation. -/
def events (registry : Registry σ) (surroundings : Surroundings σ) (state : σ) (formula : Formula)
    (args : List Bytes) : List Event :=
  happenings (registry.observations surroundings state formula args)

end Registry
end ByteFormula
