import ByteFormula.Proofs.Observations

/-! Executions: the rules by which an evaluation goes, and what happens in it one after the other.

The rules know no measure that could run out. An evaluation that they describe has come to its end
by finitely many of them, so that the evaluator follows them says that it always does. -/
namespace ByteFormula

variable {σ : Type}

namespace Machine

inductive Task (σ : Type) where
  | evaluate (scope : Nat) (formula : Formula)
  /-- To get the value of an argument of the call at a position. -/
  | force (position index : Nat)
  | call (function : Nat) (args : List Formula) (scope : Nat)
  /-- To run the program of the innermost call. -/
  | serve (program : Host σ Bytes)

def Task.Placed (frames : Stack) : Task σ → Prop
  | .evaluate scope _ => scope < frames.size
  | .call _ _ scope => scope < frames.size
  | .force _ _ | .serve _ => True

def Task.Serves (condition : Host σ Bytes → Prop) : Task σ → Prop
  | .serve program => condition program
  | _ => True

/-- The body of a definition refers to the frame of its own call. -/
theorem Task.placed_body (machine : Machine σ) (frame : Frame) (formula : Formula) :
    (Task.evaluate machine.frames.size formula : Task σ).Placed (machine.push frame).frames :=
  Nat.lt_of_lt_of_eq (Nat.lt_succ_self _) (Array.size_push ..).symm

/-- The rules of evaluation. A task is done by a machine, with what happens on the way and with an
outcome. -/
inductive Runs (registry : Registry σ) (surroundings : Surroundings σ) :
    Task σ → Machine σ → List Event → Outcome σ → Prop where
  | data {scope : Nat} {bytes : Bytes} {machine : Machine σ} :
      Runs registry surroundings (.evaluate scope (.data bytes)) machine [] (.ok bytes, machine)
  | reference {scope index : Nat} {machine : Machine σ} {events : List Event} {outcome : Outcome σ}
      (h : Runs registry surroundings (.force scope index) machine events outcome) :
      Runs registry surroundings (.evaluate scope (.argument index)) machine events outcome
  | callee {scope function : Nat} {args : List Formula} {machine : Machine σ} {events : List Event}
      {outcome : Outcome σ}
      (h : Runs registry surroundings (.call function args scope) machine events outcome) :
      Runs registry surroundings (.evaluate scope (.call function args)) machine events outcome
  /-- The call has no such argument. -/
  | missing {position index : Nat} {machine : Machine σ} {frame : Frame}
      (hframe : machine.frames[position]? = some frame) (hslot : frame.slots[index]? = none) :
      Runs registry surroundings (.force position index) machine []
        (.error (Fault.ofKind (.argumentOutOfBounds index frame.slots.size)), machine)
  /-- The argument has been asked for before. -/
  | kept {position index : Nat} {machine : Machine σ} {frame : Frame} {formula : Formula}
      {value : Bytes} (hframe : machine.frames[position]? = some frame)
      (hslot : frame.slots[index]? = some ⟨formula, some value⟩) :
      Runs registry surroundings (.force position index) machine [] (.ok value, machine)
  | value {position index : Nat} {machine after : Machine σ} {frame : Frame} {formula : Formula}
      {events : List Event} {value : Bytes} (hframe : machine.frames[position]? = some frame)
      (hslot : frame.slots[index]? = some ⟨formula, none⟩)
      (h : Runs registry surroundings (.evaluate frame.scope formula) machine events
        (.ok value, after)) :
      Runs registry surroundings (.force position index) machine
        (.start position index :: events ++ [.keep position index value])
        (.ok value, after.store position index value)
  /-- Faults are not kept. -/
  | fault {position index : Nat} {machine after : Machine σ} {frame : Frame} {formula : Formula}
      {events : List Event} {fault : Fault} (hframe : machine.frames[position]? = some frame)
      (hslot : frame.slots[index]? = some ⟨formula, none⟩)
      (h : Runs registry surroundings (.evaluate frame.scope formula) machine events
        (.error fault, after)) :
      Runs registry surroundings (.force position index) machine
        (.start position index :: events ++ [.abandon position index]) (.error fault, after)
  | unknown {index scope : Nat} {args : List Formula} {machine : Machine σ}
      (hfunction : registry.function? index = none) :
      Runs registry surroundings (.call index args scope) machine []
        (.error (Fault.ofKind (.noFunction index)), machine)
  /-- As many calls are nested as may be. -/
  | refused {index scope : Nat} {args : List Formula} {machine : Machine σ} {function : Function σ}
      (hfunction : registry.function? index = some function)
      (hdeep : registry.maxCallDepth ≤ machine.depth) :
      Runs registry surroundings (.call index args scope) machine []
        (.error ((Fault.ofKind (.stackOverflow registry.maxCallDepth)).within function.symbol),
          machine)
  | program {index scope : Nat} {args : List Formula} {machine after : Machine σ}
      {function : Function σ} {program : Host σ Bytes} {events : List Event} {result : Result}
      (hfunction : registry.function? index = some function)
      (hroom : machine.depth < registry.maxCallDepth)
      (hprogram : function.body.program? = some program)
      (h : Runs registry surroundings (.serve program) (machine.push (Frame.ofArgs args scope))
        events (result, after)) :
      Runs registry surroundings (.call index args scope) machine
        (.enter machine.frames.size index args scope :: events ++ [.leave machine.frames.size])
        (result.named function.symbol, after.pop)
  | definition {index scope : Nat} {args : List Formula} {machine after : Machine σ}
      {function : Function σ} {formula : Formula} {bytecode : Bytes} {events : List Event}
      {result : Result} (hfunction : registry.function? index = some function)
      (hroom : machine.depth < registry.maxCallDepth)
      (hbody : function.body = .defined formula bytecode)
      (h : Runs registry surroundings (.evaluate machine.frames.size formula)
        (machine.push (Frame.ofArgs args scope)) events (result, after)) :
      Runs registry surroundings (.call index args scope) machine
        (.enter machine.frames.size index args scope :: events ++ [.leave machine.frames.size])
        (result.named function.symbol, after.pop)
  | done {value : Bytes} {machine : Machine σ} :
      Runs registry surroundings (.serve (.done value)) machine [] (.ok value, machine)
  | raise {fault : Fault} {machine : Machine σ} :
      Runs registry surroundings (.serve (.raise fault)) machine [] (.error fault, machine)
  | ask {index : Nat} {next : Result → Host σ Bytes} {machine middle : Machine σ}
      {events rest : List Event} {answer : Result} {outcome : Outcome σ}
      (hanswer : Runs registry surroundings (.force machine.depth index) machine events
        (answer, middle))
      (h : Runs registry surroundings (.serve (next answer)) middle rest outcome) :
      Runs registry surroundings (.serve (.argument index next)) machine
        (.ask machine.depth index :: events ++ rest) outcome
  | arity {next : Nat → Host σ Bytes} {machine : Machine σ} {frame : Frame} {events : List Event}
      {outcome : Outcome σ} (hframe : machine.frames.back? = some frame)
      (h : Runs registry surroundings (.serve (next frame.slots.size)) machine events outcome) :
      Runs registry surroundings (.serve (.arity next)) machine events outcome
  | depth {next : Nat → Host σ Bytes} {machine : Machine σ} {events : List Event}
      {outcome : Outcome σ}
      (h : Runs registry surroundings (.serve (next machine.depth)) machine events outcome) :
      Runs registry surroundings (.serve (.depth next)) machine events outcome
  | outline {next : Outline → Host σ Bytes} {machine : Machine σ} {events : List Event}
      {outcome : Outcome σ}
      (h : Runs registry surroundings (.serve (next ⟨registry.size, registry.maxCallDepth⟩)) machine
        events outcome) :
      Runs registry surroundings (.serve (.outline next)) machine events outcome
  | invocationPath {next : Option Path → Host σ Bytes} {machine : Machine σ} {events : List Event}
      {outcome : Outcome σ}
      (h : Runs registry surroundings (.serve (next surroundings.invocationPath)) machine events
        outcome) :
      Runs registry surroundings (.serve (.invocationPath next)) machine events outcome
  | bytesAt {path : Path} {next : Except FaultKind Bytes → Host σ Bytes} {machine : Machine σ}
      {events : List Event} {outcome : Outcome σ}
      (h : Runs registry surroundings (.serve (next (surroundings.bytesAt path machine.state).1))
        { machine with state := (surroundings.bytesAt path machine.state).2 } events outcome) :
      Runs registry surroundings (.serve (.bytesAt path next)) machine events outcome
  | exchange {change : σ → σ} {next : σ → Host σ Bytes} {machine : Machine σ}
      {events : List Event} {outcome : Outcome σ}
      (h : Runs registry surroundings (.serve (next machine.state))
        { machine with state := change machine.state } events outcome) :
      Runs registry surroundings (.serve (.exchange change next)) machine events outcome

section

variable {registry : Registry σ} {surroundings : Surroundings σ} {task : Task σ}
  {machine : Machine σ} {events : List Event} {outcome : Outcome σ}

/-- Whatever is done, the frames stay in place and lose no value. -/
theorem Runs.fills (h : Runs registry surroundings task machine events outcome) :
    Stack.Fills machine.frames outcome.2.frames := by
  induction h with
  | data => exact .refl _
  | reference _ ih => exact ih
  | callee _ ih => exact ih
  | missing _ _ => exact .refl _
  | kept _ _ => exact .refl _
  | value hframe hslot _ ih => exact fills_store ih ⟨_, _, hframe, hslot⟩ _
  | fault _ _ _ ih => exact ih
  | unknown _ => exact .refl _
  | refused _ _ => exact .refl _
  | program _ _ _ _ ih => exact ih.pop
  | definition _ _ _ _ ih => exact ih.pop
  | done => exact .refl _
  | raise => exact .refl _
  | ask _ _ ihanswer ih => exact ihanswer.trans ih
  | arity _ _ ih => exact ih
  | depth _ ih => exact ih
  | outline _ ih => exact ih
  | invocationPath _ ih => exact ih
  | bytesAt _ ih => exact ih
  | exchange _ ih => exact ih

section

variable {position index scope : Nat} {args : List Formula} {frame : Frame} {formula : Formula}
  {function : Function σ}

private theorem Runs.of_missing
    (h : Runs registry surroundings (.force position index) machine events outcome)
    (hframe : machine.frames[position]? = some frame) (hslot : frame.slots[index]? = none) :
    events = [] ∧ outcome =
      (.error (Fault.ofKind (.argumentOutOfBounds index frame.slots.size)), machine) := by
  cases h with
  | missing hframe' hslot' =>
    cases hframe.symm.trans hframe'
    exact ⟨rfl, rfl⟩
  | kept hframe' hslot' | value hframe' hslot' | fault hframe' hslot' =>
    cases hframe.symm.trans hframe'
    cases hslot.symm.trans hslot'

private theorem Runs.of_kept
    (h : Runs registry surroundings (.force position index) machine events outcome)
    (hframe : machine.frames[position]? = some frame) {value : Bytes}
    (hslot : frame.slots[index]? = some ⟨formula, some value⟩) :
    events = [] ∧ outcome = (.ok value, machine) := by
  cases h with
  | kept hframe' hslot' =>
    cases hframe.symm.trans hframe'
    cases hslot.symm.trans hslot'
    exact ⟨rfl, rfl⟩
  | missing hframe' hslot' | value hframe' hslot' | fault hframe' hslot' =>
    cases hframe.symm.trans hframe'
    cases hslot.symm.trans hslot'

private def closing (position index : Nat) : Outcome σ → Event × Outcome σ
  | (.ok value, after) =>
    (.keep position index value, .ok value, after.store position index value)
  | (.error fault, after) => (.abandon position index, .error fault, after)

private theorem Runs.of_started
    (h : Runs registry surroundings (.force position index) machine events outcome)
    (hframe : machine.frames[position]? = some frame)
    (hslot : frame.slots[index]? = some ⟨formula, none⟩) :
    ∃ inner reached,
      Runs registry surroundings (.evaluate frame.scope formula) machine inner reached ∧
      events = .start position index :: inner ++ [(closing position index reached).1] ∧
      outcome = (closing position index reached).2 := by
  cases h with
  | value hframe' hslot' h | fault hframe' hslot' h =>
    cases hframe.symm.trans hframe'
    cases hslot.symm.trans hslot'
    exact ⟨_, _, h, rfl, rfl⟩
  | missing hframe' hslot' | kept hframe' hslot' =>
    cases hframe.symm.trans hframe'
    cases hslot.symm.trans hslot'

private theorem Runs.of_unknown
    (h : Runs registry surroundings (.call index args scope) machine events outcome)
    (hfunction : registry.function? index = none) :
    events = [] ∧ outcome = (.error (Fault.ofKind (.noFunction index)), machine) := by
  cases h with
  | unknown _ => exact ⟨rfl, rfl⟩
  | refused hfunction' | program hfunction' | definition hfunction' =>
    cases hfunction.symm.trans hfunction'

private theorem Runs.of_refused
    (h : Runs registry surroundings (.call index args scope) machine events outcome)
    (hfunction : registry.function? index = some function)
    (hdeep : registry.maxCallDepth ≤ machine.depth) :
    events = [] ∧ outcome =
      (.error ((Fault.ofKind (.stackOverflow registry.maxCallDepth)).within function.symbol),
        machine) := by
  cases h with
  | unknown hfunction' => cases hfunction.symm.trans hfunction'
  | refused hfunction' _ =>
    cases hfunction.symm.trans hfunction'
    exact ⟨rfl, rfl⟩
  | program _ hroom | definition _ hroom => exact absurd hdeep (Nat.not_le_of_lt hroom)

private def bodyTask (own : Nat) (function : Function σ) : Task σ :=
  match function.body with
  | .short program | .long program => .serve program
  | .defined formula _ => .evaluate own formula

private theorem bodyTask_program {program : Host σ Bytes}
    (h : function.body.program? = some program) (own : Nat) :
    bodyTask own function = .serve program := by
  unfold bodyTask
  cases hbody : function.body with
  | short found | long found =>
    rw [hbody] at h
    cases h
    rfl
  | defined formula bytecode =>
    rw [hbody] at h
    cases h

private theorem bodyTask_defined {bytecode : Bytes}
    (h : function.body = .defined formula bytecode) (own : Nat) :
    bodyTask own function = .evaluate own formula := by
  rw [bodyTask, h]

private theorem Runs.of_entered
    (h : Runs registry surroundings (.call index args scope) machine events outcome)
    (hfunction : registry.function? index = some function)
    (hroom : machine.depth < registry.maxCallDepth) :
    ∃ inner reached,
      Runs registry surroundings (bodyTask machine.frames.size function)
        (machine.push (Frame.ofArgs args scope)) inner reached ∧
      events =
        .enter machine.frames.size index args scope :: inner ++ [.leave machine.frames.size] ∧
      outcome = (Result.named function.symbol reached.1, reached.2.pop) := by
  cases h with
  | unknown hfunction' => cases hfunction.symm.trans hfunction'
  | refused _ hdeep => exact absurd hdeep (Nat.not_le_of_lt hroom)
  | program hfunction' _ hprogram h =>
    cases hfunction.symm.trans hfunction'
    rw [← bodyTask_program hprogram machine.frames.size] at h
    exact ⟨_, _, h, rfl, rfl⟩
  | definition hfunction' _ hbody h =>
    cases hfunction.symm.trans hfunction'
    rw [← bodyTask_defined hbody machine.frames.size] at h
    exact ⟨_, _, h, rfl, rfl⟩

end

/-- There is one way only in which a task can be done. -/
theorem Runs.unique (h : Runs registry surroundings task machine events outcome)
    {others : List Event} {other : Outcome σ}
    (h' : Runs registry surroundings task machine others other) :
    others = events ∧ other = outcome := by
  induction h generalizing others other with
  | data | done | raise =>
    cases h'
    exact ⟨rfl, rfl⟩
  | reference _ ih =>
    cases h' with
    | reference h' => exact ih h'
  | callee _ ih =>
    cases h' with
    | callee h' => exact ih h'
  | missing hframe hslot => exact h'.of_missing hframe hslot
  | kept hframe hslot => exact h'.of_kept hframe hslot
  | value hframe hslot _ ih | fault hframe hslot _ ih =>
    obtain ⟨inner, reached, hinner, rfl, rfl⟩ := h'.of_started hframe hslot
    obtain ⟨rfl, rfl⟩ := ih hinner
    exact ⟨rfl, rfl⟩
  | unknown hfunction => exact h'.of_unknown hfunction
  | refused hfunction hdeep => exact h'.of_refused hfunction hdeep
  | program hfunction hroom hprogram _ ih =>
    obtain ⟨inner, reached, hinner, rfl, rfl⟩ := h'.of_entered hfunction hroom
    rw [bodyTask_program hprogram] at hinner
    obtain ⟨rfl, rfl⟩ := ih hinner
    exact ⟨rfl, rfl⟩
  | definition hfunction hroom hbody _ ih =>
    obtain ⟨inner, reached, hinner, rfl, rfl⟩ := h'.of_entered hfunction hroom
    rw [bodyTask_defined hbody] at hinner
    obtain ⟨rfl, rfl⟩ := ih hinner
    exact ⟨rfl, rfl⟩
  | ask _ _ ihanswer ih =>
    cases h' with
    | ask hanswer' h' =>
      obtain ⟨rfl, heq⟩ := ihanswer hanswer'
      cases heq
      obtain ⟨rfl, rfl⟩ := ih h'
      exact ⟨rfl, rfl⟩
  | arity hframe _ ih =>
    cases h' with
    | arity hframe' h' =>
      cases hframe.symm.trans hframe'
      exact ih h'
  | depth _ ih =>
    cases h' with
    | depth h' => exact ih h'
  | outline _ ih =>
    cases h' with
    | outline h' => exact ih h'
  | invocationPath _ ih =>
    cases h' with
    | invocationPath h' => exact ih h'
  | bytesAt _ ih =>
    cases h' with
    | bytesAt h' => exact ih h'
  | exchange _ ih =>
    cases h' with
    | exchange h' => exact ih h'

end

/-- References of the machine lead outwards, and `room` more calls may be nested. -/
structure Ready (registry : Registry σ) (room : Nat) (machine : Machine σ) : Prop where
  ordered : Stack.Ordered machine.frames
  room : room + machine.frames.size = registry.maxCallDepth + 1

def Follows (registry : Registry σ) (surroundings : Surroundings σ) (room : Nat)
    (enter : Enter σ) (entered : Observed σ) : Prop :=
  ∀ ⦃function args scope machine⦄, Ready registry room machine → scope < machine.frames.size →
    Runs registry surroundings (.call function args scope) machine
      (happenings (entered function args scope machine)) (enter function args scope machine)

section

variable {registry : Registry σ} {surroundings : Surroundings σ} {room : Nat}
  {machine after : Machine σ}

theorem Ready.fills (h : Ready registry room machine)
    (hfills : Stack.Fills machine.frames after.frames) : Ready registry room after :=
  ⟨hfills.ordered h.ordered, by rw [hfills.size]; exact h.room⟩

theorem Ready.push (h : Ready registry (room + 1) machine) {scope : Nat}
    (hscope : scope < machine.frames.size) (args : List Formula) :
    Ready registry room (machine.push (Frame.ofArgs args scope)) := by
  refine ⟨h.ordered.push hscope args, ?_⟩
  have hroom := h.room
  simp only [Machine.push, Array.size_push]
  omega

private theorem evaluate_runs {enter : Enter σ} {entered : Observed σ}
    (henter : Follows registry surroundings room enter entered) {reach scope : Nat}
    {formula : Formula} (hready : Ready registry room machine)
    (hscope : scope < machine.frames.size) (hreach : scope < reach ∨ formula.isData = true) :
    Runs registry surroundings (.evaluate scope formula) machine
      (happenings (observeEvaluate enter entered reach scope formula machine))
      (evaluate enter reach scope formula machine) := by
  induction reach generalizing scope formula with
  | zero =>
    cases formula with
    | data bytes =>
      rw [observeEvaluate, evaluate]
      exact .data
    | call function args =>
      rw [observeEvaluate, evaluate]
      exact .callee (henter hready hscope)
    | argument index =>
      rcases hreach with hlt | hdata
      · exact absurd hlt (Nat.not_lt_zero scope)
      · cases hdata
  | succ reach ih =>
    cases formula with
    | data bytes =>
      rw [observeEvaluate, evaluate]
      exact .data
    | call function args =>
      rw [observeEvaluate, evaluate]
      exact .callee (henter hready hscope)
    | argument index =>
      have hreach : scope < reach + 1 := hreach.resolve_right fun h => by cases h
      have hframe : machine.frames[scope]? = some machine.frames[scope] :=
        Array.getElem?_eq_getElem hscope
      generalize machine.frames[scope] = frame at hframe
      apply Runs.reference
      rw [observeEvaluate, evaluate]
      simp only [hframe]
      cases hslot : frame.slots[index]? with
      | none => exact .missing hframe hslot
      | some slot =>
        obtain ⟨formula, value⟩ := slot
        cases value with
        | some value => exact .kept hframe hslot
        | none =>
          have hdepth : frame.scope < reach ∨ formula.isData = true :=
            (hready.ordered.outward hframe hslot).imp_left fun h => by omega
          have hinner := ih (hready.ordered.scope_lt_size hframe) hdepth
          simp only [List.cons_append, happenings_look, happenings_happen, happenings_append]
          generalize evaluate enter reach frame.scope formula machine = outcome at hinner
          obtain ⟨result, after⟩ := outcome
          cases result with
          | ok value => exact .value hframe hslot hinner
          | error fault => exact .fault hframe hslot hinner

private theorem force_runs {enter : Enter σ} {entered : Observed σ}
    (henter : Follows registry surroundings room enter entered)
    (hready : Ready registry room machine) {position : Nat}
    (hposition : position < machine.frames.size) (index : Nat) :
    Runs registry surroundings (.force position index) machine
      (happenings
        (observeEvaluate enter entered (position + 1) position (.argument index) machine))
      (evaluate enter (position + 1) position (.argument index) machine) := by
  have h : Runs registry surroundings (.evaluate position (.argument index)) machine _ _ :=
    evaluate_runs henter hready hposition (.inl (Nat.lt_succ_self position))
  cases h with
  | reference h => exact h

private theorem serve_runs {enter : Enter σ} {entered : Observed σ}
    (henter : Follows registry surroundings room enter entered) {arity : Nat}
    (program : Host σ Bytes) (hready : Ready registry room machine) {frame : Frame}
    (hframe : machine.frames.back? = some frame) (harity : frame.slots.size = arity) {own : Nat}
    (hown : machine.depth = own) :
    Runs registry surroundings (.serve program) machine
      (happenings (observeServe (.ofCall registry surroundings enter arity own)
        (fun index => observeEvaluate enter entered (own + 1) own (.argument index)) program
        machine))
      (serve (.ofCall registry surroundings enter arity own) program machine) := by
  induction program generalizing machine frame with
  | done value => exact .done
  | raise fault => exact .raise
  | argument index next ih =>
    subst hown
    have hanswer := force_runs henter hready (Array.getElem?_eq_some_iff.mp hframe).1 index
    -- The frame of the call is still the last one.
    have hfills := hanswer.fills
    obtain ⟨filled, hfilled, hsame⟩ := hfills.back? hframe
    have hdepth : Machine.depth _ = machine.depth := congrArg (· - 1) hfills.size
    rw [observeServe, List.cons_append, happenings_happen, happenings_append]
    exact .ask hanswer (ih _ (hready.fills hfills) hfilled (hsame.size.trans harity) hdepth)
  | arity next ih =>
    subst harity
    exact .arity hframe (ih _ hready hframe rfl hown)
  | depth next ih =>
    subst hown
    exact .depth (ih _ hready hframe harity rfl)
  | outline next ih => exact .outline (ih _ hready hframe harity hown)
  | invocationPath next ih => exact .invocationPath (ih _ hready hframe harity hown)
  | bytesAt path next ih =>
    exact .bytesAt (ih _ ⟨hready.ordered, hready.room⟩ hframe harity hown)
  | exchange change next ih =>
    exact .exchange (ih _ ⟨hready.ordered, hready.room⟩ hframe harity hown)

private theorem call_succ {index : Nat} {function : Function σ}
    (hfunction : registry.function? index = some function) (args : List Formula) (scope : Nat)
    {result : Result}
    (h : runBody registry surroundings (call registry surroundings room) function args.length
      machine.frames.size (machine.push (Frame.ofArgs args scope)) = (result, after)) :
    call registry surroundings (room + 1) index args scope machine =
      (result.named function.symbol, after.pop) := by
  rw [call]
  simp only [hfunction, h]
  cases result <;> rfl

/-- Calls keep to the rules. The room that is left is what is left of the bound on nested calls. -/
theorem call_follows (registry : Registry σ) (surroundings : Surroundings σ) (room : Nat) :
    Follows registry surroundings room (call registry surroundings room)
      (observeCall registry surroundings room) := by
  induction room with
  | zero =>
    intro index args scope machine hready hscope
    rw [call, observeCall]
    cases hfunction : registry.function? index with
    | none => exact .unknown hfunction
    | some function =>
      have hroom := hready.room
      exact .refused hfunction (by rw [depth]; omega)
  | succ room ih =>
    intro index args scope machine hready hscope
    cases hfunction : registry.function? index with
    | none =>
      rw [call, observeCall, hfunction]
      exact .unknown hfunction
    | some function =>
      have hroom : machine.depth < registry.maxCallDepth := by
        have hready := hready.room
        rw [depth]
        omega
      have hpushed := hready.push hscope args
      rw [observeCall, happenings_look, hfunction]
      simp only [List.cons_append, happenings_happen, happenings_append]
      cases hprogram : function.body.program? with
      | some program =>
        have hback : (machine.push (Frame.ofArgs args scope)).frames.back? =
            some (Frame.ofArgs args scope) := Array.back?_push ..
        have hdepth : (machine.push (Frame.ofArgs args scope)).depth = machine.frames.size := by
          rw [Machine.push, depth, Array.size_push, Nat.add_sub_cancel]
        have hbody := serve_runs ih program hpushed hback (List.length_map ..) hdepth
        obtain ⟨hrun, hobserved⟩ := runBody_host registry surroundings
          (call registry surroundings room) (observeCall registry surroundings room) hprogram
          args.length machine.frames.size (machine.push (Frame.ofArgs args scope))
        rw [call_succ hfunction args scope hrun, hobserved]
        exact .program hfunction hroom hprogram hbody
      | none =>
        obtain ⟨formula, bytecode, hdefined⟩ := Body.defined_of_program? hprogram
        have hbody : Runs registry surroundings (.evaluate machine.frames.size formula) _ _ _ :=
          evaluate_runs ih hpushed (Task.placed_body machine _ formula) (.inl (Nat.lt_succ_self _))
        rw [call_succ hfunction args scope (by simp only [runBody, hdefined]; rfl), observeBody]
        simp only [hdefined]
        exact .definition hfunction hroom hdefined hbody

end
end Machine

namespace Registry

/-- The outcome of the evaluation of a formula with arguments, before a fault gets its path. -/
def outcome (registry : Registry σ) (surroundings : Surroundings σ) (state : σ) (formula : Formula)
    (args : List Bytes) : Machine.Outcome σ :=
  Machine.evaluate (Machine.call registry surroundings registry.maxCallDepth) 1 0 formula
    (Machine.start state args)

theorem evaluate_eq_outcome (registry : Registry σ) (surroundings : Surroundings σ) (state : σ)
    (formula : Formula) (args : List Bytes) :
    registry.evaluate surroundings state formula args =
      (Result.located surroundings.invocationPath
          (registry.outcome surroundings state formula args).1,
        (registry.outcome surroundings state formula args).2.state) := by
  rw [evaluate, outcome, Machine.start]
  split
  · rename_i heq
    rw [heq]
    rfl
  · rename_i heq
    rw [heq]
    rfl

/-- Every evaluation comes to an end by the rules. -/
theorem runs (registry : Registry σ) (surroundings : Surroundings σ) (state : σ)
    (formula : Formula) (args : List Bytes) :
    Machine.Runs registry surroundings (.evaluate 0 formula) (.start state args)
      (registry.events surroundings state formula args)
      (registry.outcome surroundings state formula args) := by
  have hready : Machine.Ready registry registry.maxCallDepth (.start state args) :=
    ⟨Stack.ordered_outermost args, rfl⟩
  exact Machine.evaluate_runs (Machine.call_follows registry surroundings _) hready Nat.zero_lt_one
    (.inl Nat.zero_lt_one)

end Registry
end ByteFormula
