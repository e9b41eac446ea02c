import ByteFormula.Machine.Evaluate

/-! The calls on the stack. Values come into the frames as arguments are asked for, but an evaluation
leaves behind the calls that it found, with the same arguments in the same scopes, whether it ends in
a value or in a fault. -/
namespace ByteFormula

/-- A call that is going on: the formulas of its arguments, and the position that their references
lead to. -/
structure Activation where
  args : List Formula
  scope : Nat

def Frame.activation (frame : Frame) : Activation :=
  ⟨frame.slots.toList.map Slot.formula, frame.scope⟩

theorem Frame.activation_ofArgs (args : List Formula) (scope : Nat) :
    (Frame.ofArgs args scope).activation = ⟨args, scope⟩ := by
  simp [Frame.activation, Frame.ofArgs, Function.comp_def]

theorem Frame.length_activation (frame : Frame) :
    frame.activation.args.length = frame.slots.size := by
  simp [Frame.activation]

theorem Frame.getElem?_activation {frame : Frame} {index : Nat} {slot : Slot}
    (h : frame.slots[index]? = some slot) : frame.activation.args[index]? = some slot.formula := by
  simp [Frame.activation, h]

namespace Machine

variable {σ : Type}

def activations (machine : Machine σ) : List Activation :=
  machine.frames.toList.map Frame.activation

theorem length_activations (machine : Machine σ) :
    machine.activations.length = machine.frames.size := by
  simp [activations]

theorem getElem?_activations {machine : Machine σ} {position : Nat} {frame : Frame}
    (h : machine.frames[position]? = some frame) :
    machine.activations[position]? = some frame.activation := by
  simp [activations, h]

/-- A call that is going on has a frame with a slot for each of its arguments. -/
theorem frame_of_activation {machine : Machine σ} {position : Nat} {activation : Activation}
    (h : machine.activations[position]? = some activation) :
    ∃ frame, machine.frames[position]? = some frame ∧ frame.activation = activation := by
  rw [activations, List.getElem?_map, Option.map_eq_some_iff] at h
  obtain ⟨frame, hframe, rfl⟩ := h
  exact ⟨frame, by rw [← Array.getElem?_toList, hframe], rfl⟩

@[simp] theorem activations_store (machine : Machine σ) (position index : Nat) (value : Bytes) :
    (machine.store position index value).activations = machine.activations := by
  apply List.ext_getElem?
  intro i
  simp only [activations, store, List.getElem?_map, Array.getElem?_toList, Array.getElem?_modify]
  split
  · cases hframe : machine.frames[i]? with
    | none => rfl
    | some frame =>
      -- A stored value does not show in the formulas of the frame.
      simp only [Option.map_some, Frame.activation, Option.some.injEq, Activation.mk.injEq, and_true]
      apply List.ext_getElem?
      intro j
      simp only [List.getElem?_map, Array.getElem?_toList, Array.getElem?_modify]
      split
      · rw [Option.map_map]
        rfl
      · rfl
  · rfl

@[simp] theorem activations_push (machine : Machine σ) (args : List Formula) (scope : Nat) :
    (machine.push (Frame.ofArgs args scope)).activations =
      machine.activations ++ [⟨args, scope⟩] := by
  simp [activations, push, Frame.activation_ofArgs]

private theorem activations_pop (machine : Machine σ) :
    machine.pop.activations = machine.activations.dropLast := by
  simp [activations, pop, List.map_dropLast]

def Returns (enter : Enter σ) : Prop :=
  ∀ index args scope machine, (enter index args scope machine).2.activations = machine.activations

section

variable {enter : Enter σ}

theorem activations_evaluate (henter : Returns enter) (reach scope : Nat) (formula : Formula)
    (machine : Machine σ) :
    (evaluate enter reach scope formula machine).2.activations = machine.activations := by
  induction reach generalizing scope formula with
  | zero =>
    cases formula with
    | data bytes => rfl
    | argument index => rfl
    | call index args => exact henter index args scope machine
  | succ reach ih =>
    cases formula with
    | data bytes => rfl
    | call index args => exact henter index args scope machine
    | argument index =>
      rw [evaluate]
      split
      · rfl
      rename_i frame _
      split
      · rfl
      · rfl
      rename_i formula _
      have hinner := ih frame.scope formula
      split
      · rename_i heq
        rw [heq] at hinner
        exact hinner
      · rename_i heq
        rw [heq] at hinner
        rw [activations_store]
        exact hinner

private theorem activations_serve {desk : Desk σ}
    (hargument : ∀ index machine,
      (desk.argument index machine).2.activations = machine.activations)
    (program : Host σ Bytes) (machine : Machine σ) :
    (serve desk program machine).2.activations = machine.activations := by
  induction program generalizing machine with
  | done value => rfl
  | raise fault => rfl
  | argument index next ih =>
    rw [serve, ih, hargument]
  | arity next ih => exact ih _ machine
  | depth next ih => exact ih _ machine
  | outline next ih => exact ih _ machine
  | invocationPath next ih => exact ih _ machine
  | bytesAt path next ih =>
    rw [serve, ih]
    rfl
  | exchange change next ih =>
    rw [serve, ih]
    rfl

private theorem activations_runBody (henter : Returns enter) (registry : Registry σ)
    (surroundings : Surroundings σ) (function : Function σ) (arity own : Nat)
    (machine : Machine σ) :
    (runBody registry surroundings enter function arity own machine).2.activations =
      machine.activations := by
  have hargument : ∀ index machine,
      (evaluate enter (own + 1) own (.argument index) machine).2.activations =
        machine.activations :=
    fun index machine => activations_evaluate henter _ _ _ machine
  unfold runBody
  cases function.body with
  | short program => exact activations_serve hargument program machine
  | long program => exact activations_serve hargument program machine
  | defined formula bytecode => exact activations_evaluate henter _ _ formula machine

end

theorem call_returns (registry : Registry σ) (surroundings : Surroundings σ) (room : Nat) :
    Returns (call registry surroundings room) := by
  induction room with
  | zero =>
    intro index args scope machine
    rw [call]
    split <;> rfl
  | succ room ih =>
    intro index args scope machine
    rw [call]
    split
    · rfl
    rename_i function _
    -- The body leaves its own call behind, which is then popped.
    have hbody := activations_runBody ih registry surroundings function args.length
      machine.frames.size (machine.push (Frame.ofArgs args scope))
    rw [activations_push] at hbody
    dsimp only
    split
    · rename_i heq
      rw [heq] at hbody
      rw [activations_pop, hbody, List.dropLast_concat]
    · rename_i heq
      rw [heq] at hbody
      rw [activations_pop, hbody, List.dropLast_concat]

end Machine
end ByteFormula
