import ByteFormula.Proofs.Consistency
import ByteFormula.Proofs.BaseRegistry
import ByteFormula.Proofs.Stack

/-! Programs keep their meaning when a registry is extended. An evaluation that starts from formulas
over the functions of a registry only ever calls these functions, so those that come later make no
difference to it, unless a host function looks at the registry itself. -/
namespace ByteFormula

variable {σ α : Type}

/-- Programs that do not ask about the registry. -/
def Host.Blind : Host σ α → Prop
  | .done _ => True
  | .raise _ => True
  | .argument _ next => ∀ answer, (next answer).Blind
  | .arity next => ∀ count, (next count).Blind
  | .depth next => ∀ count, (next count).Blind
  | .outline _ => False
  | .invocationPath next => ∀ path, (next path).Blind
  | .bytesAt _ next => ∀ answer, (next answer).Blind
  | .exchange _ next => ∀ state, (next state).Blind

private theorem Host.Pure.blind {program : Host σ α} (h : program.Pure) : program.Blind := by
  induction h with
  | done value => trivial
  | raise fault => trivial
  | argument hfault _ ih =>
    intro answer
    cases answer with
    | ok value => exact ih value
    | error fault =>
      rw [hfault]
      trivial
  | arity _ ih => exact ih
  | invocationPath _ ih => exact ih
  | bytesAt _ ih => exact ih

private theorem Registry.callsBelow_of_mem {bound : Nat} {formulas : List Formula}
    (h : CallsAllBelow bound formulas) {formula : Formula} (hmem : formula ∈ formulas) :
    CallsBelow bound formula := by
  induction formulas with
  | nil => cases hmem
  | cons first rest ih =>
    rcases List.mem_cons.mp hmem with rfl | hrest
    · exact h.1
    · exact ih h.2 hrest

private theorem Registry.callsAllBelow_data (bound : Nat) (args : List Bytes) :
    CallsAllBelow bound (args.map .data) := by
  induction args with
  | nil => trivial
  | cons bytes rest ih => exact ⟨trivial, ih⟩

namespace Machine

open Registry (CallsBelow CallsAllBelow)

def Within (bound : Nat) (machine : Machine σ) : Prop :=
  ∀ activation ∈ machine.activations, CallsAllBelow bound activation.args

private theorem Within.of_eq {bound : Nat} {machine after : Machine σ} (h : machine.Within bound)
    (heq : after.activations = machine.activations) : after.Within bound := by
  intro activation hmem
  rw [heq] at hmem
  exact h activation hmem

theorem Within.push {bound : Nat} {machine : Machine σ} (h : machine.Within bound)
    {args : List Formula} (hargs : CallsAllBelow bound args) (scope : Nat) :
    (machine.push (Frame.ofArgs args scope)).Within bound := by
  intro activation hmem
  rw [activations_push] at hmem
  rcases List.mem_append.mp hmem with hmem | hmem
  · exact h activation hmem
  · rw [List.mem_singleton.mp hmem]
    exact hargs

theorem Within.slot {bound : Nat} {machine : Machine σ} (h : machine.Within bound)
    {position index : Nat} {frame : Frame} {slot : Slot}
    (hframe : machine.frames[position]? = some frame)
    (hslot : frame.slots[index]? = some slot) : CallsBelow bound slot.formula := by
  have hargs := h _ (List.mem_of_getElem? (getElem?_activations hframe))
  exact Registry.callsBelow_of_mem hargs (List.mem_of_getElem? (Frame.getElem?_activation hslot))

def AgreeBelow (bound : Nat) (enter other : Enter σ) : Prop :=
  ∀ ⦃index args machine⦄ scope, index < bound → CallsAllBelow bound args →
    machine.Within bound → other index args scope machine = enter index args scope machine

section

variable {bound : Nat} {enter other : Enter σ}

theorem AgreeBelow.evaluate (h : AgreeBelow bound enter other) {formula : Formula}
    {machine : Machine σ} (hformula : CallsBelow bound formula) (hmachine : machine.Within bound)
    (reach scope : Nat) :
    Machine.evaluate other reach scope formula machine =
      Machine.evaluate enter reach scope formula machine := by
  induction reach generalizing scope formula with
  | zero =>
    cases formula with
    | data bytes => rfl
    | argument index => rfl
    | call index args => exact h scope hformula.1 hformula.2 hmachine
  | succ reach ih =>
    cases formula with
    | data bytes => rfl
    | call index args => exact h scope hformula.1 hformula.2 hmachine
    | argument index =>
      rw [Machine.evaluate, Machine.evaluate]
      cases hframe : machine.frames[scope]? with
      | none => rfl
      | some frame =>
        simp only
        cases hslot : frame.slots[index]? with
        | none => rfl
        | some slot =>
          obtain ⟨formula, value⟩ := slot
          cases value with
          | some value => rfl
          | none => simp only [ih (hmachine.slot hframe hslot) frame.scope]

private theorem serve_congr {desk desk' : Desk σ} (harity : desk'.arity = desk.arity)
    (hdepth : desk'.depth = desk.depth) (hsurroundings : desk'.surroundings = desk.surroundings)
    (hargument : ∀ index machine, machine.Within bound →
      desk'.argument index machine = desk.argument index machine)
    (hreturns : ∀ index machine,
      (desk.argument index machine).2.activations = machine.activations)
    {program : Host σ Bytes} (hblind : program.Blind) {machine : Machine σ}
    (hmachine : machine.Within bound) : serve desk' program machine = serve desk program machine := by
  induction program generalizing machine with
  | done value => rfl
  | raise fault => rfl
  | argument index next ih =>
    rw [serve, serve, hargument index machine hmachine]
    exact ih _ (hblind _) (hmachine.of_eq (hreturns index machine))
  | arity next ih =>
    rw [serve, serve, harity]
    exact ih _ (hblind _) hmachine
  | depth next ih =>
    rw [serve, serve, hdepth]
    exact ih _ (hblind _) hmachine
  | outline next ih => exact hblind.elim
  | invocationPath next ih =>
    rw [serve, serve, hsurroundings]
    exact ih _ (hblind _) hmachine
  | bytesAt path next ih =>
    rw [serve, serve, hsurroundings]
    exact ih _ (hblind _) hmachine
  | exchange change next ih =>
    rw [serve, serve]
    exact ih _ (hblind _) hmachine

/-- A body over the first functions runs the same over both registries. -/
theorem AgreeBelow.runBody (h : AgreeBelow bound enter other) (henter : Returns enter)
    (registry registry' : Registry σ) (surroundings : Surroundings σ) {function : Function σ}
    (hblind : ∀ program, function.body.program? = some program → program.Blind)
    (hcalls : ∀ formula bytecode, function.body = .defined formula bytecode →
      CallsBelow bound formula) (arity own : Nat) {machine : Machine σ}
    (hmachine : machine.Within bound) :
    Machine.runBody registry' surroundings other function arity own machine =
      Machine.runBody registry surroundings enter function arity own machine := by
  have hargument : ∀ index machine, machine.Within bound →
      Machine.evaluate other (own + 1) own (.argument index) machine =
        Machine.evaluate enter (own + 1) own (.argument index) machine :=
    fun index machine hmachine =>
      h.evaluate (show CallsBelow bound (.argument index) from trivial) hmachine _ _
  have hreturns : ∀ index machine,
      (Machine.evaluate enter (own + 1) own (.argument index) machine).2.activations =
        machine.activations :=
    fun index machine => activations_evaluate henter _ _ _ machine
  unfold Machine.runBody
  cases hbody : function.body with
  | short program =>
    have hprogram := hblind program (by rw [hbody]; rfl)
    refine serve_congr ?_ ?_ ?_ hargument hreturns hprogram hmachine <;> rfl
  | long program =>
    have hprogram := hblind program (by rw [hbody]; rfl)
    refine serve_congr ?_ ?_ ?_ hargument hreturns hprogram hmachine <;> rfl
  | defined formula bytecode => exact h.evaluate (hcalls formula bytecode hbody) hmachine _ _

end
end Machine

namespace Registry

variable {before after registry : Registry σ}

/-- Calls of the functions of a registry go the same way after it was extended. -/
theorem Extends.call (h : Extends before after) (hdepth : after.maxCallDepth = before.maxCallDepth)
    (hreached : Reached before) (hblind : before.Hosts Host.Blind)
    (surroundings : Surroundings σ) (room : Nat) :
    Machine.AgreeBelow before.size (Machine.call before surroundings room)
      (Machine.call after surroundings room) := by
  induction room with
  | zero =>
    intro index args machine scope hindex hargs hmachine
    have hfunction : before.function? index = some before.functions[index] :=
      Array.getElem?_eq_getElem hindex
    rw [Machine.call, Machine.call, hfunction, h.function? hfunction, hdepth]
  | succ room ih =>
    intro index args machine scope hindex hargs hmachine
    have hfunction : before.function? index = some before.functions[index] :=
      Array.getElem?_eq_getElem hindex
    have hcalls : ∀ formula bytecode, before.functions[index].body = .defined formula bytecode →
        CallsBelow before.size formula := fun formula bytecode hbody =>
      callsBelow_of_wellFormed formula (hreached.allRecorded hfunction hbody).wellFormed
    have hbody := ih.runBody (Machine.call_returns before surroundings room) before after
      surroundings (fun program hprogram => hblind hfunction hprogram) hcalls args.length
      machine.frames.size (hmachine.push hargs scope)
    rw [Machine.call, Machine.call, hfunction, h.function? hfunction]
    simp only [hbody]

theorem Extends.evaluate (h : Extends before after)
    (hdepth : after.maxCallDepth = before.maxCallDepth) (hreached : Reached before)
    (hblind : before.Hosts Host.Blind) {formula : Formula}
    (hformula : CallsBelow before.size formula) (surroundings : Surroundings σ) (state : σ)
    (args : List Bytes) :
    after.evaluate surroundings state formula args =
      before.evaluate surroundings state formula args := by
  have hmachine : Machine.Within before.size
      (⟨#[Frame.ofArgs (args.map .data) 0], state⟩ : Machine σ) := by
    intro activation hmem
    simp only [Machine.activations, List.map_cons, List.map_nil, List.mem_singleton,
      Frame.activation_ofArgs] at hmem
    rw [hmem]
    exact callsAllBelow_data _ args
  unfold Registry.evaluate
  rw [hdepth]
  simp only [(h.call hdepth hreached hblind surroundings before.maxCallDepth).evaluate hformula
    hmachine 1 0]

/-- Whatever is registered later and whether it succeeds or not, functions stay where they are, and
what was compiled, decoded or evaluated before still gives the same. -/
theorem performAll_keeps_programs (hbuilt : Built registry) (calls : List (Registration σ))
    (hdepth : (registry.performAll calls).maxCallDepth = registry.maxCallDepth) :
    (∀ index function, registry.function? index = some function →
      (registry.performAll calls).function? index = some function ∧
      (registry.performAll calls).byName? function.symbol = some (index, function) ∧
      (registry.performAll calls).byCode? function.code = some (index, function)) ∧
    (∀ source compiled, registry.compile source = .ok compiled →
      (registry.performAll calls).compile source = .ok compiled) ∧
    (∀ bytecode arity,
      (∀ code, registry.decode bytecode arity ≠ .error (.unknownFunctionCode code)) →
      (registry.performAll calls).decode bytecode arity = registry.decode bytecode arity) ∧
    (registry.Hosts Host.Blind → ∀ surroundings state formula args,
      CallsBelow registry.size formula →
      (registry.performAll calls).evaluate surroundings state formula args =
        registry.evaluate surroundings state formula args) := by
  have hreached := hbuilt.reached
  have hextends := extends_performAll hreached calls
  refine ⟨?_, ?_, ?_, ?_⟩
  · intro index function hfunction
    exact ⟨hextends.function? hfunction,
      hextends.byName? (hreached.named.byName?_symbol hfunction),
      hextends.byCode? (hreached.numbered.byCode?_code hfunction)⟩
  · intro source compiled hcompile
    exact hextends.compile hcompile
  · intro bytecode arity hknown
    exact hextends.decode hdepth hknown
  · intro hblind surroundings state formula args hformula
    exact hextends.evaluate hdepth hreached hblind hformula surroundings state args

/-- Calls that register a function, ask for a name that is taken, and set another bound for a
while. -/
def later : List (Registration σ) :=
  [.setMaxCallDepth 9, .embedShort "same" 1 (Host.arg 0), .embedLong "not" .variadic (.done []),
    .setMaxCallDepth 4]

/-- A definition is called before and after others were registered. -/
theorem performAll_keeps_programs_twice :
    Built (trio : Registry Unit) ∧ ((trio : Registry Unit).performAll later).size = 4 ∧
    ((trio : Registry Unit).performAll later).maxCallDepth = (trio : Registry Unit).maxCallDepth ∧
    (∃ function, (trio : Registry Unit).function? 2 = some function ∧
      ((trio : Registry Unit).performAll later).byName? function.symbol = some (2, function)) ∧
    ((trio : Registry Unit).performAll later).decode [0x10, 0x00] none =
      (trio : Registry Unit).decode [0x10, 0x00] none ∧
    (trio : Registry Unit).Hosts Host.Blind ∧ CallsBelow (trio : Registry Unit).size
      (.call 2 [.data [7]]) ∧
    (trio : Registry Unit).evaluate .none () (.call 2 [.data [7]]) [] = (.ok [0xff], ()) ∧
    ((trio : Registry Unit).performAll later).evaluate .none () (.call 2 [.data [7]]) [] =
      (trio : Registry Unit).evaluate .none () (.call 2 [.data [7]]) [] := by
  have hblind : (trio : Registry Unit).Hosts Host.Blind :=
    trio_basic.hosts fun hbasic => hbasic.plain.pure.blind
  have hcalls : CallsBelow (trio : Registry Unit).size (.call 2 [.data [7]]) :=
    ⟨by decide, trivial, trivial⟩
  have hdecode : (trio : Registry Unit).decode [0x10, 0x00] none =
      .ok (.call 0 [.argument 0]) := rfl
  have hdepth : ((trio : Registry Unit).performAll later).maxCallDepth =
      (trio : Registry Unit).maxCallDepth := rfl
  obtain ⟨hfunctions, -, hdecodes, hevaluates⟩ :=
    performAll_keeps_programs (trio_built : Built (trio : Registry Unit)) later hdepth
  refine ⟨trio_built, rfl, hdepth, ⟨_, rfl, (hfunctions 2 _ rfl).2.1⟩, hdecodes _ none ?_, hblind,
    hcalls, rfl, hevaluates hblind .none () _ [] hcalls⟩
  intro code hcode
  rw [hdecode] at hcode
  cases hcode

end Registry
end ByteFormula
