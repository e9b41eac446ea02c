import ByteFormula.Proofs.BaseRegistry
import ByteFormula.Proofs.TreeOperations

/-! Evaluation by need computes the meaning by name. Every frame on the stack stands for the
arguments that its call was given, suspended in the scope that the frame refers to, and a value
that is kept is the one that its formula means. A call finds its arguments in this way whatever was
asked for before it, so only the bound on nested calls can come in between. -/
namespace ByteFormula

variable {σ : Type}

namespace Surroundings

inductive ReadFrom (surroundings : Surroundings σ) (state : σ) : σ → Prop where
  | start : ReadFrom surroundings state state
  | read {later : σ} (h : ReadFrom surroundings state later) (path : Path) :
      ReadFrom surroundings state (surroundings.bytesAt path later).2

/-- Reading does not change what is read later. -/
def Steady (surroundings : Surroundings σ) (state : σ) : Prop :=
  ∀ ⦃later⦄, surroundings.ReadFrom state later → ∀ path,
    (surroundings.bytesAt path later).1 = (surroundings.bytesAt path state).1

def world (surroundings : Surroundings σ) (state : σ) : World where
  invocationPath := surroundings.invocationPath
  bytesAt path := (surroundings.bytesAt path state).1

section

variable (invocationPath : Option Path) {tree : Tree} {raw : Bytes}

/-- Reading a tree unpacks some of it, but what it stands for stays. -/
theorem bytesAt_ofTree (h : tree.Represents raw) (path : Path) :
    ∃ after, (ofTree invocationPath).bytesAt path tree =
      ((PlainTree.bytesAt raw path).mapError .data, after) ∧ after.Represents raw := by
  obtain ⟨after, hbytes, hafter⟩ := h.bytesAt path
  refine ⟨after, ?_, hafter⟩
  simp only [ofTree, hbytes]
  cases PlainTree.bytesAt raw path <;> rfl

private theorem represents_of_readFrom {later : Tree} (h : tree.Represents raw)
    (hlater : (ofTree invocationPath).ReadFrom tree later) : later.Represents raw := by
  induction hlater with
  | start => exact h
  | read _ path ih =>
    obtain ⟨after, hbytes, hafter⟩ := bytesAt_ofTree invocationPath ih path
    rw [hbytes]
    exact hafter

theorem steady_ofTree (h : tree.Represents raw) : (ofTree invocationPath).Steady tree := by
  intro later hlater path
  obtain ⟨_, hlater, -⟩ :=
    bytesAt_ofTree invocationPath (represents_of_readFrom invocationPath h hlater) path
  obtain ⟨_, hfirst, -⟩ := bytesAt_ofTree invocationPath h path
  rw [hlater, hfirst]

private theorem world_ofTree (h : tree.Represents raw) : (ofTree invocationPath).world tree =
    ⟨invocationPath, fun path => (PlainTree.bytesAt raw path).mapError .data⟩ := by
  unfold world
  congr 1
  funext path
  obtain ⟨_, hbytes, -⟩ := bytesAt_ofTree invocationPath h path
  rw [hbytes]

end

end Surroundings

/-- What an evaluation takes place in: a registry, and surroundings with their state at the start. -/
structure Setting (σ : Type) where
  registry : Registry σ
  surroundings : Surroundings σ
  state : σ

/-- The arguments of a call that is going on, and how many calls each of them may nest. -/
structure Scope where
  args : List Result
  need : Nat

namespace Setting

def meaning (setting : Setting σ) (formula : Formula) (scope : Scope) : Result :=
  setting.registry.meaning (setting.surroundings.world setting.state) formula scope.args

def need (setting : Setting σ) (formula : Formula) (scope : Scope) : Nat :=
  setting.registry.nesting formula + scope.need

def inner (setting : Setting σ) (args : List Formula) (scope : Scope) : Scope where
  args := args.map fun arg => setting.meaning arg scope
  need := Formula.nestingAll (setting.registry.nestings setting.registry.size) args + scope.need

/-- The meaning by name does not depend on how the evaluation goes. -/
structure Proper (setting : Setting σ) : Prop where
  layered : Registry.Layered setting.registry
  pure : setting.registry.Hosts Host.Pure
  steady : setting.surroundings.Steady setting.state

section

variable {setting : Setting σ} {scopes : List Scope} {outer own : Scope} {position index : Nat}

/-- A slot stands for the result that its formula means in the scope of its frame. The scope is a
frame further out, except for data, which needs none. -/
structure Holds (setting : Setting σ) (position : Nat) (outer own : Scope) (frame : Frame)
    (result : Result) (slot : Slot) : Prop where
  formula : setting.meaning slot.formula outer = result
  value : ∀ value, slot.value = some value → result = .ok value
  need : setting.need slot.formula outer ≤ own.need
  outward : frame.scope < position ∨ slot.formula.isData = true

/-- A frame stands for the arguments of its call, whose references are to the outer scope. -/
structure Stands (setting : Setting σ) (position : Nat) (outer own : Scope) (frame : Frame) :
    Prop where
  size : frame.slots.size = own.args.length
  slot : ∀ {index : Nat} {slot : Slot}, frame.slots[index]? = some slot →
    ∃ result, own.args[index]? = some result ∧
      setting.Holds position outer own frame result slot

/-- The frames of a stack stand for the arguments of the calls that are going on. -/
structure Linked (setting : Setting σ) (scopes : List Scope) (frames : Array Frame) : Prop where
  size : frames.size = scopes.length
  frame : ∀ {position : Nat} {frame : Frame}, frames[position]? = some frame →
    frame.scope ≤ position ∧ ∃ outer own, scopes[frame.scope]? = some outer ∧
      scopes[position]? = some own ∧ setting.Stands position outer own frame

private theorem stands_ofArgs {args : List Formula} {scope : Nat}
    (h : scope < position ∨ ∀ arg ∈ args, arg.isData = true) :
    setting.Stands position outer (setting.inner args outer) (Frame.ofArgs args scope) := by
  refine ⟨by simp [Frame.ofArgs, inner], fun {index slot} hslot => ?_⟩
  rw [Frame.ofArgs, List.getElem?_toArray, List.getElem?_map, Option.map_eq_some_iff] at hslot
  obtain ⟨arg, harg, rfl⟩ := hslot
  have hmem := List.mem_of_getElem? harg
  refine ⟨_, by rw [inner, List.getElem?_map, harg, Option.map_some], rfl, ?_, ?_, ?_⟩
  · intro value hvalue
    cases hvalue
  · exact Nat.add_le_add_right (Formula.nesting_le_nestingAll _ hmem) _
  · exact h.imp_right fun hdata => hdata arg hmem

private theorem Stands.store {frame : Frame} {value : Bytes}
    (h : setting.Stands position outer own frame)
    (hvalue : own.args[index]? = some (.ok value)) :
    setting.Stands position outer own
      { frame with
        slots := frame.slots.modify index fun slot => { slot with value := some value } } := by
  refine ⟨by rw [Array.size_modify, h.size], fun {i slot} hslot => ?_⟩
  rw [Array.getElem?_modify] at hslot
  split at hslot
  · rename_i heq
    subst heq
    rw [Option.map_eq_some_iff] at hslot
    obtain ⟨old, hold, rfl⟩ := hslot
    obtain ⟨result, hresult, hformula, -, hneed, houtward⟩ := h.slot hold
    cases hresult.symm.trans hvalue
    exact ⟨_, hresult, hformula, fun _ h => by cases h; rfl, hneed, houtward⟩
  · obtain ⟨result, hresult, hformula, hkept, hneed, houtward⟩ := h.slot hslot
    exact ⟨result, hresult, hformula, hkept, hneed, houtward⟩

theorem Linked.store {machine : Machine σ} {value : Bytes}
    (h : setting.Linked scopes machine.frames) (hown : scopes[position]? = some own)
    (hvalue : own.args[index]? = some (.ok value)) :
    setting.Linked scopes (machine.store position index value).frames := by
  refine ⟨by rw [Machine.store, Array.size_modify, h.size], fun {i frame} hframe => ?_⟩
  rw [Machine.store, Array.getElem?_modify] at hframe
  split at hframe
  · rename_i heq
    subst heq
    rw [Option.map_eq_some_iff] at hframe
    obtain ⟨old, hold, rfl⟩ := hframe
    obtain ⟨hle, outer, found, houter, hfound, hstands⟩ := h.frame hold
    cases hfound.symm.trans hown
    exact ⟨hle, outer, own, houter, hown, hstands.store hvalue⟩
  · exact h.frame hframe

theorem Linked.push {frames : Array Frame} {frame : Frame} (h : setting.Linked scopes frames)
    (hscope : scopes[frame.scope]? = some outer)
    (hframe : setting.Stands scopes.length outer own frame) :
    setting.Linked (scopes ++ [own]) (frames.push frame) := by
  have hbelow : ∀ {i s}, scopes[i]? = some s → (scopes ++ [own])[i]? = some s := fun hs => by
    rw [List.getElem?_append_left (List.getElem?_eq_some_iff.mp hs).1, hs]
  refine ⟨by simp [h.size], fun {i f} hf => ?_⟩
  rw [Array.getElem?_push] at hf
  split at hf
  · rename_i hi
    rw [h.size] at hi
    subst hi
    cases hf
    refine ⟨Nat.le_of_lt (List.getElem?_eq_some_iff.mp hscope).1, outer, own, hbelow hscope, ?_,
      hframe⟩
    rw [List.getElem?_concat_length]
  · obtain ⟨hle, outer, found, houter, hfound, hstands⟩ := h.frame hf
    exact ⟨hle, outer, found, hbelow houter, hbelow hfound, hstands⟩

theorem Linked.pop {frames : Array Frame} (h : setting.Linked (scopes ++ [own]) frames) :
    setting.Linked scopes frames.pop := by
  have hsize : frames.size = scopes.length + 1 := by simpa using h.size
  refine ⟨by simp [hsize], fun {i f} hf => ?_⟩
  rw [Array.getElem?_pop] at hf
  split at hf
  · rename_i hi
    obtain ⟨hle, outer, found, houter, hfound, hstands⟩ := h.frame hf
    rw [List.getElem?_append_left (by omega)] at houter hfound
    exact ⟨hle, outer, found, houter, hfound, hstands⟩
  · cases hf

private theorem linked_outermost (args : List Bytes) :
    setting.Linked [⟨args.map .ok, 0⟩] #[Frame.ofArgs (args.map .data) 0] := by
  -- The outermost frame is its own scope, which is harmless as long as it holds only data.
  have hdata : ∀ arg ∈ args.map Formula.data, arg.isData = true := by
    intro arg harg
    obtain ⟨bytes, -, rfl⟩ := List.mem_map.mp harg
    rfl
  have hinner : setting.inner (args.map .data) ⟨args.map .ok, 0⟩ = ⟨args.map .ok, 0⟩ := by
    rw [inner, Formula.nestingAll_data, List.map_map]
    rfl
  have hstands : setting.Stands 0 ⟨args.map .ok, 0⟩ _ (Frame.ofArgs (args.map .data) 0) :=
    stands_ofArgs (.inr hdata)
  rw [hinner] at hstands
  refine ⟨rfl, fun {position frame} hframe => ?_⟩
  obtain ⟨hlt, rfl⟩ := Array.getElem?_eq_some_iff.mp hframe
  obtain rfl : position = 0 := by simpa using hlt
  exact ⟨Nat.le_refl 0, _, _, rfl, rfl, hstands⟩

/-- A scope on the stack belongs to a frame that stands for its arguments. -/
theorem Linked.lookup {frames : Array Frame} (h : setting.Linked scopes frames)
    (hown : scopes[position]? = some own) :
    ∃ frame outer, frames[position]? = some frame ∧ scopes[frame.scope]? = some outer ∧
      setting.Stands position outer own frame := by
  have hlt : position < frames.size := by
    rw [h.size]
    exact (List.getElem?_eq_some_iff.mp hown).1
  have hframe := Array.getElem?_eq_getElem hlt
  obtain ⟨-, outer, found, houter, hfound, hstands⟩ := h.frame hframe
  cases hfound.symm.trans hown
  exact ⟨_, outer, hframe, houter, hstands⟩

end

/-- An outcome is the given result. Only without enough room it may be a fault because calls were
nested too deeply. -/
def Reaches (setting : Setting σ) (enough : Prop) (result : Result) : Result → Prop
  | .ok value => result = .ok value
  | .error fault => result = .error fault ∨
      ¬ enough ∧ fault.kind = .stackOverflow setting.registry.maxCallDepth

structure Ready (setting : Setting σ) (scopes : List Scope) (machine : Machine σ) : Prop where
  linked : setting.Linked scopes machine.frames
  state : setting.surroundings.ReadFrom setting.state machine.state

/-- An outcome with the right result, after which the machine is ready for more. -/
structure Settles (setting : Setting σ) (scopes : List Scope) (enough : Prop) (result : Result)
    (outcome : Machine.Outcome σ) : Prop where
  reaches : setting.Reaches enough result outcome.1
  ready : setting.Ready scopes outcome.2

/-- Calls are entered as they should with room for so many: what comes out is what they mean. -/
def Enters (setting : Setting σ) (room : Nat) (enter : Machine.Enter σ) : Prop :=
  ∀ ⦃scopes outer scope machine⦄ index args, setting.Ready scopes machine →
    scopes[scope]? = some outer →
    setting.Settles scopes (setting.need (.call index args) outer ≤ room)
      (setting.meaning (.call index args) outer) (enter index args scope machine)

section

variable {setting : Setting σ} {scopes : List Scope} {outer own : Scope} {room : Nat}
  {enter : Machine.Enter σ}

theorem Reaches.imp {enough enough' : Prop} {result outcome : Result}
    (h : setting.Reaches enough result outcome) (himp : enough' → enough) :
    setting.Reaches enough' result outcome := by
  cases outcome with
  | ok value => exact h
  | error fault => exact Or.imp_right (fun hfault => ⟨fun he => hfault.1 (himp he), hfault.2⟩) h

theorem Reaches.named {enough : Prop} {result outcome : Result}
    (h : setting.Reaches enough result outcome) (symbol : String) :
    setting.Reaches enough (result.named symbol) (outcome.named symbol) := by
  cases outcome with
  | ok value =>
    rw [show result = .ok value from h]
    rfl
  | error fault =>
    refine Or.imp (fun heq => by rw [heq]; rfl) (fun hfault => ⟨hfault.1, ?_⟩) h
    rw [Fault.kind_within, hfault.2]

theorem Ready.pop {machine : Machine σ} (h : setting.Ready (scopes ++ [own]) machine) :
    setting.Ready scopes machine.pop :=
  ⟨h.linked.pop, h.state⟩

private theorem evaluate_settles (henter : setting.Enters room enter) {reach scope : Nat}
    {formula : Formula} {machine : Machine σ} (hready : setting.Ready scopes machine)
    (hscope : scopes[scope]? = some outer) (hreach : scope < reach ∨ formula.isData = true) :
    setting.Settles scopes (setting.need formula outer ≤ room) (setting.meaning formula outer)
      (Machine.evaluate enter reach scope formula machine) := by
  -- A reference leads to a frame further out, so the induction is on the reach.
  induction reach generalizing scope formula machine outer with
  | zero =>
    cases formula with
    | data bytes => exact ⟨rfl, hready⟩
    | call index args => exact henter index args hready hscope
    | argument index => simp [Formula.isData] at hreach
  | succ reach ih =>
    cases formula with
    | data bytes => exact ⟨rfl, hready⟩
    | call index args => exact henter index args hready hscope
    | argument index =>
      obtain ⟨frame, further, hframe, hfurther, hstands⟩ := hready.linked.lookup hscope
      have hscope_le : scope ≤ reach := by
        simp only [Formula.isData, Bool.false_eq_true, or_false] at hreach
        omega
      have hmeaning : setting.meaning (.argument index) outer = suspended outer.args index := rfl
      have hneed : setting.need (.argument index) outer = outer.need := Nat.zero_add _
      simp only [Machine.evaluate, hframe]
      rw [hmeaning, hneed]
      split
      · rename_i hslot
        rw [Array.getElem?_eq_none_iff, hstands.size] at hslot
        rw [suspended_none hslot, hstands.size]
        exact ⟨.inl rfl, hready⟩
      · rename_i value hslot
        obtain ⟨result, hresult, hholds⟩ := hstands.slot hslot
        rw [suspended_some hresult]
        exact ⟨hholds.value value rfl, hready⟩
      · rename_i formula hslot
        obtain ⟨result, hresult, hholds⟩ := hstands.slot hslot
        obtain ⟨hreaches, hafter⟩ := ih hready hfurther
          (hholds.outward.imp_left fun h => Nat.lt_of_lt_of_le h hscope_le)
        rw [suspended_some hresult]
        rw [hholds.formula] at hreaches
        have hreaches := hreaches.imp (Nat.le_trans hholds.need)
        split
        · rename_i heq
          rw [heq] at hreaches hafter
          exact ⟨hreaches, hafter⟩
        · rename_i value after heq
          rw [heq] at hreaches hafter
          refine ⟨hreaches, hafter.linked.store hscope ?_, hafter.state⟩
          rw [hresult]
          exact congrArg some hreaches

/-- A pure program gives its meaning, whatever its arguments take to evaluate. -/
theorem serve_settles {desk : Machine.Desk σ} {enough : Prop} (hproper : setting.Proper)
    (hargument : ∀ {machine} index, setting.Ready scopes machine →
      setting.Settles scopes enough (suspended own.args index) (desk.argument index machine))
    (harity : desk.arity = own.args.length)
    (hsurroundings : desk.surroundings = setting.surroundings) {program : Host σ Bytes}
    (hpure : program.Pure) {machine : Machine σ} (hready : setting.Ready scopes machine) :
    setting.Settles scopes enough
      (program.meaning (setting.surroundings.world setting.state) own.args)
      (Machine.serve desk program machine) := by
  induction hpure generalizing machine with
  | done value => exact ⟨rfl, hready⟩
  | raise fault => exact ⟨.inl rfl, hready⟩
  | @argument index next hfault _ ih =>
    obtain ⟨hreaches, hafter⟩ := hargument index hready
    rw [Machine.serve, Host.meaning]
    split
    rename_i answer after hanswer
    rw [hanswer] at hreaches hafter
    cases answer with
    | ok value =>
      rw [show suspended own.args index = .ok value from hreaches]
      exact ih value hafter
    | error fault =>
      -- The fault comes out of the program, whether it is the meaning of the argument or not.
      rw [hfault]
      refine ⟨Or.imp_left (fun h => ?_) hreaches, hafter⟩
      rw [h, hfault]
      rfl
  | @arity next _ ih =>
    rw [Machine.serve, Host.meaning, harity]
    exact ih own.args.length hready
  | @invocationPath next _ ih =>
    rw [Machine.serve, Host.meaning, hsurroundings]
    exact ih setting.surroundings.invocationPath hready
  | @bytesAt path next _ ih =>
    have hanswer := hproper.steady hready.state path
    have hread := hready.state.read path
    rw [Machine.serve, Host.meaning, hsurroundings]
    split
    rename_i answer after heq
    rw [heq] at hanswer hread
    rw [← show answer = (setting.surroundings.world setting.state).bytesAt path from hanswer]
    exact ih answer ⟨hready.linked, hread⟩

/-- The body of a function gives its meaning on the arguments that its frame stands for. -/
theorem runBody_settles (hproper : setting.Proper) (henter : setting.Enters room enter) {index : Nat}
    {function : Function σ} (hfunction : setting.registry.function? index = some function)
    {machine : Machine σ} (hready : setting.Ready (scopes ++ [own]) machine) :
    setting.Settles (scopes ++ [own])
      (setting.registry.nestings setting.registry.size index + own.need ≤ room)
      (function.body.meaning (setting.surroundings.world setting.state)
        (setting.registry.meanings (setting.surroundings.world setting.state)
          setting.registry.size) own.args)
      (Machine.runBody setting.registry setting.surroundings enter function own.args.length
        scopes.length machine) := by
  have hown : (scopes ++ [own])[scopes.length]? = some own := List.getElem?_concat_length
  have hreach : ∀ formula : Formula, scopes.length < scopes.length + 1 ∨ formula.isData = true :=
    fun _ => .inl (Nat.lt_succ_self _)
  have hargument : ∀ {machine} asked, setting.Ready (scopes ++ [own]) machine →
      setting.Settles (scopes ++ [own])
        (setting.registry.nestings setting.registry.size index + own.need ≤ room)
        (suspended own.args asked)
        (Machine.evaluate enter (scopes.length + 1) scopes.length (.argument asked) machine) := by
    -- Calls in an argument count towards the need of the scope, not of the function that asks.
    intro machine asked hready
    obtain ⟨hreaches, hafter⟩ := evaluate_settles henter hready hown (hreach (.argument asked))
    refine ⟨hreaches.imp fun henough => ?_, hafter⟩
    exact Nat.le_trans (Nat.add_le_add_right (Nat.zero_le _) _) henough
  unfold Machine.runBody
  cases hbody : function.body with
  | short program =>
    have hprogram : function.body.program? = some program := by rw [hbody]; rfl
    exact serve_settles hproper hargument rfl rfl (hproper.pure hfunction hprogram) hready
  | long program =>
    have hprogram : function.body.program? = some program := by rw [hbody]; rfl
    exact serve_settles hproper hargument rfl rfl (hproper.pure hfunction hprogram) hready
  | defined formula bytecode =>
    rw [hproper.layered.nestings_eq hfunction hbody]
    exact evaluate_settles henter hready hown (hreach formula)

/-- Calls are entered as they should, however many may still be nested. -/
theorem call_enters (hproper : setting.Proper) (room : Nat) :
    setting.Enters room (Machine.call setting.registry setting.surroundings room) := by
  induction room with
  | zero =>
    intro scopes outer scope machine index args hready hscope
    rw [Machine.call]
    split
    · rename_i hnone
      rw [meaning, Registry.meaning_call_none hnone]
      exact ⟨.inl rfl, hready⟩
    · refine ⟨.inr ⟨?_, rfl⟩, hready⟩
      simp only [need, Registry.nesting, Formula.nesting]
      omega
  | succ room ih =>
    intro scopes outer scope machine index args hready hscope
    rw [Machine.call]
    split
    · rename_i hnone
      rw [meaning, Registry.meaning_call_none hnone]
      exact ⟨.inl rfl, hready⟩
    rename_i function hfunction
    -- The new frame comes on top of the one that its arguments refer to, and both ways out pop it.
    have hlt := (List.getElem?_eq_some_iff.mp hscope).1
    have hpushed : setting.Ready (scopes ++ [setting.inner args outer])
        (machine.push (Frame.ofArgs args scope)) :=
      ⟨hready.linked.push hscope (stands_ofArgs (.inl hlt)), hready.state⟩
    obtain ⟨hreaches, hafter⟩ := runBody_settles hproper ih hfunction hpushed
    have hlength : (setting.inner args outer).args.length = args.length := List.length_map _
    rw [hlength] at hreaches hafter
    have hroom : setting.need (.call index args) outer ≤ room + 1 →
        setting.registry.nestings setting.registry.size index + (setting.inner args outer).need ≤
          room := by
      simp only [need, Registry.nesting, Formula.nesting, inner]
      omega
    have hreaches := (hreaches.named function.symbol).imp hroom
    rw [meaning, Registry.meaning_call hproper.layered hfunction]
    simp only [hready.linked.size]
    split
    · rename_i heq
      rw [heq] at hreaches hafter
      exact ⟨hreaches, hafter.pop⟩
    · rename_i heq
      rw [heq] at hreaches hafter
      exact ⟨hreaches, hafter.pop⟩

end
end Setting

namespace Registry

variable {registry : Registry σ} {surroundings : Surroundings σ} {state : σ}

/-- Before faults get their path, an evaluation comes to the meaning of its formula. -/
theorem evaluate_reaches (hproper : Setting.Proper ⟨registry, surroundings, state⟩)
    (formula : Formula) (args : List Bytes) :
    ∃ outcome, (registry.evaluate surroundings state formula args).1 =
        Result.located surroundings.invocationPath outcome ∧
      Setting.Reaches ⟨registry, surroundings, state⟩
        (registry.nesting formula ≤ registry.maxCallDepth)
        (registry.meaning (surroundings.world state) formula (args.map .ok)) outcome := by
  have hready : Setting.Ready ⟨registry, surroundings, state⟩ [⟨args.map .ok, 0⟩]
      ⟨#[Frame.ofArgs (args.map .data) 0], state⟩ :=
    ⟨Setting.linked_outermost args, .start⟩
  have hreach : 0 < 1 ∨ formula.isData = true := .inl Nat.zero_lt_one
  have hsettles := Setting.evaluate_settles (Setting.call_enters hproper registry.maxCallDepth)
    hready rfl hreach
  refine ⟨_, ?_, hsettles.reaches⟩
  unfold Registry.evaluate
  simp only
  split
  · rename_i heq
    rw [heq]
    rfl
  · rename_i heq
    rw [heq]
    rfl

/-- Evaluation by need computes the meaning by name: it gives the same value, or the same fault with
the path of the constraint. Only if the formula may nest more calls than the registry allows, it
can fail for that reason. -/
theorem evaluate_eq_meaning (hbuilt : Built registry) (hpure : registry.Hosts Host.Pure)
    (hsteady : surroundings.Steady state) (formula : Formula) (args : List Bytes) :
    (registry.maxCallDepth < registry.nesting formula ∧
      ∃ fault, (registry.evaluate surroundings state formula args).1 = .error fault ∧
        fault.kind = .stackOverflow registry.maxCallDepth) ∨
    (registry.evaluate surroundings state formula args).1 =
        (registry.meaning (surroundings.world state) formula (args.map .ok)).located
          surroundings.invocationPath ∧
      (registry.Hosts Host.Unplaced →
        ∀ fault, (registry.evaluate surroundings state formula args).1 = .error fault →
          fault.path = surroundings.invocationPath) := by
  obtain ⟨outcome, houtcome, hreaches⟩ :=
    evaluate_reaches ⟨hbuilt.reached.layered, hpure, hsteady⟩ formula args
  rw [houtcome]
  cases outcome with
  | ok value =>
    rw [show registry.meaning _ formula _ = .ok value from hreaches]
    exact .inr ⟨rfl, fun _ _ h => nomatch h⟩
  | error fault =>
    rcases hreaches with hmeaning | ⟨hroom, hkind⟩
    · refine .inr ⟨by rw [hmeaning], fun hplain placed hplaced => ?_⟩
      have hnone := Formula.unplaced (unplaced_meanings hpure hplain registry.size)
        (by simp [Result.unplaced_ok]) formula fault hmeaning
      cases hplaced
      rw [Fault.atPath, hnone]
    · exact .inl ⟨by omega, _, rfl, by rw [Fault.kind_atPath, hkind]⟩

/-- An argument that is missing, asked for through a definition. -/
theorem evaluate_eq_meaning_twice_not :
    Built (trio : Registry Tree) ∧ (trio : Registry Tree).Hosts Host.Pure ∧
    (Surroundings.ofTree (some [1])).Steady (Tree.ofBytes [0, 0]) ∧
    ((trio : Registry Tree).evaluate (.ofTree (some [1])) (Tree.ofBytes [0, 0])
        (.call 2 [.call 0 [.argument 5]]) [[7]]).1 =
      .error ⟨.argumentOutOfBounds 5 1, some "not", some [1]⟩ ∧
    ((trio : Registry Tree).evaluate (.ofTree (some [1])) (Tree.ofBytes [0, 0])
        (.call 2 [.call 0 [.argument 5]]) [[7]]).1 =
      ((trio : Registry Tree).meaning ((Surroundings.ofTree (some [1])).world (Tree.ofBytes [0, 0]))
        (.call 2 [.call 0 [.argument 5]]) [.ok [7]]).located (some [1]) := by
  have hpure : (trio : Registry Tree).Hosts Host.Pure :=
    trio_basic.hosts fun hbasic => hbasic.plain.pure
  have hsteady := Surroundings.steady_ofTree (some [1]) (Tree.represents_ofBytes [0, 0])
  refine ⟨trio_built, hpure, hsteady, rfl, ?_⟩
  rcases evaluate_eq_meaning trio_built hpure hsteady (.call 2 [.call 0 [.argument 5]]) [[7]] with
    ⟨hdeep, -⟩ | ⟨heq, -⟩
  · exact absurd hdeep (by decide)
  · exact heq

/-- Over the base registry and a tree that is read lazily, a formula evaluates to what it means over
the bytes of the tree. -/
theorem evaluate_base {registry : Registry Tree} (hbase : base = .ok registry)
    (path : Option Path) (raw : Bytes) (formula : Formula) (args : List Bytes)
    (hroom : registry.nesting formula ≤ registry.maxCallDepth) :
    (registry.evaluate (.ofTree path) (Tree.ofBytes raw) formula args).1 =
      (registry.meaning ⟨path, fun p => (PlainTree.bytesAt raw p).mapError .data⟩ formula
        (args.map .ok)).located path := by
  obtain ⟨hbuilt, hbasic⟩ := base_basic hbase
  have hraw := Tree.represents_ofBytes raw
  have hpure : registry.Hosts Host.Pure :=
    hbasic.hosts fun hbasic => hbasic.plain.pure
  have hproper : Setting.Proper ⟨registry, .ofTree path, Tree.ofBytes raw⟩ :=
    ⟨hbuilt.reached.layered, hpure, Surroundings.steady_ofTree path hraw⟩
  obtain ⟨outcome, houtcome, hreaches⟩ := evaluate_reaches hproper formula args
  rw [houtcome, ← Surroundings.world_ofTree path hraw]
  cases outcome with
  | ok value =>
    rw [show registry.meaning _ formula _ = .ok value from hreaches]
    rfl
  | error fault =>
    rcases hreaches with hmeaning | ⟨hdeep, -⟩
    · rw [hmeaning]
      rfl
    · exact absurd hroom hdeep

end Registry
end ByteFormula
