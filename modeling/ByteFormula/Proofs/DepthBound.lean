import ByteFormula.Proofs.Executions
import ByteFormula.Proofs.Inlining
import ByteFormula.Proofs.Lookups

/-! The bound on nested calls. It cuts evaluations off and makes no other difference, and it does not
cut off those whose formulas are not deeper than the bound once definitions are put in place. -/
namespace ByteFormula

variable {σ α : Type}

/-- Programs that pass on the faults of their arguments and never look at the bound on nested
calls. -/
def Host.Indifferent : Host σ α → Prop
  | .done _ => True
  | .raise _ => True
  | .argument _ next =>
    (∀ fault, next (.error fault) = .raise fault) ∧ ∀ value, (next (.ok value)).Indifferent
  | .arity next => ∀ count, (next count).Indifferent
  | .depth next => ∀ depth, (next depth).Indifferent
  | .outline next =>
    (∀ functions bound other, next ⟨functions, bound⟩ = next ⟨functions, other⟩) ∧
      ∀ outline, (next outline).Indifferent
  | .invocationPath next => ∀ path, (next path).Indifferent
  | .bytesAt _ next => ∀ answer, (next answer).Indifferent
  | .exchange _ next => ∀ state, (next state).Indifferent

private theorem Host.Pure.indifferent {program : Host σ α} (h : program.Pure) :
    program.Indifferent := by
  induction h with
  | done value => trivial
  | raise fault => trivial
  | argument hfault _ ih => exact ⟨hfault, ih⟩
  | arity _ ih => exact ih
  | invocationPath _ ih => exact ih
  | bytesAt _ ih => exact ih

section

variable {kind : FaultKind} {result : Result}

private theorem Result.spares_ok (kind : FaultKind) (value : Bytes) :
    Result.Spares kind (.ok value) :=
  fun _ h => by cases h

private theorem Result.spares_error {fault : Fault} :
    Result.Spares kind (.error fault) ↔ fault.kind ≠ kind := by
  constructor
  · exact fun h => h fault rfl
  · rintro h _ ⟨⟩
    exact h

private theorem Result.spares_named {symbol : String} :
    (result.named symbol).Spares kind ↔ result.Spares kind := by
  cases result with
  | ok value => exact Iff.rfl
  | error fault =>
    rw [Result.named, Result.spares_error, Result.spares_error, Fault.kind_within]

private theorem Result.spares_located {path : Option Path} :
    (result.located path).Spares kind ↔ result.Spares kind := by
  cases result with
  | ok value => exact Iff.rfl
  | error fault =>
    rw [Result.located, Result.spares_error, Result.spares_error, Fault.kind_atPath]

end

def Result.Roomy (result : Result) : Prop :=
  ∀ depth, result.Spares (.stackOverflow depth)

namespace Machine

section

variable {registry other : Registry σ} {surroundings : Surroundings σ} {task : Task σ}
  {machine : Machine σ} {events : List Event} {outcome : Outcome σ}

/-- What is done without too many nested calls is done in the same way under a higher bound. -/
theorem Runs.of_le (hfunctions : other.functions = registry.functions)
    (hle : registry.maxCallDepth ≤ other.maxCallDepth)
    (hhosts : registry.Hosts Host.Indifferent)
    (h : Runs registry surroundings task machine events outcome)
    (htask : task.Serves Host.Indifferent) (hroomy : Result.Roomy outcome.1) :
    Runs other surroundings task machine events outcome := by
  have hsame : ∀ index, other.function? index = registry.function? index := by
    intro index
    rw [Registry.function?, hfunctions, Registry.function?]
  have hsize : other.size = registry.size := by rw [Registry.size, hfunctions, Registry.size]
  induction h with
  | data => exact .data
  | reference _ ih => exact .reference (ih trivial hroomy)
  | callee _ ih => exact .callee (ih trivial hroomy)
  | missing hframe hslot => exact .missing hframe hslot
  | kept hframe hslot => exact .kept hframe hslot
  | value hframe hslot _ ih => exact .value hframe hslot (ih trivial fun _ => Result.spares_ok _ _)
  | fault hframe hslot _ ih => exact .fault hframe hslot (ih trivial hroomy)
  | unknown hfunction => exact .unknown ((hsame _).trans hfunction)
  | refused _ _ =>
    -- The only rule that looks at the bound from this side.
    exact absurd (Fault.kind_within _ _) (hroomy _ _ rfl)
  | program hfunction hroom hprogram _ ih =>
    exact .program ((hsame _).trans hfunction) (Nat.lt_of_lt_of_le hroom hle) hprogram
      (ih (hhosts hfunction hprogram) fun depth => Result.spares_named.mp (hroomy depth))
  | definition hfunction hroom hbody _ ih =>
    exact .definition ((hsame _).trans hfunction) (Nat.lt_of_lt_of_le hroom hle) hbody
      (ih trivial fun depth => Result.spares_named.mp (hroomy depth))
  | done => exact .done
  | raise => exact .raise
  | @ask index next _ _ _ _ answer _ _ h ihanswer ih =>
    cases answer with
    | ok value => exact .ask (ihanswer trivial fun _ => Result.spares_ok _ _) (ih (htask.2 value) hroomy)
    | error fault =>
      -- The program ends in the fault of its argument.
      have hraise : next (.error fault) = .raise fault := htask.1 fault
      have hrest := ih (by rw [hraise]; trivial) hroomy
      refine .ask (ihanswer trivial ?_) hrest
      rw [hraise] at h
      cases h
      exact hroomy
  | arity hframe _ ih => exact .arity hframe (ih (htask _) hroomy)
  | depth _ ih => exact .depth (ih (htask _) hroomy)
  | outline _ ih =>
    refine .outline ?_
    rw [hsize, htask.1 _ _ registry.maxCallDepth]
    exact ih (htask.2 _) hroomy
  | invocationPath _ ih => exact .invocationPath (ih (htask _) hroomy)
  | bytesAt _ ih => exact .bytesAt (ih (htask _) hroomy)
  | exchange _ ih => exact .exchange (ih (htask _) hroomy)

end
end Machine

/-- The arguments of the calls on the stack with definitions put in place. -/
structure Stack.Expands (registry : Registry σ) (frames : Stack) (calls : List (List Formula)) :
    Prop where
  length : calls.length = frames.size
  slot : ∀ ⦃position : Nat⦄ ⦃frame : Frame⦄ ⦃args : List Formula⦄,
    frames[position]? = some frame → calls[position]? = some args →
    ∃ outer, calls[frame.scope]? = some outer ∧
      ∀ ⦃index : Nat⦄ ⦃slot : Slot⦄, frame.slots[index]? = some slot →
        slot.formula.isData = true ∨ args[index]? = some (registry.expand outer slot.formula)

namespace Stack.Expands

variable {registry : Registry σ} {frames after : Stack} {calls : List (List Formula)}

theorem fills (h : Expands registry frames calls) (hfills : Fills frames after) :
    Expands registry after calls := by
  refine ⟨h.length.trans hfills.size.symm, fun position filled args hfilled hargs => ?_⟩
  obtain ⟨frame, hframe, hsame⟩ := hfills.origin hfilled
  obtain ⟨outer, houter, hslots⟩ := h.slot hframe hargs
  rw [hsame.scope]
  refine ⟨outer, houter, fun index slot hslot => ?_⟩
  obtain ⟨value, hold, -⟩ := hsame.origin hslot
  have hformula := hslots hold
  exact hformula

theorem push (h : Expands registry frames calls) {scope : Nat} {outer : List Formula}
    (houter : calls[scope]? = some outer) (args : List Formula) :
    Expands registry (frames.push (.ofArgs args scope))
      (calls ++ [args.map (registry.expand outer)]) := by
  have hlift : ∀ {position : Nat} {found : List Formula}, calls[position]? = some found →
      (calls ++ [args.map (registry.expand outer)])[position]? = some found := by
    intro position found hfound
    rw [List.getElem?_append_left (List.getElem?_eq_some_iff.mp hfound).1, hfound]
  refine ⟨?_, fun position frame found hframe hfound => ?_⟩
  · rw [List.length_append, h.length, Array.size_push, List.length_singleton]
  rw [Array.getElem?_push] at hframe
  split at hframe
  · subst_vars
    cases hframe
    refine ⟨outer, hlift houter, fun index slot hslot => .inr ?_⟩
    rw [← h.length, List.getElem?_concat_length] at hfound
    cases hfound
    rw [Frame.ofArgs, List.getElem?_toArray, List.getElem?_map, Option.map_eq_some_iff] at hslot
    obtain ⟨formula, hformula, rfl⟩ := hslot
    rw [List.getElem?_map, hformula, Option.map_some]
  · have hlt := (Array.getElem?_eq_some_iff.mp hframe).1
    rw [List.getElem?_append_left (h.length.symm ▸ hlt)] at hfound
    obtain ⟨further, hfurther, hslots⟩ := h.slot hframe hfound
    exact ⟨further, hlift hfurther, hslots⟩

/-- The arguments of the outermost frame are data. -/
theorem outermost (registry : Registry σ) (args : List Bytes) :
    Expands registry #[Frame.ofArgs (args.map Formula.data) 0] [[]] := by
  refine ⟨rfl, fun position frame found hframe hfound => ?_⟩
  obtain rfl : position = 0 := Nat.lt_one_iff.mp (Array.getElem?_eq_some_iff.mp hframe).1
  rcases ordered_outermost args hframe with hscope | ⟨-, hscope, hdata⟩
  · exact absurd hscope (Nat.not_lt_zero _)
  · exact ⟨[], by rw [hscope]; rfl, fun index slot hslot => .inl (hdata hslot)⟩

end Stack.Expands

namespace Machine

/-- The calls that a formula nests, with definitions put in place, are within the bound together
with those that are going on. -/
def RoomFor (registry : Registry σ) (calls : List (List Formula)) (machine : Machine σ)
    (scope : Nat) (formula : Formula) : Prop :=
  ∃ args, calls[scope]? = some args ∧
    machine.depth + (registry.expand args formula).depth ≤ registry.maxCallDepth

def Task.Fits (registry : Registry σ) (calls : List (List Formula)) (machine : Machine σ) :
    Task σ → Prop
  | .evaluate scope formula => RoomFor registry calls machine scope formula
  | .force position index => RoomFor registry calls machine position (.argument index)
  | .call function args scope => RoomFor registry calls machine scope (.call function args)
  | .serve _ => ∃ args, calls[machine.depth]? = some args ∧
      machine.depth + Formula.depthAll args ≤ registry.maxCallDepth

def Task.HasRoom (registry : Registry σ) (machine : Machine σ) (task : Task σ) : Prop :=
  ∃ calls, Stack.Expands registry machine.frames calls ∧ task.Fits registry calls machine

section

variable {registry : Registry σ} {surroundings : Surroundings σ} {task : Task σ}
  {machine after : Machine σ} {events : List Event} {outcome : Outcome σ} {index scope : Nat}
  {args : List Formula} {function : Function σ} {program : Host σ Bytes}

private theorem depth_push (h : 0 < machine.frames.size) (frame : Frame) :
    (machine.push frame).depth = machine.depth + 1 := by
  rw [depth, push, Array.size_push, depth]
  omega

namespace Task.HasRoom

private theorem depth_lt (h : (Task.call index args scope).HasRoom registry machine) :
    machine.depth < registry.maxCallDepth := by
  obtain ⟨calls, -, outer, -, hle⟩ := h
  have hpos := registry.depth_expand_call_pos index outer args
  omega

/-- The formula of an argument nests as many calls as a reference to it. -/
theorem forced {position : Nat} {frame : Frame} {slot : Slot}
    (h : (Task.force position index : Task σ).HasRoom registry machine)
    (hframe : machine.frames[position]? = some frame) (hslot : frame.slots[index]? = some slot) :
    (Task.evaluate frame.scope slot.formula : Task σ).HasRoom registry machine := by
  obtain ⟨calls, hexpands, args, hargs, hle⟩ := h
  obtain ⟨outer, houter, hslots⟩ := hexpands.slot hframe hargs
  refine ⟨calls, hexpands, outer, houter, Nat.le_trans (Nat.add_le_add_left ?_ _) hle⟩
  rcases hslots hslot with hdata | hsame
  · cases hformula : slot.formula with
    | data bytes => exact Nat.zero_le _
    | argument _ | call _ _ =>
      rw [hformula] at hdata
      cases hdata
  · rw [Registry.expand, Registry.expand, Formula.inline, hsame]
    exact Nat.le_refl _

theorem ask {next : Result → Host σ Bytes}
    (h : (Task.serve (.argument index next)).HasRoom registry machine) :
    (Task.force machine.depth index : Task σ).HasRoom registry machine := by
  obtain ⟨calls, hexpands, args, hargs, hle⟩ := h
  refine ⟨calls, hexpands, args, hargs, Nat.le_trans (Nat.add_le_add_left ?_ _) hle⟩
  rw [Registry.expand, Formula.inline]
  cases harg : args[index]? with
  | none => exact Nat.zero_le _
  | some arg => exact Formula.depth_le_depthAll (List.mem_of_getElem? harg)

/-- A program goes on with the room that it has. -/
theorem serve (h : (Task.serve program).HasRoom registry machine)
    (hfills : Stack.Fills machine.frames after.frames) {next : Host σ Bytes} :
    (Task.serve next).HasRoom registry after := by
  obtain ⟨calls, hexpands, args, hargs, hle⟩ := h
  have hdepth : after.depth = machine.depth := by rw [Machine.depth, hfills.size, Machine.depth]
  exact ⟨calls, hexpands.fills hfills, args, hdepth ▸ hargs, hdepth ▸ hle⟩

private theorem hosted (h : (Task.call index args scope).HasRoom registry machine)
    (hfunction : registry.function? index = some function)
    (hprogram : function.body.program? = some program) :
    (Task.serve program).HasRoom registry (machine.push (.ofArgs args scope)) := by
  obtain ⟨calls, hexpands, outer, houter, hle⟩ := h
  have hpos : 0 < machine.frames.size :=
    hexpands.length ▸ Nat.zero_lt_of_lt (List.getElem?_eq_some_iff.mp houter).1
  refine ⟨_, hexpands.push houter args, args.map (registry.expand outer), ?_, ?_⟩
  · have hdepth : (machine.push (.ofArgs args scope)).depth = calls.length := by
      rw [hexpands.length, push, Machine.depth, Array.size_push, Nat.add_sub_cancel]
    rw [hdepth, List.getElem?_concat_length]
  · rw [Registry.depth_expand_host hfunction hprogram] at hle
    rw [depth_push hpos]
    omega

theorem defined {formula : Formula} {bytecode : Bytes} (hlayered : Registry.Layered registry)
    (h : (Task.call index args scope).HasRoom registry machine)
    (hfunction : registry.function? index = some function)
    (hbody : function.body = .defined formula bytecode) :
    (Task.evaluate machine.frames.size formula : Task σ).HasRoom registry
      (machine.push (.ofArgs args scope)) := by
  obtain ⟨calls, hexpands, outer, houter, hle⟩ := h
  have hpos : 0 < machine.frames.size :=
    hexpands.length ▸ Nat.zero_lt_of_lt (List.getElem?_eq_some_iff.mp houter).1
  refine ⟨_, hexpands.push houter args, args.map (registry.expand outer), ?_, ?_⟩
  · rw [← hexpands.length, List.getElem?_concat_length]
  · rw [hlayered.depth_expand_call hfunction hbody] at hle
    rw [depth_push hpos]
    omega

end Task.HasRoom

/-- The fault that too many calls are nested tells the bound of the registry, and comes up only if
there is no room. -/
theorem Runs.spares_overflow (hlayered : Registry.Layered registry) {bound : Nat}
    (hsurroundings : surroundings.Spares (.stackOverflow bound))
    (hhosts : registry.Hosts (Host.Spares (.stackOverflow bound)))
    (h : Runs registry surroundings task machine events outcome)
    (htask : task.Serves (Host.Spares (.stackOverflow bound)))
    (hroom : bound = registry.maxCallDepth → task.HasRoom registry machine) :
    Result.Spares (.stackOverflow bound) outcome.1 := by
  induction h with
  | data | kept _ _ | done => exact Result.spares_ok _ _
  | reference _ ih | callee _ ih => exact ih trivial hroom
  | missing _ _ | unknown _ => exact Result.spares_error.mpr fun h => by cases h
  | value _ _ _ _ => exact Result.spares_ok _ _
  | fault hframe hslot _ ih => exact ih trivial fun hbound => (hroom hbound).forced hframe hslot
  | refused _ hdeep =>
    refine Result.spares_error.mpr fun h => ?_
    rw [Fault.kind_within] at h
    cases h
    exact absurd hdeep (Nat.not_le_of_lt (hroom rfl).depth_lt)
  | program hfunction _ hprogram _ ih =>
    exact Result.spares_named.mpr
      (ih (hhosts hfunction hprogram) fun hbound => (hroom hbound).hosted hfunction hprogram)
  | definition hfunction _ hbody _ ih =>
    exact Result.spares_named.mpr
      (ih trivial fun hbound => (hroom hbound).defined hlayered hfunction hbody)
  | raise => exact Result.spares_error.mpr htask
  | ask hanswer _ ihanswer ih =>
    have hspares := ihanswer trivial fun hbound => (hroom hbound).ask
    exact ih (htask _ hspares) fun hbound => (hroom hbound).serve hanswer.fills
  | arity _ _ ih | depth _ ih | outline _ ih | invocationPath _ ih | exchange _ ih =>
    exact ih (htask _) hroom
  | bytesAt _ ih => exact ih (htask _ (hsurroundings _ _)) hroom

end
end Machine

namespace Registry

private theorem functions_setMaxCallDepth (registry : Registry σ) (bound : Nat) :
    (registry.setMaxCallDepth bound).functions = registry.functions := by
  unfold setMaxCallDepth
  split <;> rfl

private theorem le_maxCallDepth_setMaxCallDepth {registry : Registry σ} {bound : Nat}
    (h : registry.maxCallDepth ≤ bound) :
    registry.maxCallDepth ≤ (registry.setMaxCallDepth bound).maxCallDepth := by
  unfold setMaxCallDepth
  split
  · exact Nat.le_refl _
  · exact h

section

variable {registry : Registry σ} {surroundings : Surroundings σ}

private theorem spares_evaluate {kind : FaultKind} {state : σ} {formula : Formula}
    {args : List Bytes} : Result.Spares kind (registry.evaluate surroundings state formula args).1 ↔
      Result.Spares kind (registry.outcome surroundings state formula args).1 := by
  rw [evaluate_eq_outcome]
  exact Result.spares_located

/-- An evaluation that is not cut off is the same under a higher bound. -/
theorem evaluate_setMaxCallDepth (hhosts : registry.Hosts Host.Indifferent) {state : σ}
    {formula : Formula} {args : List Bytes}
    (hroomy : Result.Roomy (registry.evaluate surroundings state formula args).1) {bound : Nat}
    (hle : registry.maxCallDepth ≤ bound) :
    (registry.setMaxCallDepth bound).evaluate surroundings state formula args =
      registry.evaluate surroundings state formula args := by
  have hruns := (registry.runs surroundings state formula args).of_le
    (functions_setMaxCallDepth registry bound) (le_maxCallDepth_setMaxCallDepth hle) hhosts trivial
    fun depth => spares_evaluate.mp (hroomy depth)
  have hsame := (hruns.unique ((registry.setMaxCallDepth bound).runs surroundings state formula
    args)).2
  rw [evaluate_eq_outcome, hsame, ← evaluate_eq_outcome]

/-- An evaluation is not cut off at depths other than the bound, and not at all if there is room for
the formula with definitions put in place. -/
theorem evaluate_spares_overflow (hlayered : Layered registry) {bound : Nat}
    (hsurroundings : surroundings.Spares (.stackOverflow bound))
    (hhosts : registry.Hosts (Host.Spares (.stackOverflow bound))) {state : σ} {formula : Formula}
    {args : List Bytes} (hroom : bound = registry.maxCallDepth →
      (registry.expand [] formula).depth ≤ registry.maxCallDepth) :
    Result.Spares (.stackOverflow bound)
      (registry.evaluate surroundings state formula args).1 := by
  apply spares_evaluate.mpr
  refine (registry.runs surroundings state formula args).spares_overflow hlayered hsurroundings
    hhosts trivial fun hbound => ?_
  refine ⟨[[]], .outermost registry args, [], rfl, ?_⟩
  exact (Nat.zero_add _).symm ▸ hroom hbound

end

/-- Basic host functions, such as those of the base registry, are of the kind that the bound makes no
other difference to. -/
theorem HostsAt.indifferent {registry : Registry σ}
    (h : registry.HostsAt fun count program => program.Basic count) :
    registry.Hosts Host.Indifferent ∧
      ∀ bound, registry.Hosts (Host.Spares (.stackOverflow bound)) :=
  ⟨h.hosts fun hbasic => hbasic.plain.pure.indifferent,
    fun _ => h.hosts fun hbasic => hbasic.spares rfl⟩

/-- The bound on nested calls only cuts off. With host functions that pass on the faults of their
arguments, never read the bound and do not claim that it was reached, an evaluation that is not cut
off is the same under every higher bound, and one that is cut off tells the bound. None is cut off
whose formula is not deeper than the bound with definitions put in place, and so none of a formula
that was decoded and calls host functions only. -/
theorem depth_bound_only_cuts {registry : Registry σ} (hbuilt : Built registry)
    (hhosts : registry.Hosts Host.Indifferent)
    (hspares : ∀ bound, registry.Hosts (Host.Spares (.stackOverflow bound)))
    {surroundings : Surroundings σ}
    (hsurroundings : ∀ bound, surroundings.Spares (.stackOverflow bound)) (state : σ)
    (formula : Formula) (args : List Bytes) :
    (Result.Roomy (registry.evaluate surroundings state formula args).1 →
      ∀ bound, registry.maxCallDepth ≤ bound →
        (registry.setMaxCallDepth bound).evaluate surroundings state formula args =
          registry.evaluate surroundings state formula args) ∧
    (∀ fault depth, (registry.evaluate surroundings state formula args).1 = .error fault →
      fault.kind = .stackOverflow depth → depth = registry.maxCallDepth) ∧
    ((registry.expand [] formula).depth ≤ registry.maxCallDepth →
      Result.Roomy (registry.evaluate surroundings state formula args).1) ∧
    ∀ bytecode arity, registry.decode bytecode arity = .ok formula →
      registry.CallsHosts formula →
      Result.Roomy (registry.evaluate surroundings state formula args).1 := by
  have hlayered := hbuilt.reached.layered
  have hdeep : (registry.expand [] formula).depth ≤ registry.maxCallDepth →
      Result.Roomy (registry.evaluate surroundings state formula args).1 :=
    fun hle bound => evaluate_spares_overflow hlayered (hsurroundings bound) (hspares bound)
      fun _ => hle
  refine ⟨fun hroomy bound hle => evaluate_setMaxCallDepth hhosts hroomy hle, ?_, hdeep, ?_⟩
  · intro fault depth hfault hkind
    apply Classical.byContradiction
    intro hne
    exact evaluate_spares_overflow hlayered (hsurroundings depth) (hspares depth)
      (fun heq => absurd heq hne) fault hfault hkind
  · intro bytecode arity hdecode hcalls
    obtain ⟨widened, hreadable⟩ :=
      (decode_eq_ok_iff_readable hbuilt.reached.numbered arity bytecode formula).mp hdecode
    apply hdeep
    rw [expand_of_callsHosts formula hcalls]
    exact hreadable.depth

/-- A definition that nests two calls around its argument, with just enough room and without. The
base registry is as good as this one. -/
theorem depth_bound_only_cuts_twice :
    (∀ registry : Registry Tree, base = .ok registry → Built registry ∧
      registry.Hosts Host.Indifferent ∧
      ∀ bound, registry.Hosts (Host.Spares (.stackOverflow bound))) ∧
    Built (trio : Registry Tree) ∧
    ((trio : Registry Tree).expand [] (.call 2 [.call 0 [.argument 0]])).depth = 4 ∧
    ((trio : Registry Tree).setMaxCallDepth 9).evaluate (.ofTree none) (Tree.ofBytes [0, 0])
        (.call 2 [.call 0 [.argument 0]]) [[7]] =
      (trio : Registry Tree).evaluate (.ofTree none) (Tree.ofBytes [0, 0])
        (.call 2 [.call 0 [.argument 0]]) [[7]] ∧
    ((trio : Registry Tree).evaluate (.ofTree none) (Tree.ofBytes [0, 0])
        (.call 2 [.call 2 [.argument 0]]) [[7]]).1 =
      .error ⟨.stackOverflow 4, some "not", none⟩ ∧
    (((trio : Registry Tree).setMaxCallDepth 6).evaluate (.ofTree none) (Tree.ofBytes [0, 0])
        (.call 2 [.call 2 [.argument 0]]) [[7]]).1 = .ok [0xff] := by
  have hbase : ∀ registry : Registry Tree, base = .ok registry → Built registry ∧
      registry.Hosts Host.Indifferent ∧
      ∀ bound, registry.Hosts (Host.Spares (.stackOverflow bound)) :=
    fun _ hok => (base_basic hok).imp_right HostsAt.indifferent
  obtain ⟨hhosts, hspares⟩ := HostsAt.indifferent (trio_basic : (trio : Registry Tree).HostsAt _)
  obtain ⟨hsame, -, hdeep, -⟩ := depth_bound_only_cuts trio_built hhosts hspares
    (fun _ => Surroundings.spares_ofTree rfl none) (Tree.ofBytes [0, 0])
    (.call 2 [.call 0 [.argument 0]]) [[7]]
  exact ⟨hbase, trio_built, rfl, hsame (hdeep (Nat.le_refl 4)) 9 (by decide), rfl, rfl⟩

end Registry
end ByteFormula
