import ByteFormula.Proofs.Layers

/-! The meaning of formulas by name. It knows no frames, keeps no values and has no bound on nested
calls: a formula means a function of its arguments, and an argument that is never asked for does
not matter, even if it is a fault. Definitions only call functions registered before them, so the
meanings of all functions are built in the order of registration. -/
namespace ByteFormula

abbrev Result := Except Fault Bytes

/-- What a function makes of its arguments. Each of them is suspended: its result, fault or not, is
there for whoever asks. -/
abbrev Operation := List Result → Result

/-- The data around an evaluation, as far as it can be seen. -/
structure World where
  invocationPath : Option Path
  bytesAt : Path → Except FaultKind Bytes

def suspended (args : List Result) (index : Nat) : Result :=
  match args[index]? with
  | some result => result
  | none => .error (Fault.ofKind (.argumentOutOfBounds index args.length))

theorem suspended_some {args : List Result} {index : Nat} {result : Result}
    (h : args[index]? = some result) : suspended args index = result := by
  rw [suspended, h]

theorem suspended_none {args : List Result} {index : Nat} (h : args.length ≤ index) :
    suspended args index = .error (Fault.ofKind (.argumentOutOfBounds index args.length)) := by
  rw [suspended, List.getElem?_eq_none h]

@[simp] theorem Fault.kind_within (fault : Fault) (symbol : String) :
    (fault.within symbol).kind = fault.kind := by
  unfold Fault.within
  split <;> rfl

@[simp] theorem Fault.kind_atPath (fault : Fault) (path : Option Path) :
    (fault.atPath path).kind = fault.kind := by
  unfold Fault.atPath
  split <;> rfl

def Result.named (symbol : String) : Result → Result
  | .ok value => .ok value
  | .error fault => .error (fault.within symbol)

def Result.located (path : Option Path) : Result → Result
  | .ok value => .ok value
  | .error fault => .error (fault.atPath path)

/-- The result of a host function on suspended arguments. Programs that ask for more than their
arguments and the world have no meaning. -/
def Host.meaning {σ : Type} (world : World) (args : List Result) : Host σ Bytes → Result
  | .done value => .ok value
  | .raise fault => .error fault
  | .argument index next => (next (suspended args index)).meaning world args
  | .arity next => (next args.length).meaning world args
  | .invocationPath next => (next world.invocationPath).meaning world args
  | .bytesAt path next => (next (world.bytesAt path)).meaning world args
  | .depth _ | .outline _ | .exchange _ _ => .error (Fault.ofKind (.failed "no meaning"))

mutual
/-- The result of a formula whose references are to `args`. The arguments of a call are suspended
in the same scope as the call. -/
def Formula.meaning (table : Nat → Option Operation) (args : List Result) : Formula → Result
  | .data bytes => .ok bytes
  | .argument index => suspended args index
  | .call function actual =>
    match table function with
    | some operation => operation (Formula.meaningAll table args actual)
    | none => .error (Fault.ofKind (.noFunction function))

def Formula.meaningAll (table : Nat → Option Operation) (args : List Result) :
    List Formula → List Result
  | [] => []
  | arg :: rest => arg.meaning table args :: Formula.meaningAll table args rest
end

/-- Programs that ask for arguments, for their number and for the world only, and that pass on the
faults of their arguments. -/
inductive Host.Pure {σ α : Type} : Host σ α → Prop where
  | done (value : α) : Pure (.done value)
  | raise (fault : Fault) : Pure (.raise fault)
  | argument {index : Nat} {next : Result → Host σ α}
      (hfault : ∀ fault, next (.error fault) = .raise fault)
      (hvalue : ∀ value, Pure (next (.ok value))) : Pure (.argument index next)
  | arity {next : Nat → Host σ α} (h : ∀ count, Pure (next count)) : Pure (.arity next)
  | invocationPath {next : Option Path → Host σ α} (h : ∀ path, Pure (next path)) :
      Pure (.invocationPath next)
  | bytesAt {path : Path} {next : Except FaultKind Bytes → Host σ α}
      (h : ∀ answer, Pure (next answer)) : Pure (.bytesAt path next)

/-- Faults that a program raises on its own carry no path. -/
def Host.Unplaced {σ α : Type} : Host σ α → Prop
  | .done _ => True
  | .raise fault => fault.path = none
  | .argument _ next => ∀ value, (next (.ok value)).Unplaced
  | .arity next => ∀ count, (next count).Unplaced
  | .depth next => ∀ count, (next count).Unplaced
  | .outline next => ∀ outline, (next outline).Unplaced
  | .invocationPath next => ∀ path, (next path).Unplaced
  | .bytesAt _ next => ∀ answer, (next answer).Unplaced
  | .exchange _ next => ∀ state, (next state).Unplaced

def Body.program? {σ : Type} : Body σ → Option (Host σ Bytes)
  | .short program => some program
  | .long program => some program
  | .defined _ _ => none

theorem Body.defined_of_program? {σ : Type} {body : Body σ} (h : body.program? = none) :
    ∃ formula bytecode, body = .defined formula bytecode := by
  cases body with
  | short program => cases h
  | long program => cases h
  | defined formula bytecode => exact ⟨formula, bytecode, rfl⟩

/-- What the body of a function means over a table of the functions that it may call. -/
def Body.meaning {σ : Type} (world : World) (table : Nat → Option Operation) (args : List Result) :
    Body σ → Result
  | .short program => program.meaning world args
  | .long program => program.meaning world args
  | .defined formula _ => formula.meaning table args

/-- The meaning of a function, whose name is put on the faults that come out of it. -/
def Function.meaning {σ : Type} (world : World) (table : Nat → Option Operation)
    (function : Function σ) : Operation := fun args =>
  Result.named function.symbol (function.body.meaning world table args)

namespace Registry

variable {σ : Type}

/-- The meanings of the first functions of a registry, each over those before it. -/
def meanings (registry : Registry σ) (world : World) : (count : Nat) → Nat → Option Operation
  | 0, _ => none
  | count + 1, index =>
    if index = count then
      (registry.function? count).map (Function.meaning world (registry.meanings world count))
    else registry.meanings world count index

def meaning (registry : Registry σ) (world : World) (formula : Formula) : Operation := fun args =>
  formula.meaning (registry.meanings world registry.size) args

section

variable {registry : Registry σ} {world : World}

private theorem meanings_of_lt {count index : Nat} (h : index < count) :
    registry.meanings world count index =
      (registry.function? index).map (Function.meaning world (registry.meanings world index)) := by
  induction count with
  | zero => omega
  | succ count ih =>
    rw [meanings]
    split
    · rename_i heq
      rw [heq]
    · exact ih (by omega)

private theorem meanings_of_none {index : Nat} (h : registry.function? index = none) (count : Nat) :
    registry.meanings world count index = none := by
  induction count with
  | zero => rfl
  | succ count ih =>
    rw [meanings]
    split
    · rename_i heq
      rw [← heq, h]
      rfl
    · exact ih

mutual
/-- Functions beyond those that a formula calls do not change its meaning. -/
theorem meaning_of_callsBelow {bound count : Nat} (hle : bound ≤ count) (args : List Result)
    (formula : Formula) (h : CallsBelow bound formula) :
    formula.meaning (registry.meanings world count) args =
      formula.meaning (registry.meanings world bound) args := by
  cases formula with
  | data bytes => rfl
  | argument index => rfl
  | call index actual =>
    rw [Formula.meaning, Formula.meaning, meanings_of_lt h.1,
      meanings_of_lt (Nat.lt_of_lt_of_le h.1 hle), meaningAll_of_callsBelow hle args actual h.2]

theorem meaningAll_of_callsBelow {bound count : Nat} (hle : bound ≤ count) (args : List Result)
    (formulas : List Formula) (h : CallsAllBelow bound formulas) :
    Formula.meaningAll (registry.meanings world count) args formulas =
      Formula.meaningAll (registry.meanings world bound) args formulas := by
  cases formulas with
  | nil => rfl
  | cons arg rest =>
    rw [Formula.meaningAll, Formula.meaningAll, meaning_of_callsBelow hle args arg h.1,
      meaningAll_of_callsBelow hle args rest h.2]
end

private theorem meaningAll_eq_map (args : List Result) (formulas : List Formula) :
    Formula.meaningAll (registry.meanings world registry.size) args formulas =
      formulas.map fun formula => registry.meaning world formula args := by
  induction formulas with
  | nil => rfl
  | cons arg rest ih => rw [Formula.meaningAll, ih, List.map_cons, meaning]

theorem meaning_call_none {index : Nat} (h : registry.function? index = none)
    (actual : List Formula) (args : List Result) :
    registry.meaning world (.call index actual) args =
      .error (Fault.ofKind (.noFunction index)) := by
  rw [meaning, Formula.meaning, meanings_of_none h]

/-- The meaning of a call is that of its function on the suspended arguments; for a definition it
is that of the body over the same registry. -/
theorem meaning_call (hlayered : Layered registry) {index : Nat} {function : Function σ}
    (hfunction : registry.function? index = some function) (actual : List Formula)
    (args : List Result) :
    registry.meaning world (.call index actual) args =
      function.meaning world (registry.meanings world registry.size)
        (actual.map fun formula => registry.meaning world formula args) := by
  have hlt := lt_size_of_function? hfunction
  rw [meaning, Formula.meaning, meanings_of_lt hlt, hfunction, Option.map_some]
  simp only [meaningAll_eq_map, Function.meaning]
  cases hbody : function.body with
  | short program => rfl
  | long program => rfl
  | defined formula bytecode =>
    rw [Body.meaning, Body.meaning,
      meaning_of_callsBelow (Nat.le_of_lt hlt) _ _ (hlayered hfunction hbody)]

end

def Hosts (registry : Registry σ) (condition : Host σ Bytes → Prop) : Prop :=
  ∀ ⦃index function program⦄, registry.function? index = some function →
    function.body.program? = some program → condition program

end Registry

def Result.Unplaced (result : Result) : Prop :=
  ∀ fault, result = .error fault → fault.path = none

def Operation.Unplaced (operation : Operation) : Prop :=
  ∀ args : List Result, (∀ arg ∈ args, arg.Unplaced) → (operation args).Unplaced

section

variable {σ : Type} {world : World} {args : List Result}

theorem Result.unplaced_ok (value : Bytes) : Result.Unplaced (.ok value) :=
  fun _ h => nomatch h

private theorem Result.unplaced_error {fault : Fault} (h : fault.path = none) :
    Result.Unplaced (.error fault) := by
  rintro _ ⟨⟩
  exact h

theorem Result.Unplaced.named {result : Result} (h : result.Unplaced) (symbol : String) :
    (result.named symbol).Unplaced := by
  cases result with
  | ok value => exact unplaced_ok value
  | error fault =>
    have hfault := h fault rfl
    refine unplaced_error ?_
    unfold Fault.within
    split <;> exact hfault

private theorem unplaced_suspended (h : ∀ arg ∈ args, arg.Unplaced) (index : Nat) :
    (suspended args index).Unplaced := by
  unfold suspended
  split
  · exact h _ (List.mem_of_getElem? ‹_›)
  · exact Result.unplaced_error rfl

theorem Host.Pure.unplaced {program : Host σ Bytes} (hpure : program.Pure)
    (hprogram : program.Unplaced) (h : ∀ arg ∈ args, arg.Unplaced) :
    (program.meaning world args).Unplaced := by
  induction hpure with
  | done value => exact Result.unplaced_ok value
  | raise fault => exact Result.unplaced_error hprogram
  | @argument index next hfault _ ih =>
    have hanswer := unplaced_suspended h index
    rw [Host.meaning]
    cases hresult : suspended args index with
    | ok value => exact ih value (hprogram value)
    | error fault =>
      rw [hresult] at hanswer
      rw [hfault]
      exact hanswer
  | arity _ ih => exact ih _ (hprogram _)
  | invocationPath _ ih => exact ih _ (hprogram _)
  | bytesAt _ ih => exact ih _ (hprogram _)

mutual
theorem Formula.unplaced {table : Nat → Option Operation}
    (htable : ∀ index operation, table index = some operation → operation.Unplaced)
    (h : ∀ arg ∈ args, arg.Unplaced) (formula : Formula) :
    (formula.meaning table args).Unplaced := by
  cases formula with
  | data bytes => exact Result.unplaced_ok bytes
  | argument index => exact unplaced_suspended h index
  | call index actual =>
    rw [Formula.meaning]
    split
    · exact htable _ _ ‹_› _ (Formula.unplacedAll htable h actual)
    · exact Result.unplaced_error rfl

theorem Formula.unplacedAll {table : Nat → Option Operation}
    (htable : ∀ index operation, table index = some operation → operation.Unplaced)
    (h : ∀ arg ∈ args, arg.Unplaced) (formulas : List Formula) :
    ∀ result ∈ Formula.meaningAll table args formulas, result.Unplaced := by
  cases formulas with
  | nil => simp [Formula.meaningAll]
  | cons arg rest =>
    intro result hresult
    rcases List.mem_cons.mp hresult with rfl | hrest
    · exact Formula.unplaced htable h arg
    · exact Formula.unplacedAll htable h rest result hrest
end

/-- If host functions raise faults without paths, formulas mean faults without paths. -/
theorem Registry.unplaced_meanings {registry : Registry σ} (hpure : registry.Hosts Host.Pure)
    (hplain : registry.Hosts Host.Unplaced) (count : Nat) :
    ∀ index operation, registry.meanings world count index = some operation →
      operation.Unplaced := by
  induction count with
  | zero => intro _ _ h; cases h
  | succ count ih =>
    intro index operation h
    rw [Registry.meanings] at h
    split at h
    · obtain ⟨function, hfunction, rfl⟩ := Option.map_eq_some_iff.mp h
      intro args hargs
      refine Result.Unplaced.named ?_ function.symbol
      cases hbody : function.body with
      | short program =>
        have hprogram : function.body.program? = some program := by rw [hbody]; rfl
        exact (hpure hfunction hprogram).unplaced (hplain hfunction hprogram) hargs
      | long program =>
        have hprogram : function.body.program? = some program := by rw [hbody]; rfl
        exact (hpure hfunction hprogram).unplaced (hplain hfunction hprogram) hargs
      | defined formula bytecode => exact Formula.unplaced ih hargs formula
    · exact ih index operation h

end
end ByteFormula
