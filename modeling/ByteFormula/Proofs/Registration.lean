import ByteFormula.Proofs.Expressions
import ByteFormula.Registry.Extend

/-! Registries that arise by registrations. Each of the ways to register comes down to a few single
steps, so what the steps keep holds of every registry: codes are handed out in order within their
space, no two functions share one, and arities fit the calls of their space. -/
namespace ByteFormula

namespace Index

variable {κ : Type} [DecidableEq κ]

@[simp] theorem find?_empty (key : κ) : (empty : Index κ).find? key = none := rfl

theorem find?_insert (table : Index κ) (key other : κ) (index : Nat) :
    (table.insert key index).find? other = if other = key then some index else table.find? other := by
  unfold find? insert
  rw [List.lookup_cons]
  by_cases h : other = key
  · rw [if_pos h, beq_iff_eq.mpr h]
  · rw [if_neg h, beq_eq_false_iff_ne.mpr h]

end Index

namespace Registry

variable {σ : Type}

/-- A registry that arises from the empty one by registrations, whether they succeed or not. -/
inductive Built : Registry σ → Prop where
  | empty : Built empty
  | setMaxCallDepth {registry : Registry σ} (h : Built registry) (depth : Nat) :
      Built (registry.setMaxCallDepth depth)
  | embedShort {registry after : Registry σ} {symbol : String} {arity : Nat}
      {program : Host σ Bytes} {result : Except RegistryError Nat} (h : Built registry)
      (hcall : registry.embedShort symbol arity program = (result, after)) : Built after
  | embedLong {registry after : Registry σ} {symbol : String} {arity : Arity}
      {program : Host σ Bytes} {result : Except RegistryError Nat} (h : Built registry)
      (hcall : registry.embedLong symbol arity program = (result, after)) : Built after
  | extend {registry after : Registry σ} {symbol source : String} {result : Except Error Nat}
      (h : Built registry) (hcall : registry.extend symbol source = (result, after)) : Built after
  | extendWithArity {registry after : Registry σ} {symbol : String} {arity : Arity}
      {source : String} {result : Except Error Nat} (h : Built registry)
      (hcall : registry.extendWithArity symbol arity source = (result, after)) : Built after
  | extendMany {registry after : Registry σ} {source : String} {result : Except Error (List Nat)}
      (h : Built registry) (hcall : registry.extendMany source = (result, after)) : Built after
  | extendAll {registry after : Registry σ} {definitions : List Definition}
      {result : Except Error (List Nat)} (h : Built registry)
      (hcall : registry.extendAll definitions = (result, after)) : Built after

/-- A source compiled for registration: against a declared arity, or with as many arguments as it
refers to. -/
inductive Compiles (registry : Registry σ) (source : String) : Nat → Formula → Prop where
  | declared {line arity : Nat} {e : Expression} {formula : Formula}
      (hparse : Expression.parse line source = .ok e)
      (hformula : registry.formulaOf (some arity) e = .ok formula) :
      Compiles registry source arity formula
  | counted {line : Nat} {e : Expression} {formula : Formula}
      (hparse : Expression.parse line source = .ok e)
      (hformula : registry.formulaOf none e = .ok formula) :
      Compiles registry source formula.numArgs formula

/-- A single change: another bound, a host function, or a definition that was compiled and
prepared. -/
inductive Step : Registry σ → Registry σ → Prop where
  | bound (registry : Registry σ) (depth : Nat) : Step registry (registry.setMaxCallDepth depth)
  | host {registry after : Registry σ} {symbol : String} {arity : Arity} {body : Body σ}
      {index : Nat} (hbody : body.space ≠ .extended)
      (hok : registry.insert symbol arity body none = (.ok index, after)) : Step registry after
  | definition {registry after : Registry σ} {symbol source : String} {arity : Nat}
      {formula body : Formula} {bytecode : Bytes} {index : Nat}
      (hcompiles : registry.Compiles source arity formula)
      (hprepare : registry.prepare symbol arity formula = .ok (body, bytecode))
      (hok : registry.insert symbol (.fixed arity) (.defined body bytecode) (some source) =
        (.ok index, after)) :
      Step registry after

/-- A registry that arises from the empty one by single changes. -/
inductive Reached : Registry σ → Prop where
  | empty : Reached empty
  | step {registry after : Registry σ} (h : Reached registry) (hstep : Step registry after) :
      Reached after

theorem strip_recordedSource (source : String) :
    Text.strip (recordedSource source).toList = Text.strip source.toList := by
  rw [recordedSource, String.toList_ofList, Text.strip_strip]

/-- White space means nothing, so the recorded text is read like the given one. -/
theorem parse_recordedSource (line : Nat) (source : String) :
    Expression.parse line (recordedSource source) = Expression.parse line source := by
  rw [Expression.parse, strip_recordedSource, Expression.parse]

def push (registry : Registry σ) (function : Function σ) : Registry σ :=
  { registry with
    functions := registry.functions.push function
    names := registry.names.insert function.symbol registry.size
    codes := registry.codes.insert function.code registry.size }

/-- A function that is inserted was vetted, takes the next code of its space and is returned by its
index. -/
theorem insert_ok {registry after : Registry σ} {symbol : String} {arity : Arity} {body : Body σ}
    {source : Option String} {index : Nat}
    (h : registry.insert symbol arity body source = (.ok index, after)) :
    registry.vet symbol arity body.space = .ok () ∧
      registry.used body.space < body.space.capacity ∧ index = registry.size ∧
      after = registry.push
        ⟨symbol, body.space.first + registry.used body.space, arity, body, source⟩ := by
  unfold insert at h
  split at h
  · cases h
  · rename_i hvet
    split at h
    · cases h
    · rename_i code hcode
      unfold nextCode at hcode
      simp only at hcode
      split at hcode
      · cases hcode
      · cases hcode
        cases h
        exact ⟨hvet, by omega, rfl, rfl⟩

/-- The tables are entered only after all checks, so a function that is refused leaves no trace. -/
theorem insert_refused {registry after : Registry σ} {symbol : String} {arity : Arity}
    {body : Body σ} {source : Option String} {e : RegistryError}
    (h : registry.insert symbol arity body source = (.error e, after)) : after = registry := by
  unfold insert at h
  split at h
  · cases h
    rfl
  · split at h
    · cases h
      rfl
    · cases h

/-- What a call for one function may do: it is refused and leaves the registry as it was, or it makes
a single change and returns the index behind all functions before it. -/
inductive Registers {ε : Type} (registry : Registry σ) : Except ε Nat × Registry σ → Prop where
  | refused (e : ε) : Registers registry (.error e, registry)
  | registered {after : Registry σ} (hstep : Step registry after) :
      Registers registry (.ok registry.size, after)

/-- What a single change keeps, the call keeps, whether it succeeds or not. -/
theorem Registers.keeps {ε : Type} {registry : Registry σ} {outcome : Except ε Nat × Registry σ}
    (h : registry.Registers outcome) {P : Registry σ → Prop} (hkeeps : P registry)
    (hstep : ∀ {after : Registry σ}, Step registry after → P after) : P outcome.2 := by
  cases h with
  | refused e => exact hkeeps
  | registered hone => exact hstep hone

theorem Registers.keeps_ok {ε : Type} {registry : Registry σ} {outcome : Except ε Nat × Registry σ}
    (h : registry.Registers outcome) {P : Registry σ → Prop} (hkeeps : P registry)
    (hok : ∀ {index after}, outcome = (.ok index, after) → P after) : P outcome.2 := by
  cases h with
  | refused e => exact hkeeps
  | registered hone => exact hok rfl

private theorem insert_registers (registry : Registry σ) (symbol : String) (arity : Arity)
    {body : Body σ}
    (hbody : body.space ≠ .extended) : registry.Registers (registry.insert symbol arity body none) := by
  rcases hcall : registry.insert symbol arity body none with ⟨result, after⟩
  cases result with
  | error e =>
    cases insert_refused hcall
    exact .refused e
  | ok index =>
    obtain ⟨-, -, rfl, -⟩ := insert_ok hcall
    exact .registered (.host hbody hcall)

theorem embedShort_registers (registry : Registry σ) (symbol : String) (arity : Nat)
    (program : Host σ Bytes) : registry.Registers (registry.embedShort symbol arity program) :=
  insert_registers registry symbol (.fixed arity) (by simp [Body.space])

theorem embedLong_registers (registry : Registry σ) (symbol : String) (arity : Arity)
    (program : Host σ Bytes) : registry.Registers (registry.embedLong symbol arity program) :=
  insert_registers registry symbol arity (by simp [Body.space])

/-- A definition that is registered was prepared and inserted. -/
theorem define_inserts {registry after : Registry σ} {symbol source : String} {arity index : Nat}
    {formula : Formula} (h : registry.define symbol arity formula source = (.ok index, after)) :
    ∃ body bytecode, registry.prepare symbol arity formula = .ok (body, bytecode) ∧
      registry.insert symbol (.fixed arity) (.defined body bytecode) (some source) =
        (.ok index, after) := by
  unfold define at h
  split at h
  · cases h
  rename_i body bytecode hprepare
  split at h
  · cases h
  · rename_i hinsert
    cases h
    exact ⟨body, bytecode, hprepare, hinsert⟩

private theorem define_refused {registry after : Registry σ} {symbol source : String} {arity : Nat}
    {formula : Formula} {e : Error}
    (h : registry.define symbol arity formula source = (.error e, after)) : after = registry := by
  unfold define at h
  split at h
  · cases h
    rfl
  split at h
  · rename_i hinsert
    cases h
    exact insert_refused hinsert
  · cases h

theorem define_step {registry after : Registry σ} {symbol source : String} {arity index : Nat}
    {formula : Formula} (hcompiles : registry.Compiles source arity formula)
    (h : registry.define symbol arity formula source = (.ok index, after)) : Step registry after := by
  obtain ⟨body, bytecode, hprepare, hinsert⟩ := define_inserts h
  exact .definition hcompiles hprepare hinsert

private theorem define_registers {registry : Registry σ} {source : String} {arity : Nat}
    {formula : Formula} (hcompiles : registry.Compiles source arity formula) (symbol : String) :
    registry.Registers (registry.define symbol arity formula source) := by
  rcases hcall : registry.define symbol arity formula source with ⟨result, after⟩
  cases result with
  | error e =>
    cases define_refused hcall
    exact .refused e
  | ok index =>
    obtain ⟨body, bytecode, -, hinsert⟩ := define_inserts hcall
    obtain ⟨-, -, rfl, -⟩ := insert_ok hinsert
    exact .registered (define_step hcompiles hcall)

/-- A text is refused, or it is registered as the text that is recorded. -/
theorem extend_eq_define (registry : Registry σ) (symbol source : String) :
    (∃ e, registry.extend symbol source = (.error e, registry)) ∨
      ∃ arity formula, registry.Compiles (recordedSource source) arity formula ∧
        registry.extend symbol source =
          registry.define symbol arity formula (recordedSource source) := by
  unfold Registry.extend
  split
  · exact .inl ⟨_, rfl⟩
  rename_i e hparse
  split
  · exact .inl ⟨_, rfl⟩
  rename_i formula hformula
  rw [← parse_recordedSource] at hparse
  exact .inr ⟨_, formula, .counted hparse hformula, rfl⟩

private theorem extendWithArity_eq_define (registry : Registry σ) (symbol : String) (arity : Arity)
    (source : String) :
    (∃ e, registry.extendWithArity symbol arity source = (.error e, registry)) ∨
      ∃ count formula, registry.Compiles (recordedSource source) count formula ∧
        registry.extendWithArity symbol arity source =
          registry.define symbol count formula (recordedSource source) := by
  unfold Registry.extendWithArity
  split
  · exact .inl ⟨_, rfl⟩
  split
  · exact .inl ⟨_, rfl⟩
  split
  · exact .inl ⟨_, rfl⟩
  rename_i e hparse
  split
  · exact .inl ⟨_, rfl⟩
  rename_i formula hformula
  rw [← parse_recordedSource] at hparse
  exact .inr ⟨_, formula, .declared hparse hformula, rfl⟩

theorem extend_registers (registry : Registry σ) (symbol source : String) :
    registry.Registers (registry.extend symbol source) := by
  rcases extend_eq_define registry symbol source with ⟨e, heq⟩ | ⟨arity, formula, hcompiles, heq⟩
  · rw [heq]
    exact .refused e
  · rw [heq]
    exact define_registers hcompiles symbol

theorem extendWithArity_registers (registry : Registry σ) (symbol : String) (arity : Arity)
    (source : String) : registry.Registers (registry.extendWithArity symbol arity source) := by
  rcases extendWithArity_eq_define registry symbol arity source with
    ⟨e, heq⟩ | ⟨count, formula, hcompiles, heq⟩
  · rw [heq]
    exact .refused e
  · rw [heq]
    exact define_registers hcompiles symbol

theorem extend_ok {registry after : Registry σ} {symbol source : String} {index : Nat}
    (h : registry.extend symbol source = (.ok index, after)) :
    ∃ arity formula, registry.Compiles (recordedSource source) arity formula ∧
      registry.define symbol arity formula (recordedSource source) = (.ok index, after) := by
  rcases extend_eq_define registry symbol source with ⟨e, heq⟩ | ⟨arity, formula, hcompiles, heq⟩
  · rw [heq] at h
    cases h
  · exact ⟨arity, formula, hcompiles, heq ▸ h⟩

theorem extendWithArity_ok {registry after : Registry σ} {symbol : String} {arity : Arity}
    {source : String} {index : Nat}
    (h : registry.extendWithArity symbol arity source = (.ok index, after)) :
    ∃ count formula, registry.Compiles (recordedSource source) count formula ∧
      registry.define symbol count formula (recordedSource source) = (.ok index, after) := by
  rcases extendWithArity_eq_define registry symbol arity source with
    ⟨e, heq⟩ | ⟨count, formula, hcompiles, heq⟩
  · rw [heq] at h
    cases h
  · exact ⟨count, formula, hcompiles, heq ▸ h⟩

theorem extendOne_ok {registry after : Registry σ} {d : Definition} {index : Nat}
    (h : registry.extendOne d = (.ok index, after)) :
    ∃ arity formula, d.arity = .fixed arity ∧ registry.Compiles d.body arity formula ∧
      registry.define d.symbol arity formula d.body = (.ok index, after) := by
  unfold extendOne at h
  split at h
  · cases h
  rename_i e hparse
  split at h
  · cases h
  · rename_i hparsed
    cases h
    unfold defineParsed at hparsed
    split at hparsed
    · cases hparsed
    rename_i harity
    split at hparsed
    · cases hparsed
    · rename_i formula hformula
      exact ⟨_, formula, harity, .declared hparse hformula, hparsed⟩

theorem extendOne_refused {registry after : Registry σ} {d : Definition} {e : Error}
    (h : registry.extendOne d = (.error e, after)) : after = registry := by
  unfold extendOne at h
  split at h
  · cases h
    rfl
  split at h
  · rename_i hparsed
    cases h
    unfold defineParsed at hparsed
    split at hparsed
    · cases hparsed
      rfl
    split at hparsed
    · cases hparsed
      rfl
    · exact define_refused hparsed
  · cases h

/-- What every one of some definitions keeps, all of them keep, whether one of them fails or not. -/
theorem extendAll_induction {P : Registry σ → Prop} {definitions : List Definition}
    (hdefine : ∀ {registry after : Registry σ} {index : Nat}, ∀ d ∈ definitions, P registry →
      registry.extendOne d = (.ok index, after) → P after)
    {registry : Registry σ} (h : P registry) : P (registry.extendAll definitions).2 := by
  induction definitions generalizing registry with
  | nil => exact h
  | cons d rest ih =>
    unfold Registry.extendAll
    split
    · rename_i hone
      cases extendOne_refused hone
      exact h
    · rename_i hone
      have hnext := hdefine d List.mem_cons_self h hone
      have hlast := ih (fun other hother => hdefine other (List.mem_cons_of_mem d hother)) hnext
      split <;> simpa only [‹_ = _›] using hlast

/-- What every single change keeps, a list of definitions keeps. -/
theorem extendAll_steps {P : Registry σ → Prop}
    (hstep : ∀ {registry after : Registry σ}, P registry → Step registry after → P after)
    {registry : Registry σ} (h : P registry) (definitions : List Definition) :
    P (registry.extendAll definitions).2 := by
  refine extendAll_induction (fun d _ h hone => ?_) h
  obtain ⟨arity, formula, -, hcompiles, hok⟩ := extendOne_ok hone
  exact hstep h (define_step hcompiles hok)

/-- A source leaves what its definitions leave, if it can be read. -/
theorem extendMany_induction {P : Registry σ → Prop} {registry : Registry σ} (h : P registry)
    {source : String} (hall : ∀ definitions, Definition.parseAll source = .ok definitions →
      P (registry.extendAll definitions).2) : P (registry.extendMany source).2 := by
  unfold Registry.extendMany
  split
  · exact h
  · rename_i definitions hparse
    exact hall definitions hparse

theorem extendMany_steps {P : Registry σ → Prop}
    (hstep : ∀ {registry after : Registry σ}, P registry → Step registry after → P after)
    {registry : Registry σ} (h : P registry) (source : String) : P (registry.extendMany source).2 :=
  extendMany_induction h fun definitions _ => extendAll_steps hstep h definitions

/-- Every registration comes down to single changes. -/
theorem Built.reached {registry : Registry σ} (h : Built registry) : Reached registry := by
  induction h with
  | empty => exact .empty
  | setMaxCallDepth _ depth ih => exact ih.step (.bound _ depth)
  | @embedShort before _ symbol arity program _ _ hcall ih =>
    have hregisters := embedShort_registers before symbol arity program
    rw [hcall] at hregisters
    exact hregisters.keeps ih ih.step
  | @embedLong before _ symbol arity program _ _ hcall ih =>
    have hregisters := embedLong_registers before symbol arity program
    rw [hcall] at hregisters
    exact hregisters.keeps ih ih.step
  | @extend before _ symbol source _ _ hcall ih =>
    have hregisters := extend_registers before symbol source
    rw [hcall] at hregisters
    exact hregisters.keeps ih ih.step
  | @extendWithArity before _ symbol arity source _ _ hcall ih =>
    have hregisters := extendWithArity_registers before symbol arity source
    rw [hcall] at hregisters
    exact hregisters.keeps ih ih.step
  | @extendMany before _ source _ _ hcall ih =>
    have hlast := extendMany_steps Reached.step ih source
    rw [hcall] at hlast
    exact hlast
  | @extendAll before _ definitions _ _ hcall ih =>
    have hlast := extendAll_steps Reached.step ih definitions
    rw [hcall] at hlast
    exact hlast

@[simp] theorem function?_setMaxCallDepth (registry : Registry σ) (depth index : Nat) :
    (registry.setMaxCallDepth depth).function? index = registry.function? index := by
  unfold setMaxCallDepth
  split <;> rfl

@[simp] theorem names_setMaxCallDepth (registry : Registry σ) (depth : Nat) :
    (registry.setMaxCallDepth depth).names = registry.names := by
  unfold setMaxCallDepth
  split <;> rfl

@[simp] theorem codes_setMaxCallDepth (registry : Registry σ) (depth : Nat) :
    (registry.setMaxCallDepth depth).codes = registry.codes := by
  unfold setMaxCallDepth
  split <;> rfl

/-- What was vetted has a free name that is not reserved, and an arity that fits its space. -/
theorem vet_ok {registry : Registry σ} {symbol : String} {arity : Arity} {space : CodeSpace}
    (h : registry.vet symbol arity space = .ok ()) :
    Literal.isReserved symbol = false ∧ registry.names.find? symbol = none ∧
      (∀ count, arity = .fixed count → count ≤ maxCallArguments) ∧
      (arity = .variadic → space = .embeddedLong) := by
  unfold vet at h
  split at h
  · cases h
  split at h
  · cases h
  rename_i hreserved hname
  refine ⟨by simpa using hreserved, by simpa using hname, ?_, ?_⟩
  · rintro count rfl
    simp only at h
    split at h
    · cases h
    · omega
  · rintro rfl
    cases space with
    | embeddedLong => rfl
    | embeddedShort => cases h
    | extended => cases h

/-- A body that is prepared was written as bytecode and read back under its arity. -/
theorem prepare_ok {registry : Registry σ} {symbol : String} {arity : Nat} {formula body : Formula}
    {bytecode : Bytes} (h : registry.prepare symbol arity formula = .ok (body, bytecode)) :
    registry.encode formula = .ok bytecode ∧ registry.decode bytecode (some arity) = .ok body := by
  unfold prepare at h
  split at h
  · cases h
  split at h
  · cases h
  rename_i hencode
  split at h
  · cases h
  rename_i hdecode
  cases h
  exact ⟨hencode, hdecode⟩

/-- A definition is registered as one function under its name. -/
theorem define_ok {registry after : Registry σ} {symbol source : String} {arity index : Nat}
    {formula : Formula} (h : registry.define symbol arity formula source = (.ok index, after)) :
    Literal.isReserved symbol = false ∧ arity ≤ maxCallArguments ∧ index = registry.size ∧
      ∃ code body bytecode, after = registry.push
        ⟨symbol, code, .fixed arity, .defined body bytecode, some source⟩ := by
  obtain ⟨body, bytecode, -, hinsert⟩ := define_inserts h
  obtain ⟨hvet, -, hindex, hafter⟩ := insert_ok hinsert
  obtain ⟨hreserved, -, hcount, -⟩ := vet_ok hvet
  exact ⟨hreserved, hcount arity rfl, hindex, _, body, bytecode, hafter⟩

theorem function?_push (registry : Registry σ) (function : Function σ) (index : Nat) :
    (registry.push function).function? index =
      if index = registry.size then some function else registry.function? index :=
  Array.getElem?_push

theorem lt_size_of_function? {registry : Registry σ} {index : Nat} {function : Function σ}
    (h : registry.function? index = some function) : index < registry.size :=
  (Array.getElem?_eq_some_iff.mp h).1

def rank (registry : Registry σ) (index : Nat) (space : CodeSpace) : Nat :=
  (registry.functions.toList.take index).countP fun function => function.space == space

@[simp] theorem rank_setMaxCallDepth (registry : Registry σ) (depth index : Nat)
    (space : CodeSpace) :
    (registry.setMaxCallDepth depth).rank index space = registry.rank index space := by
  unfold setMaxCallDepth
  split <;> rfl

private theorem rank_size (registry : Registry σ) (space : CodeSpace) :
    registry.rank registry.size space = registry.used space := by
  unfold rank used size
  rw [← Array.length_toList, List.take_length]

private theorem rank_push {registry : Registry σ} {index : Nat} (function : Function σ)
    (space : CodeSpace) (h : index ≤ registry.size) :
    (registry.push function).rank index space = registry.rank index space := by
  unfold rank push
  rw [Array.toList_push, List.take_append_of_le_length (by simpa [size] using h)]

/-- A function counts in the ranks of all that come after it. -/
private theorem rank_lt {registry : Registry σ} {index later : Nat} {function : Function σ}
    (hfunction : registry.function? index = some function) (hlater : index < later) :
    registry.rank index function.space < registry.rank later function.space := by
  have hlist : registry.functions.toList[index]? = some function := by
    rw [Array.getElem?_toList]
    exact hfunction
  have hnext : registry.rank (index + 1) function.space = registry.rank index function.space + 1 := by
    unfold rank
    rw [List.take_add_one, hlist, List.countP_append]
    simp
  have hmono : registry.rank (index + 1) function.space ≤ registry.rank later function.space := by
    unfold rank
    have hsub := List.take_sublist (index + 1) (registry.functions.toList.take later)
    rw [List.take_take, Nat.min_eq_left (by omega)] at hsub
    exact hsub.countP_le
  omega

/-- A table that leads from the key of each function to its index, and from nothing else. -/
def Indexed {κ : Type} [DecidableEq κ] (registry : Registry σ) (table : Index κ) (key : Function σ → κ) :
    Prop :=
  ∀ (k : κ) (index : Nat), table.find? k = some index ↔
    ∃ function, registry.function? index = some function ∧ key function = k

namespace Indexed

variable {κ : Type} [DecidableEq κ] {registry : Registry σ} {table : Index κ} {key : Function σ → κ}

/-- A table stays in step if it gets an entry along with a function whose key is new to it. -/
theorem push (h : registry.Indexed table key) {function : Function σ}
    (hfree : table.find? (key function) = none) :
    (registry.push function).Indexed (table.insert (key function) registry.size) key := by
  intro k index
  rw [Index.find?_insert, function?_push]
  constructor
  · intro hfound
    split at hfound
    · rename_i hkey
      cases hfound
      exact ⟨function, if_pos rfl, hkey.symm⟩
    · obtain ⟨other, hother, hkey⟩ := (h k index).mp hfound
      exact ⟨other, by rwa [if_neg (Nat.ne_of_lt (lt_size_of_function? hother))], hkey⟩
  · rintro ⟨other, hother, rfl⟩
    split at hother
    · subst_vars
      cases hother
      exact if_pos rfl
    · have hfound := (h _ _).mpr ⟨other, hother, rfl⟩
      rw [if_neg, hfound]
      intro hkey
      rw [hkey, hfree] at hfound
      cases hfound

theorem setMaxCallDepth (h : registry.Indexed table key) (depth : Nat) :
    (registry.setMaxCallDepth depth).Indexed table key := by
  intro k index
  rw [function?_setMaxCallDepth]
  exact h k index

theorem find?_eq_none (h : registry.Indexed table key) {k : κ}
    (hnone : ∀ {index function}, registry.function? index = some function → key function ≠ k) :
    table.find? k = none := by
  cases hfound : table.find? k with
  | none => rfl
  | some index =>
    obtain ⟨function, hfunction, hkey⟩ := (h k index).mp hfound
    exact absurd hkey (hnone hfunction)

theorem lookup?_eq_some_iff (h : registry.Indexed table key) {k : κ} {index : Nat}
    {function : Function σ} : registry.lookup? table k = some (index, function) ↔
      registry.function? index = some function ∧ key function = k := by
  constructor
  · intro hlookup
    unfold lookup? at hlookup
    split at hlookup
    · cases hlookup
    · rename_i found hfound
      obtain ⟨other, hother, heq⟩ := Option.map_eq_some_iff.mp hlookup
      cases heq
      obtain ⟨listed, hlisted, hkey⟩ := (h _ _).mp hfound
      rw [hother] at hlisted
      cases hlisted
      exact ⟨hother, hkey⟩
  · rintro ⟨hfunction, hkey⟩
    simp only [lookup?, (h _ _).mpr ⟨function, hfunction, hkey⟩, hfunction, Option.map_some]

theorem key_inj (h : registry.Indexed table key) {index other : Nat} {function function' : Function σ}
    (hfunction : registry.function? index = some function)
    (hother : registry.function? other = some function') (hkey : key function = key function') :
    index = other := by
  have hfound := (h _ _).mpr ⟨function, hfunction, hkey⟩
  rw [(h _ _).mpr ⟨function', hother, rfl⟩] at hfound
  exact (Option.some.inj hfound).symm

end Indexed

theorem function?_of_lookup? {κ : Type} [DecidableEq κ] {registry : Registry σ} {table : Index κ} {k : κ}
    {index : Nat} {function : Function σ}
    (h : registry.lookup? table k = some (index, function)) :
    registry.function? index = some function := by
  unfold lookup? at h
  split at h
  · cases h
  · obtain ⟨other, hother, heq⟩ := Option.map_eq_some_iff.mp h
    cases heq
    exact hother

/-- Codes count up from the first of their space and are in the table of codes, and arities are
those that calls of the space can carry. -/
structure Numbered (registry : Registry σ) : Prop where
  code : ∀ {index function}, registry.function? index = some function →
    function.code = function.space.first + registry.rank index function.space
  room : ∀ {index function}, registry.function? index = some function →
    registry.rank index function.space < function.space.capacity
  fixed : ∀ {index function count}, registry.function? index = some function →
    function.arity = .fixed count → count ≤ maxCallArguments
  variadic : ∀ {index function}, registry.function? index = some function →
    function.arity = .variadic → function.space = .embeddedLong
  codes : registry.Indexed registry.codes Function.code

/-- Spaces have no codes in common. -/
private theorem space_of_code {space space' : CodeSpace} {rank rank' : Nat}
    (h : rank < space.capacity) (h' : rank' < space'.capacity)
    (hcode : space.first + rank = space'.first + rank') : space = space' := by
  cases space <;> cases space' <;>
    simp only [CodeSpace.capacity, CodeSpace.first, CodeSpace.last, argumentCodes, reduceCtorEq] at * <;>
    omega

namespace Numbered

variable {registry : Registry σ} {index : Nat} {function : Function σ}

/-- The next code of a space is new. -/
theorem code_ne_next (h : Numbered registry) {space : CodeSpace}
    (hroom : registry.used space < space.capacity)
    (hfunction : registry.function? index = some function) :
    function.code ≠ space.first + registry.used space := by
  intro hcode
  rw [h.code hfunction] at hcode
  cases space_of_code (h.room hfunction) hroom hcode
  have hrank := rank_lt hfunction (lt_size_of_function? hfunction)
  rw [rank_size] at hrank
  omega

theorem find?_next (h : Numbered registry) {space : CodeSpace}
    (hroom : registry.used space < space.capacity) :
    registry.codes.find? (space.first + registry.used space) = none :=
  h.codes.find?_eq_none fun hfunction => h.code_ne_next hroom hfunction

theorem insert {after : Registry σ} {symbol : String} {arity : Arity} {body : Body σ}
    {source : Option String} {index : Nat} (h : Numbered registry)
    (hok : registry.insert symbol arity body source = (.ok index, after)) : Numbered after := by
  obtain ⟨hvet, hroom, -, rfl⟩ := insert_ok hok
  constructor
  · intro index function hfunction
    rw [function?_push] at hfunction
    split at hfunction
    · subst_vars
      cases hfunction
      rw [rank_push _ _ (Nat.le_refl _), rank_size]
      rfl
    · rw [rank_push _ _ (Nat.le_of_lt (lt_size_of_function? hfunction))]
      exact h.code hfunction
  · intro index function hfunction
    rw [function?_push] at hfunction
    split at hfunction
    · subst_vars
      cases hfunction
      rw [rank_push _ _ (Nat.le_refl _), rank_size]
      exact hroom
    · rw [rank_push _ _ (Nat.le_of_lt (lt_size_of_function? hfunction))]
      exact h.room hfunction
  · intro index function count hfunction harity
    rw [function?_push] at hfunction
    split at hfunction
    · cases hfunction
      exact (vet_ok hvet).2.2.1 count harity
    · exact h.fixed hfunction harity
  · intro index function hfunction harity
    rw [function?_push] at hfunction
    split at hfunction
    · cases hfunction
      exact (vet_ok hvet).2.2.2 harity
    · exact h.variadic hfunction harity
  · exact h.codes.push (h.find?_next hroom)

theorem code_bounds (h : Numbered registry) (hfunction : registry.function? index = some function) :
    function.space.first ≤ function.code ∧ function.code ≤ function.space.last := by
  have hcode := h.code hfunction
  have hroom := h.room hfunction
  unfold CodeSpace.capacity at hroom
  cases hspace : function.space <;> rw [hspace] at hcode hroom <;>
    simp only [CodeSpace.first, CodeSpace.last, argumentCodes] at * <;> omega

theorem code_lt (h : Numbered registry) (hfunction : registry.function? index = some function) :
    function.code < 0x400 := by
  have hbounds := h.code_bounds hfunction
  cases hspace : function.space <;> rw [hspace] at hbounds <;>
    simp only [CodeSpace.last] at hbounds <;> omega

/-- Codes below 64 are those of the embedded-short space. -/
theorem space_eq_short_iff (h : Numbered registry)
    (hfunction : registry.function? index = some function) :
    function.space = .embeddedShort ↔ function.code < 64 := by
  have hbounds := h.code_bounds hfunction
  cases hspace : function.space with
  | embeddedShort =>
    simp only [hspace, CodeSpace.last] at hbounds
    exact iff_of_true rfl (by omega)
  | embeddedLong =>
    simp only [hspace, CodeSpace.first] at hbounds
    exact iff_of_false (by simp) (by omega)
  | extended =>
    simp only [hspace, CodeSpace.first] at hbounds
    exact iff_of_false (by simp) (by omega)

theorem byCode?_eq_some_iff (h : Numbered registry) {code : Nat} :
    registry.byCode? code = some (index, function) ↔
      registry.function? index = some function ∧ function.code = code :=
  h.codes.lookup?_eq_some_iff

theorem byCode?_code (h : Numbered registry)
    (hfunction : registry.function? index = some function) :
    registry.byCode? function.code = some (index, function) :=
  h.byCode?_eq_some_iff.mpr ⟨hfunction, rfl⟩

end Numbered

theorem Reached.numbered {registry : Registry σ} (h : Reached registry) : Numbered registry := by
  induction h with
  | empty => constructor <;> simp [function?, Registry.empty, Indexed]
  | step _ hstep ih =>
    cases hstep with
    | bound =>
      constructor
      case codes =>
        rw [codes_setMaxCallDepth]
        exact ih.codes.setMaxCallDepth _
      all_goals simp only [function?_setMaxCallDepth, rank_setMaxCallDepth]
      · exact ih.code
      · exact ih.room
      · exact ih.fixed
      · exact ih.variadic
    | host _ hok => exact ih.insert hok
    | definition _ _ hok => exact ih.insert hok

/-- A registry with a host function of each kind, in which four calls may be nested. -/
def hosts : Registry σ :=
  ⟨#[⟨"not", 16, .fixed 1, .short (return if ← Host.argIsTrue 0 then [] else [0xff]), none⟩,
     ⟨"count", 64, .variadic, .long (.arity fun count => .done [UInt8.ofNat count]), none⟩],
   ⟨[("count", 1), ("not", 0)]⟩, ⟨[(64, 1), (16, 0)]⟩, 4⟩

def trio : Registry σ :=
  hosts.push ⟨"twice", 256, .fixed 1, .defined (.call 0 [.call 0 [.argument 0]]) [16, 16, 0],
    some "not(not($0))"⟩

theorem trio_built : Built (trio : Registry σ) := by
  have hbound : Built (empty.setMaxCallDepth 4 : Registry σ) := .setMaxCallDepth .empty 4
  have hnot := Built.embedShort hbound (show embedShort _ "not" 1
    (return if ← Host.argIsTrue 0 then [] else [0xff]) = (.ok 0, _) from rfl)
  have hhosts : Built (hosts : Registry σ) := .embedLong hnot (show embedLong _ "count" .variadic
    (.arity fun count => .done [UInt8.ofNat count]) = (.ok 1, _) from rfl)
  have hstrip : Text.strip "not(not($0))".toList =
      ['n', 'o', 't', '(', 'n', 'o', 't', '(', '$', '0', ')', ')'] := by decide +kernel
  have hparse : Expression.parse 1 "not(not($0))" =
      .ok (.call "not" [.call "not" [.call "$0" []]]) := by
    unfold Expression.parse
    rw [hstrip]
    rfl
  have hformula : (hosts : Registry σ).formulaOf none (.call "not" [.call "not" [.call "$0" []]]) =
      .ok (.call 0 [.call 0 [.argument 0]]) := rfl
  have hprepare : (hosts : Registry σ).prepare "twice"
      (Formula.call 0 [.call 0 [.argument 0]]).numArgs (.call 0 [.call 0 [.argument 0]]) =
      .ok (.call 0 [.call 0 [.argument 0]], [16, 16, 0]) := rfl
  refine .extend hhosts (show extend _ "twice" "not(not($0))" = (.ok 2, trio) from ?_)
  simp only [extend, hparse, hformula, recordedSource, hstrip, define, hprepare]
  rfl

end Registry
end ByteFormula
