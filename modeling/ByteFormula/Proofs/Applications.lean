import ByteFormula.Proofs.CallByNeed
import ByteFormula.Proofs.Decompilation

/-! Functions by their names. A function is applied to arguments by evaluating the text of its call
on references to all of them. What comes out is the meaning of the function: that of its program if
it is a host function, and that of its source if it is a definition. -/
namespace ByteFormula

variable {σ : Type}

def Expression.application (symbol : String) (count : Nat) : Expression :=
  .call symbol ((List.range count).map fun index => .call (Literal.ofReference index) [])

example : (Expression.application "sum8" 2).text = "sum8($0,$1)" := by decide

namespace Expression

private theorem spellableAll_references {indices : List Nat}
    (h : ∀ index ∈ indices, index < argumentCodes) :
    SpellableAll (indices.map fun index => .call (Literal.ofReference index) []) := by
  induction indices with
  | nil => trivial
  | cons index rest ih =>
    obtain ⟨hindex, hrest⟩ := List.forall_mem_cons.mp h
    exact ⟨⟨(Literal.reference_digits index hindex).2.2, trivial⟩, ih hrest⟩

private theorem spellable_application {symbol : String} (hsymbol : IsSymbol symbol) {count : Nat}
    (hfew : count ≤ argumentCodes) : (application symbol count).Spellable := by
  refine ⟨hsymbol, spellableAll_references fun index hindex => ?_⟩
  exact Nat.lt_of_lt_of_le (List.mem_range.mp hindex) hfew

/-- The text of an expression is read as the expression. -/
theorem parse_text {e : Expression} (h : e.Spellable) (line : Nat) : parse line e.text = .ok e := by
  apply parse_of_strip h
  rw [text, String.toList_ofList, strip_chars e h]

end Expression

namespace Setting

/-- Compiles the call of a function by its name, and evaluates it on the given arguments. -/
def apply (setting : Setting σ) (symbol : String) (args : List Bytes) : Except Error Bytes :=
  match setting.registry.compile (Expression.application symbol args.length).text with
  | .error e => .error e
  | .ok compiled =>
    (setting.registry.evaluateBytecode setting.surroundings setting.state compiled.bytecode args).1

def report (setting : Setting σ) : Result → Except Error Bytes
  | .ok value => .ok value
  | .error fault => .error (.fault (fault.atPath setting.surroundings.invocationPath))

def failure (setting : Setting σ) (symbol : String) (kind : FaultKind) : Except Error Bytes :=
  setting.report (.error ⟨kind, some symbol, none⟩)

end Setting

def Result.raisedBy (symbol : String) : Except FaultKind Bytes → Result
  | .ok value => .ok value
  | .error kind => .error ⟨kind, some symbol, none⟩

theorem Host.named_lift {world : World} {args : List Result} (symbol : String)
    (result : Except FaultKind Bytes) :
    Result.named symbol ((Host.lift result : Host σ Bytes).meaning world args) =
      Result.raisedBy symbol result := by
  cases result <;> rfl

namespace Registry

variable {registry : Registry σ}

def Offers (registry : Registry σ) (symbol : String) (arity : Arity) (body : Body σ) : Prop :=
  ∃ index code source, registry.function? index = some ⟨symbol, code, arity, body, source⟩

def Hosted (registry : Registry σ) (symbol : String) (arity : Arity) (program : Host σ Bytes) :
    Prop :=
  ∃ body, registry.Offers symbol arity body ∧ body.program? = some program

def Defines (registry : Registry σ) (symbol : String) (count : Nat) (body : Expression) : Prop :=
  ∃ formula bytecode, registry.Offers symbol (.fixed count) (.defined formula bytecode) ∧
    registry.formulaOf none body = .ok formula

private theorem Extends.offers {before after : Registry σ} (h : Extends before after)
    {symbol : String} {arity : Arity} {body : Body σ} (hoffers : before.Offers symbol arity body) :
    after.Offers symbol arity body := by
  obtain ⟨index, code, source, hfunction⟩ := hoffers
  exact ⟨index, code, source, h.function? hfunction⟩

private theorem Extends.defines {before after : Registry σ} (h : Extends before after)
    {symbol : String}
    {count : Nat} {body : Expression} (hdefines : before.Defines symbol count body) :
    after.Defines symbol count body := by
  obtain ⟨formula, bytecode, hoffers, hformula⟩ := hdefines
  exact ⟨formula, bytecode, h.offers hoffers, h.formulaOf body hformula⟩

private theorem offers_insert {after : Registry σ} (hnumbered : Numbered registry) {symbol : String}
    {arity : Arity} {body : Body σ} {source : Option String} {index : Nat}
    (hok : registry.insert symbol arity body source = (.ok index, after)) :
    Extends registry after ∧ after.Offers symbol arity body := by
  refine ⟨extends_insert hnumbered hok, ?_⟩
  obtain ⟨-, -, -, rfl⟩ := insert_ok hok
  exact ⟨registry.size, _, source, (function?_push _ _ _).trans (if_pos rfl)⟩

/-- A registered table has all its functions, and those from before are still there. -/
theorem addShort_offers {table : List (String × Nat × Host σ Bytes)} {before after : Registry σ}
    (hnumbered : Numbered before) (hok : Embedded.addShort before table = .ok after) :
    Numbered after ∧ Extends before after ∧
      ∀ entry ∈ table, after.Offers entry.1 (.fixed entry.2.1) (.short entry.2.2) := by
  induction table generalizing before with
  | nil =>
    cases hok
    exact ⟨hnumbered, .refl _, fun entry hentry => by cases hentry⟩
  | cons entry rest ih =>
    unfold Embedded.addShort at hok
    split at hok
    · cases hok
    · rename_i hone
      obtain ⟨hnext, hoffers⟩ := offers_insert hnumbered hone
      obtain ⟨hlast, hlater, hrest⟩ := ih (hnumbered.insert hone) hok
      refine ⟨hlast, hnext.trans hlater, List.forall_mem_cons.mpr ⟨?_, hrest⟩⟩
      exact hlater.offers hoffers

private theorem addLong_offers {table : List (String × Arity × Host σ Bytes)}
    {before after : Registry σ}
    (hnumbered : Numbered before) (hok : Embedded.addLong before table = .ok after) :
    Extends before after ∧
      ∀ entry ∈ table, after.Offers entry.1 entry.2.1 (.long entry.2.2) := by
  induction table generalizing before with
  | nil =>
    cases hok
    exact ⟨.refl _, fun entry hentry => by cases hentry⟩
  | cons entry rest ih =>
    unfold Embedded.addLong at hok
    split at hok
    · cases hok
    · rename_i hone
      obtain ⟨hnext, hoffers⟩ := offers_insert hnumbered hone
      obtain ⟨hlater, hrest⟩ := ih (hnumbered.insert hone) hok
      refine ⟨hnext.trans hlater, List.forall_mem_cons.mpr ⟨?_, hrest⟩⟩
      exact hlater.offers hoffers

/-- Whatever is registered on top of them, the embedded functions are there. -/
theorem Extends.hosted_short {start : Registry σ} (h : Extends start registry)
    (hstart : embedded = .ok start) {symbol : String} {count : Nat} {program : Host σ Bytes}
    (hentry : (symbol, count, program) ∈ Embedded.shortTable) :
    registry.Hosted symbol (.fixed count) program := by
  obtain ⟨shorts, hshorts, hlongs⟩ := embedded_ok hstart
  obtain ⟨hnumbered, -, hoffers⟩ := addShort_offers Reached.empty.numbered hshorts
  exact ⟨.short program, h.offers ((addLong_offers hnumbered hlongs).1.offers (hoffers _ hentry)), rfl⟩

private theorem Extends.hosted_long {start : Registry σ} (h : Extends start registry)
    (hstart : embedded = .ok start) {symbol : String} {arity : Arity} {program : Host σ Bytes}
    (hentry : (symbol, arity, program) ∈ Embedded.longTable) :
    registry.Hosted symbol arity program := by
  obtain ⟨shorts, hshorts, hlongs⟩ := embedded_ok hstart
  obtain ⟨hnumbered, -, -⟩ := addShort_offers Reached.empty.numbered hshorts
  exact ⟨.long program, h.offers ((addLong_offers hnumbered hlongs).2 _ hentry), rfl⟩

/-- A definition of a source is there with the body that its text is read as. -/
theorem extendOne_defines {after : Registry σ} (hreached : Reached registry) {d : Definition}
    {index : Nat} (hok : registry.extendOne d = (.ok index, after)) :
    Reached after ∧ Extends registry after ∧ ∀ count body, d.arity = .fixed count →
      Expression.parse 1 d.body = .ok body → after.Defines d.symbol count body := by
  obtain ⟨arity, formula, harity, hcompiles, hdefine⟩ := extendOne_ok hok
  have hstep := define_step hcompiles hdefine
  have hafter := hreached.step hstep
  refine ⟨hafter, hstep.extends hreached.numbered, fun count e hcount hparse => ?_⟩
  cases harity.symm.trans hcount
  obtain ⟨-, -, -, code, body, bytecode, rfl⟩ := define_ok hdefine
  have hfunction := (function?_push registry
    ⟨d.symbol, code, .fixed arity, .defined body bytecode, some d.body⟩ _).trans (if_pos rfl)
  -- The body is on record as what its text compiled to over the functions before it.
  obtain ⟨source, -, same, hsource, -, -, hsame, hformula, -⟩ :=
    (hafter.allRecorded hfunction rfl).compiled
  cases hsource
  cases hparse.symm.trans hsame
  exact ⟨body, bytecode, ⟨_, _, _, hfunction⟩,
    (extends_earlier hafter.named hafter.numbered _).formulaOf e hformula⟩

private theorem extendAll_defines {after : Registry σ} (hreached : Reached registry)
    {definitions : List Definition} {indices : List Nat}
    (hok : registry.extendAll definitions = (.ok indices, after)) :
    Extends registry after ∧ ∀ d ∈ definitions, ∀ count body, d.arity = .fixed count →
      Expression.parse 1 d.body = .ok body → after.Defines d.symbol count body := by
  induction definitions generalizing registry indices with
  | nil =>
    cases hok
    exact ⟨.refl _, fun d hd => by cases hd⟩
  | cons d rest ih =>
    unfold Registry.extendAll at hok
    split at hok
    · cases hok
    · rename_i hone
      split at hok
      · cases hok
      · rename_i hothers
        cases hok
        obtain ⟨hnext, hextends, hdefines⟩ := extendOne_defines hreached hone
        obtain ⟨hlater, hrest⟩ := ih hnext hothers
        refine ⟨hextends.trans hlater, List.forall_mem_cons.mpr ⟨?_, hrest⟩⟩
        exact fun count body hcount hparse => hlater.defines (hdefines count body hcount hparse)

/-- The base definitions are there with their bodies. -/
theorem base_defines (hok : base = .ok registry) {symbol : String} {count : Nat} {body : Expression}
    (hspellable : body.Spellable) (hentry : ∃ d ∈ baseDefinitions,
      d.symbol = symbol ∧ d.arity = .fixed count ∧ d.body = body.text) :
    registry.Defines symbol count body := by
  obtain ⟨start, indices, hstart, hall⟩ := base_ok hok
  obtain ⟨hbuilt, -⟩ := embedded_basic hstart
  obtain ⟨d, hd, rfl, harity, hbody⟩ := hentry
  have hparse : Expression.parse 1 d.body = .ok body := by
    rw [hbody]
    exact Expression.parse_text hspellable 1
  exact (extendAll_defines hbuilt.reached hall).2 d hd count body harity hparse

theorem base_maxCallDepth (hok : base = .ok registry) :
    registry.maxCallDepth = defaultMaxCallDepth := by
  obtain ⟨start, indices, hstart, hall⟩ := base_ok hok
  have hbound : start.maxCallDepth = defaultMaxCallDepth := by
    refine embedded_induction (P := fun r => r.maxCallDepth = defaultMaxCallDepth) rfl ?_ ?_ hstart
    · intro before after index entry _ ih hone
      obtain ⟨-, -, -, rfl⟩ := insert_ok hone
      exact ih
    · intro before after index entry _ ih hone
      obtain ⟨-, -, -, rfl⟩ := insert_ok hone
      exact ih
  have hafter : (start.extendAll baseDefinitions).2.maxCallDepth = defaultMaxCallDepth := by
    refine extendAll_induction (P := fun r => r.maxCallDepth = defaultMaxCallDepth)
      (fun d _ ih hone => ?_) hbound
    obtain ⟨arity, formula, -, -, hdefine⟩ := extendOne_ok hone
    obtain ⟨-, -, -, code, body, bytecode, rfl⟩ := define_ok hdefine
    exact ih
  rwa [hall] at hafter

/-- At least one call may be made, since a bound of zero is ignored. -/
theorem Built.maxCallDepth_pos (h : Built registry) : 0 < registry.maxCallDepth := by
  have hreached := h.reached
  clear h
  induction hreached with
  | empty => exact Nat.zero_lt_succ _
  | step _ hstep ih =>
    cases hstep with
    | bound depth =>
      unfold Registry.setMaxCallDepth
      split
      · exact ih
      · exact Nat.pos_of_ne_zero ‹_›
    | host _ hok =>
      obtain ⟨-, -, -, rfl⟩ := insert_ok hok
      exact ih
    | definition _ _ hok =>
      obtain ⟨-, -, -, rfl⟩ := insert_ok hok
      exact ih

theorem Reached.resolve (h : Reached registry) {index count : Nat} {function : Function σ}
    (hfunction : registry.function? index = some function)
    (haccepts : function.arity.accepts count = true) :
    registry.resolve function.symbol count = .ok index := by
  have hcount := h.numbered.count_le hfunction haccepts
  rw [Registry.resolve, if_neg (Nat.not_lt.mpr hcount), h.named.byName?_symbol hfunction]
  simp only [haccepts, if_true]

private theorem nestings_host {index : Nat} {function : Function σ} {program : Host σ Bytes}
    (hfunction : registry.function? index = some function)
    (hprogram : function.body.program? = some program) :
    registry.nestings registry.size index = 0 := by
  rw [nestings_of_lt (lt_size_of_function? hfunction), nestings, if_pos rfl, hfunction,
    Option.map_some]
  cases hbody : function.body with
  | short _ | long _ => rfl
  | defined formula bytecode =>
    rw [hbody] at hprogram
    cases hprogram

private theorem formulaOf_reference {index : Nat} (h : index < argumentCodes) :
    registry.formulaOf none (.call (Literal.ofReference index) []) = .ok (.argument index) :=
  formulaOf_eq_ok_iff.mpr (.inr (.inl ⟨Literal.isLiteral_ofReference index,
    Literal.isReference_ofReference index, rfl, index, Literal.reference_ofReference h, rfl⟩))

/-- An expression that compiles means a result on suspended arguments, and nests no more than
`depth` calls on the way to it. -/
def Means (registry : Registry σ) (world : World) (args : List Result) (depth : Nat)
    (e : Expression) (result : Result) : Prop :=
  ∃ formula, registry.formulaOf none e = .ok formula ∧
    registry.meaning world formula args = result ∧ registry.nesting formula ≤ depth

def MeansAll (registry : Registry σ) (world : World) (args : List Result) (depth : Nat)
    (es : List Expression) (results : List Result) : Prop :=
  ∃ formulas, registry.formulasOf none es = .ok formulas ∧
    formulas.map (fun formula => registry.meaning world formula args) = results ∧
    Formula.nestingAll (registry.nestings registry.size) formulas ≤ depth

section

variable {world : World} {args results : List Result} {depth : Nat} {es : List Expression}

theorem meansAll_nil : registry.MeansAll world args depth [] [] :=
  ⟨[], rfl, rfl, Nat.zero_le _⟩

theorem Means.cons {e : Expression} {result : Result} (h : registry.Means world args depth e result)
    (hrest : registry.MeansAll world args depth es results) :
    registry.MeansAll world args depth (e :: es) (result :: results) := by
  obtain ⟨formula, hformula, rfl, hdepth⟩ := h
  obtain ⟨formulas, hformulas, rfl, hdepths⟩ := hrest
  have hall := formulasOf_cons_eq_ok_iff.mpr ⟨formula, formulas, hformula, hformulas, rfl⟩
  exact ⟨formula :: formulas, hall, rfl, Nat.max_le.mpr ⟨hdepth, hdepths⟩⟩

theorem means_reference {index : Nat} (hindex : index < argumentCodes) {result : Result}
    (hresult : args[index]? = some result) :
    registry.Means world args depth (.call (Literal.ofReference index) []) result :=
  ⟨.argument index, formulaOf_reference hindex, suspended_some hresult, Nat.zero_le _⟩

/-- A call by name means what its function makes of the meanings of the arguments. -/
theorem MeansAll.call (h : registry.MeansAll world args depth es results)
    (hreached : Reached registry) {index inner : Nat} {function : Function σ}
    (hfunction : registry.function? index = some function)
    (haccepts : function.arity.accepts es.length = true)
    (hinner : registry.nestings registry.size index ≤ inner) :
    registry.Means world args (1 + inner + depth) (.call function.symbol es)
      (function.meaning world (registry.meanings world registry.size) results) := by
  obtain ⟨formulas, hformulas, rfl, hdepth⟩ := h
  obtain ⟨hliteral, hreference, -⟩ := Literal.of_unreserved (hreached.named.unreserved hfunction)
  refine ⟨.call index formulas, ?_, meaning_call hreached.layered hfunction formulas args, ?_⟩
  · exact formulaOf_eq_ok_iff.mpr (.inr (.inr ⟨hliteral, hreference, index, formulas,
      hreached.resolve hfunction haccepts, hformulas, rfl⟩))
  · simp only [nesting, Formula.nesting]
    omega

theorem MeansAll.call_host (h : registry.MeansAll world args depth es results)
    (hreached : Reached registry) {symbol : String} {arity : Arity} {program : Host σ Bytes}
    (hhosted : registry.Hosted symbol arity program) (haccepts : arity.accepts es.length = true) :
    registry.Means world args (1 + depth) (.call symbol es)
      (Result.named symbol (program.meaning world results)) := by
  obtain ⟨body, ⟨index, code, source, hfunction⟩, hprogram⟩ := hhosted
  have hcall := h.call hreached hfunction haccepts (Nat.le_of_eq (nestings_host hfunction hprogram))
  rw [Nat.add_zero] at hcall
  cases body with
  | short _ | long _ =>
    cases hprogram
    exact hcall
  | defined formula bytecode => cases hprogram

/-- A definition means what its body means on the arguments. -/
theorem MeansAll.call_definition (h : registry.MeansAll world args depth es results)
    (hreached : Reached registry) {symbol : String} {inner : Nat} {body : Expression}
    {result : Result}
    (hdefines : registry.Defines symbol es.length body)
    (hbody : registry.Means world results inner body result) :
    registry.Means world args (1 + inner + depth) (.call symbol es) (result.named symbol) := by
  obtain ⟨formula, bytecode, ⟨index, code, source, hfunction⟩, hformula⟩ := hdefines
  obtain ⟨same, hsame, rfl, hinner⟩ := hbody
  cases hformula.symm.trans hsame
  rw [← hreached.layered.nestings_eq hfunction rfl] at hinner
  exact h.call hreached hfunction (beq_self_eq_true es.length) hinner

end

private theorem formulasOf_references {indices : List Nat}
    (h : ∀ index ∈ indices, index < argumentCodes) :
    registry.formulasOf none (indices.map fun index => .call (Literal.ofReference index) []) =
      .ok (indices.map .argument) := by
  induction indices with
  | nil => rfl
  | cons index rest ih =>
    obtain ⟨hindex, hrest⟩ := List.forall_mem_cons.mp h
    exact formulasOf_cons_eq_ok_iff.mpr ⟨_, _, formulaOf_reference hindex, ih hrest, rfl⟩

private theorem referencesAll_arguments (indices : List Nat) :
    Formula.referencesAll (indices.map .argument) = indices := by
  induction indices with
  | nil => rfl
  | cons index rest ih => rw [List.map_cons, Formula.referencesAll, ih]; rfl

private theorem nestingAll_arguments (table : Nat → Nat) (indices : List Nat) :
    Formula.nestingAll table (indices.map .argument) = 0 := by
  induction indices with
  | nil => rfl
  | cons index rest ih => rw [List.map_cons, Formula.nestingAll, ih]; rfl

private theorem map_suspended (args : List Result) :
    (List.range args.length).map (suspended args) = args := by
  apply List.ext_getElem (by simp)
  intro index hindex hargs
  rw [List.getElem_map, List.getElem_range]
  exact suspended_some (List.getElem?_eq_getElem hargs)

/-- The references to all arguments mean the arguments. -/
theorem meansAll_references {world : World} (args : List Result)
    (hfew : args.length ≤ argumentCodes) :
    registry.MeansAll world args 0
      ((List.range args.length).map fun index => .call (Literal.ofReference index) []) args := by
  refine ⟨(List.range args.length).map .argument,
    formulasOf_references fun index hindex => ?_, ?_, ?_⟩
  · exact Nat.lt_of_lt_of_le (List.mem_range.mp hindex) hfew
  · rw [List.map_map]
    exact map_suspended args
  · exact Nat.le_of_eq (nestingAll_arguments _ _)

private theorem Reached.callable (h : Reached registry) {symbol : String} {arity : Arity}
    {body : Body σ} (hoffers : registry.Offers symbol arity body) {count : Nat}
    (haccepts : arity.accepts count = true) :
    Literal.isReserved symbol = false ∧ count ≤ maxCallArguments := by
  obtain ⟨index, code, source, hfunction⟩ := hoffers
  exact ⟨h.named.unreserved hfunction, h.numbered.count_le hfunction haccepts⟩

section

variable {world : World} {args : List Result} {symbol : String} (hreached : Reached registry)

include hreached

theorem means_application_host {arity : Arity} {program : Host σ Bytes}
    (hhosted : registry.Hosted symbol arity program) (haccepts : arity.accepts args.length = true) :
    registry.Means world args 1 (.application symbol args.length)
      (Result.named symbol (program.meaning world args)) := by
  obtain ⟨body, hoffers, -⟩ := id hhosted
  have hfew := (hreached.callable hoffers haccepts).2
  have hreferences : registry.MeansAll world args 0 _ _ :=
    meansAll_references args (Nat.le_trans hfew (by decide))
  exact hreferences.call_host hreached hhosted (by simpa using haccepts)

theorem means_application_definition {body : Expression} {inner : Nat} {result : Result}
    (hdefines : registry.Defines symbol args.length body)
    (hbody : registry.Means world args inner body result) :
    registry.Means world args (1 + inner) (.application symbol args.length)
      (result.named symbol) := by
  obtain ⟨formula, bytecode, hoffers, -⟩ := id hdefines
  have hfew := (hreached.callable hoffers (beq_self_eq_true args.length)).2
  have hreferences : registry.MeansAll world args 0 _ _ :=
    meansAll_references args (Nat.le_trans hfew (by decide))
  exact hreferences.call_definition hreached (by simpa using hdefines) hbody

end

mutual
/-- A formula nests at least the calls that are written in it. -/
theorem depth_le_nesting (table : Nat → Nat) (formula : Formula) :
    formula.depth ≤ formula.nesting table := by
  cases formula with
  | data bytes => exact Nat.le_refl 0
  | argument index => exact Nat.le_refl 0
  | call index args =>
    have hargs := depthAll_le_nestingAll table args
    rw [Formula.depth, Formula.nesting]
    omega

theorem depthAll_le_nestingAll (table : Nat → Nat) (formulas : List Formula) :
    Formula.depthAll formulas ≤ Formula.nestingAll table formulas := by
  cases formulas with
  | nil => exact Nat.le_refl 0
  | cons arg rest =>
    have harg := depth_le_nesting table arg
    have hrest := depthAll_le_nestingAll table rest
    rw [Formula.depthAll, Formula.nestingAll]
    omega
end

/-- The call of a function on all arguments refers to those arguments and no others. -/
theorem numArgs_application {symbol : String} (hsymbol : Literal.isReserved symbol = false)
    {count : Nat} (hfew : count ≤ argumentCodes) {formula : Formula}
    (h : registry.formulaOf none (.application symbol count) = .ok formula) :
    formula.numArgs ≤ count := by
  have hwell := wellFormed_of_formulaOf _ h
  obtain ⟨hliteral, hreference, -⟩ := Literal.of_unreserved hsymbol
  rcases formulaOf_eq_ok_iff.mp h with ⟨habsurd, -⟩ | ⟨-, habsurd, -⟩ |
    ⟨-, -, index, formulas, -, hargs, rfl⟩
  · cases hliteral.symm.trans habsurd
  · cases hreference.symm.trans habsurd
  · have hbelow : ∀ index ∈ List.range count, index < argumentCodes := fun index hindex =>
      Nat.lt_of_lt_of_le (List.mem_range.mp hindex) hfew
    cases (formulasOf_references hbelow).symm.trans hargs
    rw [numArgs_le_iff _ hwell, Formula.references, referencesAll_arguments]
    exact fun index hindex => List.mem_range.mp hindex

end Registry

namespace Setting

variable {setting : Setting σ}

def Unary (setting : Setting σ) (symbol : String) (f : Bytes → Except FaultKind Bytes) : Prop :=
  setting.registry.Hosted symbol (.fixed 1) (Embedded.unary f)

def Binary (setting : Setting σ) (symbol : String) (f : Bytes → Bytes → Except FaultKind Bytes) :
    Prop :=
  setting.registry.Hosted symbol (.fixed 2) (Embedded.binary f)

/-- A setting with the embedded functions, whatever is registered on top of them, in which the
meaning by name does not depend on how the evaluation goes. -/
structure Furnished (setting : Setting σ) : Prop where
  built : Registry.Built setting.registry
  embedded : ∃ start, Registry.embedded = .ok start ∧ Registry.Extends start setting.registry
  pure : setting.registry.Hosts Host.Pure
  steady : setting.surroundings.Steady setting.state

theorem furnished_of_base (hbase : Registry.base = .ok setting.registry)
    (hsteady : setting.surroundings.Steady setting.state) : setting.Furnished := by
  obtain ⟨hbuilt, hbasic⟩ := Registry.base_basic hbase
  obtain ⟨start, indices, hstart, hall⟩ := Registry.base_ok hbase
  have hreached := (Registry.embedded_basic hstart).1.reached
  exact {
    built := hbuilt
    embedded := ⟨start, hstart, (Registry.extendAll_defines hreached hall).1⟩
    pure := hbasic.hosts fun hbasic => hbasic.plain.pure
    steady := hsteady }

theorem exists_base : ∃ setting : Setting Tree, Registry.base = .ok setting.registry ∧
    setting.surroundings.Steady setting.state := by
  obtain ⟨registry, hbase⟩ := Registry.exists_base
  exact ⟨⟨registry, .ofTree none, Tree.ofBytes []⟩, hbase,
    Surroundings.steady_ofTree none (Tree.represents_ofBytes [])⟩

namespace Furnished

variable (h : setting.Furnished)

include h

private theorem proper : setting.Proper :=
  ⟨h.built.reached.layered, h.pure, h.steady⟩

theorem short {symbol : String} {count : Nat} {program : Host σ Bytes}
    (hentry : (symbol, count, program) ∈ Embedded.shortTable) :
    setting.registry.Hosted symbol (.fixed count) program := by
  obtain ⟨start, hstart, hextends⟩ := h.embedded
  exact hextends.hosted_short hstart hentry

theorem long {symbol : String} {arity : Arity} {program : Host σ Bytes}
    (hentry : (symbol, arity, program) ∈ Embedded.longTable) :
    setting.registry.Hosted symbol arity program := by
  obtain ⟨start, hstart, hextends⟩ := h.embedded
  exact hextends.hosted_long hstart hentry

/-- A function is applied as its call means, unless that nests too many calls. -/
theorem apply_means {symbol : String} (hsymbol : Literal.isReserved symbol = false)
    {args : List Bytes} (hfew : args.length ≤ maxCallArguments) {depth : Nat} {result : Result}
    (hmeans : setting.registry.Means (setting.surroundings.world setting.state) (args.map .ok) depth
      (.application symbol args.length) result)
    (hdepth : depth ≤ setting.registry.maxCallDepth) :
    setting.apply symbol args = setting.report result := by
  have hnumbered := h.built.reached.numbered
  have hcodes : args.length ≤ argumentCodes := Nat.le_trans hfew (by decide)
  obtain ⟨formula, hformula, rfl, hnesting⟩ := hmeans
  have hroom : setting.registry.nesting formula ≤ setting.registry.maxCallDepth :=
    Nat.le_trans hnesting hdepth
  have hspellable := Expression.spellable_application (Literal.of_unreserved hsymbol).2.2 hcodes
  have hparse := Expression.parse_text hspellable 1
  obtain ⟨code, hcode, hcompile⟩ := Registry.compile_of_formulaOf hnumbered hparse hformula
  have hdecode : setting.registry.decode code (some args.length) = .ok formula := by
    apply Registry.decode_encode hnumbered (Registry.wellFormed_of_formulaOf _ hformula) hcode
    · rintro count ⟨⟩
      exact Registry.numArgs_application hsymbol hcodes hformula
    · exact Nat.le_trans (Registry.depth_le_nesting _ formula) hroom
  -- Nothing but the bound on nested calls can come between an evaluation and its meaning.
  obtain ⟨outcome, houtcome, hreaches⟩ := Registry.evaluate_reaches h.proper formula args
  simp only [apply, hcompile]
  rw [Registry.evaluateBytecode_of_decode setting.state hcodes hdecode, Prod.map_fst, houtcome]
  cases outcome with
  | ok value =>
    rw [show setting.registry.meaning _ formula _ = .ok value from hreaches]
    rfl
  | error fault =>
    rcases hreaches with hmeaning | ⟨hdeep, -⟩
    · rw [hmeaning]
      rfl
    · exact absurd hroom hdeep

/-- A host function is applied as its program says. -/
theorem apply_host {symbol : String} {arity : Arity} {program : Host σ Bytes}
    (hhosted : setting.registry.Hosted symbol arity program) {args : List Bytes}
    (haccepts : arity.accepts args.length = true) :
    setting.apply symbol args = setting.report (Result.named symbol
      (program.meaning (setting.surroundings.world setting.state) (args.map .ok))) := by
  have hmeans : setting.registry.Means (setting.surroundings.world setting.state) (args.map .ok) 1
      (.application symbol (args.map Except.ok).length) _ :=
    Registry.means_application_host h.built.reached hhosted (by simpa using haccepts)
  rw [List.length_map] at hmeans
  obtain ⟨body, hoffers, -⟩ := hhosted
  obtain ⟨hsymbol, hfew⟩ := h.built.reached.callable hoffers haccepts
  exact h.apply_means hsymbol hfew hmeans h.built.maxCallDepth_pos

theorem apply_unary {symbol : String} {f : Bytes → Except FaultKind Bytes}
    (hhosted : setting.Unary symbol f) (a : Bytes) :
    setting.apply symbol [a] = setting.report (Result.raisedBy symbol (f a)) :=
  (h.apply_host hhosted rfl).trans (congrArg setting.report (Host.named_lift symbol (f a)))

theorem apply_binary {symbol : String} {f : Bytes → Bytes → Except FaultKind Bytes}
    (hhosted : setting.Binary symbol f) (a b : Bytes) :
    setting.apply symbol [a, b] = setting.report (Result.raisedBy symbol (f a b)) :=
  (h.apply_host hhosted rfl).trans (congrArg setting.report (Host.named_lift symbol (f a b)))

end Furnished
end Setting
end ByteFormula
