import ByteFormula.Proofs.Consistency
import ByteFormula.Proofs.DefinitionText

/-! The ways to register a function agree. A call registers one function in full or changes nothing,
a body has the same outcome with a counted arity and with that arity declared, and a source of
definitions does what its definitions do one by one. -/
namespace ByteFormula

variable {σ : Type}

def Registration.symbol? : Registration σ → Option String
  | .embedShort symbol _ _ => some symbol
  | .embedLong symbol _ _ => some symbol
  | .extend symbol _ => some symbol
  | .extendWithArity symbol _ _ => some symbol
  | .setMaxCallDepth _ => none
  | .extendMany _ => none

def Definition.failure (d : Definition) (cause : Error) : Error :=
  match Expression.parse d.line d.body with
  | .error e => .parse e
  | .ok _ => .inDefinition d.symbol d.line cause

namespace Registry

def registerEach (registry : Registry σ) :
    List Definition → Except Error (List Nat) × Registry σ
  | [] => (.ok [], registry)
  | d :: rest =>
    match registry.respond (.extendWithArity d.symbol d.arity d.body) with
    | (.error cause, after) => (.error (d.failure cause), after)
    | (.ok indices, after) =>
      match after.registerEach rest with
      | (.error e, last) => (.error e, last)
      | (.ok more, last) => (.ok (indices ++ more), last)

/-- The outcomes of a call for one name: it is refused, and the functions, both tables and the bound
are what they were, or there is one more function, which both tables have under the index that is
returned. -/
inductive AllOrNothing (registry : Registry σ) (symbol : String) :
    Except Error (List Nat) × Registry σ → Prop where
  | refused (e : Error) : AllOrNothing registry symbol (.error e, registry)
  | registered {after : Registry σ} {function : Function σ} {index : Nat}
      (hfunctions : after.functions = registry.functions.push function)
      (hname : after.byName? symbol = some (index, function))
      (hcode : after.byCode? function.code = some (index, function))
      (hkeeps : Extends registry after) (hdepth : after.maxCallDepth = registry.maxCallDepth) :
      AllOrNothing registry symbol (.ok [index], after)

section

variable {registry : Registry σ}

/-- A call that may only make a single change, and one that names a function with the given symbol, is
all or nothing. -/
theorem Registers.allOrNothing {ε : Type} {outcome : Except ε Nat × Registry σ}
    (h : registry.Registers outcome) (hreached : Reached registry) {symbol : String}
    (hpush : ∀ {index after}, outcome = (.ok index, after) →
      ∃ function, function.symbol = symbol ∧ after = registry.push function) (wrap : ε → Error) :
    AllOrNothing registry symbol (answered wrap outcome) := by
  cases h with
  | refused e => exact .refused (wrap e)
  | registered hstep =>
    obtain ⟨function, rfl, rfl⟩ := hpush rfl
    have hafter := hreached.step hstep
    have hfunction : (registry.push function).function? registry.size = some function := by
      rw [function?_push, if_pos rfl]
    exact .registered rfl (hafter.named.byName?_symbol hfunction)
      (hafter.numbered.byCode?_code hfunction) (hstep.extends hreached.numbered) rfl

private theorem respond_allOrNothing (hreached : Reached registry) {call : Registration σ}
    {symbol : String}
    (hsymbol : call.symbol? = some symbol) : AllOrNothing registry symbol (registry.respond call) := by
  cases call with
  | setMaxCallDepth | extendMany => cases hsymbol
  | embedShort symbol arity program =>
    cases hsymbol
    refine (embedShort_registers registry symbol arity program).allOrNothing hreached ?_ Error.registry
    intro index after hok
    obtain ⟨-, -, -, hafter⟩ := insert_ok hok
    exact ⟨_, rfl, hafter⟩
  | embedLong symbol arity program =>
    cases hsymbol
    refine (embedLong_registers registry symbol arity program).allOrNothing hreached ?_ Error.registry
    intro index after hok
    obtain ⟨-, -, -, hafter⟩ := insert_ok hok
    exact ⟨_, rfl, hafter⟩
  | extend symbol source =>
    cases hsymbol
    refine (extend_registers registry symbol source).allOrNothing hreached ?_ id
    intro index after hok
    obtain ⟨arity, formula, -, hdefine⟩ := extend_ok hok
    obtain ⟨-, -, -, code, body, bytecode, hafter⟩ := define_ok hdefine
    exact ⟨_, rfl, hafter⟩
  | extendWithArity symbol arity source =>
    cases hsymbol
    refine (extendWithArity_registers registry symbol arity source).allOrNothing hreached ?_ id
    intro index after hok
    obtain ⟨count, formula, -, hdefine⟩ := extendWithArity_ok hok
    obtain ⟨-, -, -, code, body, bytecode, hafter⟩ := define_ok hdefine
    exact ⟨_, rfl, hafter⟩

/-- To declare the number of arguments that a body refers to is to leave it to be counted. -/
theorem extend_eq_extendWithArity {source : String} {e : Expression} {formula : Formula}
    (hparse : Expression.parse 1 source = .ok e) (hformula : registry.formulaOf none e = .ok formula)
    (hargs : formula.numArgs ≤ maxCallArguments) (symbol : String) :
    registry.extend symbol source =
      registry.extendWithArity symbol (.fixed formula.numArgs) source := by
  have hwell := wellFormed_of_formulaOf e hformula
  have hdeclared : registry.formulaOf (some formula.numArgs) e = .ok formula :=
    (formulaOf_some_iff e).mpr
      ⟨hformula, (numArgs_le_iff formula hwell).mp (Nat.le_refl _)⟩
  simp only [extend, extendWithArity, hparse, hformula, hdeclared, if_neg (Nat.not_lt.mpr hargs)]

/-- A definition of a source fails or succeeds as its own call does. -/
theorem extendOne_eq_extendWithArity {d : Definition}
    (hstrip : Text.strip d.body.toList = d.body.toList)
    (harity : ∀ count, d.arity = .fixed count → count ≤ maxCallArguments) :
    registry.extendOne d =
      match registry.extendWithArity d.symbol d.arity d.body with
      | (.error cause, after) => (.error (d.failure cause), after)
      | (.ok index, after) => (.ok index, after) := by
  have hrecorded : recordedSource d.body = d.body := by
    rw [recordedSource, hstrip, String.ofList_toList]
  unfold extendOne Definition.failure
  cases hparse : Expression.parse d.line d.body with
  | error error =>
    -- The text is refused whatever its line is.
    have hrefused : ∃ cause,
        registry.extendWithArity d.symbol d.arity d.body = (.error cause, registry) := by
      unfold extendWithArity
      split
      · exact ⟨_, rfl⟩
      split
      · exact ⟨_, rfl⟩
      split
      · exact ⟨_, rfl⟩
      · rename_i e hfirst
        rw [parse_line d.line hfirst] at hparse
        cases hparse
    obtain ⟨cause, hcause⟩ := hrefused
    simp only [hcause]
  | ok e =>
    have hsame : registry.extendWithArity d.symbol d.arity d.body = registry.defineParsed d e := by
      unfold extendWithArity defineParsed
      cases hcount : d.arity with
      | variadic => rfl
      | fixed count =>
        simp only [if_neg (Nat.not_lt.mpr (harity count hcount)), parse_line 1 hparse, hrecorded]
    rcases hdefined : registry.defineParsed d e with ⟨_ | _, after⟩ <;> simp only [hsame, hdefined]

/-- Calls for each definition go as far as the source does, and return the same indices. -/
theorem registerEach_eq_extendAll {definitions : List Definition}
    (hstrip : ∀ d ∈ definitions, Text.strip d.body.toList = d.body.toList)
    (harity : ∀ d ∈ definitions, ∀ count, d.arity = .fixed count → count ≤ maxCallArguments) :
    registry.registerEach definitions = registry.extendAll definitions := by
  induction definitions generalizing registry with
  | nil => rfl
  | cons d rest ih =>
    obtain ⟨hstripd, hstriprest⟩ := List.forall_mem_cons.mp hstrip
    obtain ⟨harityd, harityrest⟩ := List.forall_mem_cons.mp harity
    rw [registerEach, extendAll, extendOne_eq_extendWithArity hstripd harityd, respond]
    rcases registry.extendWithArity d.symbol d.arity d.body with ⟨cause | index, after⟩
    · rfl
    · rcases hrest : after.extendAll rest with ⟨_ | _, last⟩ <;>
        simp only [answered, ih hstriprest harityrest, hrest, List.singleton_append]

/-- In a registry that was built by registrations, every call for a single function registers it in
full or is refused and changes nothing. A body that is registered without an arity fares as with the
number of its arguments declared. A source that cannot be read changes nothing, and any other source
registers its definitions like calls for each of them, up to the first that is refused. -/
theorem registration_paths_agree (hbuilt : Built registry) :
    (∀ (call : Registration σ) (symbol : String), call.symbol? = some symbol →
      AllOrNothing registry symbol (registry.respond call)) ∧
    (∀ (symbol source : String) (e : Expression) (formula : Formula),
      Expression.parse 1 source = .ok e → registry.formulaOf none e = .ok formula →
        formula.numArgs ≤ maxCallArguments →
          registry.respond (.extend symbol source) =
            registry.respond (.extendWithArity symbol (.fixed formula.numArgs) source)) ∧
    ∀ source : String, registry.respond (.extendMany source) =
      match Definition.parseAll source with
      | .error e => (.error (.parse e), registry)
      | .ok definitions => registry.registerEach definitions := by
  refine ⟨?_, ?_, ?_⟩
  · intro call symbol hsymbol
    exact respond_allOrNothing hbuilt.reached hsymbol
  · intro symbol source e formula hparse hformula hargs
    simp only [respond, extend_eq_extendWithArity hparse hformula hargs symbol]
  · intro source
    rw [respond, extendMany]
    cases hparse : Definition.parseAll source with
    | error e => rfl
    | ok definitions =>
      exact (registerEach_eq_extendAll (Definition.strip_body_of_parseAll hparse)
        (Definition.arity_le_of_parseAll hparse)).symm

end

def halfway : String :=
  "def four(1) = twice(twice($0))\ndef odd(1) = nope($0)"

/-- A name that is taken, a body with two arguments, a text that is no source, and a source that
registers one of its two definitions. -/
theorem registration_paths_agree_trio :
    Built (trio : Registry Unit) ∧
    ((trio : Registry Unit).respond (.embedShort "twice" 1 (.done []))).1 =
      .error (.registry (.duplicateSymbol "twice")) ∧
    AllOrNothing trio "twice" ((trio : Registry Unit).respond (.embedShort "twice" 1 (.done []))) ∧
    (trio : Registry Unit).respond (.extend "pair" "count($0, $1)") =
      trio.respond (.extendWithArity "pair" (.fixed 2) "count($0, $1)") ∧
    (trio : Registry Unit).respond (.extendMany "four(1)") =
      (.error (.parse (.expectedDefinition 1)), trio) ∧
    (trio : Registry Unit).respond (.extendMany halfway) = trio.registerEach
      [⟨"four", .fixed 1, "twice(twice($0))", 1⟩, ⟨"odd", .fixed 1, "nope($0)", 2⟩] ∧
    ((trio : Registry Unit).respond (.extendMany halfway)).1 =
      .error (.inDefinition "odd" 2 (.compile (.unknownSymbol "nope"))) ∧
    ((trio : Registry Unit).perform (.extendMany halfway)).size = 4 := by
  have hbuilt : Built (trio : Registry Unit) := trio_built
  obtain ⟨hsingle, hagree, hmany⟩ := registration_paths_agree hbuilt
  have hstrip : Text.strip "count($0, $1)".toList =
      ['c', 'o', 'u', 'n', 't', '(', '$', '0', ',', '$', '1', ')'] := by decide +kernel
  have hparse : Expression.parse 1 "count($0, $1)" =
      .ok (.call "count" [.call "$0" [], .call "$1" []]) := by
    unfold Expression.parse
    rw [hstrip]
    rfl
  have hformula : (trio : Registry Unit).formulaOf none
      (.call "count" [.call "$0" [], .call "$1" []]) = .ok (.call 1 [.argument 0, .argument 1]) := rfl
  have hpair := hagree "pair" "count($0, $1)" _ _ hparse hformula (by decide)
  rw [show (Formula.call 1 [.argument 0, .argument 1]).numArgs = 2 from rfl] at hpair
  have hunread := hmany "four(1)"
  rw [show Definition.parseAll "four(1)" = .error (.expectedDefinition 1) from rfl] at hunread
  have hsource := hmany halfway
  rw [show Definition.parseAll halfway = .ok [⟨"four", .fixed 1, "twice(twice($0))", 1⟩,
    ⟨"odd", .fixed 1, "nope($0)", 2⟩] from rfl] at hsource
  refine ⟨hbuilt, rfl, hsingle _ _ rfl, hpair, hunread, hsource, ?_, by decide +kernel⟩
  have hrefused : (match ((trio : Registry Unit).respond (.extendMany halfway)).1 with
      | .error e => some e
      | .ok _ => none) = some (.inDefinition "odd" 2 (.compile (.unknownSymbol "nope"))) := by
    decide +kernel
  cases hanswer : ((trio : Registry Unit).respond (.extendMany halfway)).1 with
  | error e =>
    rw [hanswer] at hrefused
    rw [Option.some.inj hrefused]
  | ok indices =>
    rw [hanswer] at hrefused
    cases hrefused

end Registry
end ByteFormula
