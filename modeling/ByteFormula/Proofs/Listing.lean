import ByteFormula.Proofs.BaseRegistry
import ByteFormula.Proofs.Consistency
import ByteFormula.Proofs.DefinitionText

/-! The definitions of a registry as a source. Each is listed on a line with its name, its arity and
the text that is on record for it. Read by a registry that has the embedded functions only, the
listing restores all definitions. -/
namespace ByteFormula

variable {σ : Type}

def Function.definition (function : Function σ) (line : Nat) : Definition :=
  ⟨function.symbol, function.arity, function.source.getD "", line⟩

def Function.line (function : Function σ) : String :=
  "def " ++ function.symbol ++ "(" ++ function.arity.text ++ ") = " ++ function.source.getD "" ++ "\n"

private theorem Function.toList_line (function : Function σ) (line : Nat) :
    function.line.toList = (function.definition line).written ++ ['\n'] := by
  simp [Function.line, Function.definition, Definition.written, Definition.header]

namespace Registry

def extended (registry : Registry σ) : List (Function σ) :=
  registry.functions.toList.filter fun function => function.space == .extended

def listing (registry : Registry σ) : String :=
  String.join (registry.extended.map Function.line)

section

variable {registry : Registry σ}

mutual
/-- Whatever compiles has no slash in its symbols. -/
theorem avoids_of_formulaOf (hnamed : Named registry) {arity : Option Nat} (e : Expression)
    {formula : Formula} (h : registry.formulaOf arity e = .ok formula) : e.Avoids '/' := by
  obtain ⟨symbol, args⟩ := e
  rcases formulaOf_eq_ok_iff.mp h with ⟨hliteral, rfl, bytes, hvalue, -⟩ |
    ⟨-, hreference, rfl, index, hindex, -⟩ | ⟨-, -, index, formulas, hresolve, hargs, -⟩
  · exact ⟨Literal.slash_not_mem_of_value hliteral hvalue, trivial⟩
  · exact ⟨Literal.slash_not_mem_of_reference hreference hindex, trivial⟩
  · obtain ⟨function, hfound, -⟩ := resolve_ok hresolve
    obtain ⟨hfunction, rfl⟩ := hnamed.byName?_eq_some_iff.mp hfound
    refine ⟨fun hmem => ?_, avoidsAll_of_formulasOf hnamed args hargs⟩
    exact (Literal.char_of_unreserved (hnamed.unreserved hfunction) _ hmem).2.2.2 rfl

theorem avoidsAll_of_formulasOf (hnamed : Named registry) {arity : Option Nat}
    (args : List Expression) {formulas : List Formula}
    (h : registry.formulasOf arity args = .ok formulas) : Expression.AvoidsAll '/' args := by
  cases args with
  | nil => trivial
  | cons e rest =>
    obtain ⟨first, others, hfirst, hothers, -⟩ := formulasOf_cons_eq_ok_iff.mp h
    exact ⟨avoids_of_formulaOf hnamed e hfirst, avoidsAll_of_formulasOf hnamed rest hothers⟩
end

/-- A text that compiles can be listed if its white space is gone. -/
theorem Compiles.printable (hnamed : Named registry) {symbol source : String} {arity : Nat}
    {formula : Formula} (h : registry.Compiles source arity formula)
    (hstrip : Text.strip source.toList = source.toList)
    (hsymbol : Literal.isReserved symbol = false) (harity : arity ≤ maxCallArguments) (line : Nat) :
    Definition.Printable ⟨symbol, .fixed arity, source, line⟩ := by
  obtain ⟨e, hparse, hformula, -⟩ := h.spec
  have hderives := Expression.parse_eq_ok_iff.mp hparse
  rw [hstrip] at hderives
  refine ⟨hsymbol, ⟨arity, rfl, harity⟩, fun hempty => ?_, hstrip, ?_, ?_⟩
  · cases hempty
    obtain ⟨c, cs, hcons, -⟩ := hderives.exists_cons
    cases hcons
  · exact Expression.Avoids.not_mem rfl e (avoids_of_formulaOf hnamed e hformula) hderives
  · rw [← List.append_nil source.toList, Expression.balanced_of_derives e hderives]
    rfl

/-- A definition that was compiled and registered can be registered again from its line. -/
theorem Compiles.extendOne {after : Registry σ} {symbol source : String} {arity index : Nat}
    {formula : Formula} (h : registry.Compiles source arity formula)
    (hok : registry.define symbol arity formula source = (.ok index, after)) (line : Nat) :
    registry.extendOne ⟨symbol, .fixed arity, source, line⟩ = (.ok index, after) := by
  obtain ⟨e, hparse, hformula, hwithin⟩ := h.spec
  have hwell := wellFormed_of_formulaOf e hformula
  have hdeclared : registry.formulaOf (some arity) e = .ok formula :=
    (formulaOf_some_iff e).mpr ⟨hformula, (numArgs_le_iff formula hwell).mp hwithin⟩
  simp only [Registry.extendOne, parse_line line hparse, defineParsed, hdeclared, hok]

private theorem extendAll_append {after : Registry σ} {definitions : List Definition}
    {indices : List Nat}
    (h : registry.extendAll definitions = (.ok indices, after)) (more : List Definition) :
    registry.extendAll (definitions ++ more) =
      match after.extendAll more with
      | (.error e, last) => (.error e, last)
      | (.ok others, last) => (.ok (indices ++ others), last) := by
  induction definitions generalizing registry indices with
  | nil =>
    cases h
    rw [List.nil_append]
    rcases after.extendAll more with ⟨_ | _, last⟩ <;> rfl
  | cons d rest ih =>
    unfold Registry.extendAll at h
    rw [List.cons_append, Registry.extendAll]
    split at h
    · cases h
    · split at h
      · cases h
      · rename_i hrest
        cases h
        simp only [ih hrest]
        rcases after.extendAll more with ⟨_ | _, last⟩ <;> rfl

end

def definitionsFrom (first : Nat) (functions : List (Function σ)) : List Definition :=
  (functions.zipIdx first).map fun (function, line) => function.definition line

private theorem line_definitionsFrom (first : Nat) (functions : List (Function σ)) :
    (definitionsFrom first functions).map (·.line) = List.range' first functions.length := by
  rw [definitionsFrom, List.map_map]
  exact List.zipIdx_map_snd first functions

/-- The text of a definition does not depend on its line. -/
theorem written_definitionsFrom (first : Nat) (functions : List (Function σ)) :
    ((definitionsFrom first functions).flatMap fun d => d.written ++ ['\n']) =
      functions.flatMap fun function => function.line.toList := by
  induction functions generalizing first with
  | nil => rfl
  | cons function rest ih =>
    rw [List.flatMap_cons, function.toList_line first, ← ih (first + 1)]
    rfl

/-- A registry has a few functions more than another one, and they can be listed and registered again
in the order they have. -/
structure Restores (start : Registry σ) (functions : List (Function σ)) (registry : Registry σ) :
    Prop where
  reached : Reached registry
  functions_eq : registry.functions.toList = start.functions.toList ++ functions
  space_eq : ∀ function ∈ functions, function.space = .extended
  printable : ∀ function ∈ functions, ∀ line, (function.definition line).Printable
  extendAll : ∀ first, start.extendAll (definitionsFrom first functions) =
    (.ok (List.range' start.size functions.length), registry)

/-- One more definition. -/
theorem Restores.define {start registry after : Registry σ} {functions : List (Function σ)}
    (h : Restores start functions registry) {symbol source : String} {arity index : Nat}
    {formula : Formula} (hstrip : Text.strip source.toList = source.toList)
    (hcompiles : registry.Compiles source arity formula)
    (hok : registry.define symbol arity formula source = (.ok index, after)) :
    ∃ more, Restores start more after := by
  have hreached := h.reached.step (define_step hcompiles hok)
  have hone := hcompiles.extendOne hok
  obtain ⟨hsymbol, harity, rfl, code, body, bytecode, rfl⟩ := define_ok hok
  have hprintable := hcompiles.printable h.reached.named hstrip hsymbol harity
  refine ⟨functions ++ [⟨symbol, code, .fixed arity, .defined body bytecode, some source⟩],
    hreached, ?_, ?_, ?_, ?_⟩
  · rw [push, Array.toList_push, h.functions_eq, List.append_assoc]
  · exact List.forall_mem_append.mpr ⟨h.space_eq, by simp [Function.space, Body.space]⟩
  · refine List.forall_mem_append.mpr ⟨h.printable, ?_⟩
    intro function hfunction line
    rw [List.mem_singleton.mp hfunction]
    exact hprintable line
  · intro first
    have hmore : definitionsFrom first (functions ++
        [⟨symbol, code, .fixed arity, .defined body bytecode, some source⟩]) =
          definitionsFrom first functions ++
            [⟨symbol, .fixed arity, source, first + functions.length⟩] := by
      simp only [definitionsFrom, List.zipIdx_append, List.map_append]
      rfl
    have hsize : registry.size = start.size + functions.length := by
      have hsum := congrArg List.length h.functions_eq
      rwa [List.length_append, Array.length_toList, Array.length_toList] at hsum
    rw [hmore, extendAll_append (h.extendAll first), Registry.extendAll, hone]
    simp only [Registry.extendAll, List.length_append, List.length_singleton, List.range'_1_concat,
      hsize]

end Registry

def Registration.isDefinition : Registration σ → Bool
  | .extend _ _ => true
  | .extendWithArity _ _ _ => true
  | .extendMany _ => true
  | _ => false

namespace Registry

variable {start registry : Registry σ}

theorem Restores.perform {functions : List (Function σ)} (h : Restores start functions registry)
    {call : Registration σ} (hcall : call.isDefinition = true) :
    ∃ more, Restores start more (registry.perform call) := by
  have hrecorded (source : String) : Text.strip (recordedSource source).toList =
      (recordedSource source).toList := by
    rw [strip_recordedSource, recordedSource, String.toList_ofList]
  cases call with
  | setMaxCallDepth | embedShort | embedLong => cases hcall
  | extend symbol source =>
    rw [Registry.perform, respond, answered_snd]
    refine (extend_registers registry symbol source).keeps_ok
      (P := fun r => ∃ more, Restores start more r) ⟨functions, h⟩ ?_
    intro index after hok
    obtain ⟨arity, formula, hcompiles, hdefine⟩ := extend_ok hok
    exact h.define (hrecorded source) hcompiles hdefine
  | extendWithArity symbol arity source =>
    rw [Registry.perform, respond, answered_snd]
    refine (extendWithArity_registers registry symbol arity source).keeps_ok
      (P := fun r => ∃ more, Restores start more r) ⟨functions, h⟩ ?_
    intro index after hok
    obtain ⟨count, formula, hcompiles, hdefine⟩ := extendWithArity_ok hok
    exact h.define (hrecorded source) hcompiles hdefine
  | extendMany source =>
    refine extendMany_induction (P := fun r => ∃ more, Restores start more r) ⟨functions, h⟩
      fun definitions hparse => ?_
    refine extendAll_induction (P := fun r => ∃ more, Restores start more r)
      (fun d hd hbefore hone => ?_) ⟨functions, h⟩
    obtain ⟨functions, hbefore⟩ := hbefore
    obtain ⟨arity, formula, -, hcompiles, hdefine⟩ := extendOne_ok hone
    exact hbefore.define (Definition.strip_body_of_parseAll hparse d hd) hcompiles hdefine

theorem Restores.performAll {functions : List (Function σ)} (h : Restores start functions registry)
    {calls : List (Registration σ)} (hcalls : ∀ call ∈ calls, call.isDefinition = true) :
    ∃ more, Restores start more (registry.performAll calls) := by
  induction calls generalizing registry functions with
  | nil => exact ⟨functions, h⟩
  | cons call rest ih =>
    obtain ⟨hcall, hrest⟩ := List.forall_mem_cons.mp hcalls
    obtain ⟨more, hnext⟩ := h.perform hcall
    exact ih hnext hrest

private theorem embedded_not_extended (hok : embedded = .ok registry) : registry.extended = [] := by
  have hinsert {before after : Registry σ} {symbol : String} {arity : Arity} {body : Body σ}
      {source : Option String} {index : Nat} (h : before.extended = [])
      (hbody : body.space ≠ .extended)
      (hone : before.insert symbol arity body source = (.ok index, after)) : after.extended = [] := by
    obtain ⟨-, -, -, rfl⟩ := insert_ok hone
    rw [extended, push, Array.toList_push, List.filter_append, ← extended, h]
    simp [Function.space, hbody]
  refine embedded_induction (P := fun r => r.extended = []) rfl ?_ ?_ hok
  · intro before after index entry _ h hone
    exact hinsert h (by simp [Body.space]) hone
  · intro before after index entry _ h hone
    exact hinsert h (by simp [Body.space]) hone

theorem Restores.extendMany {functions : List (Function σ)} (h : Restores start functions registry)
    (hstart : start.extended = []) :
    start.extendMany registry.listing =
      (.ok (List.range' start.size (registry.size - start.size)), registry) := by
  have hextended : registry.extended = functions := by
    rw [extended, h.functions_eq, List.filter_append, ← extended, hstart, List.nil_append,
      List.filter_eq_self]
    intro function hfunction
    rw [h.space_eq function hfunction]
    rfl
  have hlength : (definitionsFrom 1 functions).length = functions.length := by
    simp [definitionsFrom]
  have hsize : registry.size - start.size = functions.length := by
    have hsum := congrArg List.length h.functions_eq
    rw [List.length_append, Array.length_toList, Array.length_toList] at hsum
    unfold size
    omega
  have hparse : Definition.parseAll registry.listing = .ok (definitionsFrom 1 functions) := by
    apply Definition.parseAll_written
    · intro d hd
      obtain ⟨⟨function, line⟩, hmem, rfl⟩ := List.mem_map.mp hd
      exact h.printable function (List.fst_mem_of_mem_zipIdx hmem) line
    · rw [hlength]
      exact line_definitionsFrom 1 functions
    · rw [written_definitionsFrom, listing, hextended, String.toList_join, List.flatMap_map]
  simp only [Registry.extendMany, hparse, h.extendAll, hsize]

/-- Whatever was defined on top of the embedded functions, by calls that may have failed: the listing
of the definitions, read as a source on top of the embedded functions alone, registers all of them and
leads to the same registry. -/
theorem extendMany_listing (hstart : embedded = .ok start) (calls : List (Registration σ))
    (hcalls : ∀ call ∈ calls, call.isDefinition = true) :
    start.extendMany (start.performAll calls).listing =
      (.ok (List.range' start.size ((start.performAll calls).size - start.size)),
        start.performAll calls) := by
  have hfresh : Restores start [] start := by
    refine ⟨(embedded_basic hstart).1.reached, (List.append_nil _).symm, ?_, ?_, fun first => rfl⟩
    · intro function habsurd
      cases habsurd
    · intro function habsurd
      cases habsurd
  obtain ⟨functions, hrestores⟩ := hfresh.performAll hcalls
  exact hrestores.extendMany (embedded_not_extended hstart)

def mixed : List (Registration σ) :=
  [.extend "first" "byte($0, 0)", .extend "len8" "$0",
    .extendWithArity "pick" (.fixed 4) "if($0, $1, first($2))",
    .extendMany "def last(1) = byte($0,\n  sub8(len8($0), 1)) // the end\ndef odd(1) = nope($0)"]

theorem extendMany_listing_mixed :
    ∃ start : Registry Tree, embedded = .ok start ∧
      (∀ call ∈ (mixed : List (Registration Tree)), call.isDefinition = true) ∧
      (start.performAll mixed).size = start.size + 3 ∧
      start.extendMany (start.performAll mixed).listing =
        (.ok (List.range' start.size 3), start.performAll mixed) := by
  obtain ⟨start, hstart⟩ := exists_embedded
  have hcalls : ∀ call ∈ (mixed : List (Registration Tree)), call.isDefinition = true := by
    decide
  have hsizes : ((embedded : Except RegistryError (Registry Tree)).map fun start =>
      decide ((start.performAll mixed).size = start.size + 3)).toOption = some true := by
    decide +kernel
  rw [hstart] at hsizes
  have hsize : (start.performAll mixed).size = start.size + 3 :=
    of_decide_eq_true (Option.some.inj hsizes)
  have hrestored := extendMany_listing hstart mixed hcalls
  rw [hsize, Nat.add_sub_cancel_left] at hrestored
  exact ⟨start, hstart, hcalls, hsize, hrestored⟩

end Registry
end ByteFormula
