import ByteFormula.Proofs.Meaning

/-! Formulas with the bodies of definitions in place of their calls. A call of a definition is kept
around the body, so that the depth of what results counts the call and what is nested in it.
Definitions only call functions registered before them, so the bodies are put in place in the order
of registration. -/
namespace ByteFormula

variable {σ : Type}

mutual
/-- Puts arguments in place of references, and bodies in place of the arguments of calls where the
table has one. -/
def Formula.inline (table : Nat → Option (List Formula → Formula)) (args : List Formula) :
    Formula → Formula
  | .data bytes => .data bytes
  | .argument index => (args[index]?).getD (.argument index)
  | .call function actual =>
    match table function with
    | some body => .call function [body (Formula.inlineAll table args actual)]
    | none => .call function (Formula.inlineAll table args actual)

def Formula.inlineAll (table : Nat → Option (List Formula → Formula)) (args : List Formula) :
    List Formula → List Formula
  | [] => []
  | arg :: rest => arg.inline table args :: Formula.inlineAll table args rest
end

private theorem Formula.inlineAll_eq_map (table : Nat → Option (List Formula → Formula))
    (args actual : List Formula) :
    Formula.inlineAll table args actual = actual.map (Formula.inline table args) := by
  induction actual with
  | nil => rfl
  | cons arg rest ih => rw [Formula.inlineAll, ih, List.map_cons]

theorem Formula.depth_le_depthAll {arg : Formula} {args : List Formula} (h : arg ∈ args) :
    arg.depth ≤ Formula.depthAll args := by
  induction args with
  | nil => cases h
  | cons first rest ih =>
    rw [Formula.depthAll]
    rcases List.mem_cons.mp h with rfl | hrest
    · exact Nat.le_max_left _ _
    · exact Nat.le_trans (ih hrest) (Nat.le_max_right _ _)

namespace Registry

/-- What the calls of the first functions become, for those that are definitions. -/
def expansions (registry : Registry σ) : (count : Nat) → Nat → Option (List Formula → Formula)
  | 0, _ => none
  | count + 1, index =>
    if index = count then
      match (registry.function? count).map Function.body with
      | some (.defined formula _) => some fun args => formula.inline (registry.expansions count) args
      | _ => none
    else registry.expansions count index

/-- The formula with all definitions put in place, and the given arguments for its references. -/
def expand (registry : Registry σ) (args : List Formula) (formula : Formula) : Formula :=
  formula.inline (registry.expansions registry.size) args

section

variable {registry : Registry σ} {index : Nat} {function : Function σ}

private theorem expansions_of_lt {count : Nat} (h : index < count) :
    registry.expansions count index = registry.expansions (index + 1) index := by
  induction count with
  | zero => omega
  | succ count ih =>
    by_cases heq : index = count
    · rw [heq]
    · rw [expansions, if_neg heq, ih (by omega)]

mutual
/-- Functions beyond those that a formula calls do not matter. -/
theorem inline_of_callsBelow {bound : Nat} {table other : Nat → Option (List Formula → Formula)}
    (hsame : ∀ index < bound, table index = other index) (args : List Formula)
    (formula : Formula) (h : CallsBelow bound formula) :
    formula.inline table args = formula.inline other args := by
  cases formula with
  | data bytes => rfl
  | argument index => rfl
  | call index actual =>
    rw [Formula.inline, Formula.inline, hsame index h.1,
      inlineAll_of_callsBelow hsame args actual h.2]

theorem inlineAll_of_callsBelow {bound : Nat}
    {table other : Nat → Option (List Formula → Formula)}
    (hsame : ∀ index < bound, table index = other index) (args formulas : List Formula)
    (h : CallsAllBelow bound formulas) :
    Formula.inlineAll table args formulas = Formula.inlineAll other args formulas := by
  cases formulas with
  | nil => rfl
  | cons arg rest =>
    rw [Formula.inlineAll, Formula.inlineAll, inline_of_callsBelow hsame args arg h.1,
      inlineAll_of_callsBelow hsame args rest h.2]
end

private theorem Layered.expansions_eq (h : Layered registry) {formula : Formula} {bytecode : Bytes}
    (hfunction : registry.function? index = some function)
    (hbody : function.body = .defined formula bytecode) :
    registry.expansions registry.size index = some fun args => registry.expand args formula := by
  have hlt := lt_size_of_function? hfunction
  have hsame : ∀ i < index, registry.expansions index i = registry.expansions registry.size i := by
    intro i hi
    rw [expansions_of_lt hi, expansions_of_lt (Nat.lt_trans hi hlt)]
  rw [expansions_of_lt hlt, expansions, if_pos rfl, hfunction, Option.map_some, hbody]
  refine congrArg some (funext fun args => ?_)
  exact inline_of_callsBelow hsame args formula (h hfunction hbody)

private theorem expansions_eq_none {program : Host σ Bytes}
    (hfunction : registry.function? index = some function)
    (hprogram : function.body.program? = some program) :
    registry.expansions registry.size index = none := by
  rw [expansions_of_lt (lt_size_of_function? hfunction), expansions, if_pos rfl, hfunction,
    Option.map_some]
  cases hbody : function.body with
  | short _ | long _ => rfl
  | defined formula bytecode =>
    rw [hbody] at hprogram
    cases hprogram

/-- The call of a definition counts one more than its body with the arguments put in. -/
theorem Layered.depth_expand_call (h : Layered registry) {formula : Formula} {bytecode : Bytes}
    (hfunction : registry.function? index = some function)
    (hbody : function.body = .defined formula bytecode) (args actual : List Formula) :
    (registry.expand args (.call index actual)).depth =
      1 + (registry.expand (actual.map (registry.expand args)) formula).depth := by
  rw [expand, Formula.inline, h.expansions_eq hfunction hbody, Formula.inlineAll_eq_map]
  exact congrArg (1 + ·) (Nat.max_zero _)

theorem depth_expand_host {program : Host σ Bytes}
    (hfunction : registry.function? index = some function)
    (hprogram : function.body.program? = some program) (args actual : List Formula) :
    (registry.expand args (.call index actual)).depth =
      1 + Formula.depthAll (actual.map (registry.expand args)) := by
  rw [expand, Formula.inline, expansions_eq_none hfunction hprogram, Formula.inlineAll_eq_map]
  rfl

end

theorem depth_expand_call_pos (registry : Registry σ) (index : Nat) (args actual : List Formula) :
    0 < (registry.expand args (.call index actual)).depth := by
  rw [expand, Formula.inline]
  split <;> exact Nat.lt_of_lt_of_le Nat.zero_lt_one (Nat.le_add_right _ _)

mutual
def CallsHosts (registry : Registry σ) : Formula → Prop
  | .data _ => True
  | .argument _ => True
  | .call index args =>
    (∃ function program, registry.function? index = some function ∧
      function.body.program? = some program) ∧ registry.AllCallHosts args

def AllCallHosts (registry : Registry σ) : List Formula → Prop
  | [] => True
  | arg :: rest => registry.CallsHosts arg ∧ registry.AllCallHosts rest
end

mutual
/-- Without definitions there is nothing to put in place. -/
theorem expand_of_callsHosts {registry : Registry σ} (formula : Formula)
    (h : registry.CallsHosts formula) : registry.expand [] formula = formula := by
  cases formula with
  | data bytes => rfl
  | argument index => rfl
  | call index args =>
    obtain ⟨⟨function, program, hfunction, hprogram⟩, hargs⟩ := h
    rw [expand, Formula.inline, expansions_eq_none hfunction hprogram,
      expandAll_of_allCallHosts args hargs]

theorem expandAll_of_allCallHosts {registry : Registry σ} (formulas : List Formula)
    (h : registry.AllCallHosts formulas) :
    Formula.inlineAll (registry.expansions registry.size) [] formulas = formulas := by
  cases formulas with
  | nil => rfl
  | cons arg rest =>
    rw [Formula.inlineAll, expandAll_of_allCallHosts rest h.2, ← expand,
      expand_of_callsHosts arg h.1]
end

end Registry
end ByteFormula
