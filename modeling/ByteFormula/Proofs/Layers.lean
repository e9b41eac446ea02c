import ByteFormula.Proofs.RoundTrip
import ByteFormula.Registry.Evaluate

/-! The layers of a registry. A definition only calls functions registered before it, so what is to
hold of all functions can be built up in the order of registration, such as a bound on the calls
that an evaluation nests. -/
namespace ByteFormula

variable {σ : Type}

mutual
/-- How many calls the evaluation of a formula nests before it comes to an argument, if the bodies
of functions nest as many as the table says. -/
def Formula.nesting (table : Nat → Nat) : Formula → Nat
  | .data _ => 0
  | .argument _ => 0
  | .call function args => 1 + table function + Formula.nestingAll table args

def Formula.nestingAll (table : Nat → Nat) : List Formula → Nat
  | [] => 0
  | arg :: rest => max (arg.nesting table) (Formula.nestingAll table rest)
end

theorem Formula.nesting_le_nestingAll (table : Nat → Nat) {arg : Formula} {args : List Formula}
    (h : arg ∈ args) : arg.nesting table ≤ Formula.nestingAll table args := by
  induction args with
  | nil => cases h
  | cons first rest ih =>
    rw [Formula.nestingAll]
    rcases List.mem_cons.mp h with rfl | hrest
    · exact Nat.le_max_left _ _
    · exact Nat.le_trans (ih hrest) (Nat.le_max_right _ _)

theorem Formula.nestingAll_data (table : Nat → Nat) (args : List Bytes) :
    Formula.nestingAll table (args.map .data) = 0 := by
  induction args with
  | nil => rfl
  | cons bytes rest ih => rw [List.map_cons, Formula.nestingAll, ih, Formula.nesting, Nat.max_self]

namespace Registry

mutual
def CallsBelow (bound : Nat) : Formula → Prop
  | .data _ => True
  | .argument _ => True
  | .call function args => function < bound ∧ CallsAllBelow bound args

def CallsAllBelow (bound : Nat) : List Formula → Prop
  | [] => True
  | arg :: rest => CallsBelow bound arg ∧ CallsAllBelow bound rest
end

mutual
theorem callsBelow_of_wellFormed {registry : Registry σ} (formula : Formula)
    (h : registry.WellFormed formula) : CallsBelow registry.size formula := by
  cases formula with
  | data bytes => trivial
  | argument index => trivial
  | call index args =>
    obtain ⟨⟨function, hfunction, -⟩, hargs⟩ := h
    exact ⟨lt_size_of_function? hfunction, callsAllBelow_of_wellFormed args hargs⟩

theorem callsAllBelow_of_wellFormed {registry : Registry σ} (formulas : List Formula)
    (h : registry.WellFormedAll formulas) : CallsAllBelow registry.size formulas := by
  cases formulas with
  | nil => trivial
  | cons arg rest =>
    exact ⟨callsBelow_of_wellFormed arg h.1, callsAllBelow_of_wellFormed rest h.2⟩
end

def Layered (registry : Registry σ) : Prop :=
  ∀ ⦃index function formula bytecode⦄, registry.function? index = some function →
    function.body = .defined formula bytecode → CallsBelow index formula

/-- A body that was prepared is well formed, since it was read back. -/
theorem wellFormed_of_prepare {registry : Registry σ} (hnumbered : Numbered registry)
    {symbol : String} {arity : Nat} {formula body : Formula} {bytecode : Bytes}
    (h : registry.prepare symbol arity formula = .ok (body, bytecode)) :
    registry.WellFormed body := by
  obtain ⟨widened, hreadable⟩ :=
    (decode_eq_ok_iff_readable hnumbered _ _ _).mp (prepare_ok h).2
  exact hreadable.wellFormed

private theorem Layered.insert {registry after : Registry σ} {symbol : String} {arity : Arity}
    {body : Body σ} {source : Option String} {index : Nat} (h : Layered registry)
    (hok : registry.insert symbol arity body source = (.ok index, after))
    (hbody : ∀ {formula bytecode}, body = .defined formula bytecode →
      CallsBelow registry.size formula) : Layered after := by
  obtain ⟨-, -, -, rfl⟩ := insert_ok hok
  intro index function formula bytecode hfunction hdefined
  rw [function?_push] at hfunction
  split at hfunction
  · subst_vars
    cases hfunction
    exact hbody hdefined
  · exact h hfunction hdefined

theorem Reached.layered {registry : Registry σ} (h : Reached registry) : Layered registry := by
  induction h with
  | empty =>
    intro index function formula bytecode hfunction
    simp [function?, Registry.empty] at hfunction
  | step hreached hstep ih =>
    cases hstep with
    | bound =>
      intro index function formula bytecode hfunction
      rw [function?_setMaxCallDepth] at hfunction
      exact ih hfunction
    | host hspace hok =>
      refine ih.insert hok fun hbody => ?_
      rw [hbody] at hspace
      exact absurd rfl hspace
    | definition _ hprepare hok =>
      refine ih.insert hok fun hbody => ?_
      cases hbody
      exact callsBelow_of_wellFormed _ (wellFormed_of_prepare hreached.numbered hprepare)

def nestings (registry : Registry σ) : (count : Nat) → Nat → Nat
  | 0, _ => 0
  | count + 1, index =>
    if index = count then
      match (registry.function? count).map Function.body with
      | some (.defined formula _) => formula.nesting (registry.nestings count)
      | _ => 0
    else registry.nestings count index

/-- How many calls the evaluation of a formula over a registry nests, if its arguments are data. -/
def nesting (registry : Registry σ) (formula : Formula) : Nat :=
  formula.nesting (registry.nestings registry.size)

theorem nestings_of_lt {registry : Registry σ} {count index : Nat} (h : index < count) :
    registry.nestings count index = registry.nestings (index + 1) index := by
  induction count with
  | zero => omega
  | succ count ih =>
    by_cases heq : index = count
    · rw [heq]
    · rw [nestings, if_neg heq, ih (by omega)]

mutual
/-- Functions beyond those that a formula calls do not matter for its nesting. -/
theorem nesting_of_callsBelow {bound : Nat} {table other : Nat → Nat}
    (hsame : ∀ index < bound, table index = other index) (formula : Formula)
    (h : CallsBelow bound formula) : formula.nesting table = formula.nesting other := by
  cases formula with
  | data bytes => rfl
  | argument index => rfl
  | call index args =>
    rw [Formula.nesting, Formula.nesting, hsame index h.1,
      nestingAll_of_callsBelow hsame args h.2]

theorem nestingAll_of_callsBelow {bound : Nat} {table other : Nat → Nat}
    (hsame : ∀ index < bound, table index = other index) (formulas : List Formula)
    (h : CallsAllBelow bound formulas) :
    Formula.nestingAll table formulas = Formula.nestingAll other formulas := by
  cases formulas with
  | nil => rfl
  | cons arg rest =>
    rw [Formula.nestingAll, Formula.nestingAll, nesting_of_callsBelow hsame arg h.1,
      nestingAll_of_callsBelow hsame rest h.2]
end

/-- The body of a definition nests as many calls as the table has for it. -/
theorem Layered.nestings_eq {registry : Registry σ} (h : Layered registry) {index : Nat}
    {function : Function σ} {formula : Formula} {bytecode : Bytes}
    (hfunction : registry.function? index = some function)
    (hbody : function.body = .defined formula bytecode) :
    registry.nestings registry.size index = registry.nesting formula := by
  have hlt := lt_size_of_function? hfunction
  have hsame : ∀ i < index, registry.nestings index i = registry.nestings registry.size i := by
    intro i hi
    rw [nestings_of_lt hi, nestings_of_lt (Nat.lt_trans hi hlt)]
  -- The entry was made from the table as it was before the function, which is enough for its body.
  rw [nestings_of_lt hlt, nestings, if_pos rfl, hfunction, Option.map_some, hbody]
  exact nesting_of_callsBelow hsame formula (h hfunction hbody)

end Registry
end ByteFormula
