import ByteFormula.Proofs.Spelling

/-! What expressions compile to. A compiled formula is well formed, and a declared arity changes
nothing but that it bounds the references. -/
namespace ByteFormula

variable {σ : Type}

private theorem Literal.length_value {symbol : String} {bytes : Bytes}
    (h : value symbol = .ok bytes) : bytes.length ≤ maxInlineData := by
  unfold value at h
  split at h
  · cases h
    exact Nat.zero_le _
  split at h
  · split at h
    · cases h
    split at h
    · cases h
    · rename_i hlength
      cases h
      omega
  · split at h
    · cases h
      exact (by decide : 1 ≤ maxInlineData)
    · cases h

/-- A reference is below sixteen, and below the arity if there is one. -/
theorem Literal.reference_eq_ok_iff {symbol : String} {arity : Option Nat} {index : Nat} :
    reference symbol arity = .ok index ↔
      reference symbol none = .ok index ∧ index < argumentCodes ∧
        ∀ count, arity = some count → index < count := by
  unfold reference
  simp only
  split
  · rename_i hnumber
    simp only [Bool.and_eq_true, decide_eq_true_eq] at hnumber
    cases arity with
    | none =>
      constructor
      · rintro ⟨⟩
        exact ⟨rfl, hnumber.2, fun _ habsurd => by cases habsurd⟩
      · exact fun h => h.1
    | some count =>
      simp only
      split
      · rename_i hout
        constructor
        · intro habsurd
          cases habsurd
        · rintro ⟨hsame, -, hbelow⟩
          cases hsame
          exact absurd (hbelow count rfl) (by omega)
      · rename_i hin
        constructor
        · rintro ⟨⟩
          exact ⟨rfl, hnumber.2, fun _ h => by cases h; omega⟩
        · exact fun h => h.1
  · constructor
    · intro habsurd
      cases habsurd
    · rintro ⟨habsurd, -⟩
      cases habsurd

namespace Registry

variable {registry : Registry σ}

theorem resolve_ok {symbol : String} {count index : Nat}
    (h : registry.resolve symbol count = .ok index) :
    ∃ function, registry.byName? symbol = some (index, function) ∧
      function.arity.accepts count = true := by
  unfold resolve at h
  split at h
  · cases h
  split at h
  · cases h
  · rename_i hfound
    split at h
    · rename_i haccepts
      cases h
      exact ⟨_, hfound, haccepts⟩
    · cases h

/-- The three kinds of expressions that compile. -/
theorem formulaOf_eq_ok_iff {arity : Option Nat} {symbol : String} {args : List Expression}
    {formula : Formula} :
    registry.formulaOf arity (.call symbol args) = .ok formula ↔
      (Literal.isLiteral symbol = true ∧ args = [] ∧
        ∃ bytes, Literal.value symbol = .ok bytes ∧ formula = .data bytes) ∨
      (Literal.isLiteral symbol = false ∧ Literal.isReference symbol = true ∧ args = [] ∧
        ∃ index, Literal.reference symbol arity = .ok index ∧ formula = .argument index) ∨
      (Literal.isLiteral symbol = false ∧ Literal.isReference symbol = false ∧
        ∃ index formulas, registry.resolve symbol args.length = .ok index ∧
          registry.formulasOf arity args = .ok formulas ∧ formula = .call index formulas) := by
  rw [formulaOf]
  cases hliteral : Literal.isLiteral symbol with
  | true =>
    cases args with
    | cons e rest => simp
    | nil => cases hvalue : Literal.value symbol <;> simp [@eq_comm _ formula]
  | false =>
    cases hreference : Literal.isReference symbol with
    | true =>
      cases args with
      | cons e rest => simp
      | nil => cases hindex : Literal.reference symbol arity <;> simp [@eq_comm _ formula]
    | false =>
      cases hresolve : registry.resolve symbol args.length with
      | error e => simp
      | ok index => cases hargs : registry.formulasOf arity args <;> simp [@eq_comm _ formula]

theorem formulasOf_cons_eq_ok_iff {arity : Option Nat} {e : Expression} {rest : List Expression}
    {formulas : List Formula} :
    registry.formulasOf arity (e :: rest) = .ok formulas ↔
      ∃ first others, registry.formulaOf arity e = .ok first ∧
        registry.formulasOf arity rest = .ok others ∧ formulas = first :: others := by
  rw [formulasOf]
  cases hfirst : registry.formulaOf arity e with
  | error error => simp
  | ok first => cases hothers : registry.formulasOf arity rest <;> simp [@eq_comm _ formulas]

mutual
theorem wellFormed_of_formulaOf {arity : Option Nat} (e : Expression) {formula : Formula}
    (h : registry.formulaOf arity e = .ok formula) : registry.WellFormed formula := by
  obtain ⟨symbol, args⟩ := e
  rcases formulaOf_eq_ok_iff.mp h with ⟨-, -, bytes, hvalue, rfl⟩ | ⟨-, -, -, index, hindex, rfl⟩ |
    ⟨-, -, index, formulas, hresolve, hargs, rfl⟩
  · exact Literal.length_value hvalue
  · exact (Literal.reference_eq_ok_iff.mp hindex).2.1
  · obtain ⟨hlength, hwell⟩ := wellFormedAll_of_formulasOf args hargs
    rw [← hlength] at hresolve
    obtain ⟨function, hfound, haccepts⟩ := resolve_ok hresolve
    exact ⟨⟨function, function?_of_lookup? hfound, haccepts⟩, hwell⟩

theorem wellFormedAll_of_formulasOf {arity : Option Nat} (args : List Expression)
    {formulas : List Formula} (h : registry.formulasOf arity args = .ok formulas) :
    formulas.length = args.length ∧ registry.WellFormedAll formulas := by
  cases args with
  | nil =>
    cases h
    exact ⟨rfl, trivial⟩
  | cons e rest =>
    obtain ⟨first, others, hfirst, hothers, rfl⟩ := formulasOf_cons_eq_ok_iff.mp h
    obtain ⟨hlength, hwell⟩ := wellFormedAll_of_formulasOf rest hothers
    exact ⟨congrArg (· + 1) hlength, wellFormed_of_formulaOf e hfirst, hwell⟩
end

mutual
/-- A declared arity refuses the formulas that refer to more arguments, and no others. -/
theorem formulaOf_some_iff {count : Nat} (e : Expression) {formula : Formula} :
    registry.formulaOf (some count) e = .ok formula ↔
      registry.formulaOf none e = .ok formula ∧ ∀ index ∈ formula.references, index < count := by
  obtain ⟨symbol, args⟩ := e
  rw [formulaOf_eq_ok_iff, formulaOf_eq_ok_iff]
  constructor
  · rintro (⟨hliteral, hargs, bytes, hvalue, rfl⟩ | ⟨hliteral, hreference, hargs, index, hindex, rfl⟩ |
      ⟨hliteral, hreference, index, formulas, hresolve, hargs, rfl⟩)
    · exact ⟨.inl ⟨hliteral, hargs, bytes, hvalue, rfl⟩, nofun⟩
    · obtain ⟨hfree, -, hbelow⟩ := Literal.reference_eq_ok_iff.mp hindex
      refine ⟨.inr (.inl ⟨hliteral, hreference, hargs, index, hfree, rfl⟩), fun i hi => ?_⟩
      rw [List.mem_singleton.mp hi]
      exact hbelow count rfl
    · obtain ⟨hfree, hbelow⟩ := (formulasOf_some_iff args).mp hargs
      exact ⟨.inr (.inr ⟨hliteral, hreference, index, formulas, hresolve, hfree, rfl⟩), hbelow⟩
  · rintro ⟨⟨hliteral, hargs, bytes, hvalue, rfl⟩ | ⟨hliteral, hreference, hargs, index, hindex, rfl⟩ |
      ⟨hliteral, hreference, index, formulas, hresolve, hargs, rfl⟩, hbelow⟩
    · exact .inl ⟨hliteral, hargs, bytes, hvalue, rfl⟩
    · refine .inr (.inl ⟨hliteral, hreference, hargs, index, ?_, rfl⟩)
      have hlow := (Literal.reference_eq_ok_iff.mp hindex).2.1
      refine Literal.reference_eq_ok_iff.mpr ⟨hindex, hlow, fun _ heq => ?_⟩
      cases heq
      exact hbelow index (List.mem_singleton_self index)
    · exact .inr (.inr ⟨hliteral, hreference, index, formulas, hresolve,
        (formulasOf_some_iff args).mpr ⟨hargs, hbelow⟩, rfl⟩)

theorem formulasOf_some_iff {count : Nat} (args : List Expression) {formulas : List Formula} :
    registry.formulasOf (some count) args = .ok formulas ↔
      registry.formulasOf none args = .ok formulas ∧
        ∀ index ∈ Formula.referencesAll formulas, index < count := by
  cases args with
  | nil =>
    constructor
    · intro h
      cases h
      exact ⟨rfl, nofun⟩
    · exact fun h => h.1
  | cons e rest =>
    rw [formulasOf_cons_eq_ok_iff, formulasOf_cons_eq_ok_iff]
    constructor
    · rintro ⟨first, others, hfirst, hothers, rfl⟩
      obtain ⟨hfree, hbelow⟩ := (formulaOf_some_iff e).mp hfirst
      obtain ⟨hfrees, hbelows⟩ := (formulasOf_some_iff rest).mp hothers
      refine ⟨⟨first, others, hfree, hfrees, rfl⟩, fun i hi => ?_⟩
      rcases List.mem_append.mp hi with hi | hi
      · exact hbelow i hi
      · exact hbelows i hi
    · rintro ⟨⟨first, others, hfirst, hothers, rfl⟩, hbelow⟩
      simp only [Formula.referencesAll, List.mem_append] at hbelow
      exact ⟨first, others, (formulaOf_some_iff e).mpr ⟨hfirst, fun i hi => hbelow i (.inl hi)⟩,
        (formulasOf_some_iff rest).mpr ⟨hothers, fun i hi => hbelow i (.inr hi)⟩, rfl⟩
end

/-- The line of a text is only for its errors. -/
theorem parse_line {line : Nat} (other : Nat) {source : String} {e : Expression}
    (h : Expression.parse line source = .ok e) : Expression.parse other source = .ok e :=
  Expression.parse_eq_ok_iff.mpr (Expression.parse_eq_ok_iff.mp h)

/-- A source that compiles has a formula, and the arity covers what it refers to. -/
theorem Compiles.spec {source : String} {arity : Nat} {formula : Formula}
    (h : registry.Compiles source arity formula) :
    ∃ e, Expression.parse 1 source = .ok e ∧ registry.formulaOf none e = .ok formula ∧
      formula.numArgs ≤ arity := by
  cases h with
  | declared hparse hformula =>
    obtain ⟨hfree, hbelow⟩ := (formulaOf_some_iff _).mp hformula
    have hwell := wellFormed_of_formulaOf _ hfree
    exact ⟨_, parse_line 1 hparse, hfree, (numArgs_le_iff formula hwell).mpr hbelow⟩
  | counted hparse hformula => exact ⟨_, parse_line 1 hparse, hformula, Nat.le_refl _⟩

end Registry
end ByteFormula
