import ByteFormula.Proofs.Consistency
import ByteFormula.Proofs.Literals
import ByteFormula.Proofs.SourceEvaluation

/-! Decompiled text. The expression that is printed for a formula has a literal for data, a numbered
reference for an argument and a name for a call. No name is spelled like one of the others or holds a
character of the grammar, so the text compiles to the same formula again. -/
namespace ByteFormula.Registry

variable {σ : Type} {registry : Registry σ}

mutual
def expressionOf (registry : Registry σ) : Formula → Expression
  | .data bytes => .call (Literal.ofData bytes) []
  | .argument index => .call (Literal.ofReference index) []
  | .call index args => .call (registry.nameOf index) (registry.expressionsOf args)

def expressionsOf (registry : Registry σ) : List Formula → List Expression
  | [] => []
  | arg :: rest => registry.expressionOf arg :: registry.expressionsOf rest
end

theorem nameOf_eq {index : Nat} {function : Function σ}
    (h : registry.function? index = some function) : registry.nameOf index = function.symbol := by
  rw [nameOf, h]

mutual
theorem spellable_expressionOf (hnamed : Named registry) (formula : Formula)
    (hwell : registry.WellFormed formula) : (registry.expressionOf formula).Spellable := by
  cases formula with
  | data bytes => exact ⟨Literal.isSymbol_ofData bytes, trivial⟩
  | argument index => exact ⟨(Literal.reference_digits index hwell).2.2, trivial⟩
  | call index args =>
    obtain ⟨⟨function, hfunction, -⟩, hargs⟩ := hwell
    refine ⟨?_, spellable_expressionsOf hnamed args hargs⟩
    rw [nameOf_eq hfunction]
    exact (Literal.of_unreserved (hnamed.unreserved hfunction)).2.2

theorem spellable_expressionsOf (hnamed : Named registry) (formulas : List Formula)
    (hwell : registry.WellFormedAll formulas) :
    Expression.SpellableAll (registry.expressionsOf formulas) := by
  cases formulas with
  | nil => trivial
  | cons arg rest =>
    exact ⟨spellable_expressionOf hnamed arg hwell.1, spellable_expressionsOf hnamed rest hwell.2⟩
end

private theorem chars_data (bytes : Bytes) :
    registry.chars (.data bytes) = (Literal.ofData bytes).toList := by
  cases bytes with
  | nil => rfl
  | cons byte rest => simp only [chars, Literal.ofData, String.toList_ofList]

mutual
/-- What is printed for a formula is its expression, with a blank behind each comma. -/
theorem strip_chars (formula : Formula) (h : (registry.expressionOf formula).Spellable) :
    Text.strip (registry.chars formula) = (registry.expressionOf formula).chars := by
  cases formula with
  | data bytes =>
    rw [chars_data]
    exact h.1.strip_eq
  | argument index =>
    have hsymbol : Text.strip (Literal.ofReference index).toList = _ := h.1.strip_eq
    rw [Literal.ofReference, String.toList_ofList] at hsymbol
    rw [chars, hsymbol, expressionOf, Expression.chars, Literal.ofReference, String.toList_ofList]
  | call index args =>
    cases args with
    | nil => exact h.1.strip_eq
    | cons arg rest =>
      obtain ⟨hsymbol, harg, hrest⟩ := h
      rw [chars, Text.strip_append, hsymbol.strip_eq, Text.strip_cons (by decide),
        Text.strip_append, strip_chars arg harg, strip_moreChars rest hrest]
      rfl

theorem strip_moreChars (formulas : List Formula)
    (h : Expression.SpellableAll (registry.expressionsOf formulas)) :
    Text.strip (registry.moreChars formulas) =
      Expression.moreChars (registry.expressionsOf formulas) := by
  cases formulas with
  | nil => rfl
  | cons arg rest =>
    rw [moreChars, Text.strip_cons (by decide), Text.strip_blank (by decide), Text.strip_append,
      strip_chars arg h.1, strip_moreChars rest h.2]
    rfl
end

mutual
/-- The expression of a well-formed formula compiles to it. -/
theorem formulaOf_expressionOf (hnumbered : Numbered registry) (hnamed : Named registry)
    (formula : Formula) (hwell : registry.WellFormed formula) :
    registry.formulaOf none (registry.expressionOf formula) = .ok formula := by
  cases formula with
  | data bytes =>
    exact formulaOf_eq_ok_iff.mpr (.inl ⟨Literal.isLiteral_ofData bytes, rfl, bytes,
      Literal.value_ofData hwell, rfl⟩)
  | argument index =>
    exact formulaOf_eq_ok_iff.mpr (.inr (.inl ⟨Literal.isLiteral_ofReference index,
      Literal.isReference_ofReference index, rfl, index, Literal.reference_ofReference hwell, rfl⟩))
  | call index args =>
    obtain ⟨⟨function, hfunction, haccepts⟩, hargs⟩ := hwell
    obtain ⟨hliteral, hreference, -⟩ := Literal.of_unreserved (hnamed.unreserved hfunction)
    obtain ⟨hlength, hformulas⟩ := formulasOf_expressionsOf hnumbered hnamed args hargs
    have hresolve : registry.resolve function.symbol (registry.expressionsOf args).length =
        .ok index := by
      have hcount := hnumbered.count_le hfunction haccepts
      rw [hlength, resolve, if_neg (Nat.not_lt.mpr hcount), hnamed.byName?_symbol hfunction]
      simp only [haccepts, if_true]
    rw [expressionOf, nameOf_eq hfunction]
    exact formulaOf_eq_ok_iff.mpr (.inr (.inr ⟨hliteral, hreference, index, args, hresolve,
      hformulas, rfl⟩))

theorem formulasOf_expressionsOf (hnumbered : Numbered registry) (hnamed : Named registry)
    (formulas : List Formula) (hwell : registry.WellFormedAll formulas) :
    (registry.expressionsOf formulas).length = formulas.length ∧
      registry.formulasOf none (registry.expressionsOf formulas) = .ok formulas := by
  cases formulas with
  | nil => exact ⟨rfl, rfl⟩
  | cons arg rest =>
    have harg := formulaOf_expressionOf hnumbered hnamed arg hwell.1
    obtain ⟨hlength, hrest⟩ := formulasOf_expressionsOf hnumbered hnamed rest hwell.2
    exact ⟨congrArg (· + 1) hlength,
      formulasOf_cons_eq_ok_iff.mpr ⟨arg, rest, harg, hrest, rfl⟩⟩
end

/-- What is rendered for a well-formed formula compiles to its bytecode. -/
theorem compile_render (hnumbered : Numbered registry) (hnamed : Named registry) {formula : Formula}
    (hwell : registry.WellFormed formula) :
    ∃ code, registry.encode formula = .ok code ∧
      registry.compile (registry.render formula) = .ok ⟨code, formula.numArgs⟩ := by
  have hspellable := spellable_expressionOf hnamed formula hwell
  have hstrip : Text.strip (registry.render formula).toList =
      (registry.expressionOf formula).chars := by
    rw [render, String.toList_ofList, strip_chars formula hspellable]
  exact compile_of_formulaOf hnumbered (Expression.parse_of_strip hspellable hstrip 1)
    (formulaOf_expressionOf hnumbered hnamed formula hwell)

/-- Decompiled text compiles to the shortest bytecode of what was decoded. So a source whose bytecode
can be decoded compiles to the same as the text that its bytecode is decompiled to. -/
theorem compile_decompile (hbuilt : Built registry) :
    (∀ code formula, registry.decode code none = .ok formula →
      ∃ text plain, registry.decompile code = .ok text ∧ registry.encode formula = .ok plain ∧
        registry.compile text = .ok ⟨plain, formula.numArgs⟩) ∧
    ∀ source e formula, Expression.parse 1 source = .ok e →
      registry.formulaOf none e = .ok formula → formula.depth ≤ registry.maxCallDepth →
      ∃ compiled text, registry.compile source = .ok compiled ∧
        registry.decompile compiled.bytecode = .ok text ∧
        registry.compile text = registry.compile source := by
  have hnumbered := hbuilt.reached.numbered
  have hnamed := hbuilt.reached.named
  constructor
  · intro code formula hdecode
    obtain ⟨hwell, -, -⟩ := (decode_eq_ok_iff hnumbered code formula).mp hdecode
    obtain ⟨plain, hplain, hcompile⟩ := compile_render hnumbered hnamed hwell
    refine ⟨registry.render formula, plain, ?_, hplain, hcompile⟩
    rw [decompile, hdecode]
  · intro source e formula hparse hformula hdepth
    have hwell := wellFormed_of_formulaOf e hformula
    obtain ⟨code, hcode, hcompile⟩ := compile_of_formulaOf hnumbered hparse hformula
    obtain ⟨plain, hplain, hagain⟩ := compile_render hnumbered hnamed hwell
    cases hplain.symm.trans hcode
    have hdecode : registry.decode code none = .ok formula :=
      decode_encode hnumbered hwell hcode (fun _ hnone => by cases hnone) hdepth
    refine ⟨_, registry.render formula, hcompile, ?_, hagain.trans hcompile.symm⟩
    rw [decompile, hdecode]

/-- A call that is spelled with two bytes where one is enough, and a source with other blanks. -/
theorem compile_decompile_not_count :
    Built (trio : Registry Unit) ∧
    (trio : Registry Unit).decode [0x44, 0x10, 0x48, 0x40, 0x00, 0x01] none =
      .ok (.call 0 [.call 1 [.argument 0, .argument 1]]) ∧
    (trio : Registry Unit).decompile [0x44, 0x10, 0x48, 0x40, 0x00, 0x01] =
      .ok "not(count($0, $1))" ∧
    (trio : Registry Unit).compile "not(count($0, $1))" = .ok ⟨[0x10, 0x48, 0x40, 0x00, 0x01], 2⟩ ∧
    Expression.parse 1 "not (count( $0,$1))" =
      .ok (.call "not" [.call "count" [.call "$0" [], .call "$1" []]]) ∧
    ∃ compiled text, (trio : Registry Unit).compile "not (count( $0,$1))" = .ok compiled ∧
      (trio : Registry Unit).decompile compiled.bytecode = .ok text ∧
      (trio : Registry Unit).compile text =
        (trio : Registry Unit).compile "not (count( $0,$1))" := by
  have hbuilt : Built (trio : Registry Unit) := trio_built
  have hdecode : (trio : Registry Unit).decode [0x44, 0x10, 0x48, 0x40, 0x00, 0x01] none =
      .ok (.call 0 [.call 1 [.argument 0, .argument 1]]) := rfl
  have hrender : (trio : Registry Unit).render (.call 0 [.call 1 [.argument 0, .argument 1]]) =
      "not(count($0, $1))" := by decide +kernel
  have hdecompile : (trio : Registry Unit).decompile [0x44, 0x10, 0x48, 0x40, 0x00, 0x01] =
      .ok "not(count($0, $1))" := by
    rw [decompile, hdecode, ← hrender]
  have hstrip : Text.strip "not (count( $0,$1))".toList = ['n', 'o', 't', '(', 'c', 'o', 'u', 'n', 't',
      '(', '$', '0', ',', '$', '1', ')', ')'] := by decide +kernel
  have hparse : Expression.parse 1 "not (count( $0,$1))" =
      .ok (.call "not" [.call "count" [.call "$0" [], .call "$1" []]]) := by
    unfold Expression.parse
    rw [hstrip]
    rfl
  have hformula : (trio : Registry Unit).formulaOf none
      (.call "not" [.call "count" [.call "$0" [], .call "$1" []]]) =
      .ok (.call 0 [.call 1 [.argument 0, .argument 1]]) := rfl
  have hencode : (trio : Registry Unit).encode (.call 0 [.call 1 [.argument 0, .argument 1]]) =
      .ok [0x10, 0x48, 0x40, 0x00, 0x01] := rfl
  obtain ⟨hcode, hsource⟩ := compile_decompile hbuilt
  obtain ⟨text, plain, htext, hplain, hcompile⟩ := hcode _ _ hdecode
  cases htext.symm.trans hdecompile
  cases hplain.symm.trans hencode
  exact ⟨hbuilt, hdecode, hdecompile, hcompile, hparse, hsource _ _ _ hparse hformula (by decide)⟩

end ByteFormula.Registry
