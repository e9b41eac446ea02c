import ByteFormula.Proofs.Compilation
import ByteFormula.Proofs.RoundTrip
import ByteFormula.Registry.Evaluate

/-! Evaluation of source text. An expression is compiled, written as bytecode, read back and then
evaluated. The detour over bytecode adds nothing: what is evaluated is what was compiled, unless its
calls are nested too deeply or the arguments do not cover its references. -/
namespace ByteFormula.Registry

variable {σ : Type} {registry : Registry σ}

/-- Whatever has a formula has bytecode. -/
theorem compile_of_formulaOf (hnumbered : Numbered registry) {source : String} {e : Expression}
    {formula : Formula} (hparse : Expression.parse 1 source = .ok e)
    (hformula : registry.formulaOf none e = .ok formula) :
    ∃ code, registry.encode formula = .ok code ∧
      registry.compile source = .ok ⟨code, formula.numArgs⟩ := by
  have hwell := wellFormed_of_formulaOf e hformula
  obtain ⟨code, hcode, -⟩ := encode_of_wellFormed hnumbered formula hwell
  refine ⟨code, hcode, ?_⟩
  rw [compile, hparse]
  simp only [hformula, hcode]

/-- Bytecode that is read is evaluated as the formula that was read. -/
theorem evaluateBytecode_of_decode {surroundings : Surroundings σ} {code : Bytes} {formula : Formula}
    {args : List Bytes} (state : σ) (hfew : args.length ≤ maxTopLevelArguments)
    (hdecode : registry.decode code (some args.length) = .ok formula) :
    registry.evaluateBytecode surroundings state code args =
      Prod.map (Except.mapError .fault) id (registry.evaluate surroundings state formula args) := by
  simp only [evaluateBytecode, if_neg (Nat.not_lt.mpr hfew), hdecode]
  obtain ⟨result, after⟩ := registry.evaluate surroundings state formula args
  cases result with
  | ok value => rfl
  | error fault => rfl

private theorem evaluateBytecode_of_refused {surroundings : Surroundings σ} {code : Bytes}
    {error : DecodeError}
    {args : List Bytes} (state : σ) (hfew : args.length ≤ maxTopLevelArguments)
    (hdecode : registry.decode code (some args.length) = .error error) :
    registry.evaluateBytecode surroundings state code args = (.error (.decode error), state) := by
  simp only [evaluateBytecode, if_neg (Nat.not_lt.mpr hfew), hdecode]

/-- Evaluating a source gives the result of the formula that it compiles to. It fails before that for
too many arguments, for calls nested too deeply and for references to arguments that are not given,
and for what is wrong with the source. -/
theorem evaluateSource_eq_evaluate (hbuilt : Built registry) (state : σ) (source : String)
    (args : List Bytes) :
    (∀ error, Expression.parse 1 source = .error error →
      registry.evaluateSource state source args = (.error (.parse error), state)) ∧
    ∀ e, Expression.parse 1 source = .ok e →
      (∀ error, registry.formulaOf none e = .error error →
        registry.evaluateSource state source args = (.error (.compile error), state)) ∧
      ∀ formula, registry.formulaOf none e = .ok formula →
        (∃ code, registry.encode formula = .ok code ∧
          registry.compile source = .ok ⟨code, formula.numArgs⟩) ∧
        (16 < args.length → registry.evaluateSource state source args =
          (.error (.compile (.tooManyArguments "<top level>" args.length)), state)) ∧
        (args.length ≤ 16 → formula.depth ≤ registry.maxCallDepth →
          formula.numArgs ≤ args.length → registry.evaluateSource state source args =
            Prod.map (Except.mapError .fault) id (registry.evaluate .none state formula args)) ∧
        (args.length ≤ 16 → ¬ (formula.depth ≤ registry.maxCallDepth ∧
            formula.numArgs ≤ args.length) →
          ∃ error, registry.evaluateSource state source args = (.error (.decode error), state) ∧
            ((registry.maxCallDepth < formula.depth ∧
                ∃ place, error = .tooDeep registry.maxCallDepth place) ∨
              ∃ index, formula.references.find? (args.length ≤ ·) = some index ∧
                error = .argumentOutOfRange index args.length)) := by
  have hnumbered := hbuilt.reached.numbered
  refine ⟨fun error hparse => by rw [evaluateSource, compile, hparse], fun e hparse => ⟨?_, ?_⟩⟩
  · intro error hformula
    rw [evaluateSource, compile, hparse]
    simp only [hformula]
  · intro formula hformula
    have hwell := wellFormed_of_formulaOf e hformula
    obtain ⟨code, hcode, hcompile⟩ := compile_of_formulaOf hnumbered hparse hformula
    have hrun : registry.evaluateSource state source args =
        registry.evaluateBytecode .none state code args := by
      rw [evaluateSource, hcompile]
    rw [hrun]
    refine ⟨⟨code, hcode, hcompile⟩, ?_, ?_, ?_⟩
    · intro hmany
      exact if_pos hmany
    · intro hfew hdepth hcovered
      apply evaluateBytecode_of_decode state hfew
      exact decode_encode hnumbered hwell hcode (by rintro count ⟨⟩; exact hcovered) hdepth
    · intro hfew hnot
      obtain ⟨error, herror, hrefusal⟩ : ∃ error,
          registry.decode code (some args.length) = .error error ∧ _ :=
        decode_encode_refused hnumbered hwell hcode fun h => hnot ⟨h.2, h.1 _ rfl⟩
      refine ⟨error, evaluateBytecode_of_refused state hfew herror, ?_⟩
      cases hrefusal with
      | tooDeep hdeep place => exact .inl ⟨hdeep, place, rfl⟩
      | outOfRange harity hindex =>
        cases harity
        exact .inr ⟨_, hindex, rfl⟩

/-- A call of a definition with a reference that one argument covers and none does not. -/
theorem evaluateSource_eq_evaluate_twice :
    Built (trio : Registry Unit) ∧
    Expression.parse 1 "twice( $0 )" = .ok (.call "twice" [.call "$0" []]) ∧
    (trio : Registry Unit).formulaOf none (.call "twice" [.call "$0" []]) =
      .ok (.call 2 [.argument 0]) ∧
    (trio : Registry Unit).compile "twice( $0 )" = .ok ⟨[0x45, 0x00, 0x00], 1⟩ ∧
    (trio : Registry Unit).evaluateSource () "twice( $0 )" [[7]] = (.ok [0xff], ()) ∧
    (trio : Registry Unit).evaluateSource () "twice( $0 )" [] =
      (.error (.decode (.argumentOutOfRange 0 0)), ()) := by
  have hstrip : Text.strip "twice( $0 )".toList =
      ['t', 'w', 'i', 'c', 'e', '(', '$', '0', ')'] := by decide +kernel
  have hparse : Expression.parse 1 "twice( $0 )" = .ok (.call "twice" [.call "$0" []]) := by
    unfold Expression.parse
    rw [hstrip]
    rfl
  have hformula : (trio : Registry Unit).formulaOf none (.call "twice" [.call "$0" []]) =
      .ok (.call 2 [.argument 0]) := rfl
  have hbuilt : Built (trio : Registry Unit) := trio_built
  obtain ⟨⟨code, hcode, hcompile⟩, -, hevaluate, -⟩ :=
    ((evaluateSource_eq_evaluate hbuilt () "twice( $0 )" [[7]]).2 _ hparse).2 _ hformula
  obtain ⟨-, -, -, hrefused⟩ :=
    ((evaluateSource_eq_evaluate hbuilt () "twice( $0 )" []).2 _ hparse).2 _ hformula
  obtain ⟨error, herror, ⟨hdeep, -⟩ | ⟨index, hindex, rfl⟩⟩ := hrefused (by decide) (by decide)
  · exact absurd hdeep (by decide)
  cases hindex
  cases hcode
  exact ⟨hbuilt, hparse, hformula, hcompile, hevaluate (by decide) (by decide) (by decide), herror⟩

end ByteFormula.Registry
