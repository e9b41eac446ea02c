import ByteFormula.Proofs.Compilation
import ByteFormula.Proofs.RoundTrip

/-! References that an arity does not cover. The same check is made three times: on the symbols of
an expression, on the heads of bytecode, and as a count over the whole formula. All three refuse the
same formulas, and the two that report an error report the first reference that is out of range. -/
namespace ByteFormula

variable {σ : Type}

private theorem Literal.reference_out_of_range {symbol : String} {index count : Nat}
    (h : reference symbol none = .ok index) (hout : count ≤ index) :
    reference symbol (some count) = .error (.argumentOutOfRange index count) := by
  unfold reference at h ⊢
  simp only at h ⊢
  split at h
  · rename_i hnumber
    cases h
    rw [if_pos hnumber, if_pos hout]
  · cases h

namespace Registry

variable {registry : Registry σ} {arity index : Nat}

/-- What is not out of range is below the arity. -/
theorem lt_of_find?_eq_none {references : List Nat}
    (h : references.find? (arity ≤ ·) = none) : ∀ index ∈ references, index < arity := by
  intro index hindex
  have hnot := List.find?_eq_none.mp h index hindex
  simp only [decide_eq_true_eq] at hnot
  omega

mutual
/-- An expression that compiles without an arity, but has references out of range, is refused for
the first of them. -/
theorem formulaOf_out_of_range (e : Expression) {formula : Formula}
    (h : registry.formulaOf none e = .ok formula)
    (hindex : formula.references.find? (arity ≤ ·) = some index) :
    registry.formulaOf (some arity) e = .error (.argumentOutOfRange index arity) := by
  obtain ⟨symbol, args⟩ := e
  rcases formulaOf_eq_ok_iff.mp h with ⟨-, -, bytes, -, rfl⟩ |
    ⟨hliteral, hreference, rfl, found, hfound, rfl⟩ |
    ⟨hliteral, hreference, function, formulas, hresolve, hargs, rfl⟩
  · cases hindex
  · have hout := List.find?_some hindex
    rw [decide_eq_true_eq] at hout
    cases List.mem_singleton.mp (List.mem_of_find?_eq_some hindex)
    rw [formulaOf, hliteral, hreference, Literal.reference_out_of_range hfound hout]
    rfl
  · have hrefused := formulasOf_out_of_range args hargs hindex
    rw [formulaOf, hliteral, hreference, hresolve]
    simp only [hrefused, Bool.false_eq_true, if_false]

theorem formulasOf_out_of_range (args : List Expression) {formulas : List Formula}
    (h : registry.formulasOf none args = .ok formulas)
    (hindex : (Formula.referencesAll formulas).find? (arity ≤ ·) = some index) :
    registry.formulasOf (some arity) args = .error (.argumentOutOfRange index arity) := by
  cases args with
  | nil =>
    cases h
    cases hindex
  | cons e rest =>
    obtain ⟨first, others, hfirst, hothers, rfl⟩ := formulasOf_cons_eq_ok_iff.mp h
    rw [Formula.referencesAll, List.find?_append] at hindex
    rw [formulasOf]
    cases hfront : first.references.find? (arity ≤ ·) with
    | some found =>
      rw [hfront, Option.some_or] at hindex
      cases hindex
      rw [formulaOf_out_of_range e hfirst hfront]
    | none =>
      -- The first expression passes the check, so the error is that of one behind it.
      rw [hfront, Option.none_or] at hindex
      have hpassed : registry.formulaOf (some arity) e = .ok first :=
        (formulaOf_some_iff e).mpr ⟨hfirst, lt_of_find?_eq_none hfront⟩
      rw [hpassed]
      simp only [formulasOf_out_of_range rest hothers hindex]
end

/-- A formula that counts more arguments than the arity has a first reference out of range. -/
theorem exists_out_of_range {formula : Formula} (hwell : registry.WellFormed formula)
    (h : arity < formula.numArgs) :
    ∃ index, formula.references.find? (arity ≤ ·) = some index := by
  cases hfind : formula.references.find? (arity ≤ ·) with
  | some index => exact ⟨index, rfl⟩
  | none =>
    have hle := (numArgs_le_iff formula hwell).mpr (lt_of_find?_eq_none hfind)
    exact absurd hle (Nat.not_le_of_gt h)

/-- The bytecode of a formula that is not nested too deeply is refused for nothing but its
references. -/
theorem decode_encode_out_of_range (hnumbered : Numbered registry) {formula : Formula}
    {code : Bytes} (hwell : registry.WellFormed formula)
    (hencode : registry.encode formula = .ok code)
    (hdepth : formula.depth ≤ registry.maxCallDepth)
    (hindex : formula.references.find? (arity ≤ ·) = some index) :
    registry.decode code (some arity) = .error (.argumentOutOfRange index arity) := by
  have hmany : ¬ ∀ count, some arity = some count → formula.numArgs ≤ count := by
    intro hcovered
    have hbelow := (numArgs_le_iff formula hwell).mp (hcovered arity rfl) index
      (List.mem_of_find?_eq_some hindex)
    have hout := List.find?_some hindex
    rw [decide_eq_true_eq] at hout
    omega
  obtain ⟨e, he, hrefusal⟩ :=
    decode_encode_refused hnumbered hwell hencode fun h => hmany h.1
  cases hrefusal with
  | tooDeep hdeep place => exact absurd hdepth (Nat.not_le_of_gt hdeep)
  | outOfRange harity hfirst =>
    cases harity
    cases hfirst.symm.trans hindex
    exact he

/-- An arity refuses the expressions whose formula counts more arguments, and no others. It refuses
them for the first reference that is out of range, and so does decoding refuse their bytecode,
unless they are nested too deeply to be decoded at all. -/
theorem reference_checks_agree (hbuilt : Built registry) (e : Expression) (arity : Nat) :
    (∀ formula, registry.formulaOf (some arity) e = .ok formula ↔
      registry.formulaOf none e = .ok formula ∧ formula.numArgs ≤ arity) ∧
    ∀ formula, registry.formulaOf none e = .ok formula → arity < formula.numArgs →
      ∃ index, formula.references.find? (arity ≤ ·) = some index ∧
        registry.formulaOf (some arity) e = .error (.argumentOutOfRange index arity) ∧
        ∃ code, registry.encode formula = .ok code ∧
          (formula.depth ≤ registry.maxCallDepth →
            registry.decode code (some arity) = .error (.argumentOutOfRange index arity)) := by
  have hnumbered := hbuilt.reached.numbered
  constructor
  · intro formula
    rw [formulaOf_some_iff]
    refine and_congr_right fun hformula => ?_
    exact (numArgs_le_iff formula (wellFormed_of_formulaOf e hformula)).symm
  · intro formula hformula hmany
    have hwell := wellFormed_of_formulaOf e hformula
    obtain ⟨index, hindex⟩ := exists_out_of_range hwell hmany
    obtain ⟨code, hcode, -⟩ := encode_of_wellFormed hnumbered formula hwell
    exact ⟨index, hindex, formulaOf_out_of_range e hformula hindex, code, hcode, fun hdepth =>
      decode_encode_out_of_range hnumbered hwell hcode hdepth hindex⟩

/-- Of two references out of range, the one that is reported is the first and not the highest. -/
theorem reference_checks_agree_count :
    Built (trio : Registry Unit) ∧
    (trio : Registry Unit).formulaOf none
        (.call "twice" [.call "count" [.call "$1" [], .call "$3" [], .call "$7" []]]) =
      .ok (.call 2 [.call 1 [.argument 1, .argument 3, .argument 7]]) ∧
    (trio : Registry Unit).formulaOf (some 2)
        (.call "twice" [.call "count" [.call "$1" [], .call "$3" [], .call "$7" []]]) =
      .error (.argumentOutOfRange 3 2) ∧
    (trio : Registry Unit).encode (.call 2 [.call 1 [.argument 1, .argument 3, .argument 7]]) =
      .ok [0x45, 0, 0x4c, 0x40, 1, 3, 7] ∧
    (trio : Registry Unit).decode [0x45, 0, 0x4c, 0x40, 1, 3, 7] (some 2) =
      .error (.argumentOutOfRange 3 2) := by
  have hformula : (trio : Registry Unit).formulaOf none
      (.call "twice" [.call "count" [.call "$1" [], .call "$3" [], .call "$7" []]]) =
      .ok (.call 2 [.call 1 [.argument 1, .argument 3, .argument 7]]) := rfl
  obtain ⟨index, hindex, hrefused, code, hcode, hdecode⟩ :=
    (reference_checks_agree (trio_built : Built (trio : Registry Unit)) _ 2).2 _ hformula
      (by decide)
  cases hindex
  cases hcode
  exact ⟨trio_built, hformula, hrefused, rfl, hdecode (by decide)⟩

end Registry
end ByteFormula
