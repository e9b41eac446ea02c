import ByteFormula.Proofs.BaseRegistry

/-! The text of the base definitions. Reading it gives exactly these definitions, so that a registry
extended with the text is the base registry. -/
namespace ByteFormula

private def readAll (chars : List Char) : Except ParseError (List Definition) :=
  match ((Text.lines chars).zipIdx 1).foldlM Definition.Progress.step ⟨[], none⟩ with
  | .error e => .error e
  | .ok progress =>
    match progress.finish with
    | .error e => .error e
    | .ok closed => .ok closed.reverse

private theorem parseAll_of_toList {source : String} {chars : List Char}
    {definitions : List Definition} (hchars : source.toList = chars)
    (h : (readAll chars).toOption = some definitions) :
    Definition.parseAll source = .ok definitions := by
  have hread : Definition.parseAll source = readAll source.toList := rfl
  rw [hread, hchars]
  cases hresult : readAll chars with
  | error e =>
    rw [hresult] at h
    cases h
  | ok found =>
    rw [hresult] at h
    cases h
    rfl

private theorem parseAll_baseSource : Definition.parseAll baseSource = .ok baseDefinitions := by
  apply parseAll_of_toList
  · -- A literal is a list of characters by definition. With `rw` the goal would be closed too early.
    rewrite [baseSource, String.toList_join]
    simp only [List.flatMap_cons, List.flatMap_nil]
    repeat rewrite [String.toList_ofList]
    simp only [List.cons_append, List.nil_append]
    exact rfl
  · decide +kernel

namespace Registry

variable {σ : Type}

private theorem extendMany_baseSource (registry : Registry σ) :
    registry.extendMany baseSource = registry.extendAll baseDefinitions := by
  rw [extendMany, parseAll_baseSource]

/-- The base registry is that of the embedded functions, extended with the text. -/
theorem base_eq_ok_iff {registry : Registry σ} :
    base = .ok registry ↔
      ∃ start indices, embedded = .ok start ∧
        start.extendMany baseSource = (.ok indices, registry) := by
  constructor
  · intro hok
    obtain ⟨start, indices, hstart, hall⟩ := base_ok hok
    exact ⟨start, indices, hstart, (extendMany_baseSource start).trans hall⟩
  · rintro ⟨start, indices, hstart, hmany⟩
    rw [extendMany_baseSource] at hmany
    unfold base
    rw [hstart]
    simp only [hmany]

end Registry
end ByteFormula
