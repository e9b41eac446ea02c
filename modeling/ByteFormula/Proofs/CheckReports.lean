import ByteFormula.Command.Run
import ByteFormula.Proofs.BlamedLines
import ByteFormula.Proofs.LinePlaces

/-! What a failed check points at. The line that is reported is that of the definition to blame, and its
span is that of the line in bytes. The place shown for it is the start of the line as long as bytes and
characters, and line feeds and line ends, come to the same before it. -/
namespace ByteFormula

private theorem Expression.line_of_parse {line : Nat} {source : String} {e : ParseError}
    (h : Expression.parse line source = .error e) : e.line = line := by
  unfold Expression.parse at h
  simp only at h
  split at h
  · cases h
    rfl
  split at h
  · split at h
    · cases h
    · cases h
      rfl
  · cases h
    rfl

namespace Definition

private theorem line_of_open? {number : Nat} {text : List Char} {e : ParseError}
    (h : open? number text = .error e) : e.line = number := by
  unfold open? at h
  split at h
  · cases h
    rfl
  split at h
  · cases h
    rfl
  · cases h

private theorem line_of_close {d : Definition} {e : ParseError} (h : d.close = .error e) :
    e.line = d.line := by
  unfold close at h
  split at h
  · cases h
    rfl
  split at h
  · cases h
  · cases h
    rfl

section

variable {above below : List (List Char)} {line : List Char} {e : ParseError}

theorem Misread.line_eq (h : Misread above line below e) : e.line = above.length + 1 := by
  cases h with
  | stray habove hloud hstart => rfl
  | header habove hstart hopen => exact line_of_open? hopen
  | body habove hheaded hclose => rw [line_of_close hclose, hheaded.line_eq]

private theorem Misread.loud (h : Misread above line below e) : ¬ Text.Silent line := by
  cases h with
  | stray habove hloud hstart => exact hloud
  | header habove hstart hopen => exact not_silent_of_start hstart
  | body habove hheaded hclose => exact not_silent_of_start hheaded.start

end
end Definition

namespace Registry

variable {σ : Type} {registry : Registry σ} {above below : List (List Char)} {line : List Char}
  {e : Error}

private theorem errorLine?_of_extendOne {after : Registry σ} {d : Definition}
    (h : registry.extendOne d = (.error e, after)) :
    Command.errorLine? e = some d.line := by
  unfold extendOne at h
  split at h
  · rename_i hparse
    cases h
    exact congrArg some (Expression.line_of_parse hparse)
  split at h
  · cases h
    rfl
  · cases h

/-- What is wrong at a line is reported at that line. -/
theorem Refuses.errorLine? (h : registry.Refuses above line below e) :
    Command.errorLine? e = some (above.length + 1) := by
  cases h with
  | misread hmisread => exact congrArg some hmisread.line_eq
  | refused hall habove hheaded hearlier hone => rw [errorLine?_of_extendOne hone, hheaded.line_eq]

private theorem Refuses.loud (h : registry.Refuses above line below e) : ¬ Text.Silent line := by
  cases h with
  | misread hmisread => exact hmisread.loud
  | refused hall habove hheaded hearlier hone => exact Definition.not_silent_of_start hheaded.start

end Registry

private theorem Text.silent_of_blank {line : List Char} (h : ∀ c ∈ line, isBlank c = true) :
    Silent line := by
  induction line with
  | nil => exact .nil
  | cons c rest ih =>
    obtain ⟨hc, hrest⟩ := List.forall_mem_cons.mp h
    exact .blank hc (ih hrest)

namespace Command

/-- A check that fails has a line to point at: the header of the definition to blame, or the text that
belongs to none. The span of the line goes from its first byte to the white space at its end. The place
shown is the start of the line if the text before it is plain and the span, read as counting characters,
does not leave the text; and else it is not. -/
theorem check_points_at_line (registry : Registry Unit) (file source : String) {e : Error}
    (hfail : (registry.extendMany source).1 = .error e) :
    ∃ number above shown blank below before after,
      errorLine? e = some number ∧
      Text.lines source.toList = above ++ (shown ++ blank) :: below ∧
      registry.Refuses above (shown ++ blank) below e ∧
      before = Text.textAbove above ∧ after = Text.textBelow below ∧
      Text.Stands source.toList number before shown blank after ∧
      Text.lineSpan source.toList number =
        ((Text.utf8 before).length, (Text.utf8 (before ++ shown)).length) ∧
      (Text.placeOfSpan source.toList (Text.lineSpan source.toList number) = some (number, 1) ↔
        Text.isPlain before = true ∧
          (Text.utf8 (before ++ shown)).length ≤ source.toList.length + 1) ∧
      (Text.isPlain before = true →
        (Text.utf8 (before ++ shown)).length ≤ source.toList.length + 1 →
          (runCheck registry file source).result =
            .error [s!"Error: {e.message}", s!"{file}:{number}:1", s!"Error: {file} has errors"]) := by
  obtain ⟨above, line, below, hlines, hrefuses⟩ := Registry.refuses_of_extendMany hfail
  obtain ⟨blank, hline, hstands⟩ := Text.stands_of_lines hlines
  have hspan := Text.lineSpan_of_lines hlines
  have hshown : Text.trimRight line ≠ [] := by
    intro hnil
    rw [hnil] at hline
    exact hrefuses.loud (hline ▸ Text.silent_of_blank hstands.blank)
  have hplace := Text.placeOfSpan_eq_start_iff hstands hshown
  rw [← hspan] at hplace
  refine ⟨above.length + 1, above, Text.trimRight line, blank, below, _, _, hrefuses.errorLine?,
    by rwa [← hline], by rwa [← hline], rfl, rfl, hstands, hspan, hplace, fun hplain hend => ?_⟩
  have hcolumn (front : String) : front ++ ":" ++ toString 1 = front ++ ":1" := by
    rw [String.append_assoc]
    rfl
  simp only [runCheck, hfail, checkReport, hrefuses.errorLine?, hplace.mpr ⟨hplain, hend⟩]
  exact congrArg (fun place => Except.error [_, place, _]) (hcolumn _)

/-- A definition with a parenthesis that is not closed, on the third line of a plain text. -/
theorem check_points_at_line_unclosed :
    ((Registry.empty : Registry Unit).extendMany
      "// One\ndef one(0) = 1\r\ndef two(0) = sum(one,  \n one").1 =
        .error (.parse (.unbalancedParentheses 3)) ∧
    (runCheck Registry.empty "f" "// One\ndef one(0) = 1\r\ndef two(0) = sum(one,  \n one").result =
      .error ["Error: line 3: unbalanced parentheses", "f:3:1", "Error: f has errors"] := by
  have hparse : Definition.parseAll "// One\ndef one(0) = 1\r\ndef two(0) = sum(one,  \n one" =
      .error (.unbalancedParentheses 3) := rfl
  have hfail : ((Registry.empty : Registry Unit).extendMany
      "// One\ndef one(0) = 1\r\ndef two(0) = sum(one,  \n one").1 =
        .error (.parse (.unbalancedParentheses 3)) := by
    rw [Registry.extendMany, hparse]
  obtain ⟨number, above, shown, blank, below, before, after, hnumber, -, -, -, -, -, -, hplace, hreport⟩ :=
    check_points_at_line Registry.empty "f" _ hfail
  cases hnumber
  obtain ⟨hplain, hend⟩ := hplace.mp (by decide +kernel)
  exact ⟨hfail, hreport hplain hend⟩

/-- Text that belongs to no definition, on the second line and behind a character of two bytes. The
span of the line is right, but the place that is shown for it is one character too far. -/
theorem check_beside_line :
    ((Registry.empty : Registry Unit).extendMany "//é\nstray text\n").1 =
        .error (.parse (.expectedDefinition 2)) ∧
      errorLine? (.parse (.expectedDefinition 2)) = some 2 ∧
      Text.lineSpan "//é\nstray text\n".toList 2 = (5, 15) ∧
      Text.placeOfSpan "//é\nstray text\n".toList (5, 15) = some (2, 2) ∧
      (runCheck Registry.empty "f" "//é\nstray text\n").result =
        .error ["Error: line 2: text outside of a definition, lines must start with 'def'", "f:2:2",
          "Error: f has errors"] := by
  have hparse : Definition.parseAll "//é\nstray text\n" = .error (.expectedDefinition 2) := rfl
  have hfail : ((Registry.empty : Registry Unit).extendMany "//é\nstray text\n").1 =
      .error (.parse (.expectedDefinition 2)) := by
    rw [Registry.extendMany, hparse]
  have hspan : Text.lineSpan "//é\nstray text\n".toList 2 = (5, 15) := by decide +kernel
  have hplace : Text.placeOfSpan "//é\nstray text\n".toList (5, 15) = some (2, 2) := by
    decide +kernel
  refine ⟨hfail, rfl, hspan, hplace, ?_⟩
  simp only [runCheck, hfail, checkReport, errorLine?, ParseError.line, hspan, hplace]
  rfl

end Command
end ByteFormula
