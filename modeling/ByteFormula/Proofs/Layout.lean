import ByteFormula.Proofs.DefinitionText

/-! Sources of definitions that are joined or laid out anew. Only what a line says besides its comment
matters, and its number is only for reports. So a source behind another one gives its definitions behind
those of the other, and blank lines and comments change the numbers of lines and nothing else. -/
namespace ByteFormula

def ParseError.renumber (f : Nat → Nat) : ParseError → ParseError
  | .missingEquals line => .missingEquals (f line)
  | .unbalancedParentheses line => .unbalancedParentheses (f line)
  | .invalidHeader line arity => .invalidHeader (f line) arity
  | .expectedDefinition line => .expectedDefinition (f line)
  | .emptyExpression line => .emptyExpression (f line)
  | .malformed line => .malformed (f line)

def ParseError.renumberResult {α β : Type} (f : Nat → Nat) (g : α → β) :
    Except ParseError α → Except ParseError β
  | .error e => .error (e.renumber f)
  | .ok value => .ok (g value)

namespace Definition

open ParseError (renumberResult)

def renumber (f : Nat → Nat) (d : Definition) : Definition :=
  { d with line := f d.line }

def Progress.behind (f : Nat → Nat) (earlier : List Definition) (progress : Progress) : Progress :=
  ⟨progress.closed.map (renumber f) ++ earlier, progress.current.map (renumber f)⟩

def concluded (run : Except ParseError Progress) : Except ParseError (List Definition) :=
  match run with
  | .error e => .error e
  | .ok progress =>
    match progress.finish with
    | .error e => .error e
    | .ok closed => .ok closed.reverse

private theorem parseAll_eq_concluded (source : String) :
    parseAll source =
      concluded (((Text.lines source.toList).zipIdx 1).foldlM Progress.step ⟨[], none⟩) := rfl

section

variable {f : Nat → Nat} {earlier : List Definition}

private theorem close_renumber (d : Definition) :
    (d.renumber f).close = renumberResult f (renumber f) d.close := by
  have hbody : (d.renumber f).body = d.body := rfl
  rw [close, close, hbody]
  split
  · rfl
  split <;> rfl

private theorem open?_renumber (line : Nat) (text : List Char) :
    open? (f line) text = renumberResult f (renumber f) (open? line text) := by
  unfold open?
  split
  · rfl
  split <;> rfl

namespace Progress

private theorem finish_behind (progress : Progress) :
    (progress.behind f earlier).finish =
      renumberResult f (fun closed => closed.map (renumber f) ++ earlier) progress.finish := by
  obtain ⟨closed, current⟩ := progress
  cases current with
  | none => rfl
  | some d =>
    simp only [behind, finish, Option.map_some, close_renumber]
    cases d.close <;> rfl

/-- Earlier definitions and the number of the line make no difference to a step. -/
theorem step_behind (progress : Progress) (line : List Char) (n : Nat) :
    (progress.behind f earlier).step (line, f n) =
      renumberResult f (behind f earlier) (progress.step (line, n)) := by
  unfold step
  simp only [finish_behind, open?_renumber]
  split
  · rfl
  split
  · cases progress.finish with
    | error e => rfl
    | ok closed => cases open? n (Text.trim (Text.cutComment line)) <;> rfl
  · obtain ⟨closed, current⟩ := progress
    cases current <;> rfl

theorem step_silent (progress : Progress) {line : List Char} (h : Text.Silent line) (n : Nat) :
    progress.step (line, n) = .ok progress := by
  unfold step
  exact if_pos ((Text.content_eq_nil_iff line).mpr h)

private theorem step_congr (progress : Progress) {line line' : List Char}
    (h : Text.content line = Text.content line') (n : Nat) :
    progress.step (line, n) = progress.step (line', n) := by
  unfold Text.content at h
  simp only [step, h]

/-- The start of a definition closes what is open, so it goes on as at the start of a source. -/
theorem step_start (progress : Progress) (hfinish : progress.finish = .ok earlier) {line : List Char}
    (hstart : isStart (Text.content line) = true) (n : Nat) :
    progress.step (line, f n) = renumberResult f (behind f earlier) (step ⟨[], none⟩ (line, n)) := by
  unfold Text.content at hstart
  have hsome : Text.trim (Text.cutComment line) ≠ [] := by
    intro hnil
    rw [hnil] at hstart
    cases hstart
  have hnone : finish ⟨[], none⟩ = .ok [] := rfl
  simp only [step, if_neg hsome, if_pos hstart, hfinish, hnone, open?_renumber]
  cases open? n (Text.trim (Text.cutComment line)) <;> rfl

/-- Text that is not the start of a definition needs one that is open. -/
theorem step_stray {line : List Char} (hloud : ¬ Text.Silent line)
    (hstart : isStart (Text.content line) ≠ true) (n : Nat) :
    step ⟨[], none⟩ (line, n) = .error (.expectedDefinition n) := by
  have hsome : Text.content line ≠ [] := fun hnil => hloud ((Text.content_eq_nil_iff line).mp hnil)
  unfold Text.content at hsome hstart
  simp only [step, if_neg hsome, if_neg hstart]

/-- Two runs whose first steps agree up to the numbers of lines, and so do the runs from there. -/
theorem foldlM_cons_behind {progress progress' : Progress} {numbered numbered' : List Char × Nat}
    {rest rest' : List (List Char × Nat)}
    (hstep : progress'.step numbered' = renumberResult f (behind f earlier) (progress.step numbered))
    (hrest : ∀ next : Progress, rest'.foldlM step (next.behind f earlier) =
      renumberResult f (behind f earlier) (rest.foldlM step next)) :
    (numbered' :: rest').foldlM step progress' =
      renumberResult f (behind f earlier) ((numbered :: rest).foldlM step progress) := by
  cases hnext : progress.step numbered with
  | error e =>
    rw [hnext] at hstep
    rw [foldlM_step_error hnext, foldlM_step_error hstep]
    rfl
  | ok next =>
    rw [hnext] at hstep
    rw [foldlM_step_ok hnext, foldlM_step_ok hstep, hrest]

end Progress

private theorem concluded_behind (run : Except ParseError Progress) :
    concluded (renumberResult f (Progress.behind f earlier) run) =
      renumberResult f (fun definitions => earlier.reverse ++ definitions.map (renumber f))
        (concluded run) := by
  cases run with
  | error e => rfl
  | ok progress =>
    simp only [renumberResult, concluded, Progress.finish_behind]
    cases progress.finish with
    | error e => rfl
    | ok closed => simp

end

/-- What is done to a line that stays: a comment is put at its end, or there but in front of its carriage
return. -/
inductive Comment where
  | none
  | atEnd (text : List Char)
  | beforeReturn (text : List Char)

/-- A step through the lines of a source: a line is put in, or the next line stays. -/
inductive Edit where
  | put (line : List Char)
  | keep (comment : Comment)

namespace Comment

def text : Comment → List Char
  | .none => []
  | .atEnd text => text
  | .beforeReturn text => text

def addTo (line : List Char) : Comment → List Char
  | .none => line
  | .atEnd text => line ++ ' ' :: '/' :: '/' :: text
  | .beforeReturn text =>
    Text.dropReturn line ++ ' ' :: '/' :: '/' :: (text ++ line.drop (Text.dropReturn line).length)

private theorem content_addTo (comment : Comment) (line : List Char) :
    Text.content (comment.addTo line) = Text.content line := by
  cases comment with
  | none => rfl
  | atEnd text => exact Text.content_comment line text
  | beforeReturn text => rw [addTo, Text.content_comment, Text.content_dropReturn]

private theorem not_mem_addTo {comment : Comment} (hcomment : '\n' ∉ comment.text)
    {line : List Char} (hline : '\n' ∉ line) : '\n' ∉ comment.addTo line := by
  cases comment with
  | none => exact hline
  | atEnd text =>
    have htext : '\n' ∉ text := hcomment
    simp [addTo, hline, htext]
  | beforeReturn text =>
    have htext : '\n' ∉ text := hcomment
    have hfront : '\n' ∉ Text.dropReturn line := by
      unfold Text.dropReturn
      split
      · exact fun hmem => hline ((List.dropLast_sublist line).subset hmem)
      · exact hline
    have hback : '\n' ∉ line.drop (Text.dropReturn line).length :=
      fun hmem => hline (List.mem_of_mem_drop hmem)
    simp [addTo, hfront, htext, hback]

end Comment

namespace Edit

/-- Lines that are put in say nothing, and nothing that is put in goes over the end of its line. -/
def Harmless : Edit → Prop
  | .put line => Text.Silent line ∧ '\n' ∉ line
  | .keep comment => '\n' ∉ comment.text

def apply : List Edit → List (List Char) → List (List Char)
  | [], lines => lines
  | .put line :: edits, lines => line :: apply edits lines
  | .keep _ :: edits, [] => apply edits []
  | .keep comment :: edits, line :: lines => comment.addTo line :: apply edits lines

/-- How many lines there are in front of a line after all edits, by how many there were. -/
def place : List Edit → Nat → Nat
  | [], before => before
  | .put _ :: edits, before => place edits before + 1
  | .keep _ :: _, 0 => 0
  | .keep _ :: edits, before + 1 => place edits before + 1

def lineAfter (edits : List Edit) (line : Nat) : Nat :=
  place edits (line - 1) + 1

def relay (edits : List Edit) (source : String) : String :=
  String.ofList (Text.unlines (apply edits (Text.lines source.toList)))

private theorem apply_ne_nil (edits : List Edit) {lines : List (List Char)} (h : lines ≠ []) :
    apply edits lines ≠ [] := by
  cases edits with
  | nil => exact h
  | cons edit edits =>
    cases edit with
    | put line => exact List.cons_ne_nil _ _
    | keep comment =>
      obtain ⟨line, rest, rfl⟩ := List.exists_cons_of_ne_nil h
      exact List.cons_ne_nil _ _

private theorem not_mem_apply {edits : List Edit} (hedits : ∀ edit ∈ edits, edit.Harmless)
    {lines : List (List Char)} (hlines : ∀ line ∈ lines, '\n' ∉ line) :
    ∀ line ∈ apply edits lines, '\n' ∉ line := by
  induction edits generalizing lines with
  | nil => exact hlines
  | cons edit edits ih =>
    obtain ⟨hedit, hrest⟩ := List.forall_mem_cons.mp hedits
    cases edit with
    | put line => exact List.forall_mem_cons.mpr ⟨hedit.2, ih hrest hlines⟩
    | keep comment =>
      cases lines with
      | nil => exact ih hrest hlines
      | cons line lines =>
        obtain ⟨hline, hothers⟩ := List.forall_mem_cons.mp hlines
        exact List.forall_mem_cons.mpr ⟨Comment.not_mem_addTo hedit hline, ih hrest hothers⟩

private theorem lines_relay {edits : List Edit} (h : ∀ edit ∈ edits, edit.Harmless)
    (source : String) :
    Text.lines (relay edits source).toList = apply edits (Text.lines source.toList) := by
  rw [relay, String.toList_ofList]
  exact Text.lines_unlines (apply_ne_nil edits (Text.lines_ne_nil _))
    (not_mem_apply h (Text.not_mem_lines _))

end Edit

section

variable {f : Nat → Nat} {earlier : List Definition}

/-- The numbers of lines that were moved as a block, from the second line on. -/
theorem shifted_tail {line : List Char} {rest : List (List Char)} {first first' : Nat}
    (h : ∀ i < (line :: rest).length, f (first + i) = first' + i) :
    ∀ i < rest.length, f (first + 1 + i) = first' + 1 + i := by
  intro i hi
  rw [Nat.add_assoc, Nat.add_assoc, h (1 + i) (by rw [List.length_cons]; omega)]

/-- Lines with other numbers are taken in as before. -/
theorem foldlM_behind {lines : List (List Char)} {first first' : Nat}
    (hplace : ∀ i < lines.length, f (first + i) = first' + i) (progress : Progress) :
    (lines.zipIdx first').foldlM Progress.step (progress.behind f earlier) =
      renumberResult f (Progress.behind f earlier)
        ((lines.zipIdx first).foldlM Progress.step progress) := by
  induction lines generalizing first first' progress with
  | nil => rfl
  | cons line rest ih =>
    have hfirst : f first = first' := hplace 0 (Nat.zero_lt_succ _)
    have hstep : (progress.behind f earlier).step (line, first') =
        renumberResult f (Progress.behind f earlier) (progress.step (line, first)) := by
      rw [← hfirst, Progress.step_behind]
    exact Progress.foldlM_cons_behind hstep (ih (shifted_tail hplace))

/-- Harmless edits move lines and change nothing else. -/
theorem foldlM_apply {edits : List Edit} (hedits : ∀ edit ∈ edits, edit.Harmless)
    {lines : List (List Char)} {first first' : Nat}
    (hplace : ∀ i < lines.length, f (first + i) = first' + Edit.place edits i) (progress : Progress) :
    ((Edit.apply edits lines).zipIdx first').foldlM Progress.step (progress.behind f earlier) =
      renumberResult f (Progress.behind f earlier)
        ((lines.zipIdx first).foldlM Progress.step progress) := by
  induction edits generalizing lines first first' progress with
  | nil => exact foldlM_behind hplace progress
  | cons edit edits ih =>
    obtain ⟨hedit, hothers⟩ := List.forall_mem_cons.mp hedits
    cases edit with
    | put line =>
      have hrest : ∀ i < lines.length, f (first + i) = first' + 1 + Edit.place edits i := by
        intro i hi
        rw [hplace i hi, Edit.place]
        omega
      rw [Edit.apply, List.zipIdx_cons, Progress.foldlM_step_ok (Progress.step_silent _ hedit.1 _),
        ih hothers hrest]
    | keep comment =>
      cases lines with
      | nil =>
        refine ih hothers (fun i hi => ?_) progress
        exact absurd hi (Nat.not_lt_zero i)
      | cons line rest =>
        have hfirst : f first = first' := hplace 0 (Nat.zero_lt_succ _)
        have hrest : ∀ i < rest.length, f (first + 1 + i) = first' + 1 + Edit.place edits i := by
          intro i hi
          rw [Nat.add_right_comm, Nat.add_assoc, hplace (i + 1) (Nat.succ_lt_succ hi), Edit.place]
          omega
        have hstep : (progress.behind f earlier).step (comment.addTo line, first') =
            renumberResult f (Progress.behind f earlier) (progress.step (line, first)) := by
          rw [Progress.step_congr _ (comment.content_addTo line), ← hfirst, Progress.step_behind]
        exact Progress.foldlM_cons_behind hstep (ih hothers hrest)

end

/-- The first line that says something starts a definition, if there is such a line. -/
inductive StartsFresh : List (List Char) → Prop
  | nil : StartsFresh []
  | silent {line : List Char} {rest : List (List Char)} :
      Text.Silent line → StartsFresh rest → StartsFresh (line :: rest)
  | start {line : List Char} (rest : List (List Char)) :
      isStart (Text.content line) = true → StartsFresh (line :: rest)

/-- A source that is accepted starts with a definition. -/
theorem startsFresh_of_run {lines : List (List Char)} {first : Nat} {last : Progress}
    (h : (lines.zipIdx first).foldlM Progress.step ⟨[], none⟩ = .ok last) : StartsFresh lines := by
  induction lines generalizing first with
  | nil => exact .nil
  | cons line rest ih =>
    rw [List.zipIdx_cons] at h
    by_cases hsilent : Text.Silent line
    · rw [Progress.foldlM_step_ok (Progress.step_silent _ hsilent _)] at h
      exact .silent hsilent (ih h)
    by_cases hstart : isStart (Text.content line) = true
    · exact .start rest hstart
    · rw [Progress.foldlM_step_error (Progress.step_stray hsilent hstart first)] at h
      cases h

private theorem startsFresh_of_parseAll {source : String} {definitions : List Definition}
    (h : parseAll source = .ok definitions) : StartsFresh (Text.lines source.toList) := by
  rw [parseAll_eq_concluded] at h
  cases hrun : ((Text.lines source.toList).zipIdx 1).foldlM Progress.step ⟨[], none⟩ with
  | error e =>
    rw [hrun] at h
    cases h
  | ok last => exact startsFresh_of_run hrun

section

variable {f : Nat → Nat} {earlier : List Definition}

/-- Lines that start with a definition give the same behind others that could end there. -/
theorem concluded_after {progress : Progress} (hfinish : progress.finish = .ok earlier)
    {lines : List (List Char)} {first first' : Nat}
    (hplace : ∀ i < lines.length, f (first + i) = first' + i) (hfresh : StartsFresh lines) :
    concluded ((lines.zipIdx first').foldlM Progress.step progress) =
      renumberResult f (fun definitions => earlier.reverse ++ definitions.map (renumber f))
        (concluded ((lines.zipIdx first).foldlM Progress.step ⟨[], none⟩)) := by
  induction hfresh generalizing first first' with
  | nil =>
    have hleft : concluded (.ok progress) = .ok earlier.reverse := by simp only [concluded, hfinish]
    exact hleft.trans (congrArg Except.ok (List.append_nil _).symm)
  | @silent line rest hsilent _ ih =>
    rw [List.zipIdx_cons, List.zipIdx_cons,
      Progress.foldlM_step_ok (Progress.step_silent _ hsilent _),
      Progress.foldlM_step_ok (Progress.step_silent _ hsilent _), ih (shifted_tail hplace)]
  | @start line rest hstart =>
    have hstep : progress.step (line, first') =
        renumberResult f (Progress.behind f earlier) (Progress.step ⟨[], none⟩ (line, first)) := by
      have hfirst : f first = first' := hplace 0 (Nat.zero_lt_succ _)
      rw [← hfirst, progress.step_start hfinish hstart]
    have hrun := Progress.foldlM_cons_behind hstep (foldlM_behind (shifted_tail hplace))
    exact (congrArg concluded hrun).trans (concluded_behind _)

end

/-- A source behind another one that is accepted. -/
theorem parseAll_append {front back : String} {definitions : List Definition}
    (hfront : parseAll front = .ok definitions) (hfresh : StartsFresh (Text.lines back.toList)) :
    parseAll (front ++ "\n" ++ back) =
      renumberResult (· + (1 + front.toList.count '\n'))
        (fun more => definitions ++ more.map (renumber (· + (1 + front.toList.count '\n'))))
        (parseAll back) := by
  have hlines : Text.lines (front ++ "\n" ++ back).toList =
      Text.lines front.toList ++ Text.lines back.toList := by
    rw [← Text.lines_append]
    simp [String.toList_append]
  rw [parseAll_eq_concluded] at hfront
  cases hrun : ((Text.lines front.toList).zipIdx 1).foldlM Progress.step ⟨[], none⟩ with
  | error e =>
    rw [hrun] at hfront
    cases hfront
  | ok last =>
    rw [hrun] at hfront
    cases hfinish : last.finish with
    | error e => simp [concluded, hfinish] at hfront
    | ok closed =>
      have hclosed : closed.reverse = definitions := by
        simpa [concluded, hfinish] using hfront
      rw [parseAll_eq_concluded, parseAll_eq_concluded, hlines, List.zipIdx_append,
        List.foldlM_append, hrun, ← hclosed]
      refine concluded_after hfinish (fun i _ => ?_) hfresh
      rw [Text.length_lines]
      omega

private theorem Edit.parseAll_relay {edits : List Edit} (h : ∀ edit ∈ edits, edit.Harmless)
    (source : String) :
    parseAll (Edit.relay edits source) =
      renumberResult (Edit.lineAfter edits) (List.map (renumber (Edit.lineAfter edits)))
        (parseAll source) := by
  have hplace : ∀ i < (Text.lines source.toList).length,
      Edit.lineAfter edits (1 + i) = 1 + Edit.place edits i := by
    intro i _
    rw [Edit.lineAfter, Nat.add_sub_cancel_left, Nat.add_comm]
  calc parseAll (Edit.relay edits source)
    _ = concluded (((Edit.apply edits (Text.lines source.toList)).zipIdx 1).foldlM Progress.step
          (Progress.behind (Edit.lineAfter edits) [] ⟨[], none⟩)) := by
      rw [parseAll_eq_concluded, Edit.lines_relay h]
      rfl
    _ = renumberResult (Edit.lineAfter edits) (List.map (renumber (Edit.lineAfter edits)))
          (parseAll source) := by
      rw [foldlM_apply h hplace, concluded_behind, parseAll_eq_concluded]
      rfl

/-- Two sources that are accepted give their definitions one after the other, with the lines of the
second below those of the first. If only the first is accepted and the second starts with a definition,
the error is that of the second, below the lines of the first. Lines with nothing but white space and
comments that are put in, and comments behind lines, change the numbers of lines and nothing else. -/
theorem parseAll_joined_or_relaid :
    (∀ (front back : String) (definitions more : List Definition),
      parseAll front = .ok definitions → parseAll back = .ok more →
        parseAll (front ++ "\n" ++ back) =
          .ok (definitions ++ more.map (renumber (· + (1 + front.toList.count '\n'))))) ∧
    (∀ (front back : String) (definitions : List Definition) (e : ParseError),
      parseAll front = .ok definitions → parseAll back = .error e →
        StartsFresh (Text.lines back.toList) →
          parseAll (front ++ "\n" ++ back) =
            .error (e.renumber (· + (1 + front.toList.count '\n')))) ∧
    ∀ (source : String) (edits : List Edit), (∀ edit ∈ edits, edit.Harmless) →
      parseAll (Edit.relay edits source) =
        match parseAll source with
        | .error e => .error (e.renumber (Edit.lineAfter edits))
        | .ok definitions => .ok (definitions.map (renumber (Edit.lineAfter edits))) := by
  refine ⟨?_, ?_, ?_⟩
  · intro front back definitions more hfront hback
    rw [parseAll_append hfront (startsFresh_of_parseAll hback), hback]
    rfl
  · intro front back definitions e hfront hback hfresh
    rw [parseAll_append hfront hfresh, hback]
    rfl
  · intro source edits hedits
    rw [Edit.parseAll_relay hedits]
    cases parseAll source <;> rfl

/-- A constant and the two lines of a function behind it, and then with more lines and comments. -/
theorem parseAll_joined_or_relaid_twice :
    parseAll "def one(0) = 1" = .ok [⟨"one", .fixed 0, "1", 1⟩] ∧
    parseAll "def both(1) = concat($0,\r\none)" = .ok [⟨"both", .fixed 1, "concat($0,one)", 1⟩] ∧
    parseAll "def one(0) = 1\ndef both(1) = concat($0,\r\none)" =
      .ok [⟨"one", .fixed 0, "1", 1⟩, ⟨"both", .fixed 1, "concat($0,one)", 2⟩] ∧
    parseAll "\n// Both\ndef both(1" = .error (.missingEquals 3) ∧
    parseAll "def one(0) = 1\n\n// Both\ndef both(1" = .error (.missingEquals 4) ∧
    Edit.relay [.put "// One".toList, .keep (.atEnd "def".toList), .put "\t".toList,
        .keep (.beforeReturn "=".toList), .put [], .keep .none]
        "def one(0) = 1\ndef both(1) = concat($0,\r\none)" =
      "// One\ndef one(0) = 1 //def\n\t\ndef both(1) = concat($0, //=\r\n\none)" ∧
    parseAll "// One\ndef one(0) = 1 //def\n\t\ndef both(1) = concat($0, //=\r\n\none)" =
      .ok [⟨"one", .fixed 0, "1", 2⟩, ⟨"both", .fixed 1, "concat($0,one)", 4⟩] := by
  have hone : parseAll "def one(0) = 1" = .ok [⟨"one", .fixed 0, "1", 1⟩] := rfl
  have hboth : parseAll "def both(1) = concat($0,\r\none)" =
      .ok [⟨"both", .fixed 1, "concat($0,one)", 1⟩] := rfl
  have hopen : parseAll "\n// Both\ndef both(1" = .error (.missingEquals 3) := rfl
  have hfresh : StartsFresh (Text.lines "\n// Both\ndef both(1".toList) :=
    .silent .nil (.silent (.comment _) (.start [] rfl))
  obtain ⟨hjoin, hfail, hrelay⟩ := parseAll_joined_or_relaid
  have hedits : ∀ edit ∈ ([.put "// One".toList, .keep (.atEnd "def".toList), .put "\t".toList,
      .keep (.beforeReturn "=".toList), .put [], .keep .none] : List Edit), edit.Harmless := by
    simp only [List.forall_mem_cons, Edit.Harmless]
    exact ⟨⟨.comment _, by decide⟩, by decide, ⟨.blank (by decide) .nil, by decide⟩, by decide,
      ⟨.nil, by decide⟩, by decide, List.forall_mem_nil _⟩
  exact ⟨hone, hboth, hjoin _ _ _ _ hone hboth, hopen, hfail _ _ _ _ hone hopen hfresh, rfl,
    hrelay "def one(0) = 1\ndef both(1) = concat($0,\r\none)" _ hedits⟩

end Definition
end ByteFormula
