import ByteFormula.Proofs.Layout
import ByteFormula.Proofs.Registration

/-! The lines that errors are reported at. While the lines of a source are taken in, the definition that
is open is the one whose header was the last to be seen, so whatever turns out to be wrong with it is
reported at that header. Text that belongs to no definition is reported at its own line. -/
namespace ByteFormula

namespace Definition

def gather (d : Definition) : List (List Char) → Definition
  | [] => d
  | line :: rest =>
    if isStart (Text.content line) then d
    else gather { d with body := d.body ++ String.ofList (Text.strip (Text.content line)) } rest

/-- The definition with its header on a line and its other lines below. -/
structure Headed (number : Nat) (line : List Char) (below : List (List Char)) (d : Definition) :
    Prop where
  start : isStart (Text.content line) = true
  gathered : ∃ opened, open? number (Text.content line) = .ok opened ∧ d = opened.gather below

private theorem gather_append (d : Definition) {middle : List (List Char)}
    (h : ∀ line ∈ middle, isStart (Text.content line) = false) (rest : List (List Char)) :
    d.gather (middle ++ rest) = (d.gather middle).gather rest := by
  induction middle generalizing d with
  | nil => rfl
  | cons line middle ih =>
    obtain ⟨hline, hmiddle⟩ := List.forall_mem_cons.mp h
    simp only [List.cons_append, gather, hline, Bool.false_eq_true, if_false]
    exact ih _ hmiddle

/-- Another header ends a definition, whatever comes after it. -/
theorem gather_append_start (d : Definition) (middle : List (List Char)) {line : List Char}
    (h : isStart (Text.content line) = true) (rest : List (List Char)) :
    d.gather (middle ++ line :: rest) = d.gather middle := by
  induction middle generalizing d with
  | nil => exact if_pos h
  | cons other middle ih =>
    rw [List.cons_append, gather, gather, ih]

private theorem gather_silent (d : Definition) {line : List Char} (h : Text.Silent line)
    (rest : List (List Char)) : d.gather (line :: rest) = d.gather rest := by
  have hcontent := (Text.content_eq_nil_iff line).mpr h
  have hstart : isStart ([] : List Char) = false := rfl
  simp [gather, hcontent, hstart, Text.strip]

private theorem line_gather (d : Definition) (lines : List (List Char)) :
    (d.gather lines).line = d.line := by
  induction lines generalizing d with
  | nil => rfl
  | cons line rest ih =>
    unfold gather
    split
    · rfl
    · exact ih _

private theorem open?_line {number : Nat} {text : List Char} {d : Definition}
    (h : open? number text = .ok d) : d.line = number := by
  unfold open? at h
  split at h
  · cases h
  split at h
  · cases h
  · cases h
    rfl

theorem Headed.line_eq {number : Nat} {line : List Char} {below : List (List Char)} {d : Definition}
    (h : Headed number line below d) : d.line = number := by
  obtain ⟨opened, hopened, rfl⟩ := h.gathered
  rw [line_gather, open?_line hopened]

theorem Headed.append {number : Nat} {line next : List Char} {middle : List (List Char)}
    {d : Definition} (h : Headed number line middle d) (hnext : isStart (Text.content next) = true)
    (rest : List (List Char)) : Headed number line (middle ++ next :: rest) d := by
  obtain ⟨opened, hopened, rfl⟩ := h.gathered
  exact ⟨h.start, opened, hopened, (gather_append_start opened middle hnext rest).symm⟩

def readLines (lines : List (List Char)) : Except ParseError (List Definition) :=
  concluded ((lines.zipIdx 1).foldlM Progress.step ⟨[], none⟩)

/-- How the lines that were taken in account for what is in progress: either they say nothing, or the
last header among them opened the current definition, after all above it was closed. -/
inductive History (taken : List (List Char)) : Progress → Prop where
  | silent (h : ∀ line ∈ taken, Text.Silent line) : History taken ⟨[], none⟩
  | opened {above middle : List (List Char)} {line : List Char} {d : Definition}
      {closed : List Definition} (htaken : taken = above ++ line :: middle)
      (habove : readLines above = .ok closed.reverse)
      (hheaded : Headed (above.length + 1) line middle d)
      (hmiddle : ∀ other ∈ middle, isStart (Text.content other) = false) :
      History taken ⟨closed, some d⟩

/-- The progress that lines lead to, and how they do. -/
structure Took (taken : List (List Char)) (progress : Progress) : Prop where
  run : (taken.zipIdx 1).foldlM Progress.step ⟨[], none⟩ = .ok progress
  history : History taken progress

/-- What is wrong with a line: it belongs to no definition, it is no proper header, or it is the header of
a definition that cannot be closed. Up to the line, all is well. -/
inductive Misread (above : List (List Char)) (line : List Char) (below : List (List Char)) :
    ParseError → Prop where
  | stray (habove : ∀ other ∈ above, Text.Silent other) (hloud : ¬ Text.Silent line)
      (hstart : isStart (Text.content line) = false) :
      Misread above line below (.expectedDefinition (above.length + 1))
  | header {earlier : List Definition} {e : ParseError} (habove : readLines above = .ok earlier)
      (hstart : isStart (Text.content line) = true)
      (hopen : open? (above.length + 1) (Text.content line) = .error e) :
      Misread above line below e
  | body {earlier : List Definition} {d : Definition} {e : ParseError}
      (habove : readLines above = .ok earlier) (hheaded : Headed (above.length + 1) line below d)
      (hclose : d.close = .error e) : Misread above line below e

def MisreadIn (lines : List (List Char)) (e : ParseError) : Prop :=
  ∃ above line below, lines = above ++ line :: below ∧ Misread above line below e

private theorem Progress.foldlM_concat (taken : List (List Char)) (line : List Char)
    {progress : Progress} (h : (taken.zipIdx 1).foldlM Progress.step ⟨[], none⟩ = .ok progress) :
    ((taken ++ [line]).zipIdx 1).foldlM Progress.step ⟨[], none⟩ =
      progress.step (line, taken.length + 1) := by
  rw [List.zipIdx_append, List.foldlM_append, h, Nat.add_comm]
  change ((line, taken.length + 1) :: []).foldlM Progress.step progress = _
  cases hstep : progress.step (line, taken.length + 1) with
  | error e => rw [foldlM_step_error hstep]
  | ok next => rw [foldlM_step_ok hstep]; rfl

theorem not_silent_of_start {line : List Char} (h : isStart (Text.content line) = true) :
    ¬ Text.Silent line := by
  intro hsilent
  rw [(Text.content_eq_nil_iff line).mpr hsilent] at h
  cases h

namespace Progress

variable {progress : Progress} {line : List Char}

/-- A header closes the current definition and opens its own. -/
theorem step_header (hstart : isStart (Text.content line) = true) {closed : List Definition}
    (hfinish : progress.finish = .ok closed) (number : Nat) :
    progress.step (line, number) =
      match open? number (Text.content line) with
      | .error e => .error e
      | .ok d => .ok ⟨closed, some d⟩ := by
  have hsome : Text.content line ≠ [] :=
    fun hnil => not_silent_of_start hstart ((Text.content_eq_nil_iff line).mp hnil)
  unfold Text.content at hsome hstart ⊢
  cases hopen : open? number (Text.trim (Text.cutComment line)) <;>
    simp only [step, if_neg hsome, if_pos hstart, hfinish, hopen]

private theorem step_header_refused (hstart : isStart (Text.content line) = true) {e : ParseError}
    (hfinish : progress.finish = .error e) (number : Nat) :
    progress.step (line, number) = .error e := by
  have hsome : Text.content line ≠ [] :=
    fun hnil => not_silent_of_start hstart ((Text.content_eq_nil_iff line).mp hnil)
  unfold Text.content at hsome hstart
  simp only [step, if_neg hsome, if_pos hstart, hfinish]

/-- A line that says something and is no header continues the current definition. -/
theorem step_more (hloud : ¬ Text.Silent line) (hstart : isStart (Text.content line) = false)
    {closed : List Definition} (d : Definition) (number : Nat) :
    step ⟨closed, some d⟩ (line, number) = .ok ⟨closed, some (d.gather [line])⟩ := by
  have hsome : Text.content line ≠ [] := fun hnil => hloud ((Text.content_eq_nil_iff line).mp hnil)
  simp only [gather, hstart, Bool.false_eq_true, if_false]
  unfold Text.content at hsome hstart ⊢
  simp only [step, if_neg hsome, hstart, Bool.false_eq_true, if_false]

private theorem finish_error {e : ParseError} (h : progress.finish = .error e) :
    ∃ d, progress.current = some d ∧ d.close = .error e := by
  unfold finish at h
  split at h
  · cases h
  · rename_i d hcurrent
    split at h
    · rename_i hclose
      cases h
      exact ⟨d, hcurrent, hclose⟩
    · cases h

end Progress

private theorem readLines_of_run {lines : List (List Char)} {progress : Progress}
    {closed : List Definition}
    (hrun : (lines.zipIdx 1).foldlM Progress.step ⟨[], none⟩ = .ok progress)
    (hfinish : progress.finish = .ok closed) : readLines lines = .ok closed.reverse := by
  simp only [readLines, hrun, concluded, hfinish]

section

variable {taken : List (List Char)} {progress next : Progress} {line : List Char}

private theorem History.silent_concat (h : History taken progress) (hsilent : Text.Silent line) :
    History (taken ++ [line]) progress := by
  cases h with
  | silent htaken => exact .silent (List.forall_mem_append.mpr ⟨htaken, by simpa using hsilent⟩)
  | @opened above middle header d closed htaken habove hheaded hmiddle =>
    obtain ⟨opened, hopened, rfl⟩ := hheaded.gathered
    have hquiet : isStart (Text.content line) = false := by
      rw [(Text.content_eq_nil_iff line).mpr hsilent]
      rfl
    have hlonger : taken ++ [line] = above ++ header :: (middle ++ [line]) := by
      rw [htaken, List.append_assoc, List.cons_append]
    refine .opened hlonger habove ⟨hheaded.start, opened, hopened, ?_⟩
      (List.forall_mem_append.mpr ⟨hmiddle, by simpa using hquiet⟩)
    rw [gather_append opened hmiddle, gather_silent _ hsilent]
    rfl

/-- One more line is accounted for. -/
theorem Took.step (h : Took taken progress)
    (hstep : progress.step (line, taken.length + 1) = .ok next) : Took (taken ++ [line]) next := by
  refine ⟨by rw [Progress.foldlM_concat taken line h.run, hstep], ?_⟩
  by_cases hsilent : Text.Silent line
  · rw [Progress.step_silent _ hsilent] at hstep
    cases hstep
    exact h.history.silent_concat hsilent
  cases hstart : isStart (Text.content line) with
  | true =>
    cases hfinish : progress.finish with
    | error e =>
      rw [Progress.step_header_refused hstart hfinish] at hstep
      cases hstep
    | ok closed =>
      rw [Progress.step_header hstart hfinish] at hstep
      split at hstep
      · cases hstep
      · rename_i d hopened
        cases hstep
        exact .opened rfl (readLines_of_run h.run hfinish) ⟨hstart, d, hopened, rfl⟩ nofun
  | false =>
    cases h.history with
    | silent htaken =>
      rw [Progress.step_stray hsilent (by simp [hstart])] at hstep
      cases hstep
    | @opened above middle header d closed htaken habove hheaded hmiddle =>
      rw [Progress.step_more hsilent hstart] at hstep
      cases hstep
      obtain ⟨opened, hopened, rfl⟩ := hheaded.gathered
      have hlonger : taken ++ [line] = above ++ header :: (middle ++ [line]) := by
        rw [htaken, List.append_assoc, List.cons_append]
      refine .opened hlonger habove ⟨hheaded.start, opened, hopened, ?_⟩
        (List.forall_mem_append.mpr ⟨hmiddle, by simpa using hstart⟩)
      rw [gather_append opened hmiddle]

/-- A definition that cannot be closed is reported at its header, no matter whether it ends at the next
header or at the end of the source. -/
theorem Took.finish_misread (h : Took taken progress) {e : ParseError}
    (hfinish : progress.finish = .error e) {rest : List (List Char)}
    (hrest : ∀ other ∈ rest.head?, isStart (Text.content other) = true) :
    MisreadIn (taken ++ rest) e := by
  obtain ⟨d, hcurrent, hclose⟩ := Progress.finish_error hfinish
  cases h.history with
  | silent htaken => cases hcurrent
  | @opened above middle header current closed htaken habove hheaded hmiddle =>
    cases hcurrent
    refine ⟨above, header, middle ++ rest, by rw [htaken, List.append_assoc]; rfl, ?_⟩
    cases rest with
    | nil => exact .body habove (by rwa [List.append_nil]) hclose
    | cons other rest => exact .body habove (hheaded.append (hrest other rfl) rest) hclose

/-- A line that cannot be taken in is misread, or it is the next header below one that is. -/
theorem Took.step_misread (h : Took taken progress) {e : ParseError}
    (hstep : progress.step (line, taken.length + 1) = .error e) (rest : List (List Char)) :
    MisreadIn (taken ++ line :: rest) e := by
  by_cases hsilent : Text.Silent line
  · rw [Progress.step_silent _ hsilent] at hstep
    cases hstep
  cases hstart : isStart (Text.content line) with
  | true =>
    cases hfinish : progress.finish with
    | error cause =>
      rw [Progress.step_header_refused hstart hfinish] at hstep
      cases hstep
      exact h.finish_misread hfinish (by rintro other ⟨⟩; exact hstart)
    | ok closed =>
      rw [Progress.step_header hstart hfinish] at hstep
      split at hstep
      · rename_i hopened
        cases hstep
        exact ⟨taken, line, rest, rfl, .header (readLines_of_run h.run hfinish) hstart hopened⟩
      · cases hstep
  | false =>
    cases h.history with
    | silent htaken =>
      rw [Progress.step_stray hsilent (by simp [hstart])] at hstep
      cases hstep
      exact ⟨taken, line, rest, rfl, .stray htaken hsilent hstart⟩
    | @opened above middle header d closed htaken habove hheaded hmiddle =>
      rw [Progress.step_more hsilent hstart] at hstep
      cases hstep

/-- All lines are accounted for, or one of them is misread. -/
theorem Took.run_cases (h : Took taken progress) (lines : List (List Char)) :
    (∀ last, (lines.zipIdx (taken.length + 1)).foldlM Progress.step progress = .ok last →
      Took (taken ++ lines) last) ∧
    ∀ e, (lines.zipIdx (taken.length + 1)).foldlM Progress.step progress = .error e →
      MisreadIn (taken ++ lines) e := by
  induction lines generalizing taken progress with
  | nil =>
    refine ⟨fun last hlast => ?_, fun e habsurd => by cases habsurd⟩
    cases hlast
    rwa [List.append_nil]
  | cons line rest ih =>
    rw [List.zipIdx_cons]
    cases hstep : progress.step (line, taken.length + 1) with
    | error cause =>
      rw [Progress.foldlM_step_error hstep]
      refine ⟨fun last habsurd => (by cases habsurd), fun e he => ?_⟩
      cases he
      exact h.step_misread hstep rest
    | ok next =>
      rw [Progress.foldlM_step_ok hstep]
      have hrest := ih (h.step hstep)
      rwa [List.length_append, List.length_singleton, List.append_assoc,
        List.singleton_append] at hrest

end

private theorem took_of_run {lines : List (List Char)} {last : Progress}
    (h : (lines.zipIdx 1).foldlM Progress.step ⟨[], none⟩ = .ok last) : Took lines last := by
  have hnone : Took [] ⟨[], none⟩ := ⟨rfl, .silent nofun⟩
  exact (hnone.run_cases lines).1 last h

/-- A source that cannot be read has a line that is misread. -/
theorem misread_of_readLines {lines : List (List Char)} {e : ParseError}
    (h : readLines lines = .error e) : MisreadIn lines e := by
  have hnone : Took [] ⟨[], none⟩ := ⟨rfl, .silent nofun⟩
  unfold readLines concluded at h
  split at h
  · rename_i cause hrun
    cases h
    exact (hnone.run_cases lines).2 _ hrun
  · rename_i last hrun
    split at h
    · rename_i cause hfinish
      cases h
      have hend : ∀ other ∈ ([] : List (List Char)).head?, isStart (Text.content other) = true := nofun
      have hmisread := (took_of_run hrun).finish_misread hfinish hend
      rwa [List.append_nil] at hmisread
    · cases h

private theorem Progress.finish_some {closed after : List Definition} {d : Definition}
    (h : Progress.finish ⟨closed, some d⟩ = .ok after) : after = d :: closed := by
  simp only [finish] at h
  split at h
  · cases h
  · rename_i hclose
    cases h
    rw [eq_of_close hclose]

private theorem readLines_ok {lines : List (List Char)} {definitions : List Definition}
    (h : readLines lines = .ok definitions) :
    ∃ last closed, Took lines last ∧ last.finish = .ok closed ∧ definitions = closed.reverse := by
  unfold readLines concluded at h
  split at h
  · cases h
  rename_i last hrun
  split at h
  · cases h
  rename_i closed hfinish
  cases h
  exact ⟨last, closed, took_of_run hrun, hfinish, rfl⟩

/-- Every definition of a source that can be read has its header on its line, and the definitions before
it are those of the lines above. -/
theorem headed_of_readLines {lines : List (List Char)} {earlier later : List Definition}
    {d : Definition} (h : readLines lines = .ok (earlier ++ d :: later)) :
    ∃ above line below, lines = above ++ line :: below ∧ readLines above = .ok earlier ∧
      Headed (above.length + 1) line below d := by
  obtain ⟨last, closed, htook, hfinish, hall⟩ := readLines_ok h
  cases htook.history with
  | silent htaken =>
    cases hfinish
    exact absurd hall (by simp)
  | @opened above middle line current before htaken habove hheaded hmiddle =>
    obtain rfl := Progress.finish_some hfinish
    rw [List.reverse_cons] at hall
    rcases List.eq_nil_or_concat later with hlater | ⟨front, final, hlater⟩
    · rw [hlater, List.append_singleton_inj] at hall
      obtain ⟨rfl, rfl⟩ := hall
      exact ⟨above, line, middle, htaken, habove, hheaded⟩
    · -- The definition is among those above the last header.
      rw [hlater, List.concat_eq_append, ← List.cons_append, ← List.append_assoc,
        List.append_singleton_inj] at hall
      rw [← hall.1] at habove
      obtain ⟨top, header, rest, rfl, htop, hfound⟩ := headed_of_readLines habove
      refine ⟨top, header, rest ++ line :: middle, ?_, htop, hfound.append hheaded.start middle⟩
      rw [htaken, List.append_assoc, List.cons_append]
termination_by later.length
decreasing_by simp [hlater]

end Definition

namespace Registry

variable {σ : Type} {registry : Registry σ}

/-- What is wrong at a line of a source, so that its definitions are not all registered: the line is
misread, or all lines are read and it is the header of the first definition that is refused. -/
inductive Refuses (registry : Registry σ) (above : List (List Char)) (line : List Char)
    (below : List (List Char)) : Error → Prop where
  | misread {e : ParseError} (h : Definition.Misread above line below e) :
      Refuses registry above line below (.parse e)
  | refused {earlier later : List Definition} {d : Definition} {between : Registry σ}
      {indices : List Nat} {e : Error}
      (hall : Definition.readLines (above ++ line :: below) = .ok (earlier ++ d :: later))
      (habove : Definition.readLines above = .ok earlier)
      (hheaded : Definition.Headed (above.length + 1) line below d)
      (hearlier : registry.extendAll earlier = (.ok indices, between))
      (hone : between.extendOne d = (.error e, between)) : Refuses registry above line below e

/-- Registering stops at the first definition that is refused, and leaves what was there before it. -/
theorem extendAll_error {definitions : List Definition} {e : Error} {after : Registry σ}
    (h : registry.extendAll definitions = (.error e, after)) :
    ∃ earlier d later indices, definitions = earlier ++ d :: later ∧
      registry.extendAll earlier = (.ok indices, after) ∧ after.extendOne d = (.error e, after) := by
  induction definitions generalizing registry with
  | nil => cases h
  | cons d rest ih =>
    unfold extendAll at h
    split at h
    · rename_i cause left hone
      cases h
      cases extendOne_refused hone
      exact ⟨[], d, rest, [], rfl, rfl, hone⟩
    · rename_i index next hone
      split at h
      · rename_i cause last hrest
        cases h
        obtain ⟨earlier, refused, later, indices, rfl, hearlier, hrefused⟩ := ih hrest
        refine ⟨d :: earlier, refused, later, index :: indices, rfl, ?_, hrefused⟩
        simp only [extendAll, hone, hearlier]
      · cases h

/-- A source whose definitions are not all registered has a line at which that is to be seen. -/
theorem refuses_of_extendMany {source : String} {e : Error}
    (h : (registry.extendMany source).1 = .error e) :
    ∃ above line below, Text.lines source.toList = above ++ line :: below ∧
      registry.Refuses above line below e := by
  unfold extendMany at h
  split at h
  · rename_i cause hparse
    cases h
    obtain ⟨above, line, below, hlines, hmisread⟩ := Definition.misread_of_readLines hparse
    exact ⟨above, line, below, hlines, .misread hmisread⟩
  · rename_i definitions hparse
    rcases hall : registry.extendAll definitions with ⟨result, after⟩
    rw [hall] at h
    cases h
    obtain ⟨earlier, d, later, indices, rfl, hearlier, hone⟩ := extendAll_error hall
    obtain ⟨above, line, below, hlines, habove, hheaded⟩ := Definition.headed_of_readLines hparse
    have hread : Definition.readLines (above ++ line :: below) = .ok (earlier ++ d :: later) := by
      rw [← hlines]
      exact hparse
    exact ⟨above, line, below, hlines, .refused hread habove hheaded hearlier hone⟩

end Registry
end ByteFormula
