import ByteFormula.Text.Line

/-! Lines of a text, and what a line says besides its comment and the white space around it. -/
namespace ByteFormula
namespace Text

theorem lines_cons (c : Char) (text : List Char) : lines (c :: text) = consLine c (lines text) := rfl

theorem lines_ne_nil (text : List Char) : lines text ≠ [] := by
  cases text with
  | nil => exact List.cons_ne_nil _ _
  | cons c rest =>
    rw [lines_cons]
    unfold consLine
    split
    · exact List.cons_ne_nil _ _
    · split <;> exact List.cons_ne_nil _ _

/-- A line feed separates the lines before it from those after it. -/
theorem lines_append (front back : List Char) :
    lines (front ++ '\n' :: back) = lines front ++ lines back := by
  induction front with
  | nil => rfl
  | cons c rest ih =>
    obtain ⟨line, others, hlines⟩ := List.exists_cons_of_ne_nil (lines_ne_nil rest)
    rw [List.cons_append, lines_cons, lines_cons, ih, hlines]
    unfold consLine
    split <;> rfl

theorem lines_line {line : List Char} (h : '\n' ∉ line) : lines line = [line] := by
  induction line with
  | nil => rfl
  | cons c cs ih =>
    obtain ⟨hc, hcs⟩ := not_or.mp fun hor => h (List.mem_cons.mpr hor)
    rw [lines_cons, ih hcs]
    exact if_neg (Ne.symm hc)

def unlines : List (List Char) → List Char
  | [] => []
  | [line] => line
  | line :: rest => line ++ '\n' :: unlines rest

theorem lines_unlines {lines : List (List Char)} (hsome : lines ≠ [])
    (h : ∀ line ∈ lines, '\n' ∉ line) : Text.lines (unlines lines) = lines := by
  induction lines with
  | nil => exact absurd rfl hsome
  | cons line rest ih =>
    obtain ⟨hline, hrest⟩ := List.forall_mem_cons.mp h
    cases rest with
    | nil => exact lines_line hline
    | cons next others =>
      rw [unlines, lines_append, lines_line hline, ih (List.cons_ne_nil _ _) hrest,
        List.singleton_append]
      exact fun heq => List.cons_ne_nil _ _ heq

theorem not_mem_lines (text : List Char) : ∀ line ∈ lines text, '\n' ∉ line := by
  induction text with
  | nil => simp [lines]
  | cons c rest ih =>
    rw [lines_cons]
    unfold consLine
    split
    · exact List.forall_mem_cons.mpr ⟨by simp, ih⟩
    · rename_i hc
      split
      · simpa using Ne.symm hc
      · rename_i first others heq
        rw [heq] at ih
        obtain ⟨hfirst, hothers⟩ := List.forall_mem_cons.mp ih
        refine List.forall_mem_cons.mpr ⟨?_, hothers⟩
        simpa [hfirst] using Ne.symm hc

theorem length_lines (text : List Char) : (lines text).length = text.count '\n' + 1 := by
  induction text with
  | nil => rfl
  | cons c rest ih =>
    obtain ⟨line, others, hlines⟩ := List.exists_cons_of_ne_nil (lines_ne_nil rest)
    rw [hlines] at ih
    rw [lines_cons, hlines]
    unfold consLine
    split
    · rename_i hc
      rw [hc, List.length_cons, ih, List.count_cons_self]
    · rename_i hc
      rw [List.count_cons_of_ne hc]
      exact ih

theorem trimLeft_eq_self {text : List Char} (h : ∀ c ∈ text.head?, isBlank c = false) :
    trimLeft text = text := by
  cases text with
  | nil => rfl
  | cons c cs => exact List.dropWhile_cons_of_neg (by simp [h c rfl])

theorem trimRight_eq_self {text : List Char} (h : ∀ c ∈ text.getLast?, isBlank c = false) :
    trimRight text = text := by
  rw [← List.head?_reverse] at h
  have hself : text.reverse.dropWhile isBlank = text.reverse := trimLeft_eq_self h
  rw [trimRight, hself, List.reverse_reverse]

theorem trimRight_concat_blank (text : List Char) {c : Char} (h : isBlank c = true) :
    trimRight (text ++ [c]) = trimRight text := by
  simp [trimRight, h]

private theorem trim_concat_blank (text : List Char) {c : Char} (h : isBlank c = true) :
    trim (text ++ [c]) = trim text := by
  unfold trim trimLeft
  rw [List.dropWhile_append]
  split
  · rename_i hempty
    rw [List.isEmpty_iff.mp hempty]
    simp [h]
  · exact trimRight_concat_blank _ h

private theorem trim_cons_blank {c : Char} (h : isBlank c = true) (text : List Char) :
    trim (c :: text) = trim text := by
  rw [trim, trimLeft, List.dropWhile_cons_of_pos h, trim, trimLeft]

private theorem trim_ne_nil {c : Char} (h : isBlank c ≠ true) (text : List Char) :
    trim (c :: text) ≠ [] := by
  rw [trim, trimLeft, List.dropWhile_cons_of_neg h, trimRight, List.reverse_cons,
    List.dropWhile_append]
  split
  · simp [h]
  · simp

private theorem commentStart_succ (column : Nat) (line : List Char) :
    commentStart (column + 1) line = commentStart column line + 1 := by
  fun_induction commentStart column line with
  | case1 column => rfl
  | case2 column rest => rfl
  | case3 column c rest hslashes ih =>
    rw [commentStart]
    · exact ih
    · exact hslashes

private theorem cutComment_slashes (rest : List Char) : cutComment ('/' :: '/' :: rest) = [] := rfl

private theorem cutComment_cons {c : Char} {rest : List Char}
    (h : ¬ (c = '/' ∧ rest.head? = some '/')) : cutComment (c :: rest) = c :: cutComment rest := by
  have hstart : commentStart 0 (c :: rest) = commentStart 0 rest + 1 := by
    rw [commentStart, commentStart_succ]
    rintro others rfl rfl
    exact h ⟨rfl, rfl⟩
  rw [cutComment, hstart, List.take_succ_cons, cutComment]

/-- A line without a slash has no comment. -/
theorem cutComment_eq_self {line : List Char} (h : '/' ∉ line) : cutComment line = line := by
  induction line with
  | nil => rfl
  | cons c cs ih =>
    obtain ⟨hc, hcs⟩ := not_or.mp fun hor => h (List.mem_cons.mpr hor)
    rw [cutComment_cons fun hslashes => hc hslashes.1.symm, ih hcs]

private theorem head?_concat_slash {text : List Char} {c : Char} (hc : c ≠ '/') :
    (text ++ [c]).head? = some '/' ↔ text.head? = some '/' := by
  cases text with
  | nil => simp [hc]
  | cons d ds => rfl

/-- A character behind a line is part of its comment, or it stands behind what the line says. -/
theorem cutComment_concat (line : List Char) {c : Char} (hc : c ≠ '/') :
    cutComment (line ++ [c]) = cutComment line ∨
      cutComment (line ++ [c]) = cutComment line ++ [c] := by
  induction line with
  | nil => exact .inr (cutComment_cons fun h => hc h.1)
  | cons d ds ih =>
    by_cases hslashes : d = '/' ∧ ds.head? = some '/'
    · obtain ⟨rfl, hhead⟩ := hslashes
      obtain ⟨others, rfl⟩ := List.head?_eq_some_iff.mp hhead
      exact .inl rfl
    · have hmore : ¬ (d = '/' ∧ (ds ++ [c]).head? = some '/') := by
        rwa [head?_concat_slash hc]
      rw [List.cons_append, cutComment_cons hmore, cutComment_cons hslashes]
      rcases ih with hsame | hbehind
      · exact .inl (by rw [hsame])
      · exact .inr (by rw [hbehind, List.cons_append])

/-- Two slashes start a comment, unless a slash is right in front of them. -/
theorem cutComment_append (line : List Char) {c : Char} (hc : c ≠ '/') (text : List Char) :
    cutComment (line ++ c :: '/' :: '/' :: text) = cutComment (line ++ [c]) := by
  induction line with
  | nil =>
    have hnot {rest : List Char} : ¬ (c = '/' ∧ rest.head? = some '/') := fun h => hc h.1
    rw [List.nil_append, List.nil_append, cutComment_cons hnot, cutComment_cons hnot,
      cutComment_slashes]
    rfl
  | cons d ds ih =>
    have hhead : (ds ++ c :: '/' :: '/' :: text).head? = (ds ++ [c]).head? := by
      cases ds <;> rfl
    rw [List.cons_append, List.cons_append]
    by_cases hslashes : d = '/' ∧ (ds ++ [c]).head? = some '/'
    · obtain ⟨rfl, hfirst⟩ := hslashes
      obtain ⟨others, hothers⟩ := List.head?_eq_some_iff.mp hfirst
      obtain ⟨more, hmore⟩ := List.head?_eq_some_iff.mp (hhead.trans hfirst)
      rw [hothers, hmore, cutComment_slashes, cutComment_slashes]
    · have hlonger : ¬ (d = '/' ∧ (ds ++ c :: '/' :: '/' :: text).head? = some '/') := by
        rwa [hhead]
      rw [cutComment_cons hlonger, cutComment_cons hslashes, ih]

def content (line : List Char) : List Char :=
  trim (cutComment line)

private theorem content_concat_blank (line : List Char) {c : Char} (h : isBlank c = true) :
    content (line ++ [c]) = content line := by
  have hc : c ≠ '/' := by
    rintro rfl
    exact absurd h (by decide)
  unfold content
  rcases cutComment_concat line hc with hsame | hbehind
  · rw [hsame]
  · rw [hbehind, trim_concat_blank _ h]

theorem content_comment (line text : List Char) :
    content (line ++ ' ' :: '/' :: '/' :: text) = content line := by
  rw [content, cutComment_append line (by decide), ← content, content_concat_blank line (by decide)]

theorem content_dropReturn (line : List Char) : content (dropReturn line) = content line := by
  unfold dropReturn
  split
  · rename_i hlast
    obtain ⟨front, rfl⟩ := List.getLast?_eq_some_iff.mp hlast
    rw [List.dropLast_concat, content_concat_blank front (by decide)]
  · rfl

inductive Silent : List Char → Prop
  | nil : Silent []
  | comment (text : List Char) : Silent ('/' :: '/' :: text)
  | blank {c : Char} {rest : List Char} : isBlank c = true → Silent rest → Silent (c :: rest)

theorem content_eq_nil_iff (line : List Char) : content line = [] ↔ Silent line := by
  induction line with
  | nil => exact ⟨fun _ => .nil, fun _ => rfl⟩
  | cons c rest ih =>
    by_cases hslashes : c = '/' ∧ rest.head? = some '/'
    · obtain ⟨rfl, hhead⟩ := hslashes
      obtain ⟨text, rfl⟩ := List.head?_eq_some_iff.mp hhead
      exact ⟨fun _ => .comment text, fun _ => rfl⟩
    · have hcontent : content (c :: rest) = trim (c :: cutComment rest) := by
        rw [content, cutComment_cons hslashes]
      rw [hcontent]
      constructor
      · intro hnil
        by_cases hc : isBlank c = true
        · rw [trim_cons_blank hc] at hnil
          exact .blank hc (ih.mp hnil)
        · exact absurd hnil (trim_ne_nil hc _)
      · intro hsilent
        cases hsilent with
        | comment text => exact absurd ⟨rfl, rfl⟩ hslashes
        | blank hc hrest =>
          rw [trim_cons_blank hc]
          exact ih.mpr hrest

end Text
end ByteFormula
