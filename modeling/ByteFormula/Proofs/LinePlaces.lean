import ByteFormula.Bytes
import ByteFormula.Proofs.Lines
import ByteFormula.Text.Place

/-! Where a line stands in a text, counted in bytes and as a reader sees it. The span of a line is
counted in bytes but is read as counting characters, so a reader is led to the start of the line exactly
if all characters before it take one byte, and no other characters than line feeds end lines there. -/
namespace ByteFormula.Text

def utf8 (text : List Char) : Bytes :=
  text.flatMap String.utf8EncodeChar

private theorem utf8_append (front back : List Char) :
    utf8 (front ++ back) = utf8 front ++ utf8 back :=
  List.flatMap_append

private theorem byteSize_eq_length_utf8 (text : List Char) :
    byteSize text = (utf8 text).length := by
  have hfold (start : Nat) :
      text.foldl (fun size c => size + c.utf8Size) start = start + (utf8 text).length := by
    induction text generalizing start with
    | nil => rfl
    | cons c rest ih =>
      rw [List.foldl_cons, ih, utf8, utf8, List.flatMap_cons, List.length_append,
        String.length_utf8EncodeChar, Nat.add_assoc]
  rw [byteSize, hfold, Nat.zero_add]

/-- A line of a text: what is before and after it, what it shows, and the white space at its end. -/
structure Stands (text : List Char) (number : Nat) (before shown blank after : List Char) : Prop where
  whole : text = before ++ (shown ++ blank) ++ after
  number : number = before.count '\n' + 1
  starts : before = [] ∨ before.getLast? = some '\n'
  unbroken : '\n' ∉ shown ++ blank
  ends : after = [] ∨ after.head? = some '\n'
  blank : ∀ c ∈ blank, isBlank c = true
  shown : ∀ c ∈ shown.getLast?, isBlank c = false

private theorem lines_eq_cons {text line : List Char} {rest : List (List Char)}
    (h : lines text = line :: rest) :
    (text = line ∧ rest = []) ∨ ∃ more, text = line ++ '\n' :: more ∧ lines more = rest := by
  induction text generalizing line with
  | nil =>
    cases h
    exact .inl ⟨rfl, rfl⟩
  | cons c text ih =>
    obtain ⟨first, others, hlines⟩ := List.exists_cons_of_ne_nil (lines_ne_nil text)
    rw [lines_cons] at h
    unfold consLine at h
    split at h
    · rename_i hc
      cases h
      exact .inr ⟨text, by rw [hc]; rfl, rfl⟩
    · rw [hlines] at h
      cases h
      rcases ih hlines with ⟨rfl, rfl⟩ | ⟨more, rfl, hmore⟩
      · exact .inl ⟨rfl, rfl⟩
      · exact .inr ⟨more, rfl, hmore⟩

def textAbove (above : List (List Char)) : List Char :=
  above.flatMap fun line => line ++ ['\n']

def textBelow (below : List (List Char)) : List Char :=
  below.flatMap fun line => '\n' :: line

private theorem eq_of_lines_tail {text line : List Char} {below : List (List Char)}
    (h : lines text = line :: below) : text = line ++ textBelow below := by
  induction below generalizing text line with
  | nil =>
    rcases lines_eq_cons h with ⟨rfl, -⟩ | ⟨more, rfl, hmore⟩
    · rw [textBelow, List.flatMap_nil, List.append_nil]
    · exact absurd hmore (lines_ne_nil more)
  | cons next rest ih =>
    rcases lines_eq_cons h with ⟨-, habsurd⟩ | ⟨more, rfl, hmore⟩
    · cases habsurd
    · rw [ih hmore, textBelow, textBelow, List.flatMap_cons, List.cons_append]

private theorem eq_of_lines {text line : List Char} {above below : List (List Char)}
    (h : lines text = above ++ line :: below) :
    text = textAbove above ++ line ++ textBelow below := by
  induction above generalizing text with
  | nil => exact eq_of_lines_tail h
  | cons first above ih =>
    rcases lines_eq_cons h with ⟨-, habsurd⟩ | ⟨more, rfl, hmore⟩
    · exact absurd habsurd (by simp)
    · rw [ih hmore]
      simp [textAbove]

private theorem count_textAbove {above : List (List Char)} (h : ∀ line ∈ above, '\n' ∉ line) :
    (textAbove above).count '\n' = above.length := by
  induction above with
  | nil => rfl
  | cons line above ih =>
    obtain ⟨hline, habove⟩ := List.forall_mem_cons.mp h
    rw [textAbove, List.flatMap_cons, List.count_append, List.count_append, ← textAbove, ih habove,
      List.count_eq_zero_of_not_mem hline, List.length_cons]
    simp [Nat.add_comm]

private theorem trimRight_append_blank (line : List Char) :
    ∃ blank, line = trimRight line ++ blank ∧ ∀ c ∈ blank, isBlank c = true := by
  refine ⟨(line.reverse.takeWhile isBlank).reverse, ?_, ?_⟩
  · rw [trimRight, ← List.reverse_append, List.takeWhile_append_dropWhile, List.reverse_reverse]
  · intro c hc
    exact List.all_eq_true.mp List.all_takeWhile c (List.mem_reverse.mp hc)

private theorem getLast?_trimRight (line : List Char) :
    ∀ c ∈ (trimRight line).getLast?, isBlank c = false := by
  intro c hc
  rw [trimRight, List.getLast?_reverse] at hc
  have hfirst := List.head?_dropWhile_not isBlank line.reverse
  rw [hc] at hfirst
  exact hfirst

private theorem getLast?_textAbove (above : List (List Char)) :
    textAbove above = [] ∨ (textAbove above).getLast? = some '\n' := by
  rcases List.eq_nil_or_concat above with rfl | ⟨front, last, rfl⟩
  · exact .inl rfl
  · exact .inr (by simp [textAbove])

private theorem head?_textBelow (below : List (List Char)) :
    textBelow below = [] ∨ (textBelow below).head? = some '\n' := by
  cases below with
  | nil => exact .inl rfl
  | cons line below => exact .inr rfl

/-- Every line of a text stands in it. -/
theorem stands_of_lines {text line : List Char} {above below : List (List Char)}
    (h : lines text = above ++ line :: below) :
    ∃ blank, line = trimRight line ++ blank ∧
      Stands text (above.length + 1) (textAbove above) (trimRight line) blank (textBelow below) := by
  have hunbroken : ∀ other ∈ above ++ line :: below, '\n' ∉ other := h ▸ not_mem_lines text
  obtain ⟨habove, hrest⟩ := List.forall_mem_append.mp hunbroken
  obtain ⟨blank, hline, hblank⟩ := trimRight_append_blank line
  refine ⟨blank, hline, ?_⟩
  exact {
    whole := by rw [← hline]; exact eq_of_lines h
    number := by rw [count_textAbove habove]
    starts := getLast?_textAbove above
    unbroken := hline ▸ hrest line List.mem_cons_self
    ends := head?_textBelow below
    blank := hblank
    shown := getLast?_trimRight line }

/-- The span of a line goes from its first byte to the white space at its end. -/
theorem lineSpan_of_lines {text line : List Char} {above below : List (List Char)}
    (h : lines text = above ++ line :: below) :
    lineSpan text (above.length + 1) =
      ((utf8 (textAbove above)).length, (utf8 (textAbove above ++ trimRight line)).length) := by
  have hstart (start : Nat) : above.foldl (fun size line => size + byteSize line + 1) start =
      start + (utf8 (textAbove above)).length := by
    clear h
    induction above generalizing start with
    | nil => rfl
    | cons first above ih =>
      have hfeed : (utf8 ['\n']).length = 1 := rfl
      rw [List.foldl_cons, ih, byteSize_eq_length_utf8, textAbove, textAbove, List.flatMap_cons,
        utf8_append, utf8_append, List.length_append, List.length_append, hfeed]
      omega
  have hline : (lines text)[above.length]? = some line := by
    rw [h, List.getElem?_append_right (Nat.le_refl _), Nat.sub_self]
    rfl
  have htake : (lines text).take above.length = above := by
    rw [h, List.take_left]
  simp only [lineSpan, hline, htake, hstart, Nat.zero_add, utf8_append, List.length_append]
  rw [byteSize_eq_length_utf8]

/-- Whether a reader sees a line end at a character, which depends on what follows it. -/
def endsLine (c : Char) (rest : List Char) : Bool :=
  match rest with
  | [] => false
  | next :: _ => isTerminator c && !(c == '\r' && next == '\n')

private theorem placeFrom_cons (row column offset : Nat) (c : Char) (rest : List Char) :
    placeFrom row column (offset + 1) (c :: rest) =
      if endsLine c rest then placeFrom (row + 1) 1 offset rest
      else placeFrom row (column + 1) offset rest := by
  cases rest with
  | nil =>
    rw [placeFrom]
    rfl
  | cons next rest =>
    by_cases hreturn : c = '\r' ∧ next = '\n'
    · obtain ⟨rfl, rfl⟩ := hreturn
      rw [placeFrom]
      rfl
    · have hends : endsLine c (next :: rest) = isTerminator c := by
        have hboth : (c == '\r' && next == '\n') = false := by simpa using hreturn
        simp only [endsLine, hboth, Bool.not_false, Bool.and_true]
      rw [placeFrom, hends]
      · exact fun habsurd => by cases habsurd
      · rintro tail rfl ⟨⟩
        exact hreturn ⟨rfl, rfl⟩

def lineEnds (back : List Char) : List Char → Nat
  | [] => 0
  | c :: rest => (if endsLine c (rest ++ back) then 1 else 0) + lineEnds back rest

/-- A reader passes over a text, and is at the start of a line if a line feed is the last of it. -/
theorem placeFrom_append (back front : List Char) (row column offset : Nat) :
    ∃ reached, placeFrom row column (front.length + offset) (front ++ back) =
        placeFrom (row + lineEnds back front) reached offset back ∧
      (front = [] → reached = column) ∧
      (front.getLast? = some '\n' → back ≠ [] → reached = 1) := by
  induction front generalizing row column with
  | nil => exact ⟨column, by rw [List.length_nil, Nat.zero_add]; rfl, fun _ => rfl, nofun⟩
  | cons c rest ih =>
    rw [List.length_cons, Nat.add_right_comm, List.cons_append, placeFrom_cons, lineEnds]
    split
    · obtain ⟨reached, hplace, hnil, hlast⟩ := ih (row + 1) 1
      refine ⟨reached, by rw [hplace, Nat.add_assoc], nofun, fun hfeed hback => ?_⟩
      cases rest with
      | nil => exact hnil rfl
      | cons d rest => exact hlast (by rwa [List.getLast?_cons_cons] at hfeed) hback
    · rename_i hends
      obtain ⟨reached, hplace, hnil, hlast⟩ := ih row (column + 1)
      refine ⟨reached, by rw [hplace, Nat.zero_add], nofun, fun hfeed hback => ?_⟩
      cases rest with
      | nil =>
        -- A line feed with something behind it ends its line.
        obtain ⟨next, more, rfl⟩ := List.exists_cons_of_ne_nil hback
        cases hfeed
        exact absurd rfl hends
      | cons d rest => exact hlast (by rwa [List.getLast?_cons_cons] at hfeed) hback

/-- A reader who goes on is further down or further to the right. -/
theorem placeFrom_later {text : List Char} {row column offset reached at' : Nat}
    (h : placeFrom row column offset text = some (reached, at')) :
    row < reached ∨ (reached = row ∧ at' = column + offset) := by
  induction text generalizing row column offset with
  | nil =>
    cases offset with
    | zero =>
      cases h
      exact .inr ⟨rfl, rfl⟩
    | succ offset => cases h
  | cons c rest ih =>
    cases offset with
    | zero =>
      cases h
      exact .inr ⟨rfl, rfl⟩
    | succ offset =>
      rw [placeFrom_cons] at h
      split at h
      · have := ih h
        omega
      · have := ih h
        omega

/-- Whether lines end only at line feeds, with or without a carriage return before them. -/
def feedsOnly : List Char → Bool
  | [] => true
  | c :: rest =>
    (!isTerminator c || c == '\n' || (c == '\r' && rest.head? == some '\n')) && feedsOnly rest

/-- Text of which every character takes one byte, and in which lines end only at line feeds. -/
def isPlain (text : List Char) : Bool :=
  text.all (fun c => c.utf8Size == 1) && feedsOnly text

private theorem length_le_utf8 (text : List Char) : text.length ≤ (utf8 text).length := by
  induction text with
  | nil => exact Nat.le_refl 0
  | cons c rest ih =>
    have hpos := c.utf8Size_pos
    rw [utf8, List.flatMap_cons, List.length_append, String.length_utf8EncodeChar, ← utf8,
      List.length_cons]
    omega

private theorem length_utf8_eq_iff (text : List Char) :
    (utf8 text).length = text.length ↔ text.all (fun c => c.utf8Size == 1) = true := by
  induction text with
  | nil => exact iff_of_true rfl rfl
  | cons c rest ih =>
    have hpos := c.utf8Size_pos
    have hrest := length_le_utf8 rest
    rw [utf8, List.flatMap_cons, List.length_append, String.length_utf8EncodeChar, ← utf8,
      List.length_cons, List.all_cons, Bool.and_eq_true, ← ih, beq_iff_eq]
    omega

/-- Behind a character that is not the last one of its text, the line ends unless a line feed is next to
come. -/
theorem endsLine_append {c : Char} {rest back : List Char} (hback : back ≠ [])
    (hlast : rest = [] → c ≠ '\r') :
    endsLine c (rest ++ back) = (isTerminator c && !(c == '\r' && rest.head? == some '\n')) := by
  cases rest with
  | nil =>
    obtain ⟨next, more, rfl⟩ := List.exists_cons_of_ne_nil hback
    have hc : (c == '\r') = false := by simpa using hlast rfl
    simp [endsLine, hc]
  | cons next rest => simp [endsLine]

/-- Every line feed is a line end to a reader, and there are no others exactly if lines end only at line
feeds. -/
theorem lineEnds_cases {back : List Char} (hback : back ≠ []) (front : List Char)
    (hlast : front.getLast? ≠ some '\r') :
    front.count '\n' ≤ lineEnds back front ∧
      (lineEnds back front = front.count '\n' ↔ feedsOnly front = true) := by
  induction front with
  | nil => exact ⟨Nat.le_refl 0, iff_of_true rfl rfl⟩
  | cons c rest ih =>
    have hrest : rest.getLast? ≠ some '\r' := by
      cases rest with
      | nil => simp
      | cons d rest => rwa [List.getLast?_cons_cons] at hlast
    have hc : rest = [] → c ≠ '\r' := by
      rintro rfl rfl
      exact hlast rfl
    obtain ⟨hle, hiff⟩ := ih hrest
    have hsplit (first : Bool) : (first && feedsOnly rest) = true ↔
        first = true ∧ lineEnds back rest = rest.count '\n' := by
      rw [Bool.and_eq_true, hiff]
    rw [lineEnds, endsLine_append hback hc, List.count_cons, feedsOnly, hsplit]
    by_cases hfeed : c = '\n'
    · subst hfeed
      have hterminator : isTerminator '\n' = true := rfl
      simp [hterminator]
      omega
    · have hfeed' : (c == '\n') = false := by simpa using hfeed
      rw [hfeed']
      cases hterminator : isTerminator c with
      | false => simp; omega
      | true =>
        cases hreturn : c == '\r' && rest.head? == some '\n' with
        | true => simp; omega
        | false => simp; omega

/-- The place shown for a line is its start exactly if the text before it is plain and the end of its
span, read as counting characters, does not leave the text by more than one. -/
theorem placeOfSpan_eq_start_iff {text before shown blank after : List Char} {number : Nat}
    (h : Stands text number before shown blank after) (hshown : shown ≠ []) :
    placeOfSpan text ((utf8 before).length, (utf8 (before ++ shown)).length) = some (number, 1) ↔
      isPlain before = true ∧ (utf8 (before ++ shown)).length ≤ text.length + 1 := by
  have hback : shown ++ blank ++ after ≠ [] := by simp [hshown]
  have hreturn : before.getLast? ≠ some '\r' := by
    rcases h.starts with rfl | hfeed
    · simp
    · simp [hfeed]
  obtain ⟨hle, hfeeds⟩ := lineEnds_cases hback before hreturn
  obtain ⟨extra, hextra⟩ := Nat.exists_eq_add_of_le (length_le_utf8 before)
  obtain ⟨reached, hplace, hnil, hlast⟩ := placeFrom_append _ before 1 1 extra
  have hreached : reached = 1 := by
    rcases h.starts with hempty | hfeed
    · exact hnil hempty
    · exact hlast hfeed hback
  rw [← List.append_assoc, ← h.whole, ← hextra, hreached] at hplace
  have hnumber := h.number
  rw [isPlain, Bool.and_eq_true, ← length_utf8_eq_iff, ← hfeeds, placeOfSpan, hplace]
  split
  · exact iff_of_false nofun (by omega)
  constructor
  · intro hstart
    have := placeFrom_later hstart
    omega
  · rintro ⟨⟨hnarrow, hends⟩, -⟩
    obtain rfl : extra = 0 := by omega
    rw [placeFrom, hends, hnumber, Nat.add_comm]

end ByteFormula.Text
