import ByteFormula.Proofs.Lines
import ByteFormula.Proofs.Literals
import ByteFormula.Source.Definition

/-! The text of definitions. A definition that is written on a line of its own is read back, and so are
several of them on lines that follow each other. Bodies come out of a source without white space. -/
namespace ByteFormula

namespace Definition

def header (d : Definition) : List Char :=
  'd' :: 'e' :: 'f' :: ' ' :: (d.symbol.toList ++ '(' :: (d.arity.text.toList ++ [')']))

def written (d : Definition) : List Char :=
  d.header ++ ' ' :: '=' :: ' ' :: d.body.toList

/-- What it takes to be read back from one line: a name that is not reserved, a number of arguments
that a call can carry, and a balanced body without white space and slashes. -/
structure Printable (d : Definition) : Prop where
  symbol : Literal.isReserved d.symbol = false
  arity : ∃ count, d.arity = .fixed count ∧ count ≤ maxCallArguments
  nonempty : d.body ≠ ""
  strip : Text.strip d.body.toList = d.body.toList
  slash : '/' ∉ d.body.toList
  balanced : Expression.balanced 0 d.body.toList = true

/-- The decimal spelling of the arities that there are. -/
theorem arity_digits : ∀ count ≤ maxCallArguments,
    (Arity.fixed count).text.toList.all Char.isDigit = true ∧
      (readParenthesizedArity ('(' :: ((Arity.fixed count).text.toList ++ [')']))).toOption =
        some (.fixed count) := by
  decide

private theorem readParenthesizedArity_text {count : Nat} (h : count ≤ maxCallArguments) :
    readParenthesizedArity ('(' :: ((Arity.fixed count).text.toList ++ [')'])) =
      .ok (.fixed count) := by
  have hread := (arity_digits count h).2
  cases hresult : readParenthesizedArity ('(' :: ((Arity.fixed count).text.toList ++ [')'])) with
  | error e =>
    rw [hresult] at hread
    cases hread
  | ok arity =>
    rw [hresult] at hread
    cases hread
    rfl

namespace Printable

variable {d : Definition}

/-- No character of a header ends it early, starts a comment or a line. -/
theorem mem_header (h : d.Printable) {c : Char} (hc : c ∈ d.header) :
    c ≠ '=' ∧ c ≠ '/' ∧ c ≠ '\n' := by
  obtain ⟨count, harity, hcount⟩ := h.arity
  have hdigits := List.all_eq_true.mp (arity_digits count hcount).1
  rw [header, harity] at hc
  simp only [List.mem_cons, List.mem_append, List.not_mem_nil, or_false] at hc
  rcases hc with rfl | rfl | rfl | rfl | hname | rfl | hdigit | rfl
  · decide
  · decide
  · decide
  · decide
  · obtain ⟨-, hblank, hequals, hslash⟩ := Literal.char_of_unreserved h.symbol c hname
    refine ⟨hequals, hslash, ?_⟩
    rintro rfl
    cases hblank
  · decide
  · have hchar := hdigits c hdigit
    refine ⟨?_, ?_, ?_⟩ <;> rintro rfl <;> cases hchar
  · decide

private theorem readHeader_header (h : d.Printable) :
    readHeader d.header = .ok (d.symbol, d.arity) := by
  obtain ⟨count, harity, hcount⟩ := h.arity
  obtain ⟨-, -, hsymbol⟩ := Literal.of_unreserved h.symbol
  obtain ⟨first, others, hlist, hfirst⟩ := hsymbol.exists_cons
  have hname : ∀ c ∈ d.symbol.toList, isNameChar c = true := by
    intro c hc
    obtain ⟨hchar, hblank, hequals, -⟩ := Literal.char_of_unreserved h.symbol c hc
    simp [isNameChar, hchar, hblank, hequals]
  have htrim (rest : List Char) :
      Text.trimLeft (d.symbol.toList ++ rest) = d.symbol.toList ++ rest := by
    apply Text.trimLeft_eq_self
    rw [hlist]
    rintro c ⟨⟩
    exact hfirst
  have hopen : isNameChar '(' = false := by decide
  rw [header, readHeader, if_pos (by decide)]
  simp only [htrim, List.takeWhile_append_of_pos hname, List.dropWhile_append_of_pos hname,
    List.takeWhile_cons, List.dropWhile_cons, hopen, Bool.false_eq_true, if_false, List.append_nil]
  rw [harity, readParenthesizedArity_text hcount]
  split
  · rename_i hnil
    exact absurd hnil hsymbol.1
  · rw [String.ofList_toList]

private theorem open?_written (h : d.Printable) : open? d.line d.written = .ok d := by
  have hequals : ∀ c ∈ d.header ++ [' '], (c != '=') = true := by
    intro c hc
    rw [bne_iff_ne]
    rcases List.mem_append.mp hc with hheader | hblank
    · exact (h.mem_header hheader).1
    · rw [List.mem_singleton.mp hblank]
      decide
  have hwritten : d.written = (d.header ++ [' ']) ++ '=' :: ' ' :: d.body.toList := by
    simp [written]
  have htrim : Text.trim (d.header ++ [' ']) = d.header := by
    have hleft : Text.trimLeft (d.header ++ [' ']) = d.header ++ [' '] := by
      apply Text.trimLeft_eq_self
      rintro c ⟨⟩
      decide
    rw [Text.trim, hleft, Text.trimRight_concat_blank _ (by decide)]
    apply Text.trimRight_eq_self
    intro c hc
    have hlast : d.header.getLast? = some ')' := by simp [header, List.getLast?_cons]
    rw [hlast] at hc
    cases hc
    decide
  rw [open?, hwritten, List.dropWhile_append_of_pos hequals, List.takeWhile_append_of_pos hequals]
  simp only [List.dropWhile_cons, List.takeWhile_cons, bne_self_eq_false, Bool.false_eq_true,
    if_false, List.append_nil, htrim, h.readHeader_header, Text.strip_blank (show Text.isBlank ' ' =
    true by decide), h.strip, String.ofList_toList]

private theorem getLast?_body (h : d.Printable) :
    ∀ c ∈ d.body.toList.getLast?, Text.isBlank c = false := by
  intro c hc
  have hmem : c ∈ Text.strip d.body.toList := by
    rw [h.strip]
    exact List.mem_of_getLast? hc
  simpa using (List.mem_filter.mp hmem).2

/-- It is a single line without a comment. -/
theorem mem_written (h : d.Printable) {c : Char} (hc : c ∈ d.written) : c ≠ '/' ∧ c ≠ '\n' := by
  simp only [written, List.mem_append, List.mem_cons] at hc
  rcases hc with hheader | rfl | rfl | rfl | hbody
  · exact (h.mem_header hheader).2
  · decide
  · decide
  · decide
  · refine ⟨fun hslash => h.slash (hslash ▸ hbody), ?_⟩
    rintro rfl
    rw [← h.strip] at hbody
    cases (List.mem_filter.mp hbody).2

/-- There is nothing to be cut off the line. -/
theorem trim_written (h : d.Printable) : Text.trim (Text.cutComment d.written) = d.written := by
  have hslash : '/' ∉ d.written := fun hmem => (h.mem_written hmem).1 rfl
  have hleft : Text.trimLeft d.written = d.written := by
    apply Text.trimLeft_eq_self
    rintro c ⟨⟩
    decide
  rw [Text.cutComment_eq_self hslash, Text.trim, hleft]
  apply Text.trimRight_eq_self
  have hbody : d.body.toList ≠ [] := fun hnil => h.nonempty (String.toList_eq_nil_iff.mp hnil)
  have hlast : d.written.getLast? = d.body.toList.getLast? := by
    have hwritten : d.written = (d.header ++ [' ', '=', ' ']) ++ d.body.toList := by simp [written]
    rw [hwritten, List.getLast?_append, List.getLast?_eq_some_getLast hbody, Option.some_or]
  rw [hlast]
  exact h.getLast?_body

private theorem close_eq (h : d.Printable) : d.close = .ok d := by
  rw [close, if_neg h.nonempty, if_pos h.balanced]

/-- A line with a definition closes the one before it. -/
theorem step_written (h : d.Printable) {progress : Progress} {closed : List Definition}
    (hfinish : progress.finish = .ok closed) :
    progress.step (d.written, d.line) = .ok ⟨closed, some d⟩ := by
  have hsome : d.written ≠ [] := List.cons_ne_nil _ _
  have hstart : isStart d.written = true := rfl
  simp only [Progress.step, h.trim_written, if_neg hsome, hstart, if_true, hfinish,
    h.open?_written]

end Printable

theorem Progress.foldlM_step_ok {progress next : Progress} {numbered : List Char × Nat}
    (h : progress.step numbered = .ok next) (rest : List (List Char × Nat)) :
    (numbered :: rest).foldlM Progress.step progress = rest.foldlM Progress.step next := by
  rw [List.foldlM_cons, h]
  rfl

theorem Progress.foldlM_step_error {progress : Progress} {numbered : List Char × Nat} {e : ParseError}
    (h : progress.step numbered = .error e) (rest : List (List Char × Nat)) :
    (numbered :: rest).foldlM Progress.step progress = .error e := by
  rw [List.foldlM_cons, h]
  rfl

/-- Lines of definitions close one after the other, and the last one stays open. -/
theorem foldlM_written {definitions : List Definition} (h : ∀ d ∈ definitions, d.Printable)
    {first : Nat} (hlines : definitions.map (·.line) = List.range' first definitions.length)
    {progress : Progress} {closed : List Definition} (hfinish : progress.finish = .ok closed) :
    ∃ after, ((definitions.map written).zipIdx first).foldlM Progress.step progress = .ok after ∧
      after.finish = .ok (definitions.reverse ++ closed) := by
  induction definitions generalizing first progress closed with
  | nil => exact ⟨progress, rfl, hfinish⟩
  | cons d rest ih =>
    obtain ⟨hd, hrest⟩ := List.forall_mem_cons.mp h
    rw [List.map_cons, List.length_cons, List.range'_succ] at hlines
    obtain ⟨rfl, hnext⟩ := List.cons.inj hlines
    have hopen : Progress.finish ⟨closed, some d⟩ = .ok (d :: closed) := by
      simp only [Progress.finish, hd.close_eq]
    obtain ⟨after, hrun, hafter⟩ := ih hrest hnext hopen
    refine ⟨after, ?_, ?_⟩
    · rw [List.map_cons, List.zipIdx_cons, Progress.foldlM_step_ok (hd.step_written hfinish), hrun]
    · rw [hafter, List.reverse_cons, List.append_assoc, List.singleton_append]

private theorem lines_written {definitions : List Definition} (h : ∀ d ∈ definitions, d.Printable) :
    Text.lines (definitions.flatMap fun d => d.written ++ ['\n']) =
      definitions.map written ++ [[]] := by
  induction definitions with
  | nil => rfl
  | cons d rest ih =>
    obtain ⟨hd, hrest⟩ := List.forall_mem_cons.mp h
    have hline : '\n' ∉ d.written := fun hmem => (hd.mem_written hmem).2 rfl
    rw [List.flatMap_cons, List.append_assoc, List.singleton_append,
      Text.lines_append, Text.lines_line hline, ih hrest, List.singleton_append, List.map_cons,
      List.cons_append]

/-- Definitions that are written on lines of their own are read back. -/
theorem parseAll_written {definitions : List Definition} (h : ∀ d ∈ definitions, d.Printable)
    (hlines : definitions.map (·.line) = List.range' 1 definitions.length) {source : String}
    (hsource : source.toList = definitions.flatMap fun d => d.written ++ ['\n']) :
    parseAll source = .ok definitions := by
  obtain ⟨after, hrun, hfinish⟩ := foldlM_written h hlines (show Progress.finish ⟨[], none⟩ = .ok []
    from rfl)
  have hall : ((Text.lines source.toList).zipIdx 1).foldlM Progress.step ⟨[], none⟩ = .ok after := by
    rw [hsource, lines_written h, List.zipIdx_append, List.foldlM_append, hrun]
    rfl
  simp only [parseAll, hall, hfinish, List.append_nil, List.reverse_reverse]

theorem eq_of_close {d other : Definition} (h : d.close = .ok other) : other = d := by
  unfold close at h
  split at h
  · cases h
  split at h
  · cases h
    rfl
  · cases h

def Progress.All (P : Definition → Prop) (progress : Progress) : Prop :=
  ∀ d, d ∈ progress.closed ∨ progress.current = some d → P d

section

variable {P : Definition → Prop}

theorem Progress.All.finish {progress : Progress} (h : progress.All P) {closed : List Definition}
    (hfinish : progress.finish = .ok closed) : ∀ d ∈ closed, P d := by
  unfold Progress.finish at hfinish
  split at hfinish
  · cases hfinish
    exact fun d hd => h d (.inl hd)
  · rename_i current hcurrent
    split at hfinish
    · cases hfinish
    · rename_i hclose
      cases hfinish
      cases eq_of_close hclose
      intro d hd
      rcases List.mem_cons.mp hd with rfl | hold
      · exact h d (.inr hcurrent)
      · exact h d (.inl hold)

variable (hopen : ∀ {line : Nat} {text : List Char} {d : Definition}, open? line text = .ok d → P d)
  (hmore : ∀ {d : Definition} (text : List Char), P d →
    P { d with body := d.body ++ String.ofList (Text.strip text) })

include hopen hmore

theorem Progress.All.step {progress after : Progress} (h : progress.All P)
    {numbered : List Char × Nat} (hstep : progress.step numbered = .ok after) : after.All P := by
  unfold Progress.step at hstep
  simp only at hstep
  split at hstep
  · cases hstep
    exact h
  split at hstep
  · split at hstep
    · cases hstep
    rename_i closed hfinish
    split at hstep
    · cases hstep
    rename_i hopened
    cases hstep
    rintro d (hclosed | hcurrent)
    · exact h.finish hfinish d hclosed
    · cases hcurrent
      exact hopen hopened
  · split at hstep
    · cases hstep
    rename_i current hcurrent
    cases hstep
    rintro d (hclosed | hsame)
    · exact h d (.inl hclosed)
    · cases hsame
      exact hmore _ (h current (.inr hcurrent))

theorem Progress.All.run {lines : List (List Char × Nat)} {progress after : Progress}
    (h : progress.All P) (hrun : lines.foldlM Progress.step progress = .ok after) : after.All P := by
  induction lines generalizing progress with
  | nil =>
    cases hrun
    exact h
  | cons line rest ih =>
    cases hstep : progress.step line with
    | error e =>
      rw [Progress.foldlM_step_error hstep] at hrun
      cases hrun
    | ok next =>
      rw [Progress.foldlM_step_ok hstep] at hrun
      exact ih (h.step hopen hmore hstep) hrun

/-- What the first line of a definition brings and the others keep, every definition of a source has. -/
theorem parseAll_induction {source : String} {definitions : List Definition}
    (h : parseAll source = .ok definitions) : ∀ d ∈ definitions, P d := by
  have hnone : Progress.All P ⟨[], none⟩ := by
    rintro d (habsurd | habsurd) <;> cases habsurd
  unfold parseAll at h
  split at h
  · cases h
  rename_i progress hrun
  split at h
  · cases h
  rename_i closed hfinish
  cases h
  intro d hd
  exact (hnone.run hopen hmore hrun).finish hfinish d (List.mem_reverse.mp hd)

end

/-- A source gives bodies without white space. -/
theorem strip_body_of_parseAll {source : String} {definitions : List Definition}
    (h : parseAll source = .ok definitions) :
    ∀ d ∈ definitions, Text.strip d.body.toList = d.body.toList := by
  refine parseAll_induction (fun hopened => ?_) (fun text hbody => ?_) h
  · unfold open? at hopened
    split at hopened
    · cases hopened
    split at hopened
    · cases hopened
    · cases hopened
      rw [String.toList_ofList, Text.strip_strip]
  · rw [String.toList_append, String.toList_ofList, Text.strip_append, Text.strip_strip, hbody]

/-- An arity is one that a call can carry. -/
theorem readArity_le {text rest : List Char} {count : Nat}
    (h : readArity text = .ok (.fixed count, rest)) : count ≤ maxCallArguments := by
  unfold readArity at h
  split at h
  · cases h
  split at h
  · cases h
  split at h
  · rename_i hle
    cases h
    exact hle
  · cases h

private theorem readParenthesizedArity_le {text : List Char} {count : Nat}
    (h : readParenthesizedArity text = .ok (.fixed count)) : count ≤ maxCallArguments := by
  unfold readParenthesizedArity at h
  split at h
  · split at h
    · cases h
    rename_i harity
    split at h
    · split at h
      · cases h
        exact readArity_le harity
      · cases h
    · cases h
  · cases h

private theorem readHeader_le {text : List Char} {symbol : String} {count : Nat}
    (h : readHeader text = .ok (symbol, .fixed count)) : count ≤ maxCallArguments := by
  unfold readHeader at h
  split at h
  · split at h
    · simp only at h
      split at h
      · cases h
      split at h
      · cases h
      · rename_i harity
        cases h
        exact readParenthesizedArity_le harity
    · cases h
  · cases h

/-- A source declares only arities that a call can carry. -/
theorem arity_le_of_parseAll {source : String} {definitions : List Definition}
    (h : parseAll source = .ok definitions) :
    ∀ d ∈ definitions, ∀ count, d.arity = .fixed count → count ≤ maxCallArguments := by
  refine parseAll_induction (fun hopened count harity => ?_) (fun text harity => harity) h
  unfold open? at hopened
  split at hopened
  · cases hopened
  split at hopened
  · cases hopened
  · rename_i hheader
    cases hopened
    cases harity
    exact readHeader_le hheader

end Definition
end ByteFormula
