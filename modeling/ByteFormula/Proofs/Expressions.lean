import ByteFormula.Proofs.Grammar

/-! The text of expressions. Parsing follows the grammar and tells three kinds of errors apart. An
expression whose symbols have characters, none of them white space or part of the grammar, is read back
from its text, however white space is spread over it. -/
namespace ByteFormula

namespace Text

theorem strip_append (front back : List Char) : strip (front ++ back) = strip front ++ strip back :=
  List.filter_append front back

theorem strip_strip (text : List Char) : strip (strip text) = strip text := by
  rw [strip, strip, List.filter_filter]
  simp only [Bool.and_self]

theorem strip_cons {c : Char} (h : isBlank c = false) (rest : List Char) :
    strip (c :: rest) = c :: strip rest := by
  simp [strip, h]

theorem strip_blank {c : Char} (h : isBlank c = true) (rest : List Char) :
    strip (c :: rest) = strip rest := by
  simp [strip, h]

private theorem strip_eq_nil_iff {text : List Char} :
    strip text = [] ↔ ∀ c ∈ text, isBlank c = true := by
  simp [strip]

inductive Spaced : List Char → List Char → Prop where
  | nil : Spaced [] []
  | keep {text spaced : List Char} (c : Char) (h : Spaced text spaced) :
      Spaced (c :: text) (c :: spaced)
  | blank {c : Char} {text spaced : List Char} (hc : isBlank c = true) (h : Spaced text spaced) :
      Spaced text (c :: spaced)

theorem Spaced.strip_eq {text spaced : List Char} (h : Spaced text spaced) :
    strip spaced = strip text := by
  induction h with
  | nil => rfl
  | keep c _ ih => rw [← List.singleton_append, strip_append, ih, ← strip_append, List.singleton_append]
  | blank hc _ ih => rw [strip_blank hc, ih]

end Text

namespace Expression

/-- A symbol that text can carry: it is not empty, and has no white space, parenthesis or comma. -/
def IsSymbol (symbol : String) : Prop :=
  symbol.toList ≠ [] ∧ ∀ c ∈ symbol.toList, isSymbolChar c = true ∧ Text.isBlank c = false

instance (symbol : String) : Decidable (IsSymbol symbol) :=
  decidable_of_iff ((!symbol.toList.isEmpty &&
      symbol.toList.all fun c => isSymbolChar c && !Text.isBlank c) = true)
    (by simp [IsSymbol])

mutual
def Spellable : Expression → Prop
  | .call symbol args => IsSymbol symbol ∧ SpellableAll args

def SpellableAll : List Expression → Prop
  | [] => True
  | e :: rest => e.Spellable ∧ SpellableAll rest
end

mutual
def decideSpellable : (e : Expression) → Decidable e.Spellable
  | .call symbol args =>
    have := decideSpellableAll args
    inferInstanceAs (Decidable (IsSymbol symbol ∧ SpellableAll args))

def decideSpellableAll : (es : List Expression) → Decidable (SpellableAll es)
  | [] => inferInstanceAs (Decidable True)
  | e :: rest =>
    have := decideSpellable e
    have := decideSpellableAll rest
    inferInstanceAs (Decidable (e.Spellable ∧ SpellableAll rest))
end

instance (e : Expression) : Decidable e.Spellable :=
  decideSpellable e

namespace IsSymbol

variable {symbol : String}

private theorem symbolic (h : IsSymbol symbol) : Symbolic symbol.toList :=
  ⟨h.1, fun c hc => isSymbolChar_iff.mp (h.2 c hc).1⟩

theorem exists_cons (h : IsSymbol symbol) :
    ∃ c cs, symbol.toList = c :: cs ∧ Text.isBlank c = false := by
  obtain ⟨c, cs, hlist⟩ := List.exists_cons_of_ne_nil h.1
  exact ⟨c, cs, hlist, (h.2 c (by rw [hlist]; exact List.mem_cons_self)).2⟩

theorem strip_eq (h : IsSymbol symbol) : Text.strip symbol.toList = symbol.toList := by
  rw [Text.strip, List.filter_eq_self]
  intro c hc
  rw [(h.2 c hc).2]
  rfl

end IsSymbol

mutual
/-- What is written for an expression is the text of it without empty parentheses. -/
theorem derives_chars (e : Expression) (h : e.Spellable) : Derives e.chars e := by
  obtain ⟨symbol, args⟩ := e
  cases args with
  | nil =>
    rw [chars]
    exact .alone h.1.symbolic
  | cons arg others =>
    obtain ⟨hsymbol, harg, hothers⟩ := h
    obtain ⟨inner, hinner, hargs⟩ := derivesAll_chars others hothers (derives_chars arg harg)
    rw [chars, hinner]
    exact .call hsymbol.symbolic hargs

theorem derivesAll_chars (others : List Expression) (h : SpellableAll others) {arg : Expression}
    (harg : Derives arg.chars arg) :
    ∃ inner, arg.chars ++ moreChars others = inner ++ [')'] ∧ DerivesAll inner (arg :: others) := by
  cases others with
  | nil => exact ⟨arg.chars, rfl, .last harg⟩
  | cons next others =>
    obtain ⟨inner, hinner, hargs⟩ := derivesAll_chars others h.2 (derives_chars next h.1)
    refine ⟨arg.chars ++ ',' :: inner, ?_, .more harg hargs⟩
    rw [moreChars, hinner, List.append_assoc, List.cons_append]
end

mutual
theorem strip_chars (e : Expression) (h : e.Spellable) : Text.strip e.chars = e.chars := by
  obtain ⟨symbol, args⟩ := e
  cases args with
  | nil => exact h.1.strip_eq
  | cons arg others =>
    obtain ⟨hsymbol, harg, hothers⟩ := h
    rw [chars, Text.strip_append, hsymbol.strip_eq, Text.strip_cons (by decide), Text.strip_append,
      strip_chars arg harg, strip_moreChars others hothers]

theorem strip_moreChars (args : List Expression) (h : SpellableAll args) :
    Text.strip (moreChars args) = moreChars args := by
  cases args with
  | nil => rfl
  | cons arg others =>
    rw [moreChars, Text.strip_cons (by decide), Text.strip_append, strip_chars arg h.1,
      strip_moreChars others h.2]
end

/-- A text that is an expression but for its white space is read as that expression. -/
theorem parse_of_strip {e : Expression} (h : e.Spellable) {source : String}
    (hstrip : Text.strip source.toList = e.chars) (line : Nat) : parse line source = .ok e := by
  rw [parse_eq_ok_iff, hstrip]
  exact derives_chars e h

mutual
def Avoids (c : Char) : Expression → Prop
  | .call symbol args => c ∉ symbol.toList ∧ AvoidsAll c args

def AvoidsAll (c : Char) : List Expression → Prop
  | [] => True
  | e :: rest => e.Avoids c ∧ AvoidsAll c rest
end

mutual
/-- The texts of an expression have the characters of its symbols and of the grammar, and no others. -/
theorem Avoids.not_mem {c : Char} (hc : isSymbolChar c = true) (e : Expression)
    (havoids : e.Avoids c) {text : List Char} (h : Derives text e) : c ∉ text := by
  obtain ⟨symbol, args⟩ := e
  obtain ⟨hopen, hclose, -⟩ := isSymbolChar_iff.mp hc
  cases h with
  | alone => exact havoids.1
  | empty => simp [havoids.1, hopen, hclose]
  | call _ hargs =>
    have hinner := AvoidsAll.not_mem hc args havoids.2 hargs
    simp [havoids.1, hopen, hclose, hinner]

theorem AvoidsAll.not_mem {c : Char} (hc : isSymbolChar c = true) (args : List Expression)
    (havoids : AvoidsAll c args) {inner : List Char} (h : DerivesAll inner args) : c ∉ inner := by
  obtain ⟨-, -, hcomma⟩ := isSymbolChar_iff.mp hc
  cases args with
  | nil => cases h
  | cons e others =>
    cases h with
    | last hlast => exact Avoids.not_mem hc e havoids.1 hlast
    | more hfirst hothers =>
      have hfront := Avoids.not_mem hc e havoids.1 hfirst
      have hback := AvoidsAll.not_mem hc others havoids.2 hothers
      simp [hfront, hback, hcomma]
end

/-- White space is no parenthesis. -/
theorem balanced_strip (opened : Nat) (text : List Char) :
    balanced opened (Text.strip text) = balanced opened text := by
  induction text generalizing opened with
  | nil => rfl
  | cons c rest ih =>
    cases hblank : Text.isBlank c with
    | true =>
      have hopen : c ≠ '(' := by
        rintro rfl
        exact absurd hblank (by decide)
      have hclose : c ≠ ')' := by
        rintro rfl
        exact absurd hblank (by decide)
      rw [Text.strip_blank hblank, balanced_other hopen hclose, ih]
    | false =>
      rw [Text.strip_cons hblank]
      by_cases hopen : c = '('
      · rw [hopen, balanced_open, balanced_open, ih]
      by_cases hclose : c = ')'
      · cases opened with
        | zero => rw [hclose, balanced_close_zero, balanced_close_zero]
        | succ opened => rw [hclose, balanced_close, balanced_close, ih]
      · rw [balanced_other hopen hclose, balanced_other hopen hclose, ih]

/-- Text that is no expression has an error, which depends on its white space and its parentheses. -/
theorem parse_eq_error {source : String} (h : ∀ e, ¬ Derives (Text.strip source.toList) e)
    (line : Nat) :
    parse line source = .error (if Text.strip source.toList = [] then .emptyExpression line
      else if balanced 0 source.toList then .malformed line else .unbalancedParentheses line) := by
  unfold parse
  simp only [balanced_strip]
  split
  · rfl
  split
  · split
    · rename_i e hread
      exact absurd (read_eq_some_iff.mp hread) (h e)
    · rfl
  · rfl

/-- A source of an expression is not blank, and it is balanced. -/
theorem Derives.sound {source : String} {e : Expression} (h : Derives (Text.strip source.toList) e) :
    Text.strip source.toList ≠ [] ∧ balanced 0 source.toList = true := by
  obtain ⟨c, cs, hcons, -⟩ := h.exists_cons
  have hbalanced : balanced 0 (Text.strip source.toList ++ []) = true := balanced_of_derives e h 0 []
  rw [List.append_nil, balanced_strip] at hbalanced
  rw [hcons]
  exact ⟨List.cons_ne_nil c cs, hbalanced⟩

section

variable {line : Nat} {source : String}

private theorem not_derives_of_parse {error : ParseError} (h : parse line source = .error error)
    (e : Expression) : ¬ Derives (Text.strip source.toList) e := by
  intro hderives
  rw [parse_eq_ok_iff.mpr hderives] at h
  cases h

private theorem parse_eq_empty_iff :
    parse line source = .error (.emptyExpression line) ↔ Text.strip source.toList = [] := by
  constructor
  · intro h
    rw [parse_eq_error (not_derives_of_parse h)] at h
    split at h
    · assumption
    · split at h <;> cases h
  · intro hempty
    have hnone : ∀ e, ¬ Derives (Text.strip source.toList) e := fun e he => he.sound.1 hempty
    rw [parse_eq_error hnone, if_pos hempty]

private theorem parse_eq_unbalanced_iff :
    parse line source = .error (.unbalancedParentheses line) ↔ balanced 0 source.toList = false := by
  constructor
  · intro h
    rw [parse_eq_error (not_derives_of_parse h)] at h
    split at h
    · cases h
    split at h
    · cases h
    · exact Bool.eq_false_iff.mpr ‹_›
  · intro hunbalanced
    have hnone : ∀ e, ¬ Derives (Text.strip source.toList) e := by
      intro e he
      rw [he.sound.2] at hunbalanced
      cases hunbalanced
    have hsome : Text.strip source.toList ≠ [] := by
      intro hempty
      rw [← balanced_strip, hempty] at hunbalanced
      cases hunbalanced
    rw [parse_eq_error hnone, if_neg hsome, hunbalanced, if_neg Bool.false_ne_true]

private theorem parse_eq_malformed_iff :
    parse line source = .error (.malformed line) ↔
      Text.strip source.toList ≠ [] ∧ balanced 0 source.toList = true ∧
        ∀ e, ¬ Derives (Text.strip source.toList) e := by
  constructor
  · intro h
    have hnone := not_derives_of_parse h
    rw [parse_eq_error hnone] at h
    split at h
    · cases h
    split at h
    · exact ⟨‹_›, ‹_›, hnone⟩
    · cases h
  · rintro ⟨hsome, hbalanced, hnone⟩
    rw [parse_eq_error hnone, if_neg hsome, if_pos hbalanced]

end

/-- Parsing accepts exactly what the grammar derives, which is from one expression only. The other
sources are blank, unbalanced or malformed, and each has the error that says so. A printed expression is
parsed back, whatever white space is put into its text. -/
theorem parse_follows_grammar :
    (∀ text e e', Derives text e → Derives text e' → e = e') ∧
    ∀ (line : Nat) (source : String),
      (∀ e, parse line source = .ok e ↔ Derives (Text.strip source.toList) e) ∧
      (parse line source = .error (.emptyExpression line) ↔
        ∀ c ∈ source.toList, Text.isBlank c = true) ∧
      (parse line source = .error (.unbalancedParentheses line) ↔ Unbalanced source.toList) ∧
      (parse line source = .error (.malformed line) ↔
        ¬ (∀ c ∈ source.toList, Text.isBlank c = true) ∧ ¬ Unbalanced source.toList ∧
          ∀ e, ¬ Derives (Text.strip source.toList) e) ∧
      ∀ e, e.Spellable → Text.Spaced e.text.toList source.toList → parse line source = .ok e := by
  refine ⟨fun _ _ _ => Derives.unique, fun line source => ⟨fun e => parse_eq_ok_iff, ?_⟩⟩
  simp only [← Text.strip_eq_nil_iff, ← balanced_eq_false_iff, Bool.not_eq_false]
  refine ⟨parse_eq_empty_iff, parse_eq_unbalanced_iff, parse_eq_malformed_iff, ?_⟩
  intro e hspellable hspaced
  have hstrip := hspaced.strip_eq
  rw [text, String.toList_ofList, strip_chars e hspellable] at hstrip
  exact parse_of_strip hspellable hstrip line

/-- A call with empty parentheses in it, and one that is printed and spaced out. -/
theorem parse_follows_grammar_call :
    Derives "f(a,b())".toList (.call "f" [.call "a" [], .call "b" []]) ∧
    parse 3 "f (a,\tb( ))" = .ok (.call "f" [.call "a" [], .call "b" []]) ∧
    Spellable (.call "f" [.call "a" [], .call "b" []]) ∧
    Text.Spaced (text (.call "f" [.call "a" [], .call "b" []])).toList "f( a,b\n)".toList ∧
    parse 3 "f( a,b\n)" = .ok (.call "f" [.call "a" [], .call "b" []]) := by
  have hf : Symbolic "f".toList := IsSymbol.symbolic (by decide)
  have ha : Derives "a".toList (.call "a" []) := .alone (IsSymbol.symbolic (by decide))
  have hb : Derives ("b".toList ++ ['(', ')']) (.call "b" []) := .empty (IsSymbol.symbolic (by decide))
  have hderives : Derives "f(a,b())".toList (.call "f" [.call "a" [], .call "b" []]) :=
    .call hf (.more ha (.last hb))
  have hstrip : Text.strip "f (a,\tb( ))".toList = "f(a,b())".toList := by decide +kernel
  have hspellable : Spellable (.call "f" [.call "a" [], .call "b" []]) :=
    ⟨by decide, ⟨by decide, trivial⟩, ⟨by decide, trivial⟩, trivial⟩
  have hspaced : Text.Spaced (text (.call "f" [.call "a" [], .call "b" []])).toList "f( a,b\n)".toList :=
    .keep 'f' (.keep '(' (.blank rfl (.keep 'a' (.keep ',' (.keep 'b' (.blank rfl (.keep ')' .nil)))))))
  obtain ⟨-, hparse⟩ := parse_follows_grammar
  have hspread := ((hparse 3 "f (a,\tb( ))").1 (.call "f" [.call "a" [], .call "b" []])).mpr
  rw [hstrip] at hspread
  obtain ⟨-, -, -, -, hprinted⟩ := hparse 3 "f( a,b\n)"
  exact ⟨hderives, hspread hderives, hspellable, hspaced, hprinted _ hspellable hspaced⟩

end Expression
end ByteFormula
