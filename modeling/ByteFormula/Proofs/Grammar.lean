import ByteFormula.Source.Expression

/-! The grammar of expressions. It says what the texts of an expression are, apart from how they are read:
a symbol, which arguments in parentheses may follow. What is read is what the grammar derives, and
nothing else. -/
namespace ByteFormula.Expression

def Symbolic (symbol : List Char) : Prop :=
  symbol ≠ [] ∧ ∀ c ∈ symbol, c ≠ '(' ∧ c ≠ ')' ∧ c ≠ ','

mutual
/-- The texts of an expression. Without arguments it has two of them. -/
inductive Derives : List Char → Expression → Prop where
  | alone {symbol : String} (hsymbol : Symbolic symbol.toList) :
      Derives symbol.toList (.call symbol [])
  | empty {symbol : String} (hsymbol : Symbolic symbol.toList) :
      Derives (symbol.toList ++ ['(', ')']) (.call symbol [])
  | call {symbol : String} {inner : List Char} {args : List Expression}
      (hsymbol : Symbolic symbol.toList) (hargs : DerivesAll inner args) :
      Derives (symbol.toList ++ '(' :: (inner ++ [')'])) (.call symbol args)

/-- The texts of one or more expressions, with commas between them. -/
inductive DerivesAll : List Char → List Expression → Prop where
  | last {text : List Char} {e : Expression} (h : Derives text e) : DerivesAll text [e]
  | more {text inner : List Char} {e : Expression} {rest : List Expression} (h : Derives text e)
      (hrest : DerivesAll inner rest) : DerivesAll (text ++ ',' :: inner) (e :: rest)
end

def Ends : List Char → Prop
  | [] => True
  | c :: _ => c = ',' ∨ c = ')'

theorem isSymbolChar_iff {c : Char} : isSymbolChar c = true ↔ c ≠ '(' ∧ c ≠ ')' ∧ c ≠ ',' := by
  simp only [isSymbolChar, Bool.and_eq_true, bne_iff_ne, and_assoc]

private theorem Ends.not_symbolChar {rest : List Char} (h : Ends rest) :
    ∀ c ∈ rest.head?, isSymbolChar c = false := by
  cases rest with
  | nil => simp
  | cons d ds =>
    rintro c ⟨⟩
    rcases h with rfl | rfl <;> rfl

private theorem Ends.not_open {text : List Char} : ¬ Ends ('(' :: text) :=
  fun h => by rcases h with h | h <;> cases h

theorem balanced_open (opened : Nat) (rest : List Char) :
    balanced opened ('(' :: rest) = balanced (opened + 1) rest := by
  rw [balanced.eq_def]
  rfl

theorem balanced_close (opened : Nat) (rest : List Char) :
    balanced (opened + 1) (')' :: rest) = balanced opened rest := by
  rw [balanced.eq_def]
  rfl

theorem balanced_close_zero (rest : List Char) : balanced 0 (')' :: rest) = false := by
  rw [balanced.eq_def]
  rfl

theorem balanced_other {c : Char} (hopen : c ≠ '(') (hclose : c ≠ ')') (opened : Nat)
    (rest : List Char) : balanced opened (c :: rest) = balanced opened rest := by
  rw [balanced.eq_def]
  simp only [if_neg hopen, if_neg hclose]

/-- Some front of a text closes more parentheses than it opens, or all of it closes more or fewer. -/
def Unbalanced (text : List Char) : Prop :=
  (∃ front, front <+: text ∧ front.count '(' < front.count ')') ∨ text.count '(' ≠ text.count ')'

/-- With some parentheses open, no front of the text closes too many, and all of it closes them all. -/
def Closing (opened : Nat) (text : List Char) : Prop :=
  (∀ front, front <+: text → front.count ')' ≤ opened + front.count '(') ∧
    text.count ')' = opened + text.count '('

private theorem closing_cons_iff {opened : Nat} {c : Char} {rest : List Char} :
    Closing opened (c :: rest) ↔
      (∀ front, front <+: rest → (c :: front).count ')' ≤ opened + (c :: front).count '(') ∧
        (c :: rest).count ')' = opened + (c :: rest).count '(' := by
  constructor
  · rintro ⟨hfronts, hall⟩
    exact ⟨fun front hfront => hfronts _ ((List.prefix_cons_inj c).mpr hfront), hall⟩
  · rintro ⟨hfronts, hall⟩
    refine ⟨fun front hfront => ?_, hall⟩
    rcases List.prefix_cons_iff.mp hfront with rfl | ⟨more, rfl, hmore⟩
    · exact Nat.zero_le _
    · exact hfronts more hmore

/-- The depth that is tracked is how many more parentheses were opened than closed so far. -/
theorem balanced_iff_closing {opened : Nat} {text : List Char} :
    balanced opened text = true ↔ Closing opened text := by
  induction text generalizing opened with
  | nil =>
    have hnone : ∀ front : List Char, front <+: [] → front.count ')' ≤ opened + front.count '(' := by
      intro front hfront
      rw [List.prefix_nil.mp hfront]
      exact Nat.zero_le _
    have hzero : balanced opened [] = true ↔ 0 = opened := by
      rw [balanced, beq_iff_eq, eq_comm]
    rw [hzero]
    exact ⟨fun h => ⟨hnone, h⟩, fun h => h.2⟩
  | cons c rest ih =>
    rw [closing_cons_iff]
    by_cases hopen : c = '('
    · subst hopen
      have hcount (front : List Char) : ('(' :: front).count ')' = front.count ')' ∧
          ('(' :: front).count '(' = front.count '(' + 1 := by simp
      simp only [balanced_open, ih, Closing, hcount, Nat.add_assoc, Nat.add_comm 1]
    by_cases hclose : c = ')'
    · subst hclose
      have hcount (front : List Char) : (')' :: front).count ')' = front.count ')' + 1 ∧
          (')' :: front).count '(' = front.count '(' := by simp
      simp only [hcount]
      cases opened with
      | zero =>
        refine iff_of_false (by simp [balanced_close_zero]) fun h => ?_
        have hnone := h.1 [] List.nil_prefix
        simp at hnone
      | succ opened =>
        rw [balanced_close, ih, Closing]
        constructor
        · rintro ⟨hfronts, hall⟩
          refine ⟨fun front hfront => ?_, by omega⟩
          have := hfronts front hfront
          omega
        · rintro ⟨hfronts, hall⟩
          refine ⟨fun front hfront => ?_, by omega⟩
          have := hfronts front hfront
          omega
    · have hcount (front : List Char) : (c :: front).count ')' = front.count ')' ∧
          (c :: front).count '(' = front.count '(' := by simp [hopen, hclose]
      simp only [balanced_other hopen hclose, ih, Closing, hcount]

theorem balanced_eq_false_iff {text : List Char} : balanced 0 text = false ↔ Unbalanced text := by
  rw [← Bool.not_eq_true, balanced_iff_closing, Closing, Unbalanced, Classical.not_and_iff_not_or_not]
  simp only [Nat.zero_add, Classical.not_forall, Nat.not_le, exists_prop, ne_eq, eq_comm]

namespace Symbolic

variable {symbol : List Char}

private theorem length_pos (h : Symbolic symbol) : 0 < symbol.length :=
  List.length_pos_iff.mpr h.1

theorem exists_cons (h : Symbolic symbol) : ∃ c cs, symbol = c :: cs ∧ c ≠ ')' := by
  obtain ⟨c, cs, rfl⟩ := List.exists_cons_of_ne_nil h.1
  exact ⟨c, cs, rfl, (h.2 c List.mem_cons_self).2.1⟩

/-- A symbol ends where the grammar goes on. -/
theorem split_append (h : Symbolic symbol) {rest : List Char}
    (hrest : ∀ c ∈ rest.head?, isSymbolChar c = false) :
    (symbol ++ rest).takeWhile isSymbolChar = symbol ∧
      (symbol ++ rest).dropWhile isSymbolChar = rest := by
  have hsymbol : ∀ c ∈ symbol, isSymbolChar c = true := fun c hc => isSymbolChar_iff.mpr (h.2 c hc)
  rw [List.takeWhile_append_of_pos hsymbol, List.dropWhile_append_of_pos hsymbol]
  cases rest with
  | nil => simp
  | cons c cs =>
    have hc : isSymbolChar c = false := hrest c rfl
    simp [hc]

private theorem split_open (h : Symbolic symbol) (rest : List Char) :
    (symbol ++ '(' :: rest).takeWhile isSymbolChar = symbol ∧
      (symbol ++ '(' :: rest).dropWhile isSymbolChar = '(' :: rest := by
  apply h.split_append
  rintro c ⟨⟩
  rfl

private theorem read_alone (h : Symbolic symbol) {rest : List Char} (hends : Ends rest)
    (fuel : Nat) :
    read (fuel + 1) (symbol ++ rest) = some (.call (String.ofList symbol) [], rest) := by
  obtain ⟨htake, hdrop⟩ := h.split_append hends.not_symbolChar
  rw [read, htake, hdrop]
  split
  · exact absurd rfl h.1
  · exact absurd hends Ends.not_open
  · exact absurd hends Ends.not_open
  · rfl

private theorem read_empty (h : Symbolic symbol) (rest : List Char) (fuel : Nat) :
    read (fuel + 1) (symbol ++ '(' :: ')' :: rest) = some (.call (String.ofList symbol) [], rest) := by
  obtain ⟨htake, hdrop⟩ := h.split_open (')' :: rest)
  rw [read, htake, hdrop]
  split
  · exact absurd rfl h.1
  · rename_i heq
    cases heq
    rfl
  · rename_i hnot _ heq
    cases heq
    exact absurd rfl (hnot rest)
  · rename_i hnot _
    exact absurd rfl (hnot rest)

private theorem read_call (h : Symbolic symbol) {text rest : List Char} {args : List Expression}
    {fuel : Nat}
    (htext : text.head? ≠ some ')') (hargs : readArguments fuel text = some (args, rest)) :
    read (fuel + 1) (symbol ++ '(' :: text) = some (.call (String.ofList symbol) args, rest) := by
  obtain ⟨htake, hdrop⟩ := h.split_open text
  rw [read, htake, hdrop]
  split
  · exact absurd rfl h.1
  · rename_i heq
    cases heq
    exact absurd rfl htext
  · rename_i heq
    cases heq
    simp only [hargs]
  · rename_i hnot
    exact absurd rfl (hnot text)

private theorem balanced_append (h : Symbolic symbol) (opened : Nat) (rest : List Char) :
    balanced opened (symbol ++ rest) = balanced opened rest := by
  obtain ⟨-, hchars⟩ := h
  induction symbol with
  | nil => rfl
  | cons c cs ih =>
    obtain ⟨hopen, hclose, -⟩ := hchars c List.mem_cons_self
    rw [List.cons_append, balanced_other hopen hclose]
    exact ih fun d hd => hchars d (List.mem_cons_of_mem c hd)

end Symbolic

theorem Derives.exists_cons {text : List Char} {e : Expression} (h : Derives text e) :
    ∃ c cs, text = c :: cs ∧ c ≠ ')' := by
  have hfront {symbol : List Char} (hsymbol : Symbolic symbol) (rest : List Char) :
      ∃ c cs, symbol ++ rest = c :: cs ∧ c ≠ ')' := by
    obtain ⟨c, cs, rfl, hc⟩ := hsymbol.exists_cons
    exact ⟨c, cs ++ rest, rfl, hc⟩
  cases h with
  | alone hsymbol => exact hsymbol.exists_cons
  | empty hsymbol => exact hfront hsymbol _
  | call hsymbol _ => exact hfront hsymbol _

private theorem DerivesAll.head_ne {inner : List Char} {args : List Expression}
    (h : DerivesAll inner args) (rest : List Char) : (inner ++ rest).head? ≠ some ')' := by
  cases h with
  | last hlast =>
    obtain ⟨c, cs, rfl, hc⟩ := hlast.exists_cons
    simpa using hc
  | more hfirst _ =>
    obtain ⟨c, cs, rfl, hc⟩ := hfirst.exists_cons
    simpa using hc

mutual
/-- A text of an expression is read, whatever ends it. Each call of the reader takes a character off
the text, so the length of the text is fuel enough. -/
theorem read_of_derives (e : Expression) {text : List Char} (h : Derives text e) {fuel : Nat}
    {rest : List Char} (hfuel : text.length ≤ fuel) (hends : Ends rest) :
    read fuel (text ++ rest) = some (e, rest) := by
  obtain ⟨symbol, args⟩ := e
  cases h with
  | alone hsymbol =>
    have hpos := hsymbol.length_pos
    obtain ⟨fuel, rfl⟩ : ∃ k, fuel = k + 1 := ⟨fuel - 1, by omega⟩
    rw [hsymbol.read_alone hends, String.ofList_toList]
  | empty hsymbol =>
    rw [List.length_append, List.length_cons] at hfuel
    obtain ⟨fuel, rfl⟩ : ∃ k, fuel = k + 1 := ⟨fuel - 1, by omega⟩
    rw [List.append_assoc]
    exact (hsymbol.read_empty rest fuel).trans (by rw [String.ofList_toList])
  | @call _ inner _ hsymbol hargs =>
    have hpos := hsymbol.length_pos
    simp only [List.length_append, List.length_cons, List.length_nil] at hfuel
    obtain ⟨fuel, rfl⟩ : ∃ k, fuel = k + 1 := ⟨fuel - 1, by omega⟩
    have hread : readArguments fuel (inner ++ ')' :: rest) = some (args, rest) :=
      readArguments_of_derives args hargs (by omega)
    rw [List.append_assoc, List.cons_append, List.append_assoc, List.singleton_append,
      hsymbol.read_call (hargs.head_ne _) hread, String.ofList_toList]

theorem readArguments_of_derives (args : List Expression) {inner : List Char}
    (h : DerivesAll inner args) {fuel : Nat} {rest : List Char} (hfuel : inner.length < fuel) :
    readArguments fuel (inner ++ ')' :: rest) = some (args, rest) := by
  obtain ⟨fuel, rfl⟩ : ∃ k, fuel = k + 1 := ⟨fuel - 1, by omega⟩
  cases args with
  | nil => cases h
  | cons e others =>
    cases h with
    | last hlast =>
      have hclose : Ends (')' :: rest) := .inr rfl
      have hread := read_of_derives e hlast (Nat.le_of_lt_succ hfuel) hclose
      simp only [readArguments, hread]
    | @more text inner _ _ hfirst hothers =>
      obtain ⟨c, cs, hcons, -⟩ := hfirst.exists_cons
      have hpos : 0 < text.length := by
        rw [hcons]
        exact Nat.zero_lt_succ _
      have hcomma : Ends (',' :: (inner ++ ')' :: rest)) := .inl rfl
      rw [List.length_append, List.length_cons] at hfuel
      have hread : read fuel (text ++ _) = _ := read_of_derives e hfirst (by omega) hcomma
      rw [readArguments, List.append_assoc, List.cons_append, hread]
      simp only
      rw [readArguments_of_derives others hothers (by omega)]
end

mutual
/-- A text of an expression closes what it opens. -/
theorem balanced_of_derives (e : Expression) {text : List Char} (h : Derives text e) (opened : Nat)
    (rest : List Char) : balanced opened (text ++ rest) = balanced opened rest := by
  obtain ⟨symbol, args⟩ := e
  cases h with
  | alone hsymbol => exact hsymbol.balanced_append opened rest
  | empty hsymbol =>
    rw [List.append_assoc, hsymbol.balanced_append, List.cons_append, balanced_open, List.cons_append,
      balanced_close, List.nil_append]
  | call hsymbol hargs =>
    rw [List.append_assoc, hsymbol.balanced_append, List.cons_append, balanced_open,
      List.append_assoc, balanced_of_derivesAll args hargs, List.singleton_append, balanced_close]

theorem balanced_of_derivesAll (args : List Expression) {inner : List Char}
    (h : DerivesAll inner args) (opened : Nat) (rest : List Char) :
    balanced opened (inner ++ rest) = balanced opened rest := by
  cases args with
  | nil => cases h
  | cons e others =>
    cases h with
    | last hlast => exact balanced_of_derives e hlast opened rest
    | more hfirst hothers =>
      rw [List.append_assoc, balanced_of_derives e hfirst, List.cons_append,
        balanced_other (by decide) (by decide), balanced_of_derivesAll others hothers]
end

/-- The front of a text up to the first character of the grammar is a symbol, unless it is empty. -/
theorem symbolic_takeWhile {text : List Char} (h : text.takeWhile isSymbolChar ≠ []) :
    Symbolic (String.ofList (text.takeWhile isSymbolChar)).toList := by
  rw [String.toList_ofList]
  refine ⟨h, fun c hc => isSymbolChar_iff.mp ?_⟩
  exact List.all_eq_true.mp List.all_takeWhile c hc

mutual
/-- Whatever is read is a text of the expression that was read, and what follows it. -/
theorem derives_of_read (fuel : Nat) {text rest : List Char} {e : Expression}
    (h : read fuel text = some (e, rest)) : ∃ front, text = front ++ rest ∧ Derives front e := by
  cases fuel with
  | zero => cases h
  | succ fuel =>
    have hsplit : text = text.takeWhile isSymbolChar ++ text.dropWhile isSymbolChar :=
      List.takeWhile_append_dropWhile.symm
    rw [read] at h
    split at h
    · cases h
    · rename_i hdrop hsome
      cases h
      have hsymbol := symbolic_takeWhile hsome
      refine ⟨_, ?_, .empty hsymbol⟩
      rw [String.toList_ofList, List.append_assoc]
      rw [hdrop] at hsplit
      exact hsplit
    · rename_i hdrop hsome
      split at h
      · rename_i hargs
        cases h
        have hsymbol := symbolic_takeWhile hsome
        obtain ⟨inner, rfl, hinner⟩ := derivesAll_of_readArguments fuel hargs
        refine ⟨_, ?_, .call hsymbol hinner⟩
        rw [String.toList_ofList, List.append_assoc, List.cons_append, List.append_assoc]
        rw [hdrop] at hsplit
        exact hsplit
      · cases h
    · rename_i hsome _ _
      cases h
      refine ⟨_, ?_, .alone (symbolic_takeWhile hsome)⟩
      rw [String.toList_ofList]
      exact hsplit

theorem derivesAll_of_readArguments (fuel : Nat) {text rest : List Char} {args : List Expression}
    (h : readArguments fuel text = some (args, rest)) :
    ∃ inner, text = inner ++ ')' :: rest ∧ DerivesAll inner args := by
  cases fuel with
  | zero => cases h
  | succ fuel =>
    rw [readArguments] at h
    split at h
    · rename_i hfirst
      split at h
      · rename_i hmore
        cases h
        obtain ⟨front, rfl, harg⟩ := derives_of_read fuel hfirst
        obtain ⟨inner, rfl, hothers⟩ := derivesAll_of_readArguments fuel hmore
        refine ⟨front ++ ',' :: inner, ?_, .more harg hothers⟩
        rw [List.append_assoc, List.cons_append]
      · cases h
    · rename_i hlast
      cases h
      obtain ⟨front, rfl, harg⟩ := derives_of_read fuel hlast
      exact ⟨front, rfl, .last harg⟩
    · cases h
end

/-- The texts that are read to their end are those that the grammar derives. -/
theorem read_eq_some_iff {text : List Char} {e : Expression} :
    read (text.length + 1) text = some (e, []) ↔ Derives text e := by
  constructor
  · intro h
    obtain ⟨front, rfl, hderives⟩ := derives_of_read _ h
    rw [List.append_nil]
    exact hderives
  · intro h
    have hread : read (text.length + 1) (text ++ []) = some (e, []) :=
      read_of_derives e h (Nat.le_succ _) trivial
    rwa [List.append_nil] at hread

/-- A text has one expression at most. -/
theorem Derives.unique {text : List Char} {e e' : Expression} (h : Derives text e)
    (h' : Derives text e') : e = e' := by
  have hread := read_eq_some_iff.mpr h
  rw [read_eq_some_iff.mpr h'] at hread
  cases hread
  rfl

/-- A text is parsed as the expression that the grammar derives it from, without its white space. -/
theorem parse_eq_ok_iff {line : Nat} {source : String} {e : Expression} :
    parse line source = .ok e ↔ Derives (Text.strip source.toList) e := by
  unfold parse
  simp only
  generalize Text.strip source.toList = text
  constructor
  · intro h
    split at h
    · cases h
    split at h
    · split at h
      · cases h
        exact read_eq_some_iff.mp ‹_›
      · cases h
    · cases h
  · intro h
    obtain ⟨c, cs, hcons, -⟩ := h.exists_cons
    have hsome : text ≠ [] := by
      rw [hcons]
      exact List.cons_ne_nil c cs
    have hbalanced : balanced 0 (text ++ []) = true := balanced_of_derives e h 0 []
    rw [List.append_nil] at hbalanced
    simp only [if_neg hsome, hbalanced, if_true, read_eq_some_iff.mpr h]

end ByteFormula.Expression
