import ByteFormula.Proofs.Expressions
import ByteFormula.Source.Literal

/-! The spellings of data, references and names. Each is a symbol that text can carry, and is recognised
as what it stands for. -/
namespace ByteFormula

namespace Hex

def digitCode (value : Nat) : UInt8 :=
  UInt8.ofNat (if value < 10 then 48 + value else 87 + value)

private theorem digit_spec : ∀ value < 16,
    String.utf8EncodeChar (digit value) = [digitCode value] ∧
      value? (digitCode value) = some value ∧
      Expression.isSymbolChar (digit value) = true ∧ Text.isBlank (digit value) = false := by
  decide

private theorem nibbles_lt (byte : UInt8) : byte.toNat / 16 < 16 ∧ byte.toNat % 16 < 16 := by
  have hbyte := byte.toNat_lt
  omega

private theorem codes_digits (byte : UInt8) :
    (digits byte).flatMap String.utf8EncodeChar =
      [digitCode (byte.toNat / 16), digitCode (byte.toNat % 16)] := by
  have hhigh := (digit_spec _ (nibbles_lt byte).1).1
  have hlow := (digit_spec _ (nibbles_lt byte).2).1
  simp only [digits, List.flatMap_cons, List.flatMap_nil, hhigh, hlow, List.append_nil,
    List.singleton_append]

private theorem readPairs_digits (bytes done : Bytes) (position : Nat) :
    readPairs done position ((bytes.flatMap digits).flatMap String.utf8EncodeChar) =
      .ok (done.reverse ++ bytes) := by
  induction bytes generalizing done position with
  | nil => simp [readPairs]
  | cons byte rest ih =>
    have hhigh := (digit_spec _ (nibbles_lt byte).1).2.1
    have hlow := (digit_spec _ (nibbles_lt byte).2).2.1
    have hvalue : 16 * (byte.toNat / 16) + byte.toNat % 16 = byte.toNat := Nat.div_add_mod _ 16
    rw [List.flatMap_cons, List.flatMap_append, codes_digits, List.cons_append, List.cons_append,
      List.nil_append, readPairs]
    simp only [hhigh, hlow, hvalue, UInt8.ofNat_toNat]
    rw [ih, List.reverse_cons, List.append_assoc, List.singleton_append]

private theorem length_codes (bytes : Bytes) :
    ((bytes.flatMap digits).flatMap String.utf8EncodeChar).length = 2 * bytes.length := by
  induction bytes with
  | nil => rfl
  | cons byte rest ih =>
    rw [List.flatMap_cons, List.flatMap_append, codes_digits, List.length_append, ih]
    simp only [List.length_cons, List.length_nil]
    omega

/-- Bytes are read back from their digits. -/
theorem decode_encode (bytes : Bytes) : decode (encode bytes).toList = .ok bytes := by
  have heven : ¬ 2 * bytes.length % 2 = 1 := by omega
  simp only [decode, encode, String.toList_ofList, length_codes, if_neg heven, readPairs_digits,
    List.reverse_nil, List.nil_append]

/-- Only digits can be read. -/
theorem value?_of_readPairs {codes done bytes : Bytes} {position : Nat}
    (h : readPairs done position codes = .ok bytes) : ∀ code ∈ codes, value? code ≠ none := by
  fun_induction readPairs done position codes with
  | case1 => simp
  | case2 => cases h
  | case3 => cases h
  | case4 => cases h
  | case5 done position high low rest x y hlow hhigh ih =>
    intro code hcode
    simp only [List.mem_cons] at hcode
    rcases hcode with rfl | rfl | hrest
    · simp [hhigh]
    · simp [hlow]
    · exact ih h code hrest

end Hex

private theorem Decimal.slash_not_mem {text : List Char} (h : isNumber text = true) :
    '/' ∉ text := by
  intro hmem
  simp only [isNumber, Bool.and_eq_true, List.all_eq_true] at h
  cases h.2 '/' hmem

namespace Literal

def ofData : Bytes → String
  | [] => "nil"
  | byte :: rest => String.ofList ('0' :: 'x' :: (Hex.encode (byte :: rest)).toList)

def ofReference (index : Nat) : String :=
  String.ofList ('$' :: (toString index).toList)

private theorem beq_eq_false_of_head {symbol word : String} {c : Char} {cs : List Char}
    (hsymbol : symbol.toList = c :: cs) (hword : word.toList.head? ≠ some c) :
    (symbol == word) = false := by
  rw [beq_eq_false_iff_ne]
  rintro rfl
  rw [hsymbol] at hword
  exact hword rfl

private theorem ofData_cons (byte : UInt8) (rest : Bytes) :
    (ofData (byte :: rest)).toList = '0' :: 'x' :: (byte :: rest).flatMap Hex.digits := by
  rw [ofData, Hex.encode, String.toList_ofList, String.toList_ofList]

theorem isSymbol_ofData (bytes : Bytes) : Expression.IsSymbol (ofData bytes) := by
  cases bytes with
  | nil => decide
  | cons byte rest =>
    rw [Expression.IsSymbol, ofData_cons]
    refine ⟨List.cons_ne_nil _ _, fun c hc => ?_⟩
    simp only [List.mem_cons, List.mem_flatMap, Hex.digits, List.not_mem_nil, or_false] at hc
    rcases hc with rfl | rfl | ⟨byte, -, hdigit⟩
    · decide
    · decide
    · rcases hdigit with rfl | rfl
      · exact (Hex.digit_spec _ (Hex.nibbles_lt byte).1).2.2
      · exact (Hex.digit_spec _ (Hex.nibbles_lt byte).2).2.2

theorem isLiteral_ofData (bytes : Bytes) : isLiteral (ofData bytes) = true := by
  cases bytes with
  | nil => rfl
  | cons byte rest => simp [isLiteral, ofData_cons]

/-- Data that is short enough is what its spelling stands for. -/
theorem value_ofData {bytes : Bytes} (h : bytes.length ≤ maxInlineData) :
    value (ofData bytes) = .ok bytes := by
  cases bytes with
  | nil => rfl
  | cons byte rest =>
    have hnil : (ofData (byte :: rest) == "nil") = false :=
      beq_eq_false_of_head (ofData_cons byte rest) (by decide)
    have hfalse : (ofData (byte :: rest) == "false") = false :=
      beq_eq_false_of_head (ofData_cons byte rest) (by decide)
    have hdecode := Hex.decode_encode (byte :: rest)
    rw [Hex.encode, String.toList_ofList] at hdecode
    simp only [value, hnil, hfalse, ofData_cons, hdecode, if_neg (Nat.not_lt.mpr h), Bool.or_self,
      Bool.false_eq_true, if_false]

/-- The decimal spelling of the references that there are. -/
theorem reference_digits : ∀ index < argumentCodes,
    Decimal.isNumber (toString index).toList = true ∧ Decimal.value (toString index).toList = index ∧
      Expression.IsSymbol (ofReference index) := by
  decide

theorem isLiteral_ofReference (index : Nat) : isLiteral (ofReference index) = false := by
  have hlist : (ofReference index).toList = '$' :: (toString index).toList := String.toList_ofList
  have hnil : (ofReference index == "nil") = false := beq_eq_false_of_head hlist (by decide)
  have hfalse : (ofReference index == "false") = false := beq_eq_false_of_head hlist (by decide)
  rw [isLiteral, hnil, hfalse, hlist]
  rfl

theorem isReference_ofReference (index : Nat) : isReference (ofReference index) = true := by
  simp [isReference, ofReference]

theorem reference_ofReference {index : Nat} (h : index < argumentCodes) :
    reference (ofReference index) none = .ok index := by
  obtain ⟨hnumber, hvalue, -⟩ := reference_digits index h
  simp only [reference, ofReference, String.toList_ofList, List.drop_succ_cons, List.drop_zero,
    hnumber, hvalue, h, decide_true, Bool.and_self, if_true]

theorem char_of_unreserved {symbol : String} (h : isReserved symbol = false) (c : Char)
    (hc : c ∈ symbol.toList) :
    Expression.isSymbolChar c = true ∧ Text.isBlank c = false ∧ c ≠ '=' ∧ c ≠ '/' := by
  simp only [isReserved, Bool.or_eq_false_iff] at h
  have hplain := List.any_eq_false.mp h.2 c hc
  simp only [isReservedChar, Bool.or_eq_true, beq_iff_eq, not_or] at hplain
  obtain ⟨⟨⟨⟨⟨hblank, hopen⟩, hclose⟩, hcomma⟩, hequals⟩, hslash⟩ := hplain
  refine ⟨?_, by simpa using hblank, hequals, hslash⟩
  simp [Expression.isSymbolChar, hopen, hclose, hcomma]

/-- A name that is not reserved is neither a constant nor a reference, and text can carry it. -/
theorem of_unreserved {symbol : String} (h : isReserved symbol = false) :
    isLiteral symbol = false ∧ isReference symbol = false ∧ Expression.IsSymbol symbol := by
  have hchars := fun c => char_of_unreserved h c
  simp only [isReserved, Bool.or_eq_false_iff] at h
  obtain ⟨⟨⟨hempty, hliteral⟩, hreference⟩, -⟩ := h
  refine ⟨hliteral, hreference, ?_, fun c hc => ?_⟩
  · intro hnil
    rw [String.toList_eq_nil_iff.mp hnil] at hempty
    cases hempty
  · obtain ⟨hsymbol, hblank, -⟩ := hchars c hc
    exact ⟨hsymbol, hblank⟩

/-- Constants and references are spelled without slashes. -/
theorem slash_not_mem_of_value {symbol : String} {bytes : Bytes} (hliteral : isLiteral symbol = true)
    (h : value symbol = .ok bytes) : '/' ∉ symbol.toList := by
  unfold value at h
  split at h
  · rename_i hword
    simp only [Bool.or_eq_true, beq_iff_eq] at hword
    rcases hword with rfl | rfl <;> decide
  · rename_i hword
    split at h
    · rename_i digits hlist
      rw [hlist]
      cases hdecode : Hex.decode digits with
      | error e =>
        rw [hdecode] at h
        cases h
      | ok decoded =>
        unfold Hex.decode at hdecode
        simp only at hdecode
        split at hdecode
        · cases hdecode
        intro hmem
        have hdigit : '/' ∈ digits := by simpa using hmem
        have hcode : (47 : UInt8) ∈ digits.flatMap String.utf8EncodeChar :=
          List.mem_flatMap.mpr ⟨'/', hdigit, by decide⟩
        exact Hex.value?_of_readPairs hdecode 47 hcode (by decide)
    · rename_i hother
      apply Decimal.slash_not_mem
      have hhex : ['0', 'x'].isPrefixOf symbol.toList = false := by
        rw [Bool.eq_false_iff, ne_eq, List.isPrefixOf_iff_prefix]
        rintro ⟨digits, hdigits⟩
        exact hother digits hdigits.symm
      rw [isLiteral, hhex, Bool.or_false, Bool.or_eq_true] at hliteral
      exact hliteral.resolve_left hword

theorem slash_not_mem_of_reference {symbol : String} {arity : Option Nat} {index : Nat}
    (hreference : isReference symbol = true) (h : reference symbol arity = .ok index) :
    '/' ∉ symbol.toList := by
  obtain ⟨digits, hlist⟩ := List.isPrefixOf_iff_prefix.mp hreference
  rw [← hlist]
  unfold reference at h
  simp only [← hlist, List.singleton_append, List.drop_succ_cons, List.drop_zero] at h
  split at h
  · rename_i hnumber
    simp only [Bool.and_eq_true] at hnumber
    have hdigits := Decimal.slash_not_mem hnumber.1
    simpa using hdigits
  · cases h

end Literal
end ByteFormula
