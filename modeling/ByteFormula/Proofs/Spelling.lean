import ByteFormula.Proofs.Heads
import ByteFormula.Proofs.Registration

/-! The spellings of a formula in bytecode, and what is read from them. A call of an embedded-short
function has two spellings, everything else has one. Reading recognises the spellings of
well-formed formulas that are not nested too deeply, and nothing else. -/
namespace ByteFormula

mutual
def Formula.references : Formula → List Nat
  | .data _ => []
  | .argument index => [index]
  | .call _ args => Formula.referencesAll args

def Formula.referencesAll : List Formula → List Nat
  | [] => []
  | arg :: rest => arg.references ++ Formula.referencesAll rest
end

namespace Registry

variable {σ : Type}

mutual
/-- Data is short enough for its head, references stay below sixteen, and calls carry as many
arguments as their function takes. -/
def WellFormed (registry : Registry σ) : Formula → Prop
  | .data bytes => bytes.length ≤ maxInlineData
  | .argument index => index < argumentCodes
  | .call index args =>
    (∃ function, registry.function? index = some function ∧
      function.arity.accepts args.length = true) ∧ registry.WellFormedAll args

def WellFormedAll (registry : Registry σ) : List Formula → Prop
  | [] => True
  | arg :: rest => registry.WellFormed arg ∧ registry.WellFormedAll rest
end

mutual
/-- The spellings of a formula, with the number of calls in them that spell an embedded-short
function with two bytes. -/
inductive Spells (registry : Registry σ) : Formula → Bytes → Nat → Prop where
  | data (bytes : Bytes) : Spells registry (.data bytes) ((Head.data bytes.length).layout ++ bytes) 0
  | argument (index : Nat) : Spells registry (.argument index) (Head.short index).layout 0
  | short {index widened : Nat} {function : Function σ} {args : List Formula} {code : Bytes}
      (hfunction : registry.function? index = some function)
      (hspace : function.space = .embeddedShort) (hargs : SpellsAll registry args code widened) :
      Spells registry (.call index args) ((Head.short function.code).layout ++ code) widened
  | long {index widened : Nat} {function : Function σ} {args : List Formula} {code : Bytes}
      (hfunction : registry.function? index = some function)
      (hspace : function.space ≠ .embeddedShort) (hargs : SpellsAll registry args code widened) :
      Spells registry (.call index args) ((Head.long function.code args.length).layout ++ code)
        widened
  | widened {index widened : Nat} {function : Function σ} {args : List Formula} {code : Bytes}
      (hfunction : registry.function? index = some function)
      (hspace : function.space = .embeddedShort) (hargs : SpellsAll registry args code widened) :
      Spells registry (.call index args) ((Head.long function.code args.length).layout ++ code)
        (widened + 1)

inductive SpellsAll (registry : Registry σ) : List Formula → Bytes → Nat → Prop where
  | nil : SpellsAll registry [] [] 0
  | cons {arg : Formula} {rest : List Formula} {front back : Bytes} {m n : Nat}
      (harg : Spells registry arg front m) (hrest : SpellsAll registry rest back n) :
      SpellsAll registry (arg :: rest) (front ++ back) (m + n)
end

/-- What a head stands for, apart from the check of references. -/
inductive Opens (registry : Registry σ) : Head → Opening → Prop where
  | data (length : Nat) : Opens registry (.data length) (.data length)
  | argument {index : Nat} (h : index < argumentCodes) :
      Opens registry (.short index) (.argument index)
  | short {index count : Nat} {function : Function σ}
      (hfunction : registry.function? index = some function)
      (hspace : function.space = .embeddedShort) (haccepts : function.arity.accepts count = true) :
      Opens registry (.short function.code) (.call index count)
  | long {index count : Nat} {function : Function σ}
      (hfunction : registry.function? index = some function)
      (haccepts : function.arity.accepts count = true) :
      Opens registry (.long function.code count) (.call index count)

def Opening.Within (arity : Option Nat) : Opening → Prop
  | .argument index => ∀ n, arity = some n → index < n
  | _ => True

section

variable {registry : Registry σ} {arity : Option Nat}

mutual
/-- The references of a well-formed formula are too low for their count to wrap around. -/
theorem numArgs_le_iff {count : Nat} (formula : Formula) (hwell : registry.WellFormed formula) :
    formula.numArgs ≤ count ↔ ∀ index ∈ formula.references, index < count := by
  cases formula with
  | data bytes => exact iff_of_true (Nat.zero_le _) nofun
  | argument index =>
    have hlow : index < 16 := hwell
    simp only [Formula.numArgs, Formula.references, List.mem_singleton, forall_eq]
    omega
  | call index args => exact numArgsAll_le_iff args hwell.2

theorem numArgsAll_le_iff {count : Nat} (formulas : List Formula)
    (hwell : registry.WellFormedAll formulas) :
    Formula.numArgsAll formulas ≤ count ↔
      ∀ index ∈ Formula.referencesAll formulas, index < count := by
  cases formulas with
  | nil => exact iff_of_true (Nat.zero_le _) nofun
  | cons arg rest =>
    have hfirst : arg.numArgs ≤ count ↔ _ := numArgs_le_iff arg hwell.1
    have hrest : Formula.numArgsAll rest ≤ count ↔ _ := numArgsAll_le_iff rest hwell.2
    rw [Formula.numArgsAll, Formula.referencesAll, Nat.max_le, hfirst, hrest]
    simp only [List.mem_append, or_imp, forall_and]
end

private theorem fixed_of_accepts {arity : Arity} {count : Nat} (h : arity ≠ .variadic)
    (haccepts : arity.accepts count = true) : arity = .fixed count := by
  cases arity with
  | fixed expected => simpa [Arity.accepts] using haccepts
  | variadic => exact absurd rfl h

private theorem Numbered.not_variadic (hnumbered : Numbered registry) {index : Nat}
    {function : Function σ} (hfunction : registry.function? index = some function)
    (hspace : function.space = .embeddedShort) : function.arity ≠ .variadic := by
  intro harity
  rw [hnumbered.variadic hfunction harity] at hspace
  cases hspace

theorem Numbered.count_le (hnumbered : Numbered registry) {index count : Nat}
    {function : Function σ} (hfunction : registry.function? index = some function)
    (haccepts : function.arity.accepts count = true) : count ≤ maxCallArguments := by
  cases harity : function.arity with
  | fixed expected =>
    have hle := hnumbered.fixed hfunction harity
    simp only [harity, Arity.accepts, beq_iff_eq] at haccepts
    omega
  | variadic => simpa [harity, Arity.accepts] using haccepts

theorem opening_of_opens (hnumbered : Numbered registry) {head : Head} {o : Opening}
    (h : registry.Opens head o) (hwithin : o.Within arity) : registry.opening arity head = .ok o := by
  cases h with
  | data length => rfl
  | argument hindex =>
    simp only [opening, if_pos hindex]
    cases arity with
    | none => rfl
    | some n => exact if_neg (Nat.not_le_of_gt (hwithin n rfl))
  | short hfunction hspace haccepts =>
    have hbounds := hnumbered.code_bounds hfunction
    rw [hspace, CodeSpace.first] at hbounds
    have harity := fixed_of_accepts (hnumbered.not_variadic hfunction hspace) haccepts
    simp only [opening, if_neg (Nat.not_lt_of_ge hbounds.1), hnumbered.byCode?_code hfunction, harity]
  | long hfunction haccepts =>
    simp only [opening, hnumbered.byCode?_code hfunction, if_pos haccepts]

private theorem opens_of_opening (hnumbered : Numbered registry) {head : Head} {o : Opening}
    (hfits : head.Fits) (h : registry.opening arity head = .ok o) :
    registry.Opens head o ∧ o.Within arity := by
  cases head with
  | data length =>
    cases h
    exact ⟨.data length, trivial⟩
  | short code =>
    simp only [opening] at h
    split at h
    · rename_i hcode
      split at h
      · split at h
        · cases h
        · rename_i n hn
          cases h
          refine ⟨.argument hcode, fun m hm => ?_⟩
          cases hm
          omega
      · cases h
        exact ⟨.argument hcode, fun n hn => nomatch hn⟩
    split at h
    · cases h
    · rename_i index function hfound
      obtain ⟨hfunction, rfl⟩ := hnumbered.byCode?_eq_some_iff.mp hfound
      have hspace := (hnumbered.space_eq_short_iff hfunction).mpr hfits
      split at h
      · rename_i harity
        cases h
        exact ⟨.short hfunction hspace (by simp [harity, Arity.accepts]), trivial⟩
      · rename_i harity
        exact absurd harity (hnumbered.not_variadic hfunction hspace)
  | long code declared =>
    simp only [opening] at h
    split at h
    · cases h
    · rename_i index function hfound
      obtain ⟨hfunction, rfl⟩ := hnumbered.byCode?_eq_some_iff.mp hfound
      split at h
      · rename_i haccepts
        cases h
        exact ⟨.long hfunction haccepts, trivial⟩
      · cases h

/-- A spelling that is read within `room` nested calls and under `arity`. -/
structure Readable (registry : Registry σ) (arity : Option Nat) (room : Nat) (formula : Formula)
    (code : Bytes) (widened : Nat) : Prop where
  wellFormed : registry.WellFormed formula
  spells : registry.Spells formula code widened
  within : ∀ count, arity = some count → formula.numArgs ≤ count
  depth : formula.depth ≤ room

structure ReadableAll (registry : Registry σ) (arity : Option Nat) (room : Nat)
    (formulas : List Formula) (code : Bytes) (widened : Nat) : Prop where
  wellFormed : registry.WellFormedAll formulas
  spells : registry.SpellsAll formulas code widened
  within : ∀ count, arity = some count → Formula.numArgsAll formulas ≤ count
  depth : Formula.depthAll formulas ≤ room

/-- Whichever way a call is spelled, a head that opens it comes before its arguments. -/
theorem Spells.head (hnumbered : Numbered registry) {index widened : Nat}
    {args : List Formula} {code : Bytes} (hwell : registry.WellFormed (.call index args))
    (h : registry.Spells (.call index args) code widened) :
    ∃ head back n, head.Fits ∧ registry.Opens head (.call index args.length) ∧
      code = head.layout ++ back ∧ registry.SpellsAll args back n := by
  obtain ⟨⟨found, hfound, haccepts⟩, -⟩ := hwell
  have hcount := hnumbered.count_le hfound haccepts
  cases h with
  | short hfunction hspace hargs =>
    cases hfunction.symm.trans hfound
    exact ⟨.short found.code, _, _, (hnumbered.space_eq_short_iff hfound).mp hspace,
      .short hfound hspace haccepts, rfl, hargs⟩
  | long hfunction hspace hargs =>
    cases hfunction.symm.trans hfound
    exact ⟨.long found.code args.length, _, _, ⟨hnumbered.code_lt hfound, hcount⟩,
      .long hfound haccepts, rfl, hargs⟩
  | widened hfunction hspace hargs =>
    cases hfunction.symm.trans hfound
    exact ⟨.long found.code args.length, _, _, ⟨hnumbered.code_lt hfound, hcount⟩,
      .long hfound haccepts, rfl, hargs⟩

theorem drop_layout (head : Head) (rest : Bytes) :
    (head.layout ++ rest).drop head.width = rest := by
  rw [← head.length_layout, List.drop_left]

/-- Reading a call reads its head, and then its arguments with one call less to nest. -/
private theorem read_call_ok {head : Head} {index count room offset next : Nat} {bytes rest : Bytes}
    {args : List Formula} (hfits : head.Fits)
    (hopening : registry.opening arity head = .ok (.call index count))
    (hargs : readMany (registry.read arity room) count (offset + head.width) bytes =
      .ok (args, next, rest)) :
    registry.read arity (room + 1) offset (head.layout ++ bytes) =
      .ok (.call index args, next, rest) := by
  rw [read, Head.read_layout hfits]
  simp only [hopening, drop_layout, hargs]

theorem read_call_error {head : Head} {index count room offset : Nat} {bytes : Bytes}
    {e : DecodeError} (hfits : head.Fits)
    (hopening : registry.opening arity head = .ok (.call index count))
    (hargs : readMany (registry.read arity room) count (offset + head.width) bytes = .error e) :
    registry.read arity (room + 1) offset (head.layout ++ bytes) = .error e := by
  rw [read, Head.read_layout hfits]
  simp only [hopening, drop_layout, hargs]

private theorem read_call_zero {head : Head} {index count : Nat} (hfits : head.Fits)
    (hopening : registry.opening arity head = .ok (.call index count)) (offset : Nat)
    (bytes : Bytes) :
    registry.read arity 0 offset (head.layout ++ bytes) =
      .error (.tooDeep registry.maxCallDepth offset) := by
  rw [read, Head.read_layout hfits]
  simp only [hopening]

mutual
/-- A readable spelling is read to its end, whatever follows it. -/
theorem read_of_readable (hnumbered : Numbered registry) {room offset widened : Nat}
    {code rest : Bytes} (formula : Formula)
    (h : registry.Readable arity room formula code widened) :
    registry.read arity room offset (code ++ rest) =
      .ok (formula, offset + code.length, rest) := by
  obtain ⟨hwell, hspells, hwithin, hdepth⟩ := h
  cases formula with
  | data bytes =>
    cases hspells
    have hfits : (Head.data bytes.length).Fits := hwell
    rw [read, List.append_assoc, Head.read_layout hfits]
    simp only [opening, drop_layout, List.take_left, List.drop_left, Nat.lt_irrefl, if_false,
      List.length_append, Head.length_layout, Nat.add_assoc]
  | argument index =>
    cases hspells
    have hlow : index < argumentCodes := hwell
    have hopening : registry.opening arity (.short index) = .ok (.argument index) :=
      opening_of_opens hnumbered (.argument hlow) fun n hn => by
        have := hwithin n hn
        simp only [Formula.numArgs, argumentCodes] at this hlow
        omega
    have hfits : (Head.short index).Fits := Nat.lt_trans hlow (by decide)
    rw [read, Head.read_layout hfits]
    simp only [hopening, drop_layout, Head.length_layout]
  | call index args =>
    obtain ⟨head, back, n, hfits, hopens, rfl, hargs⟩ := hspells.head hnumbered hwell
    have hopening : registry.opening arity head = .ok (.call index args.length) :=
      opening_of_opens hnumbered hopens trivial
    simp only [Formula.depth] at hdepth
    obtain ⟨room, rfl⟩ : ∃ r, room = r + 1 := ⟨room - 1, by omega⟩
    have hreadable : registry.ReadableAll arity room args back n :=
      ⟨hwell.2, hargs, hwithin, by omega⟩
    rw [List.append_assoc,
      read_call_ok hfits hopening (readMany_of_readable hnumbered args hreadable),
      List.length_append, Head.length_layout, Nat.add_assoc]

theorem readMany_of_readable (hnumbered : Numbered registry) {room offset widened : Nat}
    {code rest : Bytes} (formulas : List Formula)
    (h : registry.ReadableAll arity room formulas code widened) :
    readMany (registry.read arity room) formulas.length offset (code ++ rest) =
      .ok (formulas, offset + code.length, rest) := by
  obtain ⟨hwell, hspells, hwithin, hdepth⟩ := h
  cases formulas with
  | nil =>
    cases hspells
    rfl
  | cons arg formulas =>
    cases hspells with
    | cons harg hrest =>
      simp only [Formula.numArgsAll, Formula.depthAll, Nat.max_le] at hwithin hdepth
      rw [List.length_cons, readMany, List.append_assoc,
        read_of_readable hnumbered arg ⟨hwell.1, harg, fun n hn => (hwithin n hn).1, hdepth.1⟩]
      simp only
      rw [readMany_of_readable hnumbered formulas
        ⟨hwell.2, hrest, fun n hn => (hwithin n hn).2, hdepth.2⟩]
      simp only [List.length_append, Nat.add_assoc]
end

/-- Why the spelling of a well-formed formula is not read: some call is nested too deeply, or the arity
does not cover some reference, of which the first is reported. -/
inductive Refusal (registry : Registry σ) (arity : Option Nat) (room : Nat) (references : List Nat)
    (depth : Nat) : DecodeError → Prop where
  | tooDeep (h : room < depth) (place : Nat) :
      Refusal registry arity room references depth (.tooDeep registry.maxCallDepth place)
  | outOfRange {index count : Nat} (harity : arity = some count)
      (hindex : references.find? (count ≤ ·) = some index) :
      Refusal registry arity room references depth (.argumentOutOfRange index count)

private theorem read_argument_refused {index : Nat} (hlow : index < argumentCodes) {room : Nat}
    (h : ¬ ∀ count, arity = some count → (Formula.argument index).numArgs ≤ count) (offset : Nat)
    (rest : Bytes) :
    ∃ e, registry.read arity room offset ((Head.short index).layout ++ rest) = .error e ∧
      registry.Refusal arity room [index] 0 e := by
  have hfits : (Head.short index).Fits := Nat.lt_trans hlow (by decide)
  cases arity with
  | none => exact absurd (fun _ hnone => by cases hnone) h
  | some count =>
    have hcount : count ≤ index := by
      apply Nat.le_of_not_lt
      intro hlt
      apply h
      rintro _ ⟨⟩
      simp only [Formula.numArgs, argumentCodes] at hlow ⊢
      omega
    have hopening : registry.opening (some count) (.short index) =
        .error (.argumentOutOfRange index count) := by
      simp only [opening, if_pos hlow, if_pos hcount]
    refine ⟨.argumentOutOfRange index count, ?_, .outOfRange rfl (by simp [hcount])⟩
    rw [read, Head.read_layout hfits]
    simp only [hopening]

private theorem Readable.cons {room m n : Nat} {arg : Formula} {formulas : List Formula}
    {front back : Bytes} (h : registry.Readable arity room arg front m)
    (hrest : registry.ReadableAll arity room formulas back n) :
    registry.ReadableAll arity room (arg :: formulas) (front ++ back) (m + n) where
  wellFormed := ⟨h.wellFormed, hrest.wellFormed⟩
  spells := .cons h.spells hrest.spells
  within := fun count hcount => Nat.max_le.mpr ⟨h.within count hcount, hrest.within count hcount⟩
  depth := Nat.max_le.mpr ⟨h.depth, hrest.depth⟩

/-- A refusal in what follows formulas that are read is a refusal of them all. -/
private theorem Refusal.after {room depth depth' : Nat} {references references' : List Nat}
    {e : DecodeError} (h : registry.Refusal arity room references depth e)
    (hbefore : ∀ count, arity = some count → ∀ index ∈ references', index < count) :
    registry.Refusal arity room (references' ++ references) (max depth' depth) e := by
  cases h with
  | tooDeep hdeep place => exact .tooDeep (by omega) place
  | @outOfRange index count harity hindex =>
    refine .outOfRange harity ?_
    have hnone : references'.find? (count ≤ ·) = none := by
      rw [List.find?_eq_none]
      intro index hmem
      have := hbefore count harity index hmem
      simp only [decide_eq_true_eq]
      omega
    rw [List.find?_append, hnone, Option.none_or, hindex]

mutual
/-- A spelling of a well-formed formula that is not readable is refused. -/
theorem read_refused (hnumbered : Numbered registry) {room widened : Nat} {code : Bytes}
    (formula : Formula) (hwell : registry.WellFormed formula)
    (hspells : registry.Spells formula code widened)
    (h : ¬ registry.Readable arity room formula code widened) (offset : Nat) (rest : Bytes) :
    ∃ e, registry.read arity room offset (code ++ rest) = .error e ∧
      registry.Refusal arity room formula.references formula.depth e := by
  cases formula with
  | data bytes =>
    exact absurd ⟨hwell, hspells, fun _ _ => Nat.zero_le _, Nat.zero_le _⟩ h
  | argument index =>
    have hwithin : ¬ ∀ count, arity = some count → (Formula.argument index).numArgs ≤ count :=
      fun hwithin => h ⟨hwell, hspells, hwithin, Nat.zero_le _⟩
    cases hspells
    exact read_argument_refused hwell hwithin offset rest
  | call index args =>
    obtain ⟨head, back, n, hfits, hopens, rfl, hargs⟩ := hspells.head hnumbered hwell
    have hopening : registry.opening arity head = .ok (.call index args.length) :=
      opening_of_opens hnumbered hopens trivial
    rw [List.append_assoc]
    cases room with
    | zero =>
      have hdeep : 0 < (Formula.call index args).depth := by
        rw [Formula.depth]
        omega
      exact ⟨_, read_call_zero hfits hopening offset _, .tooDeep hdeep offset⟩
    | succ room =>
      have hall : ¬ registry.ReadableAll arity room args back n := by
        intro hall
        refine h ⟨hwell, hspells, hall.within, ?_⟩
        have := hall.depth
        rw [Formula.depth]
        omega
      obtain ⟨e, he, hrefusal⟩ := readMany_refused hnumbered args hwell.2 hargs hall
        (offset + head.width) rest
      refine ⟨e, read_call_error hfits hopening he, ?_⟩
      cases hrefusal with
      | tooDeep hdeep place =>
        refine .tooDeep ?_ place
        rw [Formula.depth]
        omega
      | outOfRange harity hindex => exact .outOfRange harity hindex

theorem readMany_refused (hnumbered : Numbered registry) {room widened : Nat} {code : Bytes}
    (formulas : List Formula) (hwell : registry.WellFormedAll formulas)
    (hspells : registry.SpellsAll formulas code widened)
    (h : ¬ registry.ReadableAll arity room formulas code widened) (offset : Nat) (rest : Bytes) :
    ∃ e, readMany (registry.read arity room) formulas.length offset (code ++ rest) = .error e ∧
      registry.Refusal arity room (Formula.referencesAll formulas) (Formula.depthAll formulas) e := by
  cases formulas with
  | nil => exact absurd ⟨hwell, hspells, fun _ _ => Nat.zero_le _, Nat.zero_le _⟩ h
  | cons arg formulas =>
    cases hspells with
    | @cons _ _ front back m n harg hrest =>
      rw [List.length_cons, readMany, List.append_assoc]
      by_cases hfirst : registry.Readable arity room arg front m
      · -- The first formula is read, so one of the others is refused.
        have hothers : ¬ registry.ReadableAll arity room formulas back n :=
          fun hothers => h (hfirst.cons hothers)
        obtain ⟨e, he, hrefusal⟩ := readMany_refused hnumbered formulas hwell.2 hrest hothers
          (offset + front.length) rest
        rw [read_of_readable hnumbered arg hfirst]
        refine ⟨e, by simp only [he], hrefusal.after fun count hcount => ?_⟩
        exact (numArgs_le_iff arg hwell.1).mp (hfirst.within count hcount)
      · obtain ⟨e, he, hrefusal⟩ := read_refused hnumbered arg hwell.1 harg hfirst offset
          (back ++ rest)
        refine ⟨e, by rw [he], ?_⟩
        cases hrefusal with
        | tooDeep hdeep place => exact .tooDeep (Nat.lt_of_lt_of_le hdeep (Nat.le_max_left _ _)) place
        | outOfRange harity hindex =>
          refine .outOfRange harity ?_
          rw [Formula.referencesAll, List.find?_append, hindex, Option.some_or]
end

/-- A spelling whose references are covered can only be refused as too deep. -/
theorem read_too_deep (hnumbered : Numbered registry) {room widened : Nat} {code : Bytes}
    (formula : Formula) (hwell : registry.WellFormed formula)
    (hspells : registry.Spells formula code widened)
    (hwithin : ∀ count, arity = some count → formula.numArgs ≤ count)
    (hdeep : room < formula.depth) (offset : Nat) (rest : Bytes) :
    ∃ place, registry.read arity room offset (code ++ rest) =
      .error (.tooDeep registry.maxCallDepth place) := by
  have hnot : ¬ registry.Readable arity room formula code widened :=
    fun hreadable => absurd hreadable.depth (Nat.not_le_of_gt hdeep)
  obtain ⟨e, he, hrefusal⟩ := read_refused hnumbered formula hwell hspells hnot offset rest
  cases hrefusal with
  | tooDeep _ place => exact ⟨place, he⟩
  | @outOfRange index count harity hindex =>
    have habove : count ≤ index := by simpa using List.find?_some hindex
    have hbelow := (numArgs_le_iff formula hwell).mp (hwithin count harity) index
      (List.mem_of_find?_eq_some hindex)
    omega

/-- What a counted reader returns consists of what it reads one by one. -/
private theorem readableAll_of_readMany {room : Nat}
    (hread : ∀ {offset bytes formula next rest},
      registry.read arity room offset bytes = .ok (formula, next, rest) →
      ∃ code widened, bytes = code ++ rest ∧ next = offset + code.length ∧
        registry.Readable arity room formula code widened)
    {count offset next : Nat} {bytes rest : Bytes} {formulas : List Formula}
    (h : readMany (registry.read arity room) count offset bytes = .ok (formulas, next, rest)) :
    formulas.length = count ∧ ∃ code widened, bytes = code ++ rest ∧ next = offset + code.length ∧
      registry.ReadableAll arity room formulas code widened := by
  induction count generalizing offset bytes formulas with
  | zero =>
    cases h
    exact ⟨rfl, [], 0, rfl, rfl, trivial, .nil, fun _ _ => Nat.zero_le _, Nat.zero_le _⟩
  | succ count ih =>
    rw [readMany] at h
    split at h
    · cases h
    rename_i formula middle tail hfirst
    split at h
    · cases h
    rename_i formulas hrest
    cases h
    obtain ⟨front, m, rfl, rfl, hfront⟩ := hread hfirst
    obtain ⟨rfl, back, n, rfl, rfl, hback⟩ := ih hrest
    refine ⟨rfl, front ++ back, m + n, (List.append_assoc _ _ _).symm, ?_, hfront.cons hback⟩
    rw [List.length_append, Nat.add_assoc]

/-- A head that opens a call makes it readable when the arguments behind it are. -/
private theorem ReadableAll.call {head : Head} {room index widened : Nat} {args : List Formula}
    {code : Bytes} (h : registry.ReadableAll arity room args code widened)
    (hopens : registry.Opens head (.call index args.length)) :
    ∃ n, registry.Readable arity (room + 1) (.call index args) (head.layout ++ code) n := by
  have hdepth : (Formula.call index args).depth ≤ room + 1 := by
    rw [Formula.depth, Nat.add_comm]
    exact Nat.succ_le_succ h.depth
  cases hopens with
  | short hfunction hspace haccepts =>
    exact ⟨widened, ⟨⟨_, hfunction, haccepts⟩, h.wellFormed⟩, .short hfunction hspace h.spells,
      h.within, hdepth⟩
  | @long _ _ function hfunction haccepts =>
    by_cases hspace : function.space = .embeddedShort
    · exact ⟨widened + 1, ⟨⟨_, hfunction, haccepts⟩, h.wellFormed⟩,
        .widened hfunction hspace h.spells, h.within, hdepth⟩
    · exact ⟨widened, ⟨⟨_, hfunction, haccepts⟩, h.wellFormed⟩, .long hfunction hspace h.spells,
        h.within, hdepth⟩

/-- Whatever is read is a readable spelling. -/
theorem readable_of_read (hnumbered : Numbered registry) {room offset next : Nat}
    {bytes rest : Bytes} {formula : Formula}
    (h : registry.read arity room offset bytes = .ok (formula, next, rest)) :
    ∃ code widened, bytes = code ++ rest ∧ next = offset + code.length ∧
      registry.Readable arity room formula code widened := by
  -- Only calls use up room, so the three kinds of formulas are told apart before it is looked at.
  induction room using Nat.strongRecOn generalizing offset bytes formula next rest with
  | _ room ih =>
    rw [read] at h
    split at h
    · cases h
    · cases h
    · cases h
    rename_i head hhead
    obtain ⟨hfits, hbytes⟩ := Head.read_ok hhead
    generalize hback : bytes.drop head.width = back at h hbytes
    subst hbytes
    simp only at h
    split at h
    · cases h
    · rename_i length hopening
      cases (opens_of_opening hnumbered hfits hopening).1
      split at h
      · cases h
      · rename_i hlength
        cases h
        have hlength : (back.take length).length = length := by
          simp only [List.length_take] at hlength ⊢
          omega
        have hspells : registry.Spells _ _ _ := .data (back.take length)
        rw [hlength] at hspells
        refine ⟨_, 0, ?_, ?_, ?_, hspells, fun _ _ => Nat.zero_le _, Nat.zero_le _⟩
        · rw [List.append_assoc, List.take_append_drop]
        · rw [List.length_append, hlength, Head.length_layout, Nat.add_assoc]
        · exact Nat.le_trans (Nat.le_of_eq hlength) hfits
    · rename_i index hopening
      obtain ⟨hopens, hwithin⟩ := opens_of_opening hnumbered hfits hopening
      cases h
      cases hopens with
      | argument hlow =>
        refine ⟨_, 0, rfl, ?_, hlow, .argument index, fun n hn => ?_, Nat.zero_le _⟩
        · rw [Head.length_layout]
        · have := hwithin n hn
          simp only [Formula.numArgs]
          omega
    · rename_i index count hopening
      obtain ⟨hopens, -⟩ := opens_of_opening hnumbered hfits hopening
      split at h
      · cases h
      rename_i room
      split at h
      · cases h
      rename_i args hargs
      cases h
      obtain ⟨rfl, code, n, rfl, rfl, hreadable⟩ :=
        readableAll_of_readMany (ih room (Nat.lt_succ_self room)) hargs
      obtain ⟨m, hcall⟩ := hreadable.call hopens
      refine ⟨_, m, (List.append_assoc _ _ _).symm, ?_, hcall⟩
      rw [List.length_append, Head.length_layout, Nat.add_assoc]

end
end Registry
end ByteFormula
