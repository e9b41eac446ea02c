import ByteFormula.Proofs.Extension

/-! Consistency of registries. Whatever calls were made, names and codes lead to one function each,
codes are numbered in order of registration, and a definition is the well-formed formula that its
source compiled to when it was registered, along with the bytecode of that formula. -/
namespace ByteFormula.Registry

variable {σ : Type} {registry : Registry σ}

def ofFunctions (maxCallDepth : Nat) (functions : List (Function σ)) : Registry σ :=
  functions.foldl push { empty with maxCallDepth := maxCallDepth }

/-- The functions before an index, which is what there was when the function at the index was
registered. -/
def earlier (registry : Registry σ) (index : Nat) : Registry σ :=
  ofFunctions registry.maxCallDepth (registry.functions.toList.take index)

section

variable {functions : List (Function σ)}

private theorem toList_foldl_push :
    (functions.foldl push registry).functions.toList = registry.functions.toList ++ functions := by
  induction functions generalizing registry with
  | nil => exact (List.append_nil _).symm
  | cons function rest ih =>
    rw [List.foldl_cons, ih, push, Array.toList_push, List.append_assoc, List.singleton_append]

private theorem toList_ofFunctions (depth : Nat) :
    (ofFunctions depth functions).functions.toList = functions :=
  toList_foldl_push

private theorem foldl_push_maxCallDepth (depth : Nat) :
    functions.foldl push { registry with maxCallDepth := depth } =
      { functions.foldl push registry with maxCallDepth := depth } := by
  induction functions generalizing registry with
  | nil => rfl
  | cons function rest ih => exact @ih (registry.push function)

/-- Functions with keys of their own are all found by them, if `table` gets an entry along with each
of them. -/
private theorem indexed_foldl_push {κ : Type} [DecidableEq κ] (table : Registry σ → Index κ)
    {key : Function σ → κ} (htable : ∀ registry function,
      table (registry.push function) = (table registry).insert (key function) registry.size)
    (h : registry.Indexed (table registry) key)
    (hfree : ∀ function ∈ functions, (table registry).find? (key function) = none)
    (hdistinct : functions.Pairwise fun function other => key function ≠ key other) :
    (functions.foldl push registry).Indexed (table (functions.foldl push registry)) key := by
  induction functions generalizing registry with
  | nil => exact h
  | cons function rest ih =>
    obtain ⟨hfirst, hrest⟩ := List.pairwise_cons.mp hdistinct
    have hpushed := h.push (hfree function List.mem_cons_self)
    rw [← htable] at hpushed
    refine ih hpushed (fun other hother => ?_) hrest
    rw [htable, Index.find?_insert, if_neg (hfirst other hother).symm]
    exact hfree other (List.mem_cons_of_mem function hother)

private theorem names_ofFunctions (depth : Nat)
    (hdistinct : functions.Pairwise fun function other => function.symbol ≠ other.symbol) :
    (ofFunctions depth functions).Indexed (ofFunctions depth functions).names Function.symbol :=
  indexed_foldl_push Registry.names (fun _ _ => rfl)
    (by simp [Indexed, Registry.function?, Registry.empty]) (fun _ _ => rfl) hdistinct

private theorem codes_ofFunctions (depth : Nat)
    (hdistinct : functions.Pairwise fun function other => function.code ≠ other.code) :
    (ofFunctions depth functions).Indexed (ofFunctions depth functions).codes Function.code :=
  indexed_foldl_push Registry.codes (fun _ _ => rfl)
    (by simp [Indexed, Registry.function?, Registry.empty]) (fun _ _ => rfl) hdistinct

end

namespace Indexed

variable {κ : Type} [DecidableEq κ] {table : Index κ} {key : Function σ → κ}

private theorem pairwise (h : registry.Indexed table key) :
    registry.functions.toList.Pairwise fun function other => key function ≠ key other := by
  rw [List.pairwise_iff_getElem]
  intro i j hi hj hlt hkey
  have hfunction {n : Nat} (hn : n < registry.functions.toList.length) :
      registry.function? n = some registry.functions.toList[n] := by
    rw [function?, ← Array.getElem?_toList, List.getElem?_eq_getElem hn]
  have := h.key_inj (hfunction hi) (hfunction hj) hkey
  omega

/-- A function that two registries have is under the same key in the tables of both. -/
theorem transfer {after : Registry σ} {table' : Index κ} (h : registry.Indexed table key)
    (h' : after.Indexed table' key) (hkeeps : ∀ {index function},
      registry.function? index = some function → after.function? index = some function) {k : κ}
    {index : Nat} (hfound : table.find? k = some index) : table'.find? k = some index := by
  obtain ⟨function, hfunction, hkey⟩ := (h k index).mp hfound
  exact (h' k index).mpr ⟨function, hkeeps hfunction, hkey⟩

end Indexed

/-- No name is reserved or given twice, and all are in the table of names. -/
structure Named (registry : Registry σ) : Prop where
  unreserved : ∀ {index function}, registry.function? index = some function →
    Literal.isReserved function.symbol = false
  names : registry.Indexed registry.names Function.symbol

namespace Named

theorem insert {after : Registry σ} {symbol : String} {arity : Arity} {body : Body σ}
    {source : Option String} {index : Nat} (h : Named registry)
    (hok : registry.insert symbol arity body source = (.ok index, after)) : Named after := by
  obtain ⟨hvet, -, -, rfl⟩ := insert_ok hok
  obtain ⟨hreserved, hfree, -, -⟩ := vet_ok hvet
  refine ⟨?_, h.names.push hfree⟩
  intro index function hfunction
  rw [function?_push] at hfunction
  split at hfunction
  · cases hfunction
    exact hreserved
  · exact h.unreserved hfunction

theorem byName?_eq_some_iff (h : Named registry) {symbol : String} {index : Nat}
    {function : Function σ} : registry.byName? symbol = some (index, function) ↔
      registry.function? index = some function ∧ function.symbol = symbol :=
  h.names.lookup?_eq_some_iff

theorem byName?_symbol (h : Named registry) {index : Nat} {function : Function σ}
    (hfunction : registry.function? index = some function) :
    registry.byName? function.symbol = some (index, function) :=
  h.byName?_eq_some_iff.mpr ⟨hfunction, rfl⟩

end Named

theorem Reached.named (h : Reached registry) : Named registry := by
  induction h with
  | empty => constructor <;> simp [function?, Registry.empty, Indexed]
  | step _ hstep ih =>
    cases hstep with
    | bound depth =>
      refine ⟨?_, ?_⟩
      · simp only [function?_setMaxCallDepth]
        exact ih.unreserved
      · rw [names_setMaxCallDepth]
        exact ih.names.setMaxCallDepth depth
    | host _ hok => exact ih.insert hok
    | definition _ _ hok => exact ih.insert hok

/-- What is there stays what it was when further functions come after it. -/
theorem Extends.earlier {before after : Registry σ} (h : Extends before after) {index : Nat}
    (hindex : index ≤ before.size) : Extends (before.earlier index) (after.earlier index) := by
  obtain ⟨rest, hrest⟩ := h.functions
  have hlength : index ≤ before.functions.toList.length := hindex
  have hsame : after.functions.toList.take index = before.functions.toList.take index := by
    rw [← hrest, List.take_append_of_le_length hlength]
  unfold Registry.earlier
  rw [hsame]
  simp only [ofFunctions, foldl_push_maxCallDepth]
  exact ⟨List.prefix_rfl, id, id⟩

/-- The functions before one that was just registered are those of the registry before it. -/
theorem Extends.earlier_size {before after : Registry σ} (h : Extends before after)
    (hnamed : Named before) (hnumbered : Numbered before) :
    Extends before (after.earlier before.size) := by
  obtain ⟨rest, hrest⟩ := h.functions
  have hsame : after.functions.toList.take before.size = before.functions.toList := by
    rw [← hrest, show before.size = before.functions.toList.length from rfl, List.take_left]
  rw [Registry.earlier, hsame]
  have hkeeps : ∀ {index function}, before.function? index = some function →
      (ofFunctions after.maxCallDepth before.functions.toList).function? index = some function := by
    intro index function hfunction
    rw [Registry.function?, ← Array.getElem?_toList, toList_ofFunctions, Array.getElem?_toList]
    exact hfunction
  refine ⟨?_, ?_, ?_⟩
  · rewrite [toList_ofFunctions]
    exact ⟨[], List.append_nil _⟩
  · exact hnamed.names.transfer (names_ofFunctions _ hnamed.names.pairwise) hkeeps
  · exact hnumbered.codes.transfer (codes_ofFunctions _ hnumbered.codes.pairwise) hkeeps

theorem extends_earlier (hnamed : Named registry) (hnumbered : Numbered registry) (index : Nat) :
    Extends (registry.earlier index) registry := by
  have hsublist := List.take_sublist index registry.functions.toList
  have hkeeps : ∀ {other function}, (registry.earlier index).function? other = some function →
      registry.function? other = some function := by
    intro other function hfunction
    rw [Registry.function?, ← Array.getElem?_toList, Registry.earlier, toList_ofFunctions,
      List.getElem?_take] at hfunction
    rw [Registry.function?, ← Array.getElem?_toList]
    split at hfunction
    · exact hfunction
    · cases hfunction
  refine ⟨?_, ?_, ?_⟩
  · rw [Registry.earlier, toList_ofFunctions]
    exact List.take_prefix index _
  · exact (names_ofFunctions _ (hnamed.names.pairwise.sublist hsublist)).transfer hnamed.names hkeeps
  · exact (codes_ofFunctions _ (hnumbered.codes.pairwise.sublist hsublist)).transfer
      hnumbered.codes hkeeps

/-- What a registry has on record for a definition: a formula that only calls functions before it
and only refers to its own arguments, which is what its source compiled to, with or without its
arity, and of which it keeps the bytecode. -/
structure Recorded (registry : Registry σ) (index : Nat) (function : Function σ) (body : Formula)
    (bytecode : Bytes) : Prop where
  wellFormed : registry.WellFormed body
  callsBelow : CallsBelow index body
  compiled : ∃ source arity e, function.source = some source ∧ function.arity = .fixed arity ∧
    (∀ reference ∈ body.references, reference < arity) ∧ Expression.parse 1 source = .ok e ∧
    (registry.earlier index).formulaOf none e = .ok body ∧
    (registry.earlier index).formulaOf (some arity) e = .ok body
  encoded : registry.encode body = .ok bytecode

theorem Recorded.mono {before after : Registry σ} (h : Extends before after) {index : Nat}
    {function : Function σ} {body : Formula} {bytecode : Bytes} (hindex : index ≤ before.size)
    (hrecorded : Recorded before index function body bytecode) :
    Recorded after index function body bytecode := by
  obtain ⟨source, arity, e, hsource, harity, hbelow, hparse, hfree, hbound⟩ := hrecorded.compiled
  have hearlier := h.earlier hindex
  exact {
    wellFormed := h.wellFormed body hrecorded.wellFormed
    callsBelow := hrecorded.callsBelow
    compiled := ⟨source, arity, e, hsource, harity, hbelow, hparse, hearlier.formulaOf e hfree,
      hearlier.formulaOf e hbound⟩
    encoded := h.encode body hrecorded.encoded }

/-- A definition is on record as soon as it is registered. -/
theorem recorded_of_prepare (hnamed : Named registry) (hnumbered : Numbered registry)
    {function : Function σ} {symbol source : String} {arity : Nat} {formula body : Formula}
    {bytecode : Bytes} (hpush : Extends registry (registry.push function))
    (hsource : function.source = some source) (harity : function.arity = .fixed arity)
    (hcompiles : registry.Compiles source arity formula)
    (hprepare : registry.prepare symbol arity formula = .ok (body, bytecode)) :
    Recorded (registry.push function) registry.size function body bytecode := by
  obtain ⟨e, hparse, hformula, hwithin⟩ := hcompiles.spec
  obtain ⟨hencode, hdecode⟩ := prepare_ok hprepare
  have hwell := wellFormed_of_formulaOf e hformula
  -- The body was read back from its own bytecode, so it is what was compiled.
  have hbody : body = formula :=
    eq_of_decode_encode hnumbered hwell hencode hdecode
  subst hbody
  have hbelow := (numArgs_le_iff body hwell).mp hwithin
  have hfree := (hpush.earlier_size hnamed hnumbered).formulaOf e hformula
  exact {
    wellFormed := hpush.wellFormed body hwell
    callsBelow := callsBelow_of_wellFormed body hwell
    compiled := ⟨source, arity, e, hsource, harity, hbelow, hparse, hfree,
      (formulaOf_some_iff e).mpr ⟨hfree, hbelow⟩⟩
    encoded := hpush.encode body hencode }

def AllRecorded (registry : Registry σ) : Prop :=
  ∀ ⦃index function body bytecode⦄, registry.function? index = some function →
    function.body = .defined body bytecode → Recorded registry index function body bytecode

theorem AllRecorded.push (h : AllRecorded registry) {function : Function σ}
    (hpush : Extends registry (registry.push function))
    (hnew : ∀ {body bytecode}, function.body = .defined body bytecode →
      Recorded (registry.push function) registry.size function body bytecode) :
    AllRecorded (registry.push function) := by
  intro index other body bytecode hother hbody
  rw [function?_push] at hother
  split at hother
  · subst_vars
    cases hother
    exact hnew hbody
  · have hindex := Nat.le_of_lt (lt_size_of_function? hother)
    exact (h hother hbody).mono hpush hindex

theorem Reached.allRecorded (h : Reached registry) : AllRecorded registry := by
  induction h with
  | empty =>
    intro index function body bytecode hfunction
    simp [function?, Registry.empty] at hfunction
  | @step before _ hreached hstep ih =>
    have hextends := hstep.extends hreached.numbered
    cases hstep with
    | bound =>
      intro index function body bytecode hfunction hbody
      rw [function?_setMaxCallDepth] at hfunction
      have hindex := Nat.le_of_lt (lt_size_of_function? hfunction)
      exact (ih hfunction hbody).mono hextends hindex
    | host hspace hok =>
      obtain ⟨-, -, -, rfl⟩ := insert_ok hok
      apply ih.push hextends
      intro body bytecode hbody
      cases hbody
      exact absurd rfl hspace
    | definition hcompiles hprepare hok =>
      obtain ⟨-, -, -, rfl⟩ := insert_ok hok
      apply ih.push hextends
      intro body bytecode hbody
      cases hbody
      exact recorded_of_prepare hreached.named hreached.numbered hextends rfl rfl hcompiles hprepare

/-- What can be relied on in a registry: each name and each code is in its table with the index of
its function, and nothing else is there, codes stay within their space, and definitions are on
record. -/
structure Consistent (registry : Registry σ) : Prop extends Named registry, Numbered registry where
  symbol_inj : ∀ {index other function function'}, registry.function? index = some function →
    registry.function? other = some function' → function.symbol = function'.symbol → index = other
  code_inj : ∀ {index other function function'}, registry.function? index = some function →
    registry.function? other = some function' → function.code = function'.code → index = other
  byName?_iff : ∀ {symbol index function}, registry.byName? symbol = some (index, function) ↔
    registry.function? index = some function ∧ function.symbol = symbol
  byCode?_iff : ∀ {code index function}, registry.byCode? code = some (index, function) ↔
    registry.function? index = some function ∧ function.code = code
  code_bounds : ∀ {index function}, registry.function? index = some function →
    function.space.first ≤ function.code ∧ function.code ≤ function.space.last
  recorded : registry.AllRecorded

private theorem Reached.consistent (h : Reached registry) : Consistent registry := by
  have hnamed := h.named
  have hnumbered := h.numbered
  exact { hnamed, hnumbered with
    symbol_inj := hnamed.names.key_inj
    code_inj := hnumbered.codes.key_inj
    byName?_iff := hnamed.byName?_eq_some_iff
    byCode?_iff := hnumbered.byCode?_eq_some_iff
    code_bounds := hnumbered.code_bounds
    recorded := h.allRecorded }

/-- Calls that register functions, in any order and whether they succeed or not, lead from the empty
registry to a consistent one. -/
theorem consistent_performAll (calls : List (Registration σ)) :
    Consistent ((empty : Registry σ).performAll calls) := by
  have hreached : Reached ((empty : Registry σ).performAll calls) :=
    performAll_steps Reached.step .empty calls
  exact hreached.consistent

end ByteFormula.Registry
