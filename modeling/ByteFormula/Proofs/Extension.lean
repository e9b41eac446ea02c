import ByteFormula.Proofs.Compilation
import ByteFormula.Proofs.Layers

/-! Registries that grow. A call may register functions or be refused, but the functions that are
there keep their indices, names and codes. So what was found, compiled, written or read before is
found, compiled, written and read the same way afterwards. -/
namespace ByteFormula

/-- A call that registers functions or sets the bound on nested calls. -/
inductive Registration (σ : Type) where
  | setMaxCallDepth (depth : Nat)
  | embedShort (symbol : String) (arity : Nat) (program : Host σ Bytes)
  | embedLong (symbol : String) (arity : Arity) (program : Host σ Bytes)
  | extend (symbol source : String)
  | extendWithArity (symbol : String) (arity : Arity) (source : String)
  | extendMany (source : String)

namespace Registry

variable {σ : Type}

/-- The outcome of a call for one function, as that of a call for any number of them. -/
def answered {ε : Type} (wrap : ε → Error) :
    Except ε Nat × Registry σ → Except Error (List Nat) × Registry σ
  | (.error e, after) => (.error (wrap e), after)
  | (.ok index, after) => (.ok [index], after)

theorem answered_snd {ε : Type} (wrap : ε → Error) (outcome : Except ε Nat × Registry σ) :
    (answered wrap outcome).2 = outcome.2 := by
  rcases outcome with ⟨_ | _, after⟩ <;> rfl

/-- What a call returns, the indices of the functions that it registers, and the registry after it,
whether it succeeds or not. -/
def respond (registry : Registry σ) : Registration σ → Except Error (List Nat) × Registry σ
  | .setMaxCallDepth depth => (.ok [], registry.setMaxCallDepth depth)
  | .embedShort symbol arity program =>
    answered .registry (registry.embedShort symbol arity program)
  | .embedLong symbol arity program => answered .registry (registry.embedLong symbol arity program)
  | .extend symbol source => answered id (registry.extend symbol source)
  | .extendWithArity symbol arity source => answered id (registry.extendWithArity symbol arity source)
  | .extendMany source => registry.extendMany source

def perform (registry : Registry σ) (call : Registration σ) : Registry σ :=
  (registry.respond call).2

def performAll (registry : Registry σ) : List (Registration σ) → Registry σ
  | [] => registry
  | call :: rest => (registry.perform call).performAll rest

/-- What every single change keeps, every call keeps. -/
theorem perform_steps {P : Registry σ → Prop}
    (hstep : ∀ {registry after : Registry σ}, P registry → Step registry after → P after)
    {registry : Registry σ} (h : P registry) (call : Registration σ) : P (registry.perform call) := by
  cases call with
  | setMaxCallDepth depth => exact hstep h (.bound registry depth)
  | embedShort symbol arity program =>
    rw [perform, respond, answered_snd]
    exact (embedShort_registers registry symbol arity program).keeps h (hstep h)
  | embedLong symbol arity program =>
    rw [perform, respond, answered_snd]
    exact (embedLong_registers registry symbol arity program).keeps h (hstep h)
  | extend symbol source =>
    rw [perform, respond, answered_snd]
    exact (extend_registers registry symbol source).keeps h (hstep h)
  | extendWithArity symbol arity source =>
    rw [perform, respond, answered_snd]
    exact (extendWithArity_registers registry symbol arity source).keeps h (hstep h)
  | extendMany source => exact extendMany_steps hstep h source

theorem performAll_steps {P : Registry σ → Prop}
    (hstep : ∀ {registry after : Registry σ}, P registry → Step registry after → P after)
    {registry : Registry σ} (h : P registry) (calls : List (Registration σ)) :
    P (registry.performAll calls) := by
  induction calls generalizing registry with
  | nil => exact h
  | cons call rest ih => exact ih (perform_steps hstep h call)

/-- The functions of one registry come first in the other, and its tables lead to them there too. -/
structure Extends (before after : Registry σ) : Prop where
  functions : before.functions.toList <+: after.functions.toList
  names : ∀ {symbol index}, before.names.find? symbol = some index →
    after.names.find? symbol = some index
  codes : ∀ {code index}, before.codes.find? code = some index →
    after.codes.find? code = some index

theorem Extends.refl (registry : Registry σ) : Extends registry registry :=
  ⟨List.prefix_rfl, id, id⟩

theorem Extends.trans {before between after : Registry σ} (h : Extends before between)
    (h' : Extends between after) : Extends before after :=
  ⟨h.functions.trans h'.functions, fun hfound => h'.names (h.names hfound),
    fun hfound => h'.codes (h.codes hfound)⟩

/-- A function with a new name and a new code hides none that is there. -/
theorem extends_push {registry : Registry σ} {function : Function σ}
    (hname : registry.names.find? function.symbol = none)
    (hcode : registry.codes.find? function.code = none) :
    Extends registry (registry.push function) := by
  refine ⟨?_, ?_, ?_⟩
  · rw [push, Array.toList_push]
    exact List.prefix_append _ _
  · intro symbol index hfound
    rw [push, Index.find?_insert, if_neg, hfound]
    rintro rfl
    cases hname.symm.trans hfound
  · intro code index hfound
    rw [push, Index.find?_insert, if_neg, hfound]
    rintro rfl
    cases hcode.symm.trans hfound

theorem extends_insert {registry after : Registry σ} (hnumbered : Numbered registry)
    {symbol : String} {arity : Arity} {body : Body σ} {source : Option String} {index : Nat}
    (hok : registry.insert symbol arity body source = (.ok index, after)) :
    Extends registry after := by
  obtain ⟨hvet, hroom, -, rfl⟩ := insert_ok hok
  exact extends_push (vet_ok hvet).2.1 (hnumbered.find?_next hroom)

theorem Step.extends {registry after : Registry σ} (h : Step registry after)
    (hnumbered : Numbered registry) : Extends registry after := by
  cases h with
  | bound depth =>
    unfold setMaxCallDepth
    split <;> exact ⟨List.prefix_rfl, id, id⟩
  | host _ hok => exact extends_insert hnumbered hok
  | definition _ _ hok => exact extends_insert hnumbered hok

theorem extends_performAll {registry : Registry σ} (h : Reached registry)
    (calls : List (Registration σ)) : Extends registry (registry.performAll calls) := by
  have hboth : Reached (registry.performAll calls) ∧ Extends registry (registry.performAll calls) := by
    refine performAll_steps (P := fun after => Reached after ∧ Extends registry after)
      (fun hbefore hstep => ?_) ⟨h, .refl registry⟩ calls
    exact ⟨hbefore.1.step hstep, hbefore.2.trans (hstep.extends hbefore.1.numbered)⟩
  exact hboth.2

namespace Extends

variable {before after : Registry σ}

theorem function? (h : Extends before after) {index : Nat} {function : Function σ}
    (hfunction : before.function? index = some function) :
    after.function? index = some function := by
  rw [Registry.function?, ← Array.getElem?_toList] at hfunction ⊢
  obtain ⟨hlt, rfl⟩ := List.getElem?_eq_some_iff.mp hfunction
  rw [List.getElem?_eq_getElem (Nat.lt_of_lt_of_le hlt h.functions.length_le),
    h.functions.getElem hlt]

theorem lookup? (h : Extends before after) {κ : Type} [DecidableEq κ] {table table' : Index κ} {k : κ}
    {found : Nat × Function σ} (htable : ∀ {index}, table.find? k = some index →
      table'.find? k = some index) (hfound : before.lookup? table k = some found) :
    after.lookup? table' k = some found := by
  unfold Registry.lookup? at hfound
  split at hfound
  · cases hfound
  rename_i index hindex
  obtain ⟨function, hfunction, rfl⟩ := Option.map_eq_some_iff.mp hfound
  simp only [Registry.lookup?, htable hindex, h.function? hfunction, Option.map_some]

theorem byName? (h : Extends before after) {symbol : String} {found : Nat × Function σ}
    (hfound : before.byName? symbol = some found) : after.byName? symbol = some found :=
  h.lookup? h.names hfound

theorem byCode? (h : Extends before after) {code : Nat} {found : Nat × Function σ}
    (hfound : before.byCode? code = some found) : after.byCode? code = some found :=
  h.lookup? h.codes hfound

theorem resolve (h : Extends before after) {symbol : String} {count index : Nat}
    (hok : before.resolve symbol count = .ok index) : after.resolve symbol count = .ok index := by
  unfold Registry.resolve at hok ⊢
  split at hok
  · cases hok
  rename_i hcount
  rw [if_neg hcount]
  split at hok
  · cases hok
  · rename_i hfound
    rw [h.byName? hfound]
    exact hok

mutual
theorem formulaOf (h : Extends before after) {arity : Option Nat} {formula : Formula}
    (e : Expression) (hok : before.formulaOf arity e = .ok formula) :
    after.formulaOf arity e = .ok formula := by
  obtain ⟨symbol, args⟩ := e
  rw [formulaOf_eq_ok_iff] at hok ⊢
  -- Constants and references do not look at the registry.
  rcases hok with hliteral | hreference | ⟨hliteral, hreference, index, formulas, hresolve, hargs, heq⟩
  · exact .inl hliteral
  · exact .inr (.inl hreference)
  · exact .inr (.inr ⟨hliteral, hreference, index, formulas, h.resolve hresolve,
      h.formulasOf args hargs, heq⟩)

theorem formulasOf (h : Extends before after) {arity : Option Nat} {formulas : List Formula}
    (args : List Expression) (hok : before.formulasOf arity args = .ok formulas) :
    after.formulasOf arity args = .ok formulas := by
  cases args with
  | nil => exact hok
  | cons e rest =>
    obtain ⟨first, others, hfirst, hothers, rfl⟩ := formulasOf_cons_eq_ok_iff.mp hok
    exact formulasOf_cons_eq_ok_iff.mpr
      ⟨first, others, h.formulaOf e hfirst, h.formulasOf rest hothers, rfl⟩
end

mutual
theorem wellFormed (h : Extends before after) (formula : Formula)
    (hwell : before.WellFormed formula) : after.WellFormed formula := by
  cases formula with
  | data bytes => exact hwell
  | argument index => exact hwell
  | call index args =>
    obtain ⟨⟨function, hfunction, haccepts⟩, hargs⟩ := hwell
    exact ⟨⟨function, h.function? hfunction, haccepts⟩, h.wellFormedAll args hargs⟩

theorem wellFormedAll (h : Extends before after) (formulas : List Formula)
    (hwell : before.WellFormedAll formulas) : after.WellFormedAll formulas := by
  cases formulas with
  | nil => trivial
  | cons arg rest => exact ⟨h.wellFormed arg hwell.1, h.wellFormedAll rest hwell.2⟩
end

mutual
theorem encode (h : Extends before after) {code : Bytes} (formula : Formula)
    (hok : before.encode formula = .ok code) : after.encode formula = .ok code := by
  cases formula with
  | data bytes => exact hok
  | argument index => exact hok
  | call index args =>
    rw [Registry.encode] at hok ⊢
    split at hok
    · cases hok
    rename_i function hfunction
    split at hok
    · cases hok
    rename_i rest hrest
    simp only [h.function? hfunction, h.encodeAll args hrest]
    exact hok

theorem encodeAll (h : Extends before after) {code : Bytes} (formulas : List Formula)
    (hok : before.encodeAll formulas = .ok code) : after.encodeAll formulas = .ok code := by
  cases formulas with
  | nil => exact hok
  | cons arg rest =>
    rw [Registry.encodeAll] at hok ⊢
    split at hok
    · cases hok
    rename_i front hfront
    split at hok
    · cases hok
    rename_i back hback
    simp only [h.encode arg hfront, h.encodeAll rest hback]
    exact hok
end

theorem compile (h : Extends before after) {source : String} {compiled : Compiled}
    (hok : before.compile source = .ok compiled) : after.compile source = .ok compiled := by
  unfold Registry.compile at hok ⊢
  split at hok
  · cases hok
  rename_i e hparse
  split at hok
  · cases hok
  rename_i formula hformula
  split at hok
  · cases hok
  rename_i bytecode hbytecode
  simp only [h.formulaOf e hformula, h.encode formula hbytecode]
  exact hok

end Extends

/-- A result that is not for lack of a function: later registrations cannot change it. -/
def Known {α : Type} (result : Except DecodeError α) : Prop :=
  ∀ code, result ≠ .error (.unknownFunctionCode code)

private theorem known_ok {α : Type} (value : α) : Known (.ok value : Except DecodeError α) :=
  fun _ h => nomatch h

/-- Errors are passed on, so a known result had only known ones on its way. -/
theorem Known.of_passed {α β : Type} {result : Except DecodeError α} {part : Except DecodeError β}
    (h : Known result) (hpassed : ∀ e, part = .error e → result = .error e) : Known part :=
  fun code hcode => h code (hpassed _ hcode)

section

variable {before after : Registry σ} {arity : Option Nat}

theorem Extends.opening (h : Extends before after) {head : Head}
    (hknown : Known (before.opening arity head)) :
    after.opening arity head = before.opening arity head := by
  cases head with
  | data length => rfl
  | short code =>
    simp only [Registry.opening] at hknown ⊢
    split
    · rfl
    rename_i hcode
    rw [if_neg hcode] at hknown
    cases hfound : before.byCode? code with
    | none =>
      rw [hfound] at hknown
      exact absurd rfl (hknown code)
    | some found => rw [h.byCode? hfound]
  | long code declared =>
    simp only [Registry.opening] at hknown ⊢
    cases hfound : before.byCode? code with
    | none =>
      rw [hfound] at hknown
      exact absurd rfl (hknown code)
    | some found => rw [h.byCode? hfound]

private theorem readMany_congr
    {read read' : Nat → Bytes → Except DecodeError (Formula × Nat × Bytes)}
    (hread : ∀ {offset bytes}, Known (read offset bytes) → read' offset bytes = read offset bytes)
    {count offset : Nat} {bytes : Bytes} (hknown : Known (readMany read count offset bytes)) :
    readMany read' count offset bytes = readMany read count offset bytes := by
  induction count generalizing offset bytes with
  | zero => rfl
  | succ count ih =>
    rw [readMany] at hknown ⊢
    rw [readMany]
    cases hfirst : read offset bytes with
    | error e =>
      have hsame : read' offset bytes = .error e := by
        rw [← hfirst]
        exact hread (hknown.of_passed fun e he => by rw [he])
      rw [hsame]
    | ok first =>
      have hsame : read' offset bytes = .ok first := by
        rw [← hfirst]
        apply hread
        rw [hfirst]
        exact known_ok first
      obtain ⟨formula, next, rest⟩ := first
      simp only [hfirst] at hknown
      simp only [hsame]
      have hrest : readMany read' count next rest = readMany read count next rest :=
        ih (hknown.of_passed fun e he => by rw [he])
      rw [hrest]

/-- Reading goes the same way as long as it meets no code that is not there. -/
theorem Extends.read (h : Extends before after) (hdepth : after.maxCallDepth = before.maxCallDepth)
    {room offset : Nat} {bytes : Bytes} (hknown : Known (before.read arity room offset bytes)) :
    after.read arity room offset bytes = before.read arity room offset bytes := by
  induction room using Nat.strongRecOn generalizing offset bytes with
  | _ room ih =>
    rw [Registry.read] at hknown ⊢
    rw [Registry.read]
    cases hhead : Head.read bytes with
    | error e => cases e <;> rfl
    | ok head =>
      simp only [hhead] at hknown
      simp only
      have hopening : after.opening arity head = before.opening arity head :=
        h.opening (hknown.of_passed fun e he => by rw [he])
      rw [hopening]
      cases hopen : before.opening arity head with
      | error e => rfl
      | ok o =>
        cases o with
        | data length => rfl
        | argument index => rfl
        | call index count =>
          simp only [hopen] at hknown
          cases room with
          | zero => simp only [hdepth]
          | succ room =>
            have hargs : readMany (after.read arity room) count (offset + head.width)
                (bytes.drop head.width) = readMany (before.read arity room) count
                (offset + head.width) (bytes.drop head.width) :=
              readMany_congr (fun hpart => ih room (Nat.lt_succ_self room) hpart)
                (hknown.of_passed fun e he => by simp only [he])
            simp only [hargs]

theorem Extends.decode (h : Extends before after)
    (hdepth : after.maxCallDepth = before.maxCallDepth) {bytecode : Bytes}
    (hknown : Known (before.decode bytecode arity)) :
    after.decode bytecode arity = before.decode bytecode arity := by
  unfold Registry.decode at hknown ⊢
  rw [hdepth, h.read hdepth (hknown.of_passed fun e he => by rw [he])]

end
end Registry
end ByteFormula
