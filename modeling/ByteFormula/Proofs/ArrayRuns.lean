import ByteFormula.Data.LazyArray
import ByteFormula.Proofs.Packing

/-! Lazy arrays in use. However an array was made and whatever is called on it, it behaves like a
list of limited length, and its bytes are a packed form of that list. Which form this is depends on
what happened: the bytes it was made from, or those that `pack` writes. -/
namespace ByteFormula.LazyArray

inductive Origin where
  | empty (limit : Nat)
  | absent
  | ofBytes (raw : Bytes) (limit : Nat)
  | ofOptional (raw : Option Bytes)
  | ofElements (elements : List Bytes)

namespace Origin

def make : Origin → Except DataError LazyArray
  | .empty limit => .ok (LazyArray.empty limit)
  | .absent => .ok LazyArray.absent
  | .ofBytes raw limit => .ok (LazyArray.ofBytes raw limit)
  | .ofOptional raw => .ok (LazyArray.ofOptional raw)
  | .ofElements elements => LazyArray.ofElements elements

def raw? : Origin → Option Bytes
  | .ofBytes raw _ => some raw
  | .ofOptional raw => raw
  | _ => none

end Origin

inductive Call where
  | push (data : Bytes)
  | set (index : Nat) (data : Bytes)
  | get (index : Nat)
  | length
  | isEmpty
  | isFull
  | elements
  | materialize
  | bytes
  | intoBytes

namespace Call

def writes : Call → Bool
  | .push _ => true
  | .set _ _ => true
  | _ => false

def data : Call → Bytes
  | .push data => data
  | .set _ data => data
  | _ => []

def Fits (call : Call) : Prop :=
  call.data.length ≤ 0xffffffff

instance (call : Call) : Decidable call.Fits :=
  inferInstanceAs (Decidable (_ ≤ _))

end Call

inductive Answer where
  | index (value : Nat)
  | count (value : Nat)
  | truth (value : Bool)
  | bytes (value : Bytes)
  | elements (value : List Bytes)
  | done
  | failed (error : DataError)
  deriving DecidableEq, Repr

namespace Answer

def ofResult {α : Type} (wrap : α → Answer) : Except DataError α → Answer
  | .ok value => wrap value
  | .error e => .failed e

def isFailed : Answer → Bool
  | .failed _ => true
  | _ => false

end Answer

def answered {α : Type} (wrap : α → Answer) (outcome : Except DataError α × LazyArray) :
    Answer × LazyArray :=
  (.ofResult wrap outcome.1, outcome.2)

def perform (array : LazyArray) : Call → Answer × LazyArray
  | .push data => answered .index (array.push data)
  | .set index data => answered (fun _ => .done) (array.set index data)
  | .get index => answered .bytes (array.get index)
  | .length => answered .count array.length
  | .isEmpty => answered .truth array.isEmpty
  | .isFull => answered .truth array.isFull
  | .elements => answered (fun elements => .elements elements.toList) array.elements
  | .materialize =>
    match array.materialize with
    | .error e => (.failed e, array)
    | .ok after => (.done, after)
  | .bytes => answered .bytes array.bytes
  | .intoBytes => (.ofResult .bytes array.intoBytes, array)

def after (array : LazyArray) : List Call → LazyArray
  | [] => array
  | call :: rest => (array.perform call).2.after rest

/-- The elements of an array, or why there are none. -/
def contents (array : LazyArray) : Except DataError (List Bytes) :=
  array.elements.1.map Array.toList

end LazyArray

namespace PlainList

open LazyArray (Call Answer)

def next (limit : Nat) (list : List Bytes) : Call → List Bytes
  | .push data => if list.length < limit then list ++ [data] else list
  | .set index data => list.set index data
  | _ => list

def answer (limit : Nat) (list : List Bytes) : Call → Answer
  | .push _ =>
    if list.length < limit then .index list.length else .failed (.tooManyElements limit)
  | .set index _ =>
    if index < list.length then .done else .failed (.indexOutOfBounds index list.length)
  | .get index =>
    match list[index]? with
    | some element => .bytes element
    | none => .failed (.indexOutOfBounds index list.length)
  | .length => .count list.length
  | .isEmpty => .truth (decide (list = []))
  | .isFull => .truth (decide (limit ≤ list.length))
  | .elements => .elements list
  | _ => .done

/-- The answer if there may be no list: bytes are there all the same, and the rest fails for the
reason that there is none. -/
def respond (limit : Nat) (raw : Bytes) (contents : Except DataError (List Bytes)) : Call → Answer
  | .bytes => .bytes raw
  | .intoBytes => .bytes raw
  | call =>
    match contents with
    | .error e => .failed e
    | .ok list => answer limit list call

def after (limit : Nat) (contents : Except DataError (List Bytes)) (calls : List Call) :
    Except DataError (List Bytes) :=
  contents.map fun list => calls.foldl (next limit) list

/-- A call that fails changes nothing. -/
theorem next_of_failed {limit : Nat} {raw : Bytes} {contents : Except DataError (List Bytes)}
    {call : Call} {e : DataError} (h : respond limit raw contents call = .failed e) :
    (contents.map fun list => next limit list call) = contents := by
  cases contents with
  | error reason => rfl
  | ok list =>
    refine congrArg Except.ok ?_
    cases call with
    | push data =>
      simp only [respond, answer] at h
      split at h
      · cases h
      · exact if_neg ‹_›
    | set index data =>
      simp only [respond, answer] at h
      split at h
      · cases h
      · exact List.set_eq_of_length_le (Nat.le_of_not_lt ‹_›)
    | _ => rfl

end PlainList

namespace LazyArray

variable {limit : Nat} {raw : Bytes} {array : LazyArray}

/-- What the bytes of an array are: those that nobody has unpacked, or a packed form of the elements
that is kept, or the one that will be packed. -/
inductive Shows (limit : Nat) (raw : Bytes) : LazyArray → Prop where
  | packed : Shows limit raw ⟨.packed raw, limit⟩
  | kept {list : List Bytes} (hlist : Packing.unpack limit raw = .ok list) :
      Shows limit raw ⟨.opened list.toArray (some raw), limit⟩
  | due {list : List Bytes} (hlist : Packing.unpack limit raw = .ok list)
      (hpack : Packing.pack list = .ok raw) : Shows limit raw ⟨.opened list.toArray none, limit⟩

namespace Shows

theorem materialize_error {e : DataError} (h : Shows limit raw array)
    (he : Packing.unpack limit raw = .error e) : array.materialize = .error e := by
  cases h with
  | packed => simp only [LazyArray.materialize, he]
  | kept hlist => cases he.symm.trans hlist
  | due hlist => cases he.symm.trans hlist

theorem materialize {list : List Bytes} (h : Shows limit raw array)
    (hlist : Packing.unpack limit raw = .ok list) :
    ∃ cached, array.materialize = .ok ⟨.opened list.toArray cached, limit⟩ ∧
      Shows limit raw ⟨.opened list.toArray cached, limit⟩ := by
  cases h with
  | packed => exact ⟨some raw, by simp only [LazyArray.materialize, hlist], .kept hlist⟩
  | kept hlist' =>
    cases hlist.symm.trans hlist'
    exact ⟨some raw, rfl, .kept hlist⟩
  | due hlist' hpack =>
    cases hlist.symm.trans hlist'
    exact ⟨none, rfl, .due hlist hpack⟩

/-- Reading answers from the list, and the bytes stay what they are. -/
theorem read {α : Type} (h : Shows limit raw array) (ask : Array Bytes → Except DataError α) :
    ∃ later, Shows limit raw later ∧ array.read ask =
      (match Packing.unpack limit raw with
      | .error e => .error e
      | .ok list => ask list.toArray, later) := by
  cases hlist : Packing.unpack limit raw with
  | error e => exact ⟨array, h, by simp only [LazyArray.read, h.materialize_error hlist]⟩
  | ok list =>
    obtain ⟨cached, hopen, hlater⟩ := h.materialize hlist
    exact ⟨_, hlater, by simp only [LazyArray.read, hopen]⟩

private theorem contents_eq (h : Shows limit raw array) :
    array.contents = Packing.unpack limit raw := by
  obtain ⟨later, -, hread⟩ := h.read .ok
  simp only [contents, elements, hread]
  cases Packing.unpack limit raw <;> rfl

theorem bytes (h : Shows limit raw array) :
    ∃ later, array.bytes = (.ok raw, later) ∧ Shows limit raw later := by
  cases h with
  | packed => exact ⟨_, rfl, .packed⟩
  | kept hlist => exact ⟨_, rfl, .kept hlist⟩
  | due hlist hpack => exact ⟨_, by simp only [LazyArray.bytes, hpack], .kept hlist⟩

private theorem isAbsent_eq (h : Shows limit raw array) : array.isAbsent = false := by
  cases h <;> rfl

private theorem limit_eq (h : Shows limit raw array) : array.limit = limit := by
  cases h <;> rfl

private theorem intoBytes_eq (h : Shows limit raw array) : array.intoBytes = .ok raw := by
  cases h with
  | packed => rfl
  | kept hlist => rfl
  | due hlist hpack => simp only [intoBytes, LazyArray.bytes, hpack]

end Shows

/-- What a call does to an array that shows `raw`, and shows `shown` afterwards. -/
structure Performs (limit : Nat) (raw shown : Bytes) (call : Call) (outcome : Answer × LazyArray) :
    Prop where
  shows : Shows limit shown outcome.2
  answer : outcome.1 = PlainList.respond limit raw (Packing.unpack limit raw) call
  contents : Packing.unpack limit shown =
    (Packing.unpack limit raw).map fun list => PlainList.next limit list call
  read : call.writes = false → shown = raw
  written : call.writes = true → outcome.1.isFailed = false →
    ∃ list, Packing.unpack limit shown = .ok list ∧ Packing.pack list = .ok shown
  refused : ∀ e, outcome.1 = .failed e →
    (∃ list, Packing.unpack limit raw = .ok list ∧ e = .tooManyElements limit ∧
      Packing.pack list = .ok shown) ∨
    shown = raw ∧ ∀ list, Packing.unpack limit raw = .ok list → e ≠ .tooManyElements limit

/-- Calls that do not write leave the bytes alone. -/
theorem performs_read {call : Call} {outcome : Answer × LazyArray} (hquiet : call.writes = false)
    (hshows : Shows limit raw outcome.2)
    (hanswer : outcome.1 = PlainList.respond limit raw (Packing.unpack limit raw) call) :
    Performs limit raw raw call outcome where
  shows := hshows
  answer := hanswer
  contents := by
    have hnext (list : List Bytes) : PlainList.next limit list call = list := by
      cases call with
      | push | set => cases hquiet
      | _ => rfl
    cases Packing.unpack limit raw <;> simp only [Except.map, hnext]
  read _ := rfl
  written habsurd := by cases hquiet.symm.trans habsurd
  refused e he := by
    refine .inr ⟨rfl, fun list hlist => ?_⟩
    rw [hanswer, hlist] at he
    cases call with
    | push | set => cases hquiet
    | get index =>
      simp only [PlainList.respond, PlainList.answer] at he
      split at he
      · cases he
      · cases he
        simp
    | _ => cases he

/-- A call that fails before it comes to the elements changes nothing. -/
theorem performs_unreadable {call : Call} {e : DataError} (h : Shows limit raw array)
    (he : Packing.unpack limit raw = .error e) (hwrites : call.writes = true) :
    Performs limit raw raw call (.failed e, array) where
  shows := h
  answer := by
    cases call with
    | push | set => simp only [PlainList.respond, he]
    | _ => cases hwrites
  contents := by rw [he]; rfl
  read _ := rfl
  written _ habsurd := by cases habsurd
  refused _ _ := .inr ⟨rfl, fun list hlist => by cases he.symm.trans hlist⟩

/-- Elements that can be packed are shown as `pack` writes them. -/
theorem Shows.of_pack {list : List Bytes} (hlength : list.length ≤ limit)
    (hpack : Packing.pack list = .ok raw) : Shows limit raw ⟨.opened list.toArray none, limit⟩ :=
  .due (Packing.unpack_pack hpack hlength) hpack

/-- A call that changes the elements leaves them to be packed. -/
theorem performs_written {call : Call} {answer : Answer} {list changed : List Bytes}
    (hlimit : limit ≤ Packing.maxElements) (hlist : Packing.unpack limit raw = .ok list)
    (hwrites : call.writes = true) (hanswer : PlainList.answer limit list call = answer)
    (hdone : answer.isFailed = false) (hnext : PlainList.next limit list call = changed)
    (hlength : changed.length ≤ limit)
    (hshort : ∀ element ∈ changed, element.length < Bytes.capacity 4) :
    ∃ shown, Performs limit raw shown call (answer, ⟨.opened changed.toArray none, limit⟩) := by
  obtain ⟨shown, hpack⟩ := (Packing.pack_ok_iff changed).mpr ⟨by omega, hshort⟩
  have hunpack := Packing.unpack_pack hpack hlength
  refine ⟨shown, .of_pack hlength hpack, ?_, ?_, ?_, fun _ _ => ⟨changed, hunpack, hpack⟩, ?_⟩
  · cases call with
    | push | set => simp only [PlainList.respond, hlist, hanswer]
    | _ => cases hwrites
  · rw [hlist, Except.map, hnext, hunpack]
  · exact fun habsurd => by cases habsurd.symm.trans hwrites
  · rintro e rfl
    cases hdone

namespace Shows

theorem push (h : Shows limit raw array) (hlimit : limit ≤ Packing.maxElements) {data : Bytes}
    (hdata : data.length < Bytes.capacity 4) :
    ∃ shown, Performs limit raw shown (.push data) (array.perform (.push data)) := by
  obtain ⟨c, hc⟩ := (LengthClass.forLength_ok_iff _).mpr hdata
  cases hlist : Packing.unpack limit raw with
  | error e =>
    have hpush : array.perform (.push data) = (.failed e, array) := by
      simp only [perform, LazyArray.push, hc, h.materialize_error hlist]
      rfl
    exact ⟨raw, hpush ▸ performs_unreadable h hlist rfl⟩
  | ok list =>
    obtain ⟨cached, hopen, -⟩ := h.materialize hlist
    have hroom := Packing.length_unpack hlist
    have hshort : ∀ element ∈ list, element.length < Bytes.capacity 4 :=
      fun _ => Packing.length_lt_of_unpack hlist
    by_cases hfull : limit ≤ list.length
    · -- The refused element costs the array the bytes that it came from.
      obtain ⟨shown, hpack⟩ := (Packing.pack_ok_iff list).mpr ⟨by omega, hshort⟩
      have hpush : array.perform (.push data) =
          (.failed (.tooManyElements limit), ⟨.opened list.toArray none, limit⟩) := by
        simp only [perform, LazyArray.push, hc, hopen, List.size_toArray, if_pos hfull]
        rfl
      have hsame : PlainList.next limit list (.push data) = list := if_neg (Nat.not_lt.mpr hfull)
      refine ⟨shown, hpush ▸ ⟨of_pack hroom hpack, ?_, ?_, ?_, ?_, ?_⟩⟩
      · simp only [PlainList.respond, hlist, PlainList.answer, if_neg (Nat.not_lt.mpr hfull)]
      · rw [hlist, Except.map, hsame, Packing.unpack_pack hpack hroom]
      · exact fun habsurd => by cases habsurd
      · exact fun _ habsurd => by cases habsurd
      · rintro e ⟨⟩
        exact .inl ⟨list, hlist, rfl, hpack⟩
    · have hlength : (list ++ [data]).length ≤ limit := by
        simp only [List.length_append, List.length_singleton]
        omega
      have hfit : ∀ element ∈ list ++ [data], element.length < Bytes.capacity 4 := by
        intro element hmem
        rcases List.mem_append.mp hmem with hold | hnew
        · exact hshort element hold
        · rwa [List.mem_singleton.mp hnew]
      have hpush : array.perform (.push data) =
          (.index list.length, ⟨.opened (list ++ [data]).toArray none, limit⟩) := by
        simp only [perform, LazyArray.push, hc, hopen, List.size_toArray, if_neg hfull,
          List.push_toArray]
        rfl
      rw [hpush]
      exact performs_written hlimit hlist rfl (if_pos (Nat.lt_of_not_le hfull)) rfl
        (if_pos (Nat.lt_of_not_le hfull)) hlength hfit

theorem set (h : Shows limit raw array) (hlimit : limit ≤ Packing.maxElements) {index : Nat}
    {data : Bytes} (hdata : data.length < Bytes.capacity 4) :
    ∃ shown, Performs limit raw shown (.set index data) (array.perform (.set index data)) := by
  obtain ⟨c, hc⟩ := (LengthClass.forLength_ok_iff _).mpr hdata
  cases hlist : Packing.unpack limit raw with
  | error e =>
    have hset : array.perform (.set index data) = (.failed e, array) := by
      simp only [perform, LazyArray.set, hc, h.materialize_error hlist]
      rfl
    exact ⟨raw, hset ▸ performs_unreadable h hlist rfl⟩
  | ok list =>
    obtain ⟨cached, hopen, hlater⟩ := h.materialize hlist
    by_cases hindex : index < list.length
    · have hlength : (list.set index data).length ≤ limit := by
        rw [List.length_set]
        exact Packing.length_unpack hlist
      have hfit : ∀ element ∈ list.set index data, element.length < Bytes.capacity 4 := by
        intro element hmem
        rcases List.mem_or_eq_of_mem_set hmem with hold | rfl
        · exact Packing.length_lt_of_unpack hlist hold
        · exact hdata
      have hset : array.perform (.set index data) =
          (.done, ⟨.opened (list.set index data).toArray none, limit⟩) := by
        simp only [perform, LazyArray.set, hc, hopen, List.size_toArray, if_pos hindex,
          List.setIfInBounds_toArray]
        rfl
      rw [hset]
      exact performs_written hlimit hlist rfl (if_pos hindex) rfl rfl hlength hfit
    · have hset : array.perform (.set index data) =
          (.failed (.indexOutOfBounds index list.length),
            ⟨.opened list.toArray cached, limit⟩) := by
        simp only [perform, LazyArray.set, hc, hopen, List.size_toArray, if_neg hindex]
        rfl
      have hsame : list.set index data = list := List.set_eq_of_length_le (Nat.le_of_not_lt hindex)
      refine ⟨raw, hset ▸ ⟨hlater, ?_, ?_, fun _ => rfl, ?_, ?_⟩⟩
      · simp only [PlainList.respond, hlist, PlainList.answer, if_neg hindex]
      · rw [hlist, Except.map, PlainList.next, hsame]
      · exact fun _ habsurd => by cases habsurd
      · rintro e ⟨⟩
        exact .inr ⟨rfl, fun _ _ habsurd => by cases habsurd⟩

end Shows

/-- Data that is too long is refused before the array is looked at. -/
theorem perform_overlong {call : Call} (h : ¬ call.Fits) (array : LazyArray) :
    call.writes = true ∧
      array.perform call = (.failed (.elementTooLong call.data.length), array) := by
  have hclass := LengthClass.forLength_overlong (Nat.lt_of_not_le h)
  cases call with
  | push data =>
    simp only [Call.data] at hclass
    simp only [perform, LazyArray.push, hclass]
    exact ⟨rfl, rfl⟩
  | set index data =>
    simp only [Call.data] at hclass
    simp only [perform, LazyArray.set, hclass]
    exact ⟨rfl, rfl⟩
  | _ => exact absurd (Nat.zero_le _) h

section

variable {call : Call}

private theorem performs_ask {α : Type} (h : Shows limit raw array) (hquiet : call.writes = false)
    (wrap : α → Answer) (ask : Array Bytes → Except DataError α)
    (hanswer : ∀ contents : Except DataError (List Bytes), Answer.ofResult wrap
      (match contents with
      | .error e => .error e
      | .ok list => ask list.toArray) = PlainList.respond limit raw contents call) :
    Performs limit raw raw call (answered wrap (array.read ask)) := by
  obtain ⟨later, hlater, hread⟩ := h.read ask
  rw [hread]
  exact performs_read hquiet hlater (hanswer _)

theorem Shows.perform (h : Shows limit raw array) (hlimit : limit ≤ Packing.maxElements)
    (hfits : call.Fits) : ∃ shown, Performs limit raw shown call (array.perform call) := by
  cases call with
  | push data => exact h.push hlimit (Nat.lt_succ_of_le hfits)
  | set index data => exact h.set hlimit (Nat.lt_succ_of_le hfits)
  | get index =>
    refine ⟨raw, performs_ask h rfl _ _ fun contents => ?_⟩
    cases contents with
    | error e => rfl
    | ok list =>
      simp only [PlainList.respond, PlainList.answer, List.getElem?_toArray, List.size_toArray]
      cases list[index]? <;> rfl
  | length => exact ⟨raw, performs_ask h rfl _ _ fun contents => by cases contents <;> rfl⟩
  | isEmpty =>
    refine ⟨raw, performs_ask h rfl _ _ fun contents => ?_⟩
    cases contents with
    | error e => rfl
    | ok list => cases list <;> rfl
  | isFull =>
    refine ⟨raw, performs_ask h rfl _ _ fun contents => ?_⟩
    rw [h.limit_eq]
    cases contents <;> rfl
  | elements => exact ⟨raw, performs_ask h rfl _ _ fun contents => by cases contents <;> rfl⟩
  | materialize =>
    cases hlist : Packing.unpack limit raw with
    | error e =>
      have hrun : array.perform .materialize = (.failed e, array) := by
        simp only [LazyArray.perform, h.materialize_error hlist]
      exact ⟨raw, hrun ▸ performs_read rfl h (by rw [hlist]; rfl)⟩
    | ok list =>
      obtain ⟨cached, hopen, hlater⟩ := h.materialize hlist
      have hrun : array.perform .materialize = (.done, ⟨.opened list.toArray cached, limit⟩) := by
        simp only [LazyArray.perform, hopen]
      exact ⟨raw, hrun ▸ performs_read rfl hlater (by rw [hlist]; rfl)⟩
  | bytes =>
    obtain ⟨later, hbytes, hlater⟩ := h.bytes
    have hrun : array.perform .bytes = (.bytes raw, later) := by
      simp only [LazyArray.perform, hbytes]
      rfl
    exact ⟨raw, hrun ▸ performs_read rfl hlater rfl⟩
  | intoBytes =>
    have hrun : array.perform .intoBytes = (.bytes raw, array) := by
      simp only [LazyArray.perform, h.intoBytes_eq]
      rfl
    exact ⟨raw, hrun ▸ performs_read rfl h rfl⟩

end

/-- After any calls an array shows some bytes, and they are a form of what the calls make of the
list. -/
theorem Shows.after (h : Shows limit raw array) (hlimit : limit ≤ Packing.maxElements)
    (calls : List Call) :
    ∃ shown, Shows limit shown (array.after calls) ∧
      ((∀ call ∈ calls, call.Fits) →
        Packing.unpack limit shown = PlainList.after limit (Packing.unpack limit raw) calls) ∧
      ((∀ call ∈ calls, call.writes = false) → shown = raw) := by
  induction calls generalizing array raw with
  | nil =>
    refine ⟨raw, h, fun _ => ?_, fun _ => rfl⟩
    cases Packing.unpack limit raw <;> rfl
  | cons call rest ih =>
    by_cases hfits : call.Fits
    · obtain ⟨middle, hstep⟩ := h.perform hlimit hfits
      obtain ⟨shown, hshows, hlist, hraw⟩ := ih hstep.shows
      refine ⟨shown, hshows, fun hall => ?_, fun hquiet => ?_⟩
      · rw [hlist fun other hother => hall other (List.mem_cons_of_mem call hother), hstep.contents]
        cases Packing.unpack limit raw <;> rfl
      · have hrest := hraw fun other hother => hquiet other (List.mem_cons_of_mem call hother)
        exact hrest.trans (hstep.read (hquiet call List.mem_cons_self))
    · obtain ⟨hwrites, hsame⟩ := perform_overlong hfits array
      obtain ⟨shown, hshows, -⟩ := ih h
      refine ⟨shown, ?_, fun hall => absurd (hall call List.mem_cons_self) hfits, fun hquiet => ?_⟩
      · rwa [LazyArray.after, hsame]
      · cases hwrites.symm.trans (hquiet call List.mem_cons_self)

private theorem shows_pushAll (h : Shows limit raw array) (hlimit : limit ≤ Packing.maxElements)
    {elements : List Bytes} {made : LazyArray} (hmade : array.pushAll elements = .ok made) :
    ∃ shown, Shows limit shown made := by
  induction elements generalizing array raw with
  | nil =>
    cases hmade
    exact ⟨raw, h⟩
  | cons element rest ih =>
    unfold pushAll at hmade
    split at hmade
    · cases hmade
    · rename_i later hpush
      have hstep : ∃ shown, Shows limit shown (array.perform (.push element)).2 := by
        by_cases hfits : (Call.push element).Fits
        · obtain ⟨shown, hperforms⟩ := h.perform hlimit hfits
          exact ⟨shown, hperforms.shows⟩
        · rw [(perform_overlong hfits array).2]
          exact ⟨raw, h⟩
      simp only [perform, answered, hpush] at hstep
      obtain ⟨shown, hshows⟩ := hstep
      exact ih hshows hmade

/-- An array that was just made stands for absent bytes or shows some, which are those that it was
made from if there are any. -/
theorem Origin.shows_make {origin : Origin} (hmade : origin.make = .ok array) :
    array = LazyArray.absent ∨ array.limit ≤ Packing.maxElements ∧
      ∃ raw, Shows array.limit raw array ∧ ∀ built, origin.raw? = some built → raw = built := by
  have hbytes (raw : Bytes) (limit : Nat) :
      Shows (min limit Packing.maxElements) raw (LazyArray.ofBytes raw limit) := .packed
  have hempty (limit : Nat) :
      Shows (min limit Packing.maxElements) Packing.empty (LazyArray.empty limit) :=
    .due (Packing.unpack_pack rfl (Nat.zero_le _)) rfl
  cases origin with
  | empty limit =>
    cases hmade
    exact .inr ⟨Nat.min_le_right _ _, _, hempty limit, fun _ habsurd => by cases habsurd⟩
  | absent =>
    cases hmade
    exact .inl rfl
  | ofBytes raw limit =>
    cases hmade
    exact .inr ⟨Nat.min_le_right _ _, raw, hbytes raw limit, fun _ hbuilt => Option.some.inj hbuilt⟩
  | ofOptional raw =>
    cases hmade
    cases raw with
    | none => exact .inl rfl
    | some raw =>
      exact .inr ⟨Nat.le_refl _, raw, hbytes raw _, fun _ hbuilt => Option.some.inj hbuilt⟩
  | ofElements elements =>
    obtain ⟨shown, hshows⟩ := shows_pushAll (hempty Packing.maxElements) (Nat.min_le_right _ _) hmade
    rw [hshows.limit_eq]
    exact .inr ⟨Nat.min_le_right _ _, shown, hshows, fun _ habsurd => by cases habsurd⟩

/-- An array behaves like its list of elements, and its bytes are a form of that list: the list stays
within the limit, calls are answered from it and change it as they would change a plain list, failed
ones not at all, and a write that succeeds leaves the form that `pack` writes. -/
structure Faithful (limit : Nat) (raw : Bytes) (array : LazyArray) : Prop where
  limit_eq : array.limit = limit
  bytes : array.bytes.1 = .ok raw
  elements : Packing.unpack limit raw = array.contents
  room : ∀ list, array.contents = .ok list → list.length ≤ limit
  answer : ∀ call, call.Fits →
    (array.perform call).1 = PlainList.respond limit raw array.contents call
  next : ∀ call, call.Fits →
    (array.perform call).2.contents = array.contents.map fun list => PlainList.next limit list call
  failed : ∀ call e, (array.perform call).1 = .failed e →
    (array.perform call).2.contents = array.contents
  written : ∀ call, call.writes = true → (array.perform call).1.isFailed = false →
    ∃ list, (array.perform call).2.contents = .ok list ∧
      (array.perform call).2.bytes.1 = Packing.pack list

private theorem Shows.faithful (h : Shows limit raw array) (hlimit : limit ≤ Packing.maxElements) :
    Faithful limit raw array where
  limit_eq := h.limit_eq
  bytes := by
    obtain ⟨later, hbytes, -⟩ := h.bytes
    rw [hbytes]
  elements := h.contents_eq.symm
  room list hlist := Packing.length_unpack (h.contents_eq.symm.trans hlist)
  answer call hfits := by
    obtain ⟨shown, hperforms⟩ := h.perform hlimit hfits
    rw [hperforms.answer, h.contents_eq]
  next call hfits := by
    obtain ⟨shown, hperforms⟩ := h.perform hlimit hfits
    rw [hperforms.shows.contents_eq, hperforms.contents, h.contents_eq]
  failed call e he := by
    by_cases hfits : call.Fits
    · obtain ⟨shown, hperforms⟩ := h.perform hlimit hfits
      rw [hperforms.answer] at he
      rw [hperforms.shows.contents_eq, hperforms.contents, h.contents_eq,
        PlainList.next_of_failed he]
    · rw [(perform_overlong hfits array).2]
  written call hwrites hdone := by
    by_cases hfits : call.Fits
    · obtain ⟨shown, hperforms⟩ := h.perform hlimit hfits
      obtain ⟨list, hlist, hpack⟩ := hperforms.written hwrites hdone
      obtain ⟨later, hbytes, -⟩ := hperforms.shows.bytes
      refine ⟨list, hperforms.shows.contents_eq.trans hlist, ?_⟩
      rw [hbytes, hpack]
    · rw [(perform_overlong hfits array).2] at hdone
      cases hdone

private theorem absent_perform {call : Call} (hfits : call.Fits) :
    absent.perform call = (.failed .emptyArrayAccess, absent) := by
  have hclass := (LengthClass.forLength_ok_iff _).mpr (Nat.lt_succ_of_le hfits)
  obtain ⟨c, hc⟩ := hclass
  cases call with
  | push data =>
    simp only [Call.data] at hc
    simp only [perform, LazyArray.push, hc]
    rfl
  | set index data =>
    simp only [Call.data] at hc
    simp only [perform, LazyArray.set, hc]
    rfl
  | _ => rfl

private theorem absent_after (calls : List Call) : absent.after calls = absent := by
  induction calls with
  | nil => rfl
  | cons call rest ih =>
    have hsame : (absent.perform call).2 = absent := by
      by_cases hfits : call.Fits
      · rw [absent_perform hfits]
      · rw [(perform_overlong hfits absent).2]
    rw [LazyArray.after, hsame, ih]

/-- Whatever was called on an array with data that fits: one that stands for absent bytes goes on
failing. Any other behaves like the list that plain lists become by the same calls, and shows the
bytes it was made from as long as nobody has tried to write. -/
theorem behaves_as_list {origin : Origin} (hmade : origin.make = .ok array) (calls : List Call)
    (hfits : ∀ call ∈ calls, call.Fits) :
    (array.isAbsent = true → ∀ call : Call, call.Fits →
      ((array.after calls).perform call).1 = .failed .emptyArrayAccess) ∧
    (array.isAbsent = false → ∃ raw, Faithful array.limit raw (array.after calls) ∧
      (array.after calls).contents = PlainList.after array.limit array.contents calls ∧
      ∀ built, origin.raw? = some built → (∀ call ∈ calls, call.writes = false) → raw = built) := by
  rcases Origin.shows_make hmade with rfl | ⟨hlimit, raw, hshows, hbuilt⟩
  · refine ⟨fun _ call hcall => ?_, fun habsurd => by cases habsurd⟩
    rw [absent_after, absent_perform hcall]
  · refine ⟨fun habsurd => ?_, fun _ => ?_⟩
    · cases habsurd.symm.trans hshows.isAbsent_eq
    · obtain ⟨shown, hafter, hlist, hraw⟩ := hshows.after hlimit calls
      refine ⟨shown, hafter.faithful hlimit, ?_, fun built hmake hquiet => ?_⟩
      · rw [hafter.contents_eq, hlist hfits, hshows.contents_eq]
      · exact (hraw hquiet).trans (hbuilt built hmake)

/-- Two empty elements with length bytes that `pack` leaves out: there is no place for a third, and
one of them is replaced. -/
theorem behaves_as_list_foreign :
    (Origin.ofBytes [0x40, 0x02, 0x00, 0x00] 2).make = .ok (ofBytes [0x40, 0x02, 0x00, 0x00] 2) ∧
    ∃ raw, Faithful 2 raw ((ofBytes [0x40, 0x02, 0x00, 0x00] 2).after
        [.get 1, .push [7], .set 5 [8], .set 1 [9], .bytes]) ∧
      ((ofBytes [0x40, 0x02, 0x00, 0x00] 2).after
        [.get 1, .push [7], .set 5 [8], .set 1 [9], .bytes]).contents = .ok [[], [9]] := by
  have hmade : (Origin.ofBytes [0x40, 0x02, 0x00, 0x00] 2).make =
      .ok (ofBytes [0x40, 0x02, 0x00, 0x00] 2) := rfl
  have hfits : ∀ call ∈ [Call.get 1, .push [7], .set 5 [8], .set 1 [9], .bytes], call.Fits := by
    decide
  obtain ⟨raw, hfaithful, hlist, -⟩ := (behaves_as_list hmade _ hfits).2 rfl
  exact ⟨hmade, raw, hfaithful, hlist⟩

/-- A call that fails leaves the bytes of an array as they were, with one exception: an array that
refuses an element because it is full has its elements packed anew. -/
theorem failed_call_bytes {origin : Origin} (hmade : origin.make = .ok array) (calls : List Call)
    {call : Call} {e : DataError}
    (hfail : ((array.after calls).perform call).1 = .failed e) :
    (∀ list, (array.after calls).contents = .ok list → e = .tooManyElements array.limit →
      ((array.after calls).perform call).2.bytes.1 = Packing.pack list) ∧
    ((∀ list, (array.after calls).contents = .ok list → e ≠ .tooManyElements array.limit) →
      ((array.after calls).perform call).2.bytes.1 = (array.after calls).bytes.1) := by
  by_cases hfits : call.Fits
  · rcases Origin.shows_make hmade with rfl | ⟨hlimit, raw, hshows, -⟩
    · rw [absent_after] at hfail ⊢
      rw [absent_perform hfits]
      exact ⟨fun _ habsurd => (by cases habsurd), fun _ => rfl⟩
    · obtain ⟨before, hbefore, -⟩ := hshows.after hlimit calls
      obtain ⟨shown, hperforms⟩ := hbefore.perform hlimit hfits
      obtain ⟨_, hbytes, -⟩ := hbefore.bytes
      obtain ⟨_, hbytes', -⟩ := hperforms.shows.bytes
      rw [hbefore.contents_eq, hbytes, hbytes']
      rcases hperforms.refused e hfail with ⟨list, hlist, rfl, hpack⟩ | ⟨rfl, hother⟩
      · refine ⟨fun other hsame _ => ?_, fun habsurd => absurd rfl (habsurd list hlist)⟩
        cases hlist.symm.trans hsame
        exact hpack.symm
      · exact ⟨fun list hlist habsurd => absurd habsurd (hother list hlist), fun _ => rfl⟩
  · rw [(perform_overlong hfits _).2] at hfail ⊢
    cases hfail
    exact ⟨fun _ _ habsurd => (by cases habsurd), fun _ => rfl⟩

theorem failed_call_bytes_out_of_bounds :
    (((ofBytes [0x40, 0x01, 0x00] 1).after [.get 0]).perform (.set 3 [7])).1 =
        .failed (.indexOutOfBounds 3 1) ∧
      (((ofBytes [0x40, 0x01, 0x00] 1).after [.get 0]).perform (.set 3 [7])).2.bytes.1 =
        ((ofBytes [0x40, 0x01, 0x00] 1).after [.get 0]).bytes.1 := by
  have hmade : (Origin.ofBytes [0x40, 0x01, 0x00] 1).make = .ok (ofBytes [0x40, 0x01, 0x00] 1) := rfl
  have hfail : (((ofBytes [0x40, 0x01, 0x00] 1).after [.get 0]).perform (.set 3 [7])).1 =
      .failed (.indexOutOfBounds 3 1) := by decide
  exact ⟨hfail, (failed_call_bytes hmade [.get 0] hfail).2 fun _ _ habsurd => by cases habsurd⟩

/-- One empty element, with a length byte that `pack` leaves out. -/
theorem refused_push_repacks :
    (ofBytes [0x40, 0x01, 0x00] 1).bytes.1 = .ok [0x40, 0x01, 0x00] ∧
      ((ofBytes [0x40, 0x01, 0x00] 1).perform (.push [7])).1 = .failed (.tooManyElements 1) ∧
      ((ofBytes [0x40, 0x01, 0x00] 1).perform (.push [7])).2.bytes.1 = .ok [0x00, 0x01] :=
  ⟨rfl, by decide, rfl⟩

end LazyArray
end ByteFormula
