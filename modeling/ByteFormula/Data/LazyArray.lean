import ByteFormula.Data.Packing

/-! Arrays of byte strings that are unpacked when an element is first asked for, and packed when
their bytes are. Every operation returns the array as it stands afterwards. -/
namespace ByteFormula

inductive LazyArray.Form where
  /-- Absent bytes: every access fails. -/
  | absent
  /-- Bytes that nobody has unpacked yet. -/
  | packed (raw : Bytes)
  /-- Elements, with their packed form as long as no write has touched them. -/
  | opened (elements : Array Bytes) (cached : Option Bytes)
  deriving DecidableEq, Repr

structure LazyArray where
  form : LazyArray.Form
  limit : Nat
  deriving DecidableEq, Repr

namespace LazyArray

def empty (limit : Nat) : LazyArray :=
  ⟨.opened #[] none, min limit Packing.maxElements⟩

def absent : LazyArray :=
  ⟨.absent, Packing.maxElements⟩

def ofBytes (raw : Bytes) (limit : Nat) : LazyArray :=
  ⟨.packed raw, min limit Packing.maxElements⟩

def ofOptional : Option Bytes → LazyArray
  | none => absent
  | some raw => ofBytes raw Packing.maxElements

def isAbsent (array : LazyArray) : Bool :=
  match array.form with
  | .absent => true
  | _ => false

def isOpened (array : LazyArray) : Bool :=
  match array.form with
  | .opened _ _ => true
  | _ => false

/-- Unpacks the bytes unless that is done; on an error the array stays as it was. -/
def materialize (array : LazyArray) : Except DataError LazyArray :=
  match array.form with
  | .absent => .error .emptyArrayAccess
  | .packed raw =>
    match Packing.unpack array.limit raw with
    | .error e => .error e
    | .ok elements => .ok { array with form := .opened elements.toArray (some raw) }
  | .opened _ _ => .ok array

def read {α : Type} (array : LazyArray) (answer : Array Bytes → Except DataError α) :
    Except DataError α × LazyArray :=
  match array.materialize with
  | .error e => (.error e, array)
  | .ok after =>
    match after.form with
    | .opened elements _ => (answer elements, after)
    | _ => (.error .emptyArrayAccess, after)

def elements (array : LazyArray) : Except DataError (Array Bytes) × LazyArray :=
  array.read .ok

def length (array : LazyArray) : Except DataError Nat × LazyArray :=
  array.read fun elements => .ok elements.size

def isEmpty (array : LazyArray) : Except DataError Bool × LazyArray :=
  array.read fun elements => .ok (elements.size == 0)

def isFull (array : LazyArray) : Except DataError Bool × LazyArray :=
  array.read fun elements => .ok (decide (array.limit ≤ elements.size))

def get (array : LazyArray) (index : Nat) : Except DataError Bytes × LazyArray :=
  array.read fun elements =>
    match elements[index]? with
    | some element => .ok element
    | none => .error (.indexOutOfBounds index elements.size)

/-- Appends an element and returns its index. The cached bytes are gone once the elements are
opened for writing, also when the array turns out to be full. -/
def push (array : LazyArray) (data : Bytes) : Except DataError Nat × LazyArray :=
  match LengthClass.forLength data.length with
  | .error e => (.error e, array)
  | .ok _ =>
    match array.materialize with
    | .error e => (.error e, array)
    | .ok after =>
      match after with
      | ⟨.opened elements _, limit⟩ =>
        if limit ≤ elements.size then
          (.error (.tooManyElements limit), ⟨.opened elements none, limit⟩)
        else (.ok elements.size, ⟨.opened (elements.push data) none, limit⟩)
      | _ => (.error .emptyArrayAccess, after)

/-- Replaces the element at an index; the cached bytes stay when there is no such element. -/
def set (array : LazyArray) (index : Nat) (data : Bytes) : Except DataError Unit × LazyArray :=
  match LengthClass.forLength data.length with
  | .error e => (.error e, array)
  | .ok _ =>
    match array.materialize with
    | .error e => (.error e, array)
    | .ok after =>
      match after with
      | ⟨.opened elements cached, limit⟩ =>
        if index < elements.size then
          (.ok (), ⟨.opened (elements.setIfInBounds index data) none, limit⟩)
        else (.error (.indexOutOfBounds index elements.size), ⟨.opened elements cached, limit⟩)
      | _ => (.error .emptyArrayAccess, after)

/-- The packed bytes: those it was built from until a write, else the elements packed anew. -/
def bytes (array : LazyArray) : Except DataError Bytes × LazyArray :=
  match array.form with
  | .absent => (.error .emptyArrayAccess, array)
  | .packed raw => (.ok raw, array)
  | .opened _ (some cached) => (.ok cached, array)
  | .opened elements none =>
    match Packing.pack elements.toList with
    | .error e => (.error e, array)
    | .ok packed => (.ok packed, { array with form := .opened elements (some packed) })

def intoBytes (array : LazyArray) : Except DataError Bytes :=
  match array.bytes with
  | (.error e, _) => .error e
  | (.ok _, after) =>
    match after.form with
    | .packed raw => .ok raw
    | .opened _ (some cached) => .ok cached
    | _ => .error .emptyArrayAccess

def pushAll (array : LazyArray) : List Bytes → Except DataError LazyArray
  | [] => .ok array
  | element :: rest =>
    match array.push element with
    | (.error e, _) => .error e
    | (.ok _, after) => after.pushAll rest

def ofElements (elements : List Bytes) : Except DataError LazyArray :=
  (empty Packing.maxElements).pushAll elements

end LazyArray
end ByteFormula
