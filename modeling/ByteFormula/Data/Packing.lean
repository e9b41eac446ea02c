import ByteFormula.Data.Error

/-! The packed form of a list of byte strings.

A two-byte word opens it: two bits for the width of the length fields and fourteen for the number
of elements. Each element follows as its length and its bytes. Packing takes the narrowest width
that holds the longest element. -/
namespace ByteFormula

inductive LengthClass where
  | zero
  | one
  | two
  | four
  deriving DecidableEq, Repr

namespace LengthClass

def width : LengthClass → Nat
  | .zero => 0
  | .one => 1
  | .two => 2
  | .four => 4

def tag : LengthClass → Nat
  | .zero => 0
  | .one => 1
  | .two => 2
  | .four => 3

def ofTag : Nat → LengthClass
  | 0 => .zero
  | 1 => .one
  | 2 => .two
  | _ => .four

def forLength (length : Nat) : Except DataError LengthClass :=
  if length = 0 then .ok .zero
  else if length < Bytes.capacity 1 then .ok .one
  else if length < Bytes.capacity 2 then .ok .two
  else if length < Bytes.capacity 4 then .ok .four
  else .error (.elementTooLong length)

end LengthClass

namespace Packing

def maxElements : Nat := 0x3fff

def empty : Bytes := [0, 0]

def longest (elements : List Bytes) : Nat :=
  elements.foldl (fun length element => max length element.length) 0

def packElement (width : Nat) (element : Bytes) : Bytes :=
  Bytes.ofNat width element.length ++ element

def pack (elements : List Bytes) : Except DataError Bytes :=
  if maxElements < elements.length then .error (.tooManyElements maxElements)
  else
    match LengthClass.forLength (longest elements) with
    | .error e => .error e
    | .ok c => .ok (Bytes.ofNat 2 (c.tag * 0x4000 + elements.length) ++
        elements.flatMap (packElement c.width))

/-- The first `count` bytes and what follows them; `offset` is where they stand. -/
def split (offset count : Nat) (bytes : Bytes) : Except DataError (Bytes × Bytes) :=
  let front := bytes.take count
  if front.length < count then .error (.truncated offset (count - front.length))
  else .ok (front, bytes.drop count)

def readElements (width : Nat) : (count offset : Nat) → Bytes → Except DataError (List Bytes × Bytes)
  | 0, _, bytes => .ok ([], bytes)
  | count + 1, offset, bytes =>
    match split offset width bytes with
    | .error e => .error e
    | .ok (field, afterField) =>
      match split (offset + width) field.toNat afterField with
      | .error e => .error e
      | .ok (element, afterElement) =>
        match readElements width count (offset + width + field.toNat) afterElement with
        | .error e => .error e
        | .ok (elements, rest) => .ok (element :: elements, rest)

def unpack (limit : Nat) (raw : Bytes) : Except DataError (List Bytes) :=
  match split 0 2 raw with
  | .error e => .error e
  | .ok (word, body) =>
    let count := word.toNat % 0x4000
    if limit < count then .error (.tooManyElements limit)
    else
      match readElements (LengthClass.ofTag (word.toNat / 0x4000)).width count 2 body with
      | .error e => .error e
      | .ok (elements, rest) =>
        if rest = [] then .ok elements else .error (.trailingBytes rest.length)

end Packing
end ByteFormula
