import ByteFormula.Data.Path

/-! What can be wrong with packed arrays and with paths into trees of them. -/
namespace ByteFormula

inductive DataError where
  /-- The array stands for absent bytes and has no elements, not even zero of them. -/
  | emptyArrayAccess
  | indexOutOfBounds (index length : Nat)
  | tooManyElements (limit : Nat)
  | elementTooLong (length : Nat)
  | truncated (offset missing : Nat)
  | trailingBytes (count : Nat)
  | pathNotFound (path : Path)
  | notAnArray (path : Path)
  deriving DecidableEq, Repr

def DataError.message : DataError → String
  | .emptyArrayAccess =>
    "Attempt to access an array that was constructed from absent (nil) bytes."
  | .indexOutOfBounds index length =>
    s!"Element index {index} is out of bounds for an array of {length} elements."
  | .tooManyElements limit => s!"Array is full: it cannot hold more than {limit} elements."
  | .elementTooLong length =>
    s!"Element of {length} bytes exceeds the maximum encodable element size."
  | .truncated offset missing =>
    s!"Serialized array is truncated: expected {missing} more bytes at offset {offset}."
  | .trailingBytes count =>
    s!"Serialized array has {count} trailing bytes after the last element."
  | .pathNotFound path => s!"No element exists at path {path.text}."
  | .notAnArray path => s!"The element at path {path.text} is not an array."

end ByteFormula
