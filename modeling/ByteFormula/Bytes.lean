/-! Byte strings, and their reading as unsigned big-endian numbers. -/
namespace ByteFormula

abbrev Bytes := List UInt8

namespace Bytes

/-- The number that a byte string spells, most significant byte first. -/
def toNat (bytes : Bytes) : Nat :=
  bytes.foldl (fun value byte => 256 * value + byte.toNat) 0

/-- The low `width` bytes of a number, most significant byte first. -/
def ofNat : (width value : Nat) → Bytes
  | 0, _ => []
  | width + 1, value => ofNat width (value / 256) ++ [UInt8.ofNat (value % 256)]

def capacity : (width : Nat) → Nat
  | 0 => 1
  | width + 1 => 256 * capacity width

def toNatLittle (bytes : Bytes) : Nat :=
  toNat bytes.reverse

def ofNatLittle (width value : Nat) : Bytes :=
  (ofNat width value).reverse

/-- Cuts off `count` pieces of the given size; the last of them may be shorter. -/
def pieces (size : Nat) : (count : Nat) → Bytes → List Bytes
  | 0, _ => []
  | count + 1, bytes => bytes.take size :: pieces size count (bytes.drop size)

/-- The consecutive pieces of the given size, of which the last may be shorter. -/
def chunks (size : Nat) (bytes : Bytes) : List Bytes :=
  pieces size ((bytes.length + size - 1) / size) bytes

def ofText (text : String) : Bytes :=
  text.toList.flatMap String.utf8EncodeChar

def toText? (bytes : Bytes) : Option String :=
  String.fromUTF8? bytes.toByteArray

end Bytes
end ByteFormula
