import ByteFormula.Text.Hex

/-! Paths into a tree of arrays: one element index a step, the empty path for the root. -/
namespace ByteFormula

abbrev Path := Bytes

namespace Path

def child (path : Path) (index : UInt8) : Path :=
  path ++ [index]

def parent? (path : Path) : Option Path :=
  if path = [] then none else some path.dropLast

def text (path : Path) : String :=
  if path = [] then "<root>" else "0x" ++ Hex.encode path

/-- Paths are ordered by their first difference, a path before those below it. -/
def order (a b : Path) : Ordering :=
  if a < b then .lt else if a = b then .eq else .gt

end Path
end ByteFormula
