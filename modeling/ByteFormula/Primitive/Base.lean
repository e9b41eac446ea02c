import ByteFormula.Primitive.Embedded
import ByteFormula.Registry.Extend

/-! The definitions that a registry has on top of the embedded functions, unless it is told not
to. -/
namespace ByteFormula

def baseSource : String :=
  String.join
    ["// Functions every library carries on top of the native primitives.\n",
     "// Predicates return a non-empty value for true and nil for false.\n",
     "\n",
     "def true(0) = 0xff\n",
     "\n",
     "// Passes when $0 holds, fails the evaluation with message $1 otherwise.\n",
     "def require(2) = or($0, fail($1))\n",
     "\n",
     "def equiv(2) = or(\n",
     "    and($0, $1),\n",
     "    and(not($0), not($1))\n",
     ")\n",
     "\n",
     "// Comparisons of equal-length big-endian integers.\n",
     "def lessOrEqualThan(2) = or(lessThan($0, $1), equal($0, $1))\n",
     "def greaterThan(2) = not(lessOrEqualThan($0, $1))\n",
     "def greaterOrEqualThan(2) = not(lessThan($0, $1))\n",
     "def min(2) = if(lessThan($0, $1), $0, $1)\n",
     "def max(2) = if(lessThan($0, $1), $1, $0)\n",
     "\n",
     "def first(1) = byte($0, 0)\n",
     "def last(1) = byte($0, sub8(len8($0), 1))\n",
     "\n",
     "// $0 unchanged when it is exactly $1 bytes long; \"wrong size\" otherwise.\n",
     "def mustSize(2) = if(\n",
     "    equal(len8($0), $1),\n",
     "    $0,\n",
     "    fail(0x77726f6e672073697a65)\n",
     ")\n",
     "\n",
     "// Bytes of the constraint being evaluated.\n",
     "def selfBytes(0) = @Path(@)\n",
     "\n",
     "def isEmpty(1) = not($0)\n"]

/-- The base definitions, each after those it calls, with their lines in the text. `require`
and `mustSize` fail unless what they check holds, the latter with the text `wrong size`. -/
def baseDefinitions : List Definition :=
  [⟨"true", .fixed 0, "0xff", 4⟩,
   ⟨"require", .fixed 2, "or($0,fail($1))", 7⟩,
   ⟨"equiv", .fixed 2, "or(and($0,$1),and(not($0),not($1)))", 9⟩,
   ⟨"lessOrEqualThan", .fixed 2, "or(lessThan($0,$1),equal($0,$1))", 15⟩,
   ⟨"greaterThan", .fixed 2, "not(lessOrEqualThan($0,$1))", 16⟩,
   ⟨"greaterOrEqualThan", .fixed 2, "not(lessThan($0,$1))", 17⟩,
   ⟨"min", .fixed 2, "if(lessThan($0,$1),$0,$1)", 18⟩,
   ⟨"max", .fixed 2, "if(lessThan($0,$1),$1,$0)", 19⟩,
   ⟨"first", .fixed 1, "byte($0,0)", 21⟩,
   ⟨"last", .fixed 1, "byte($0,sub8(len8($0),1))", 22⟩,
   ⟨"mustSize", .fixed 2, "if(equal(len8($0),$1),$0,fail(0x77726f6e672073697a65))", 25⟩,
   ⟨"selfBytes", .fixed 0, "@Path(@)", 32⟩,
   ⟨"isEmpty", .fixed 1, "not($0)", 34⟩]

def Registry.base {σ : Type} : Except Error (Registry σ) :=
  match Registry.embedded with
  | .error e => .error (.registry e)
  | .ok registry =>
    match registry.extendAll baseDefinitions with
    | (.error e, _) => .error e
    | (.ok _, registry) => .ok registry

end ByteFormula
