/-! The white space, comments and line breaks of TOML. -/
namespace ByteFormula.Toml

def isSpace (c : Char) : Bool :=
  c == ' ' || c == '\t'

def isPlain (c : Char) : Bool :=
  c == '\t' || (0x20 ≤ c.toNat && c.toNat != 0x7f)

def skipSpace (text : List Char) : List Char :=
  text.dropWhile isSpace

def newline? : List Char → Option (List Char)
  | '\n' :: rest => some rest
  | '\r' :: '\n' :: rest => some rest
  | _ => none

def skipComment (text : List Char) : List Char :=
  match skipSpace text with
  | '#' :: rest => rest.dropWhile isPlain
  | rest => rest

/-- What follows spaces, comments and line breaks. The fuel bounds the number of lines. -/
def skipLines : (fuel : Nat) → List Char → List Char
  | 0, text => text
  | fuel + 1, text =>
    match newline? (skipComment text) with
    | some rest => skipLines fuel rest
    | none => skipComment text

def skipBreaks : List Char → List Char
  | [] => []
  | '\r' :: '\n' :: rest => skipBreaks rest
  | c :: rest => if isSpace c || c == '\n' then skipBreaks rest else c :: rest

end ByteFormula.Toml
