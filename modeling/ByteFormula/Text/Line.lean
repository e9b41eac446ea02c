import ByteFormula.Text.Blank

/-! The lines of a text, the comments in them, and the place of a line in the whole text. -/
namespace ByteFormula.Text

/-- Puts a character in front of the first line, or opens a new line at a line feed. -/
def consLine (c : Char) (lines : List (List Char)) : List (List Char) :=
  if c = '\n' then [] :: lines
  else
    match lines with
    | [] => [[c]]
    | line :: rest => (c :: line) :: rest

/-- The lines of a text, split at line feeds. The text has one more line than line feeds. -/
def lines (text : List Char) : List (List Char) :=
  text.foldr consLine [[]]

def dropReturn (line : List Char) : List Char :=
  if line.getLast? = some '\r' then line.dropLast else line

def commentStart (column : Nat) : List Char → Nat
  | [] => column
  | '/' :: '/' :: _ => column
  | _ :: rest => commentStart (column + 1) rest

def cutComment (line : List Char) : List Char :=
  line.take (commentStart 0 line)

end ByteFormula.Text
