import ByteFormula.Text.Line

/-! Where a line stands in a text, in bytes and as a place to show to a reader. -/
namespace ByteFormula.Text

def byteSize (text : List Char) : Nat :=
  text.foldl (fun size c => size + c.utf8Size) 0

/-- The bytes of a line without the white space at its end: the first, and the one after the last.
Behind the last line both are the end of the text. -/
def lineSpan (text : List Char) (line : Nat) : Nat × Nat :=
  match line with
  | 0 => (byteSize text, byteSize text)
  | above + 1 =>
    match (lines text)[above]? with
    | none => (byteSize text, byteSize text)
    | some content =>
      let start := ((lines text).take above).foldl (fun size line => size + byteSize line + 1) 0
      (start, start + byteSize (trimRight content))

def isTerminator (c : Char) : Bool :=
  c == '\n' || c == '\r' || c.toNat == 0x0b || c.toNat == 0x0c || c.toNat == 0x85 ||
    c.toNat == 0x2028 || c.toNat == 0x2029

/-- The row and column of the character at an offset, both from one, for a reader who stands at
the given place. A line starts only where there is a character for it, and a carriage return with
a line feed is one line end. -/
def placeFrom (row column : Nat) : (offset : Nat) → List Char → Option (Nat × Nat)
  | 0, _ => some (row, column)
  | _ + 1, [] => none
  | offset + 1, c :: rest =>
    let ends := match c, rest with
      | _, [] => false
      | '\r', '\n' :: _ => false
      | c, _ => isTerminator c
    if ends then placeFrom (row + 1) 1 offset rest else placeFrom row (column + 1) offset rest

/-- The row and column shown for a span. The span counts as characters, and one that leaves the
text is not shown. -/
def placeOfSpan (text : List Char) (span : Nat × Nat) : Option (Nat × Nat) :=
  if text.length < span.2 - 1 then none else placeFrom 1 1 span.1 text

end ByteFormula.Text
