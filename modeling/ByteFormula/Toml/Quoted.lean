import ByteFormula.Toml.Integer
import ByteFormula.Toml.Space

/-! The four kinds of strings of TOML.

A literal string stands for its characters, a basic string may hold escapes. Three quotes open a
string of several lines: a line break right behind them is left out, and up to two quotes may stand
before the three that close it. Readers start behind the opening quotes and return the characters
with what follows the closing ones; `done` holds the characters so far, the last one first. -/
namespace ByteFormula.Toml

def scalar? (code : List Char) : Option Char :=
  if code.contains '_' then none
  else
    match digits 16 true 0 code with
    | none => none
    | some n => if h : n.isValidChar then some (Char.ofNatAux n h) else none

def escape? : Char → Option Char
  | 'b' => some (Char.ofNat 8)
  | 't' => some '\t'
  | 'n' => some '\n'
  | 'f' => some (Char.ofNat 12)
  | 'r' => some '\r'
  | 'e' => some (Char.ofNat 27)
  | '"' => some '"'
  | '\\' => some '\\'
  | _ => none

def readEscape : List Char → Option (Char × List Char)
  | 'x' :: a :: b :: rest => (scalar? [a, b]).map (·, rest)
  | 'u' :: a :: b :: c :: d :: rest => (scalar? [a, b, c, d]).map (·, rest)
  | 'U' :: a :: b :: c :: d :: e :: f :: g :: h :: rest =>
    (scalar? [a, b, c, d, e, f, g, h]).map (·, rest)
  | c :: rest => (escape? c).map (·, rest)
  | [] => none

/-- What follows an escaped line break, read behind its backslash: all white space up to the next
character is left out. -/
def foldedLine? (text : List Char) : Option (List Char) :=
  (newline? (skipSpace text)).map skipBreaks

/-- Three closing quotes. Of more than three, up to two belong to the string, and are returned. -/
def closing? (quote : Char) : List Char → Option (List Char × List Char)
  | a :: b :: c :: rest =>
    if a = quote ∧ b = quote ∧ c = quote then
      let more := (rest.take 2).takeWhile (· == quote)
      some (more, rest.drop more.length)
    else none
  | _ => none

def readLiteral (done : List Char) : List Char → Option (List Char × List Char)
  | [] => none
  | '\'' :: rest => some (done.reverse, rest)
  | c :: rest => if isPlain c then readLiteral (c :: done) rest else none

def readLiteralLines (done : List Char) : List Char → Option (List Char × List Char)
  | [] => none
  | '\r' :: '\n' :: rest => readLiteralLines ('\n' :: '\r' :: done) rest
  | c :: rest =>
    match closing? '\'' (c :: rest) with
    | some (quotes, rest) => some ((quotes ++ done).reverse, rest)
    | none => if isPlain c || c == '\n' then readLiteralLines (c :: done) rest else none

/-- Reads a basic string on one line. Every step takes a character, so the length of the text is
fuel enough. -/
def readBasic : (fuel : Nat) → (done : List Char) → List Char → Option (List Char × List Char)
  | 0, _, _ => none
  | _ + 1, _, [] => none
  | _ + 1, done, '"' :: rest => some (done.reverse, rest)
  | fuel + 1, done, '\\' :: rest =>
    match readEscape rest with
    | some (c, rest) => readBasic fuel (c :: done) rest
    | none => none
  | fuel + 1, done, c :: rest => if isPlain c then readBasic fuel (c :: done) rest else none

/-- Reads a basic string of several lines, with the length of the text as fuel. -/
def readBasicLines : (fuel : Nat) → (done : List Char) → List Char → Option (List Char × List Char)
  | 0, _, _ => none
  | _ + 1, _, [] => none
  | fuel + 1, done, '\r' :: '\n' :: rest => readBasicLines fuel ('\n' :: '\r' :: done) rest
  | fuel + 1, done, '\\' :: rest =>
    match foldedLine? rest with
    | some rest => readBasicLines fuel done rest
    | none =>
      match readEscape rest with
      | some (c, rest) => readBasicLines fuel (c :: done) rest
      | none => none
  | fuel + 1, done, c :: rest =>
    match closing? '"' (c :: rest) with
    | some (quotes, rest) => some ((quotes ++ done).reverse, rest)
    | none => if isPlain c || c == '\n' then readBasicLines fuel (c :: done) rest else none

def dropNewline (text : List Char) : List Char :=
  (newline? text).getD text

def readQuoted : List Char → Option (List Char × List Char)
  | '"' :: rest => readBasic rest.length [] rest
  | '\'' :: rest => readLiteral [] rest
  | _ => none

def readString : List Char → Option (List Char × List Char)
  | '"' :: '"' :: '"' :: rest => readBasicLines rest.length [] (dropNewline rest)
  | '\'' :: '\'' :: '\'' :: rest => readLiteralLines [] (dropNewline rest)
  | text => readQuoted text

end ByteFormula.Toml
