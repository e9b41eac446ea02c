import ByteFormula.Toml.Quoted

/-! Flat settings in the notation TOML: keys with integers, truth values, strings and arrays of
them. Tables, dotted keys and all other kinds of values are refused. -/
namespace ByteFormula.Toml

inductive Value where
  | integer (value : Int)
  | boolean (value : Bool)
  | string (value : String)
  | array (items : List Value)

def isWordChar (c : Char) : Bool :=
  c.isAlphanum || c == '_' || c == '-'

def readKey (text : List Char) : Option (List Char × List Char) :=
  match text.takeWhile isWordChar with
  | [] => readQuoted text
  | word => some (word, text.dropWhile isWordChar)

def readWord (text : List Char) : Option (Value × List Char) :=
  let isPart (c : Char) : Bool := isWordChar c || c == '+' || c == '.' || c == ':'
  let rest := text.dropWhile isPart
  match text.takeWhile isPart with
  | ['t', 'r', 'u', 'e'] => some (.boolean true, rest)
  | ['f', 'a', 'l', 's', 'e'] => some (.boolean false, rest)
  | word => (integer word).map fun n => (.integer n, rest)

mutual
def readValue : (fuel : Nat) → List Char → Option (Value × List Char)
  | 0, _ => none
  | fuel + 1, text =>
    match text with
    | '[' :: rest => (readItems fuel rest).map fun (items, rest) => (.array items, rest)
    | c :: _ =>
      if c = '"' ∨ c = '\'' then
        (readString text).map fun (chars, rest) => (.string (String.ofList chars), rest)
      else readWord text
    | [] => none

def readItems : (fuel : Nat) → List Char → Option (List Value × List Char)
  | 0, _ => none
  | fuel + 1, text =>
    match skipLines text.length text with
    | ']' :: rest => some ([], rest)
    | start =>
      match readValue fuel start with
      | none => none
      | some (value, rest) =>
        match skipLines rest.length rest with
        | ']' :: rest => some ([value], rest)
        | ',' :: rest => (readItems fuel rest).map fun (items, rest) => (value :: items, rest)
        | _ => none
end

def readSettings : (fuel : Nat) → List Char → Option (List (String × Value))
  | 0, _ => none
  | fuel + 1, text =>
    match skipLines text.length text with
    | [] => some []
    | start =>
      match readKey start with
      | none => none
      | some (key, rest) =>
        match skipSpace rest with
        | '=' :: rest =>
          match readValue (rest.length + 1) (skipSpace rest) with
          | none => none
          | some (value, rest) =>
            match skipComment rest with
            | [] => some [(String.ofList key, value)]
            | rest =>
              match newline? rest with
              | none => none
              | some rest =>
                (readSettings fuel rest).map fun settings => (String.ofList key, value) :: settings
        | _ => none

/-- The settings of a text, which may start with a byte order mark. No key may stand twice. -/
def parse (text : String) : Option (List (String × Value)) :=
  let start := match text.toList with
    | c :: rest => if c.toNat = 0xfeff then rest else c :: rest
    | [] => []
  match readSettings (start.length + 1) start with
  | none => none
  | some settings => if (settings.map (·.1)).Nodup then some settings else none

end ByteFormula.Toml
