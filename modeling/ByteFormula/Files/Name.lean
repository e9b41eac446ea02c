/-! Names of files: components with slashes between them. -/
namespace ByteFormula.FileName

def isAbsolute (name : String) : Bool :=
  ['/'].isPrefixOf name.toList

/-- Drops slashes and single dots behind slashes from the end of a name, which is given from its
end. A slash alone is the root and stays. -/
def dropTail : List Char → List Char
  | ['/'] => ['/']
  | '/' :: rest => dropTail rest
  | '.' :: '/' :: rest => dropTail ('/' :: rest)
  | name => name

def parent? (name : String) : Option String :=
  match dropTail name.toList.reverse with
  | [] => none
  | ['/'] => none
  | tail => some (String.ofList (dropTail (tail.dropWhile (· != '/'))).reverse)

def join (directory name : String) : String :=
  if directory = "" || isAbsolute name then name
  else if directory.toList.getLast? = some '/' then directory ++ name
  else directory ++ "/" ++ name

end ByteFormula.FileName
