import ByteFormula.Bytes
import ByteFormula.Files.Fault

/-! A directory held in memory, and the reading of files in it. -/
namespace ByteFormula

/-- Files by the components of their names. The directories are those that the names mention. -/
structure Directory where
  files : List (List String × Bytes)

namespace Directory

def components (name : String) : List String :=
  (name.splitOn "/").filter (· != "")

def ofFiles (files : List (String × Bytes)) : Directory :=
  ⟨files.map fun (name, content) => (components name, content)⟩

def hasDirectory (directory : Directory) (place : List String) : Bool :=
  place.isEmpty || directory.files.any fun (name, _) => place.isPrefixOf name && place != name

def file? (directory : Directory) (place : List String) : Option Bytes :=
  (directory.files.find? fun (name, _) => name == place).map (·.2)

def maxNameLength : Nat := 255

/-- Follows components from a place; `none` is a place outside, where nothing is known but that it
is a directory. A name that ends with a slash has to be one. -/
def walk (directory : Directory) (slash : Bool) :
    Option (List String) → List String → Except FileFault Bytes
  | _, [] => .error .isADirectory
  | place, "." :: rest => directory.walk slash place rest
  | none, ".." :: rest => directory.walk slash none rest
  | some place, ".." :: rest =>
    directory.walk slash (if place.isEmpty then none else some place.dropLast) rest
  | place, name :: rest =>
    if maxNameLength < name.utf8ByteSize then .error .nameTooLong
    else
      match place with
      | none => .error .notFound
      | some place =>
        let inner := place ++ [name]
        if directory.hasDirectory inner then directory.walk slash (some inner) rest
        else
          match directory.file? inner with
          | none => .error .notFound
          | some content =>
            if rest.isEmpty && !slash then .ok content else .error .notADirectory

def readBytes (directory : Directory) (name : String) : Except FileFault Bytes :=
  if name.toList.contains (Char.ofNat 0) then .error .nulInName
  else if name.isEmpty then .error .notFound
  else if 4096 ≤ name.utf8ByteSize then .error .nameTooLong
  else
    let start := if name.toList.head? = some '/' then none else some []
    directory.walk (name.toList.getLast? = some '/') start (components name)

def readText (directory : Directory) (name : String) : Except FileFault String :=
  match directory.readBytes name with
  | .error e => .error e
  | .ok bytes =>
    match bytes.toText? with
    | some text => .ok text
    | none => .error .notUtf8

end Directory
end ByteFormula
