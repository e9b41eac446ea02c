import ByteFormula.Command.Run

/-! The command line program. -/
namespace ByteFormula

def readSystemFile (name : String) : IO (Except FileFault String) := do
  try
    let content ← IO.FS.readBinFile name
    match String.fromUTF8? content with
    | some text => return .ok text
    | none => return .error .notUtf8
  catch e =>
    match e with
    | .noFileOrDirectory .. => return .error .notFound
    | .inappropriateType .. => return .error .isADirectory
    | other => return .error (.other (toString other))

end ByteFormula

def main (args : List String) : IO UInt32 := do
  let report ← ByteFormula.Command.run ByteFormula.readSystemFile args
  for message in report.messages do
    IO.eprintln message
  IO.print report.output
  if report.status = 2 then
    IO.eprint ByteFormula.Command.usage
  return UInt32.ofNat report.status
