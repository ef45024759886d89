-- The command line program. It reads the input, lets the library answer and writes the
-- answer, with nothing decided on the way.
import ScriptMinifier.CommandLine.Run

namespace ScriptMinifier.CommandLine

partial def readAll (stream : IO.FS.Stream) (read : ByteArray) : IO ByteArray := do
  let chunk ← stream.read 65536
  if chunk.isEmpty then return read else readAll stream (read ++ chunk)

/-- The bytes of the input file, or of the standard input. -/
def readInput : Option String → IO ByteArray
  | some path => IO.FS.readBinFile path
  | none => do readAll (← IO.getStdin) .empty

def writeOutput (text : String) : Option String → IO Unit
  | some path => IO.FS.writeFile path text
  | none => IO.print text

/-- Serves a request with the files of the machine. -/
def serveFiles (request : Request) : IO UInt32 := do
  match request.answer? (← readInput request.input) with
  | some text =>
    writeOutput text request.output
    return 0
  | none =>
    IO.eprintln "could not minify"
    return 1

def runProgram (arguments : List String) : IO UInt32 := do
  match Request.ofArguments arguments with
  | .ok request =>
    try serveFiles request
    catch error =>
      IO.eprintln s!"{error}"
      return 1
  | .error .info =>
    IO.print usage
    return 0
  | .error .misuse =>
    IO.eprint usage
    return 1

end ScriptMinifier.CommandLine

def main (arguments : List String) : IO UInt32 :=
  ScriptMinifier.CommandLine.runProgram arguments
