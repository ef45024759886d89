-- A run of the command: what it reads, what it writes and how it ends. Nothing is written
-- before there is a whole result to write.
import ScriptMinifier.CommandLine.Arguments
import ScriptMinifier.CommandLine.Folder
import ScriptMinifier.Minify

namespace ScriptMinifier.CommandLine

namespace Request

/-- The text that the request gives for an input. There is none if the input is not text, or if
it cannot be minified and may not be passed on. -/
def answer? (request : Request) (input : ByteArray) : Option String := do
  let source ← String.fromUTF8? input
  match minify source request.style with
  | .ok minified => some minified
  | .error _ => if request.passThroughOnError then some source else none

/-- The input that the request names. -/
def input? (request : Request) (folder : Folder) (stdin : ByteArray) : Option ByteArray :=
  match request.input with
  | some path => folder.read? path
  | none => some stdin

end Request

structure Outcome where
  status : Nat
  stdout : String
  folder : Folder

namespace Outcome

/-- A run that fails writes nothing at all. -/
def failure (folder : Folder) : Outcome := { status := 1, stdout := "", folder }

end Outcome

def serve (request : Request) (folder : Folder) (stdin : ByteArray) : Outcome :=
  match (request.input? folder stdin).bind request.answer? with
  | none => .failure folder
  | some text =>
    match request.output with
    | none => { status := 0, stdout := text, folder }
    | some path =>
      match folder.write? path text.toUTF8 with
      | some folder => { status := 0, stdout := "", folder }
      | none => .failure folder

def usage : String :=
  "usage: [INPUT] [-o OUTPUT] [--max-line-length N] [--statements-on-own-line] " ++
    "[--passthrough-on-error]\n"

def run (arguments : List String) (folder : Folder) (stdin : ByteArray) : Outcome :=
  match Request.ofArguments arguments with
  | .ok request => serve request folder stdin
  | .error .info => { status := 0, stdout := usage, folder }
  | .error .misuse => .failure folder

end ScriptMinifier.CommandLine
