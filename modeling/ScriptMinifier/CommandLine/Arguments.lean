-- The arguments of the command. Options and at most one input file may come in any order.
-- First the arguments are told apart one by one, and only then are the values looked at, so
-- a call for help further on wins over a bad value.
import ScriptMinifier.Style

namespace ScriptMinifier.CommandLine

/-! ## Single arguments -/

inductive ValueOption where
  | output
  | maxLineLength
deriving DecidableEq, Repr

inductive Flag where
  | statementsOnOwnLine
  | passThroughOnError
deriving DecidableEq, Repr

/-- What a single argument is by itself. -/
inductive Argument where
  /-- Two dashes. Only files follow. -/
  | endOfOptions
  /-- An option with a value, which may be in the next argument. -/
  | valued (option : ValueOption) (attached : Option String)
  | flag (flag : Flag)
  /-- The user asks for help or for the version. -/
  | info
  | unknown
  /-- A file, or the value of the option before it. -/
  | plain (text : String)
deriving DecidableEq, Repr

namespace Argument

/-- An option by its long name. The value of an option stands after an equals sign, of which
there may be several. A flag does not look at one. -/
def ofLongName (name : String) (attached : Option String) : Argument :=
  match name with
  | "output" => .valued .output attached
  | "max-line-length" => .valued .maxLineLength attached
  | "statements-on-own-line" => .flag .statementsOnOwnLine
  | "passthrough-on-error" => .flag .passThroughOnError
  | "help" | "version" => .info
  | _ => .unknown

/-- The text after an equals sign, without more of them at its start. -/
def valueAfter (text : List Char) : String := String.ofList (text.dropWhile (· == '='))

/-- A long option, without its dashes. -/
def ofLong (text : List Char) : Argument :=
  let name := String.ofList (text.takeWhile (· != '='))
  match text.dropWhile (· != '=') with
  | [] => ofLongName name none
  | value => ofLongName name (some (valueAfter value))

/-- A short option, without its dash. -/
def ofShort : List Char → Argument
  | ['o'] => .valued .output none
  | 'o' :: value => .valued .output (some (valueAfter value))
  | 'h' :: _ | 'V' :: _ => .info
  | _ => .unknown

/-- What an argument is. A single dash is a file. -/
def ofString (text : String) : Argument :=
  match text.toList with
  | ['-', '-'] => .endOfOptions
  | '-' :: '-' :: rest => ofLong (rest.dropWhile (· == '-'))
  | ['-'] => .plain text
  | '-' :: rest => ofShort rest
  | _ => .plain text

end Argument

/-! ## The arguments in order -/

/-- What the arguments say, one item for each option or file. An option whose value never came has
none. -/
inductive Item where
  | input (path : String)
  | valued (option : ValueOption) (value : Option String)
  | flag (flag : Flag)
deriving DecidableEq, Repr

/-- Why the arguments are not a request to minify. -/
inductive Refusal where
  /-- The user asks for help or for the version. -/
  | info
  | misuse
deriving DecidableEq, Repr

/-- The input file. There is at most one. -/
def inputItems : (hasInput : Bool) → List String → Except Refusal (List Item)
  | _, [] => .ok []
  | false, [path] => .ok [.input path]
  | _, _ => .error .misuse

/-- The items of the arguments. The option in `waiting` has not got its value yet: the next
argument is its value unless that is an option itself. -/
def items (waiting : Option ValueOption) (hasInput : Bool) :
    List String → Except Refusal (List Item)
  | [] => .ok (waiting.toList.map (.valued · none))
  | argument :: rest =>
    let valueless := waiting.toList.map (Item.valued · none)
    match Argument.ofString argument with
    | .endOfOptions => (inputItems hasInput rest).map (valueless ++ ·)
    | .valued option (some value) =>
      (items none hasInput rest).map (valueless ++ .valued option (some value) :: ·)
    | .valued option none => (items (some option) hasInput rest).map (valueless ++ ·)
    | .flag flag => (items none hasInput rest).map (valueless ++ .flag flag :: ·)
    | .info => .error .info
    | .unknown => .error .misuse
    | .plain text =>
      match waiting with
      | some option => (items none hasInput rest).map (.valued option (some text) :: ·)
      | none =>
        if hasInput then .error .misuse else (items none true rest).map (.input text :: ·)

/-! ## The request -/

structure Request where
  /-- The file to minify. Without one, the standard input is read. -/
  input : Option String := none
  /-- The file to write. Without one, the standard output is written. -/
  output : Option String := none
  maxLineLength : Option Nat := none
  statementsOnOwnLine : Bool := false
  /-- A script that cannot be minified is passed on as it is. -/
  passThroughOnError : Bool := false
deriving DecidableEq, Repr

/-- A line length: decimal digits, perhaps with a plus sign, that stay within 64 bits. -/
def lineLength? (text : String) : Option Nat :=
  let digits := match text.toList with
    | '+' :: rest => rest
    | other => other
  if !digits.isEmpty && digits.all Char.isDigit then
    let value := digits.foldl (fun n c => 10 * n + (c.toNat - '0'.toNat)) 0
    if value < UInt64.size then some value else none
  else none

/-- The line length that an option asks for. Without its value it asks for the usual one. -/
def askedLength? : Option String → Option Nat
  | some text => lineLength? text
  | none => some Style.usual.maxLineLength

namespace Request

/-- The request with one more item. Each option may be given once. The output has to be named,
while the line length has a usual value. -/
def add (request : Request) : Item → Option Request
  | .input path => if request.input.isNone then some { request with input := some path } else none
  | .valued .output none => none
  | .valued .output (some path) =>
    if request.output.isNone then some { request with output := some path } else none
  | .valued .maxLineLength value => do
    let length ← askedLength? value
    if request.maxLineLength.isNone then some { request with maxLineLength := some length }
    else none
  | .flag .statementsOnOwnLine =>
    if request.statementsOnOwnLine then none else some { request with statementsOnOwnLine := true }
  | .flag .passThroughOnError =>
    if request.passThroughOnError then none else some { request with passThroughOnError := true }

def ofArguments (arguments : List String) : Except Refusal Request := do
  match (← items none false arguments).foldlM add {} with
  | some request => .ok request
  | none => .error .misuse

def style (request : Request) : Style :=
  { maxLineLength := request.maxLineLength.getD Style.usual.maxLineLength
    statementsOnOwnLine := request.statementsOnOwnLine }

end Request

end ScriptMinifier.CommandLine
