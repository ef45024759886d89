-- Minifying into a buffer of fixed size.
import ScriptMinifier.Minify

namespace ScriptMinifier

/-- Why a minified script could not be delivered. -/
inductive DeliveryError where
  | lex (error : LexError)
  | bufferFull
deriving DecidableEq, Repr

namespace DeliveryError

def message : DeliveryError → String
  | lex error => s!"Lex Error: {error.message}"
  | bufferFull => "IO Error: failed to write whole buffer"

end DeliveryError

/-- What came of a delivery, and the bytes that are in the buffer now. -/
structure Delivery where
  failure : Option DeliveryError
  written : ByteArray

/-- Minifies a script into an empty buffer that holds `capacity` bytes. A script that cannot be
read leaves the buffer empty, and one that does not fit fills it. -/
def minifyInto (capacity : Nat) (source : String) (style : Style := .usual) : Delivery :=
  match minify source style with
  | .error error => { failure := some (.lex error), written := .empty }
  | .ok minified =>
    { failure := if minified.utf8ByteSize ≤ capacity then none else some .bufferFull
      written := minified.toUTF8.extract 0 capacity }

end ScriptMinifier
