import MatlabOutline.Log
import MatlabOutline.Header.Basic
import MatlabOutline.Block.Basic

/-! Where a function ends. In one dialect each function is closed by an `end` of its own, in the
other it runs up to the next header. -/
namespace MatlabOutline
open Text

inductive Dialect where
  | closed | unclosed
  deriving DecidableEq, Repr

namespace Dialect

/-- The dialect of a text: closed exactly if the first function is a complete block. -/
def detect (text : Text) : Dialect :=
  match Header.first? text with
  | none => unclosed
  | some h =>
    match Block.stop text h.start with
    | .ok _ => closed
    | .error _ => unclosed

/-- The start of the next header after the line at an offset, or the end of the text. A negative
offset counts back from the end. -/
def nextDefinition (text : Text) (pos : Int) : Nat :=
  match Header.next? text (endOfLine text (fromEnd text pos)) with
  | some h => h.start
  | none => text.length

/-- The end of the function at an offset. A block that cannot be closed runs to the end of the
text, with a warning. -/
def functionEnd (dialect : Dialect) (text : Text) (start : Nat) : Nat × Log :=
  match dialect with
  | unclosed => (nextDefinition text start, [])
  | closed =>
    match Block.stop text start with
    | .ok stop => (stop, [])
    | .error e =>
      (text.length, [⟨.warning, "Falling back to end of text: ".toList ++ e.message⟩])

/-- The end of the function at an offset, in the given dialect or the one detected. -/
def resolveEnd (dialect : Option Dialect) (text : Text) (start : Nat) : Nat × Log :=
  functionEnd (dialect.getD (detect text)) text start

end Dialect
end MatlabOutline
