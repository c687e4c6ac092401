import MatlabOutline.Text.Basic

/-! The one-line description of a function: the comment that follows the line of its header. -/
namespace MatlabOutline.Docstring
open Text

/-- The text after the comment signs that open a comment, up to the end of the line. -/
def comment? (t : Text) : Option Text :=
  match t with
  | '%' :: _ => some (restOfLine ((t.dropWhile (· == '%')).dropWhile isBlank))
  | _ => none

/-- Characters of a tag word: capitals, digits and underscores. -/
def isTagChar (c : Char) : Bool := c.isUpper || c.isDigit || c == '_'

/-- A comment on the next line that opens with a tag word, without that word. -/
def tagged? (t : Text) : Option Text :=
  match (afterFirst? '\n' t).map (·.dropWhile isBlank) with
  | some ('%' :: u) =>
    if u.head?.any isTagChar && (u.dropWhile isTagChar).head?.any isBlank then
      some (restOfLine ((u.dropWhile isTagChar).dropWhile isBlank))
    else none
  | _ => none

/-- A comment on the next line. -/
def plain? (t : Text) : Option Text :=
  (afterFirst? '\n' t).bind fun u => comment? (u.dropWhile isBlank)

/-- A comment after the end of this line, with any white space before it. -/
def first? (t : Text) : Option Text :=
  (afterFirst? '\n' t).bind fun u => comment? (u.dropWhile isSpace)

/-- What each way of finding the comment gives at an offset. The first two take a negative offset
for the start of the text, the last counts it back from the end. -/
def candidates (text : Text) (pos : Int) : List (Option Text) :=
  let here := text.drop pos.toNat
  [tagged? here, plain? here, first? (text.drop (fromEnd text pos))]

/-- The description below the line at an offset: the first candidate counts, and an empty one is
none. -/
def find? (text : Text) (pos : Int) : Option Text :=
  match (candidates text pos).findSome? id with
  | none => none
  | some s => if (trimRight s).isEmpty then none else some (trimRight s)

example : find? "function f\n%F  adds. \n".toList 0 = some "adds.".toList := by decide

end MatlabOutline.Docstring
