import MatlabOutline.Docstring

/-! Files that document a builtin: they hold comments only, and the first of them names the
function and describes it. -/
namespace MatlabOutline.Builtin
open Text

/-- Drop the blanks at the end of a line. -/
def trimLineEnd (t : Text) : Text := (t.reverse.dropWhile isTrailingBlank).reverse

/-- The name and the description on a line such as `%SIN Sine.`; the name is given in lower
case. -/
def ofLine? (line : Text) : Option (Text × Text) :=
  match line.dropWhile isBlank with
  | '%' :: t =>
    let rest := t.dropWhile Docstring.isTagChar
    if t.head?.any Char.isUpper && rest.head?.any isBlank then
      let name := t.takeWhile Docstring.isTagChar
      some (name.map Char.toLower, trimLineEnd (rest.dropWhile isBlank))
    else none
  | _ => none

/-- The builtin that a text documents on its first line that is not blank. -/
def find? (text : Text) : Option (Text × Text) :=
  ((splitLines text).find? fun l => !(trim l).isEmpty).bind ofLine?

example : find? "\n %SIN  Sine of x. \n".toList = some ("sin".toList, "Sine of x.".toList) := by
  decide

end MatlabOutline.Builtin
