import MatlabOutline.Outline.Basic

/-! The outline as indented text, one line for each function. -/
namespace MatlabOutline
open Text

/-- The name of a function, a mark for a builtin, and the arguments in parentheses. -/
def prototype (name : Text) (args : List Text) (builtin : Bool) : Text :=
  let mark := if builtin then " [builtin]".toList else []
  let list := if args.isEmpty then "arguments unavailable".toList else joinWith ", ".toList args
  name ++ mark ++ " (".toList ++ list ++ ")".toList

namespace FunctionEntry

def prototype (e : FunctionEntry) : Text := MatlabOutline.prototype e.name e.args e.builtin

/-- The prototype, followed by the description if there is one. -/
def summary (e : FunctionEntry) : Text :=
  match e.docstring with
  | some (c :: d) => e.prototype ++ "  -- ".toList ++ c :: d
  | _ => e.prototype

end FunctionEntry

namespace Outline

/-- The lines of the listing, the indent repeated once for each level. -/
def listingLines (indent : Text) (outline : Outline) : List Text :=
  (outline.withDepths 0).map fun e => times e.1 indent ++ e.2.summary

def listing (indent : Text) (outline : Outline) : Text :=
  joinWith "\n".toList (listingLines indent outline)

theorem length_withDepths {α : Type} (depth : Nat) (f : Forest α) :
    (f.withDepths depth).length = f.size := by
  induction f generalizing depth with
  | nil => rfl
  | node a cs fs hc hf => simp [Forest.withDepths, Forest.size, hc, hf]

@[simp] theorem length_listingLines (indent : Text) (outline : Outline) :
    (listingLines indent outline).length = outline.size := by
  simp [listingLines, length_withDepths]

end Outline
end MatlabOutline
