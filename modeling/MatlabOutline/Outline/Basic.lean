import MatlabOutline.Text.Basic
import MatlabOutline.Forest

/-! The outline of a text: its functions, nested by containment of their extents. -/
namespace MatlabOutline

/-- One function with its extent. The extent of a documented builtin is empty. -/
structure FunctionEntry where
  start : Int
  stop : Int
  returns : List Text
  name : Text
  args : List Text
  docstring : Option Text
  builtin : Bool
  deriving DecidableEq, Repr

abbrev Outline := Forest FunctionEntry

namespace Outline

/-- Nest entries below a boundary. An entry that starts before the boundary is a root, cut off at
the boundary; the entries after it that start before its end are its descendants. The first entry
at or past the boundary ends the forest. -/
def nest : List FunctionEntry → Int → Outline
  | [], _ => .nil
  | e :: es, boundary =>
    if e.start < boundary then
      let stop := min e.stop boundary
      let children := nest es stop
      .node { e with stop } children (nest (es.drop children.size) boundary)
    else .nil
termination_by es => es.length
decreasing_by
  · simp
  · simp only [List.length_drop, List.length_cons]; omega

@[simp] theorem nest_nil (boundary : Int) : nest [] boundary = .nil := by rw [nest]

theorem nest_cons_of_lt {e : FunctionEntry} {es : List FunctionEntry} {boundary : Int}
    (h : e.start < boundary) :
    nest (e :: es) boundary =
      .node { e with stop := min e.stop boundary } (nest es (min e.stop boundary))
        (nest (es.drop (nest es (min e.stop boundary)).size) boundary) := by
  rw [nest, if_pos h]

theorem nest_cons_of_le {e : FunctionEntry} {es : List FunctionEntry} {boundary : Int}
    (h : boundary ≤ e.start) : nest (e :: es) boundary = .nil := by
  rw [nest, if_neg (by omega)]

/-- Nest the entries from an index on. The second part is the index of the first entry left
over. -/
def nestFrom (entries : List FunctionEntry) (boundary : Int) (index : Nat) : Outline × Nat :=
  let forest := nest (entries.drop index) boundary
  (forest, index + forest.size)

end Outline
end MatlabOutline
