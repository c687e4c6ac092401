import MatlabOutline.Source

/-! Requests whose fields are not yet known to be texts. A field of the wrong kind matters only
when the outline needs it: the path and the roots are looked at only for a text without headers,
and no root after the one that decides. -/
namespace MatlabOutline
open Text

/-- A field of a request: a text, no value or an empty one, or a value that is not a text, given
by how it is shown. -/
inductive Field where
  | text (t : Text)
  | empty
  | malformed (shown : Text)
  deriving DecidableEq, Repr

structure Request where
  text : Field
  path : Field
  roots : List Field
  dialect : Option Dialect
  deriving DecidableEq, Repr

namespace Request

/-- The roots that are needed to place a path, unless a malformed one comes first. -/
def rootsFor? (path : Text) : List Field → Option (List Text)
  | [] => some []
  | .empty :: fs => rootsFor? path fs
  | .malformed _ :: _ => none
  | .text r :: fs =>
    if !r.isEmpty && (Path.belowRoot? path r).isSome then some [r]
    else (rootsFor? path fs).map (r :: ·)

/-- The source that a request describes, if every field that is needed is a text. -/
def source? (r : Request) : Option Source :=
  match r.text with
  | .text t =>
    if (Header.first? t).isSome then some ⟨t, none, [], r.dialect⟩
    else match r.path with
      | .empty => some ⟨t, none, [], r.dialect⟩
      | .malformed _ => none
      | .text [] => some ⟨t, none, [], r.dialect⟩
      | .text (c :: p) =>
        (rootsFor? (c :: p) r.roots).map fun roots => ⟨t, some (c :: p), roots, r.dialect⟩
  | _ => none

/-- The path as it is named in messages. -/
def shownPath (r : Request) : Text :=
  match r.path with
  | .text (c :: p) => c :: p
  | .malformed shown => shown
  | _ => "<text>".toList

/-- The outline of a request. A malformed request has an empty outline and leaves a warning. -/
def outline (r : Request) : Outline × Log :=
  match r.source? with
  | some s => s.outline
  | none => (.nil, [⟨.warning, "Failed to scan ".toList ++ r.shownPath⟩])

end Request
end MatlabOutline
