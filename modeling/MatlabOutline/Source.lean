import MatlabOutline.Path
import MatlabOutline.Builtin
import MatlabOutline.Dialect
import MatlabOutline.Outline.Basic

/-! A source text with what is known about it, and the outline read from it. -/
namespace MatlabOutline
open Text

structure Source where
  text : Text
  path : Option Text
  roots : List Text
  dialect : Option Dialect
  deriving DecidableEq, Repr

namespace FunctionEntry

/-- The entry for a header in a text. -/
def ofHeader (text : Text) (dialect : Dialect) (h : Header) : FunctionEntry where
  start := h.start
  stop := (dialect.functionEnd text h.start).1
  returns := Header.clauseNames h.returnClause
  name := h.name
  args := Header.clauseNames h.argClause
  docstring := Docstring.find? text h.lineEnd
  builtin := false

/-- The entry for a builtin that a file only documents. -/
def ofBuiltin (name description : Text) : FunctionEntry where
  start := 0
  stop := 0
  returns := []
  name
  args := []
  docstring := if description.isEmpty then none else some description
  builtin := true

end FunctionEntry

namespace Source

/-- The builtin that the source documents, if it is a file visible from a system root. -/
def builtin? (s : Source) : Option (Text × Text) :=
  match s.path with
  | none => none
  | some path => if Path.isUnderRoots path s.roots then Builtin.find? s.text else none

/-- The functions of a source in order, with the messages of the search. A source without headers
may document a builtin instead. -/
def entries (s : Source) : List FunctionEntry × Log :=
  match Header.all s.text with
  | [] =>
    match s.builtin? with
    | none => ([], [])
    | some (name, description) =>
      ([.ofBuiltin name description],
        [⟨.debug, "Treating ".toList ++ s.path.getD [] ++ " as builtin ".toList ++ name⟩])
  | headers =>
    let dialect := s.dialect.getD (Dialect.detect s.text)
    (headers.map (.ofHeader s.text dialect),
      headers.flatMap fun h => (dialect.functionEnd s.text h.start).2)

/-- The outline of a source. -/
def outline (s : Source) : Outline × Log :=
  (Outline.nest s.entries.1 s.text.length, s.entries.2)

end Source
end MatlabOutline
