import MatlabOutline.Text.Basic

/-! Paths as lists of components. Empty components and single dots mean nothing and are dropped
when a path is read; two dots are kept until the path is normalised. A path with exactly two
leading slashes has a root of its own. -/
namespace MatlabOutline
open Text

structure Path where
  root : Text
  parts : List Text
  deriving DecidableEq, Repr

namespace Path

def up : Text := "..".toList

/-- The root that a path text begins with: none, one slash, or exactly two. -/
def rootOf : Text → Text
  | '/' :: '/' :: '/' :: _ => "/".toList
  | '/' :: '/' :: _ => "//".toList
  | '/' :: _ => "/".toList
  | _ => []

def ofText (t : Text) : Path :=
  ⟨rootOf t, (splitOn '/' t).filter fun p => !p.isEmpty && p != ".".toList⟩

def isAbsolute (p : Path) : Bool := !p.root.isEmpty

/-- Whether a null character stands in the path. -/
def hasNull (p : Path) : Bool := p.parts.any fun part => part.contains '\x00'

/-- The path in writing; a path without components is a dot. -/
def toText (p : Path) : Text :=
  let t := p.root ++ joinWith "/".toList p.parts
  if t.isEmpty then ".".toList else t

/-- The root, if there is one, and the components below it. -/
def components (p : Path) : List Text := if p.isAbsolute then p.root :: p.parts else p.parts

/-- One component on the way down, with the components passed so far innermost first. Two dots
lead back up, and stay where nothing is left to leave. -/
def descend (absolute : Bool) (passed : List Text) (part : Text) : List Text :=
  if part = up then
    match passed with
    | [] => if absolute then [] else [up]
    | p :: ps => if p = up then up :: p :: ps else ps
  else part :: passed

/-- The path with every step back up taken out, by the text of the path alone. -/
def normal (p : Path) : Path := ⟨p.root, (p.parts.foldl (descend p.isAbsolute) []).reverse⟩

/-- A second path read from the place of the first; an absolute one stands for itself. -/
def join (p q : Path) : Path := if q.isAbsolute then q else ⟨p.root, p.parts ++ q.parts⟩

/-- The path from the root of the tree, with the working directory before a relative path. -/
def resolve (p : Path) (here : List Text) : List Text :=
  (normal (join ⟨"/".toList, here⟩ p)).parts

/-- The last component. -/
def name? (p : Path) : Option Text := p.parts.getLast?

/-- A file name without its suffix. A dot that opens or ends the name begins no suffix. -/
def stem (name : Text) : Text :=
  let suffix := name.reverse.takeWhile (· != '.')
  let body := (name.reverse.dropWhile (· != '.')).tail.reverse
  if suffix.isEmpty || body.isEmpty then name else body

/-- The components below a directory, if the path lies in it or is it. -/
def relativeTo? (p base : Path) : Option (List Text) :=
  if base.components.isPrefixOf p.components then
    if base.components.isEmpty && p.isAbsolute then none
    else some (p.components.drop base.components.length)
  else none

/-- The page name for a file: the components below the base joined by dots, without suffix. -/
def pageName? (path base : Path) : Option Text :=
  match (relativeTo? path base).map List.reverse with
  | some (name :: above) => some (joinWith ".".toList (stem name :: above).reverse)
  | _ => none

/-- Whether a path lies below a root, and if it does, whether it is visible from there: no
directory between the two is named `private`. -/
def belowRoot? (path root : Text) : Option Bool :=
  let p := (ofText path).normal.components
  let r := (ofText root).normal.components
  if r.isPrefixOf p && r.length < p.length then
    some (!(p.drop r.length).dropLast.contains "private".toList)
  else none

/-- Whether a path is visible from a system root. The first root above it decides; empty roots and
an empty path count for nothing. -/
def isUnderRoots (path : Text) (roots : List Text) : Bool :=
  if path.isEmpty then false
  else ((roots.filter fun r => !r.isEmpty).findSome? (belowRoot? path)).getD false

example : (ofText "a/.././../b//c/".toList).normal.toText = "../b/c".toList := by decide
example : stem "+pkg.fun.m".toList = "+pkg.fun".toList := by decide

end Path
end MatlabOutline
