import MatlabOutline.FileTree

/-! The search for source files below a directory. -/
namespace MatlabOutline
open Text

namespace FileTree

/-- Directories of version control and of build caches, where nothing is looked for. -/
def skippedNames : List Text := [".git".toList, ".svn".toList, "slprj".toList]

def isSourceName (name : Text) : Bool := ".m".toList.isSuffixOf name

/-- Whether an ignored path is the relative path, or lies above it. -/
def isIgnored (ignored : List Path) (relative : List Text) : Bool :=
  ignored.any fun i => !i.isAbsolute && i.parts.isPrefixOf relative

/-- Whether a relative path names a source file that is to be outlined. -/
def isWanted (ignored : List Path) (relative : List Text) : Bool :=
  relative.getLast?.any isSourceName &&
  !relative.dropLast.any skippedNames.contains &&
  !isIgnored ignored relative

/-- Order by code points. -/
def comesBefore : Text → Text → Bool
  | [], _ => true
  | _ :: _, [] => false
  | c :: s, d :: t => c.toNat < d.toNat || (c == d && comesBefore s t)

/-- Put a file in front of the first one that does not come before it. -/
def insertByPath (f : Text × List UInt8) : List (Text × List UInt8) → List (Text × List UInt8)
  | [] => [f]
  | g :: gs => if comesBefore f.1 g.1 then f :: g :: gs else g :: insertByPath f gs

def sortByPath (fs : List (Text × List UInt8)) : List (Text × List UInt8) :=
  fs.foldr insertByPath []

theorem insertByPath_perm (f : Text × List UInt8) (fs : List (Text × List UInt8)) :
    (insertByPath f fs).Perm (f :: fs) := by
  induction fs with
  | nil => exact .refl _
  | cons g gs ih =>
    rw [insertByPath]
    split
    · exact .refl _
    · exact (ih.cons g).trans (.swap f g gs)

theorem sortByPath_perm (fs : List (Text × List UInt8)) : (sortByPath fs).Perm fs := by
  induction fs with
  | nil => exact .refl _
  | cons f fs ih => exact (insertByPath_perm f _).trans (ih.cons f)

/-- The path of a file below a base directory. -/
def below? (base place : List Text) : Option (List Text) :=
  if base.isPrefixOf place && base.length < place.length then some (place.drop base.length)
  else none

/-- The source files below a place with their contents, in the order of their absolute paths. -/
def sourceFiles (tree : FileTree) (base : List Text) (ignored : List Path) :
    List (Text × List UInt8) :=
  let wanted := tree.files.filter fun f => (below? base f.1).any (isWanted ignored)
  sortByPath (wanted.map fun f => (placeText f.1, f.2))

/-- The absolute paths of the source files below a directory. The base is normalised by its text,
and a base that is no directory holds no files. -/
def sources (tree : FileTree) (base : Path) (ignored : List Path) : Except FileError (List Text) :=
  match tree.resolve base with
  | .error e => .error e
  | .ok place =>
    (tree.exists? ⟨"/".toList, place⟩).map fun _ => (tree.sourceFiles place ignored).map Prod.fst

end FileTree
end MatlabOutline
