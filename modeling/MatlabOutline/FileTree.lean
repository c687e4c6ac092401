import MatlabOutline.Path
import MatlabOutline.Text.Utf8

/-! A tree of files and directories held in memory, with a working directory. A place in the tree
is the list of names that lead to it from the root. -/
namespace MatlabOutline
open Text

inductive Node where
  | file (bytes : List UInt8)
  | directory
  deriving DecidableEq, Repr

structure FileTree where
  here : List Text
  nodes : List (List Text × Node)
  deriving DecidableEq, Repr

/-- Why a path cannot be used. No path may hold a null character, and no name may take more than
255 bytes. -/
inductive FileError where
  | notFound | notADirectory | isADirectory | alreadyExists | nullCharacter | nameTooLong
  deriving DecidableEq, Repr

namespace FileTree

/-- What stands at a place. The root is always a directory. -/
def node? (tree : FileTree) (place : List Text) : Option Node :=
  if place.isEmpty then some .directory else tree.nodes.lookup place

/-- Put a node at a place, in place of what stands there. -/
def insert (tree : FileTree) (place : List Text) (node : Node) : FileTree :=
  { tree with nodes :=
      if (tree.nodes.lookup place).isSome then
        tree.nodes.map fun n => if n.1 = place then (place, node) else n
      else tree.nodes ++ [(place, node)] }

/-- Put a directory at a place and at every place above it where there is nothing yet. -/
def insertDirectories (tree : FileTree) (place : List Text) : FileTree :=
  (List.range place.length).foldl
    (fun t n =>
      let above := place.take (n + 1)
      if (t.node? above).isSome then t else t.insert above .directory)
    tree

/-- A tree that holds nothing but its working directory. -/
def empty (here : List Text) : FileTree := insertDirectories ⟨here, []⟩ here

/-- Add a node below the working directory, with the directories above it. -/
def add (tree : FileTree) (path : Text) (node : Node) : FileTree :=
  let place := (Path.ofText path).resolve tree.here
  match node with
  | .directory => tree.insertDirectories place
  | .file _ => (tree.insertDirectories place.dropLast).insert place node

/-- Follow names from a directory. Every name but the last has to lead to a directory. -/
def follow (tree : FileTree) : List Text → List Text → Except FileError (List Text)
  | place, [] => .ok place
  | place, name :: names =>
    if name = Path.up then follow tree place.dropLast names
    else if (encode name).length > 255 then .error .nameTooLong
    else
      let next := place ++ [name]
      match tree.node? next with
      | some .directory => follow tree next names
      | some (.file _) => if names.isEmpty then .ok next else .error .notADirectory
      | none => if names.isEmpty then .ok next else .error .notFound

/-- The place that a path leads to; there need be nothing at its end. -/
def locate (tree : FileTree) (path : Path) : Except FileError (List Text) :=
  if path.hasNull then .error .nullCharacter
  else tree.follow (if path.isAbsolute then [] else tree.here) path.parts

/-- The place that a path names by its text alone, whether there is anything on the way or not. -/
def resolve (tree : FileTree) (path : Path) : Except FileError (List Text) :=
  if path.hasNull then .error .nullCharacter else .ok (path.resolve tree.here)

/-- What a path leads to. -/
def find? (tree : FileTree) (path : Path) : Option Node :=
  match tree.locate path with
  | .ok place => tree.node? place
  | .error _ => none

/-- Whether a path leads to anything. -/
def exists? (tree : FileTree) (path : Path) : Except FileError Bool :=
  match tree.locate path with
  | .ok place => .ok (tree.node? place).isSome
  | .error .nameTooLong => .error .nameTooLong
  | .error _ => .ok false

def read (tree : FileTree) (path : Path) : Except FileError (List UInt8) := do
  let place ← tree.locate path
  match tree.node? place with
  | some (.file bytes) => .ok bytes
  | some .directory => .error .isADirectory
  | none => .error .notFound

/-- Write a file; its directory has to exist. -/
def write (tree : FileTree) (path : Path) (bytes : List UInt8) : Except FileError FileTree := do
  let place ← tree.locate path
  match tree.node? place with
  | some .directory => .error .isADirectory
  | _ => .ok (tree.insert place (.file bytes))

/-- Make one directory where there is nothing yet. -/
def makeDirectory (tree : FileTree) (path : Path) : Except FileError FileTree := do
  let place ← tree.locate path
  match tree.node? place with
  | some _ => .error .alreadyExists
  | none => .ok (tree.insert place .directory)

/-- A directory that is there already may stay. -/
def orExisting (tree : FileTree) (path : Path) (e : FileError) : FileTree × Option FileError :=
  (tree, if tree.find? path = some .directory then none else some e)

/-- Make a directory and those above it, the parts of the path given from the last to the first.
Directories made on the way stay when a later one fails. -/
def makeDirectoriesFrom (root : Text) (tree : FileTree) : List Text → FileTree × Option FileError
  | [] => tree.orExisting ⟨root, []⟩ .notFound
  | part :: above =>
    let path : Path := ⟨root, (part :: above).reverse⟩
    match tree.makeDirectory path with
    | .ok t => (t, none)
    | .error .notFound =>
      match makeDirectoriesFrom root tree above with
      | (t, some e) => (t, some e)
      | (t, none) =>
        match t.makeDirectory path with
        | .ok u => (u, none)
        | .error e => t.orExisting path e
    | .error e => tree.orExisting path e

/-- Make a directory and those above it. The tree is the one that is left, with the failure that
ended the work. -/
def makeDirectories (tree : FileTree) (path : Path) : FileTree × Option FileError :=
  makeDirectoriesFrom path.root tree path.parts.reverse

/-- The files of a tree with their places. -/
def files (tree : FileTree) : List (List Text × List UInt8) :=
  tree.nodes.filterMap fun n =>
    match n.2 with
    | .file bytes => some (n.1, bytes)
    | .directory => none

/-- The files that are new or have other contents than in an earlier tree. -/
def changesSince (tree earlier : FileTree) : List (List Text × List UInt8) :=
  tree.files.filter fun f => earlier.node? f.1 != some (.file f.2)

/-- A place as an absolute path. -/
def placeText (place : List Text) : Text := Path.toText ⟨"/".toList, place⟩

/-- A place as a path from the working directory, for places below it. -/
def relativeText (tree : FileTree) (place : List Text) : Text :=
  Path.toText ⟨[], place.drop tree.here.length⟩

end FileTree
end MatlabOutline
