import MatlabOutline.Command.Run

/-! The program. It copies the part of the file system that a run looks at into a tree, runs on
the tree, and writes back what changed. -/
namespace MatlabOutline.Command

def placeName (place : List Text) : String := String.ofList (FileTree.placeText place)

/-- Copy what stands at a place; the contents of a file only if it is to be read. -/
def loadNode (tree : FileTree) (place : List Text) (wanted : Bool) : IO FileTree := do
  let path := (← IO.currentDir) / placeName place
  if !(← path.pathExists) then return tree
  if ← path.isDir then return tree.insertDirectories place
  let bytes ← if wanted then IO.FS.readBinFile path else pure ByteArray.empty
  return (tree.insertDirectories place.dropLast).insert place (.file bytes.toList)

/-- Copy a directory with all that is below it. -/
partial def loadBelow (tree : FileTree) (place : List Text) : IO FileTree := do
  let path := (← IO.currentDir) / placeName place
  if !(← path.pathExists) || !(← path.isDir) then return tree
  let mut tree := tree
  for entry in ← path.readDir do
    let name := entry.fileName.toList
    tree ← loadNode tree (place ++ [name]) (FileTree.isSourceName name)
    tree ← loadBelow tree (place ++ [name])
  return tree

/-- Copy everything on the way to the end of a path, and what is below it. -/
def load (tree : FileTree) (path : Path) : IO FileTree := do
  let mut tree := tree
  for n in [0 : path.parts.length + 1] do
    tree ← loadNode tree (Path.resolve { path with parts := path.parts.take n } tree.here) true
  loadBelow tree (path.resolve tree.here)

/-- Write the files that a run made or changed. -/
def store (before after : FileTree) : IO Unit := do
  for (place, bytes) in after.changesSince before do
    IO.FS.createDirAll (placeName place.dropLast)
    IO.FS.writeBinFile (placeName place) ⟨bytes.toArray⟩

def failureText : Failure → String
  | .file .notFound => "no such file or directory"
  | .file .notADirectory => "not a directory"
  | .file .isADirectory => "is a directory"
  | .file .alreadyExists => "file exists"
  | .file .nullCharacter => "null character in a path"
  | .file .nameTooLong => "file name too long"
  | .lostValue => "a switch has lost its value"

def execute (o : Options) : IO UInt32 := do
  let here := (Path.ofText (← IO.currentDir).toString.toList).parts
  let mut tree := FileTree.empty here
  tree ← load tree (Path.ofText o.source)
  if let some dir := o.html then tree ← load tree (Path.ofText dir)
  let report := run tree o Page.plainCode
  IO.print (String.ofList report.stdout)
  IO.eprint (String.ofList report.stderr)
  store tree report.tree
  match report.outcome with
  | .ok status => return status.toUInt32
  | .error e =>
    IO.eprintln (failureText e)
    return 1

end MatlabOutline.Command

open MatlabOutline MatlabOutline.Command

/-- Outline the source named on the command line. -/
def main (arguments : List String) : IO UInt32 := do
  match Invocation.parse (arguments.map String.toList) with
  | .error e =>
    IO.eprintln (String.ofList e.message)
    return 2
  | .ok .help =>
    let names := Switch.all.map fun s => s.long ++ if s.takesValue then " VALUE".toList else []
    IO.println "usage: mattags SOURCE"
    IO.println (String.ofList (Text.joinWith "\n".toList names))
    return 0
  | .ok (.run o) => execute o
