import MatlabOutline.Site
import MatlabOutline.Module
import MatlabOutline.Text.Json
import MatlabOutline.FileTree.Search
import MatlabOutline.Command.Options

/-! A run of the command: it outlines one file or the files below a directory, prints the outline
and writes pages if they are asked for. -/
namespace MatlabOutline.Command
open Text

/-- What ends a run early: a path that cannot be used, or a switch whose value was lost. -/
inductive Failure where
  | file (e : FileError)
  | lostValue
  deriving DecidableEq, Repr

/-- What a run printed, the tree it left, and its exit status or the failure that ended it. -/
structure Report where
  stdout : Text
  stderr : Text
  tree : FileTree
  outcome : Except Failure Nat

/-- The messages that are shown: warnings always, others only on request. -/
def shownLog (verbose : Bool) (log : Log) : Text :=
  (log.filter fun m => verbose || m.level = .warning).flatMap fun m =>
    m.level.label ++ ":root:".toList ++ m.text ++ "\n".toList

/-- One outlined file with what was said about it, or what was said of a file left out. -/
structure Outlined where
  module? : Option Module
  remarks : Text

/-- The place that a run starts from and the files that it reads. -/
structure Input where
  base : List Text
  files : List (Text × List UInt8)

/-- The values of a switch that may be given more than once. One that was lost is a failure. -/
def values : List (Option Text) → Except Failure (List Text)
  | [] => .ok []
  | none :: _ => .error .lostValue
  | some v :: vs => (values vs).map (v :: ·)

/-- The files that the source stands for: itself, or the source files below a directory. -/
def input (tree : FileTree) (o : Options) : Except Failure Input :=
  let place := (Path.ofText o.source).resolve tree.here
  match tree.node? place with
  | some (.file bytes) => .ok ⟨place.dropLast, [(FileTree.placeText place, bytes)]⟩
  | _ => (values o.ignore).map fun ignore =>
    ⟨place, tree.sourceFiles place (ignore.map Path.ofText)⟩

/-- The system roots as absolute paths. The first that is lost or cannot be used is a failure. -/
def absoluteRoots (tree : FileTree) : List (Option Text) → Except Failure (List Text)
  | [] => .ok []
  | none :: _ => .error .lostValue
  | some r :: rs =>
    match tree.resolve (Path.ofText r) with
    | .error e => .error (.file e)
    | .ok place => (absoluteRoots tree rs).map (FileTree.placeText place :: ·)

/-- Outline one file. A file that is not valid UTF-8 is left out. -/
def outlineFile (o : Options) (roots : List Text) (base : List Text)
    (file : Text × List UInt8) : Outlined :=
  let name := (Path.pageName? (Path.ofText file.1) ⟨"/".toList, base⟩).getD []
  match Module.ofBytes name file.1 roots o.dialect file.2 with
  | .error e => ⟨none, "Skipping ".toList ++ file.1 ++ ": ".toList ++ e.message ++ "\n".toList⟩
  | .ok (m, log) =>
    let remark : Log :=
      if m.functions = .nil then [⟨.info, "No functions found in ".toList ++ file.1⟩] else []
    ⟨some m, shownLog o.verbose (log ++ remark)⟩

/-- The outline of a module below its path. -/
def listing (m : Module) : Text :=
  m.path ++ ":\n".toList ++
    (splitLines (m.outline.listing "  ".toList)).flatMap fun l => "  ".toList ++ l ++ "\n".toList

def textsJson (ts : List Text) : Json := .array (ts.map .text)

/-- Functions with those nested in them. -/
def outlineJson : Outline → List Json
  | .nil => []
  | .node e nested others =>
    .object [
      ("name".toList, .text e.name),
      ("returns".toList, textsJson e.returns),
      ("args".toList, textsJson e.args),
      ("docstring".toList, (e.docstring.map Json.text).getD .null),
      ("builtin".toList, .bool e.builtin),
      ("start".toList, .int e.start),
      ("end".toList, .int e.stop),
      ("children".toList, .array (outlineJson nested))] :: outlineJson others

def moduleJson (m : Module) : Json :=
  .object [("path".toList, .text m.path), ("functions".toList, .array (outlineJson m.outline))]

/-- What is printed about the modules. -/
def printed (o : Options) (modules : List Module) : Text :=
  if o.json then (Json.array (modules.map moduleJson)).render 0 ++ "\n".toList
  else modules.flatMap listing

/-- Outline the files of a run, print, and write the pages. -/
def outlineAll (tree : FileTree) (o : Options) (roots : List Text) (input : Input)
    (highlight : Text → Text) : Report :=
  let count : Message :=
    ⟨.info, "Outlining ".toList ++ decimal input.files.length ++ " files".toList⟩
  let outlined := input.files.map (outlineFile o roots input.base)
  let modules := outlined.filterMap Outlined.module?
  let stdout := printed o modules
  let stderr := shownLog o.verbose [count] ++ outlined.flatMap Outlined.remarks
  match o.html with
  | none => ⟨stdout, stderr, tree, .ok 0⟩
  | some dir =>
    match Site.write tree (Path.ofText dir) (modules.map Module.contents) highlight with
    | (t, none) => ⟨stdout, stderr, t, .ok 0⟩
    | (t, some e) => ⟨stdout, stderr, t, .error (.file e)⟩

/-- Run with the given options. Code is shown plainly unless a highlighter is given. -/
def run (tree : FileTree) (o : Options) (highlight : Text → Text := Page.plainCode) : Report :=
  let source := Path.ofText o.source
  match absoluteRoots tree o.roots with
  | .error e => ⟨[], [], tree, .error e⟩
  | .ok roots =>
    match tree.exists? source with
    | .error e => ⟨[], [], tree, .error (.file e)⟩
    | .ok false => ⟨[], "Source not found: ".toList ++ source.toText ++ "\n".toList, tree, .ok 1⟩
    | .ok true =>
      match input tree o with
      | .error e => ⟨[], [], tree, .error e⟩
      | .ok files => outlineAll tree o roots files highlight

end MatlabOutline.Command
