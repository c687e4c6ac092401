import MatlabOutline.Source
import MatlabOutline.Page
import MatlabOutline.FileTree

/-! A source file with its outline and the sources of its functions. -/
namespace MatlabOutline
open Text

/-- What is known about one file. -/
structure Module where
  name : Text
  path : Text
  header : Text
  outline : Outline
  functions : Forest (FunctionEntry × Text)
  deriving DecidableEq, Repr

/-- Why a file has no outline. -/
inductive ReadError where
  | file (e : FileError)
  | encoding (e : DecodeError)
  deriving DecidableEq, Repr

namespace Module

/-- The comments at the top of a list of lines, with the blank lines after the first of them.
`begun` says whether a comment came before. -/
def headerLines (begun : Bool) : List Text → List Text
  | [] => []
  | l :: ls =>
    match trim l with
    | [] => if begun then [] :: headerLines true ls else headerLines false ls
    | '%' :: t => t.dropWhile (fun c => c == '%' || c == ' ') :: headerLines true ls
    | _ => []

/-- The comments at the top of a text. -/
def leadingComments (text : Text) : Text :=
  trim (joinWith "\n".toList (headerLines false (splitLines text)))

/-- The source of a function, without white space around it. -/
def sourceOf (text : Text) (e : FunctionEntry) : Text :=
  if e.builtin then [] else trim (slice text e.start.toNat e.stop.toNat)

/-- The module that a source describes. -/
def ofSource (name path : Text) (s : Source) : Module × Log :=
  let outline := s.outline.1
  ({ name, path
     header := leadingComments s.text
     outline
     functions := outline.map fun e => (e, sourceOf s.text e) }, s.outline.2)

/-- The module in a file with these bytes, read as UTF-8 with every line end as a newline. -/
def ofBytes (name path : Text) (roots : List Text) (dialect : Option Dialect)
    (bytes : List UInt8) : Except DecodeError (Module × Log) :=
  (decode bytes).map fun t => ofSource name path ⟨unixLines t, some path, roots, dialect⟩

/-- Read the module in a file, named for the file. -/
def read (tree : FileTree) (path : Text) (roots : List Text) (dialect : Option Dialect) :
    Except ReadError (Module × Log) :=
  let p := Path.ofText path
  match tree.read p with
  | .error e => .error (.file e)
  | .ok bytes => (ofBytes (Path.stem (p.name?.getD [])) path roots dialect bytes).mapError .encoding

/-- The article about a function with its source. -/
def article (f : FunctionEntry × Text) : Page.Article where
  name := f.1.name
  args := f.1.args
  builtin := f.1.builtin
  returns := f.1.returns
  docstring := f.1.docstring.getD []
  source := f.2

/-- What the page for a module holds. -/
def contents (m : Module) : Page.Contents := ⟨m.name, m.header, m.functions.map article⟩

end Module
end MatlabOutline
