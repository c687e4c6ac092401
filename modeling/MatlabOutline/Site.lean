import MatlabOutline.Page
import MatlabOutline.FileTree

/-! Pages written into a directory of a file tree. A write that fails leaves the tree with all that
was written before. -/
namespace MatlabOutline.Site
open Text

/-- Write a page into a directory that is there. -/
def putPage (tree : FileTree) (dir : Path) (name : Text) (page : Html.Markup) :
    FileTree × Option FileError :=
  let place := dir.join (Path.ofText (name ++ ".html".toList))
  match tree.write place (encode (Html.render page)) with
  | .ok t => (t, none)
  | .error e => (tree, some e)

/-- Write a page into a directory, which is made if it is not there yet. -/
def writePage (tree : FileTree) (dir : Path) (name : Text) (page : Html.Markup) :
    FileTree × Option FileError :=
  match tree.makeDirectories dir with
  | (t, none) => putPage t dir name page
  | failed => failed

def writeIndex (tree : FileTree) (dir : Path) (links : List Page.Link) :
    FileTree × Option FileError :=
  writePage tree dir "index".toList (Page.index links)

def writeFile (tree : FileTree) (dir : Path) (links : List Page.Link) (c : Page.Contents)
    (highlight : Text → Text) : FileTree × Option FileError :=
  writePage tree dir c.name (Page.file c links highlight)

/-- Write pages one after another, up to the first that cannot be written. -/
def writeAll (tree : FileTree) (dir : Path) (links : List Page.Link) (pages : List Page.Contents)
    (highlight : Text → Text) : FileTree × Option FileError :=
  match pages with
  | [] => (tree, none)
  | c :: cs =>
    match writeFile tree dir links c highlight with
    | (t, none) => writeAll t dir links cs highlight
    | failed => failed

/-- The link to the page with a name. -/
def link (name : Text) : Page.Link := ⟨name, name ++ ".html".toList⟩

/-- Write the index and then the page of every file. -/
def write (tree : FileTree) (dir : Path) (pages : List Page.Contents) (highlight : Text → Text) :
    FileTree × Option FileError :=
  let links := pages.map fun c => link c.name
  match writeIndex tree dir links with
  | (t, none) => writeAll t dir links pages highlight
  | failed => failed

/-- Why a page could not be made from drafts. -/
inductive DraftError where
  | file (e : FileError)
  | missing (field : Page.MissingField)
  deriving DecidableEq, Repr

/-- Write the page for a file from drafts of its articles. The directory comes first, then the
drafts are completed. -/
def writeDraft (tree : FileTree) (dir : Path) (links : List Page.Link) (name header : Text)
    (drafts : Forest Page.Draft) (highlight : Text → Text := Page.plainCode) :
    Except DraftError FileTree :=
  match tree.makeDirectories dir with
  | (_, some e) => .error (.file e)
  | (t, none) =>
    match drafts.mapExcept Page.Draft.article with
    | .error field => .error (.missing field)
    | .ok functions =>
      match putPage t dir name (Page.file ⟨name, header, functions⟩ links highlight) with
      | (_, some e) => .error (.file e)
      | (u, none) => .ok u

end MatlabOutline.Site
