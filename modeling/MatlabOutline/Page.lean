import MatlabOutline.Html
import MatlabOutline.Outline.Listing

/-! The pages of an outline: one for each file, and an index of them all. How code looks on a page
is left to a highlighter, any function that makes markup of code; a caller that names none gets code
as it is. -/
namespace MatlabOutline.Page
open Text Html

/-- What a page says about one function. -/
structure Article where
  name : Text
  args : List Text
  builtin : Bool
  returns : List Text
  docstring : Text
  source : Text
  deriving DecidableEq, Repr

/-- An article in which the name, the arguments or the builtin mark may still be missing. -/
structure Draft where
  name : Option Text
  args : Option (List Text)
  builtin : Option Bool
  returns : List Text
  docstring : Text
  source : Text
  deriving DecidableEq, Repr

inductive MissingField where
  | name | args | builtin
  deriving DecidableEq, Repr

def MissingField.key : MissingField → Text
  | name => "name".toList
  | args => "args".toList
  | builtin => "builtin".toList

/-- The article of a complete draft, or the first field that is missing. -/
def Draft.article (d : Draft) : Except MissingField Article :=
  match d.name, d.args, d.builtin with
  | none, _, _ => .error .name
  | _, none, _ => .error .args
  | _, _, none => .error .builtin
  | some name, some args, some builtin =>
    .ok ⟨name, args, builtin, d.returns, d.docstring, d.source⟩

/-- The level of the headings of functions that are not nested. -/
def topLevel : Int := 3

/-- The plainest highlighter: code in one element, without colours. -/
def plainCode (code : Text) : Text := render (element "pre" code ++ [.newline])

/-- The lines of one article. The source stands only at the top level, where it holds the sources
of nested functions. -/
def articleLines (level : Int) (a : Article) (highlight : Text → Text) : List Markup :=
  let heading := 'h' :: decimal (min level 6)
  [[.opening heading (some ("id".toList, a.name)), .text (prototype a.name a.args a.builtin),
    .closing heading]] ++
  (if a.returns.isEmpty then []
    else [element "p" ("Returns: ".toList ++ joinWith ", ".toList a.returns)]) ++
  (if a.docstring.isEmpty then [] else [element "p" a.docstring]) ++
  (if a.source.isEmpty || level != topLevel then []
    else [[.raw (highlight a.source)]])

/-- The lines of articles and of those nested in them, which have headings one level lower. -/
def articlesLines (level : Int) (articles : Forest Article) (highlight : Text → Text := plainCode) :
    List Markup :=
  match articles with
  | .nil => []
  | .node a nested others =>
    articleLines level a highlight ++ articlesLines (level + 1) nested highlight ++
      articlesLines level others highlight

/-- A link with its text and its target. -/
structure Link where
  text : Text
  target : Text
  deriving DecidableEq, Repr

def navigation (links : List Link) : Markup :=
  joinLines (links.map fun l =>
    tag "li" ++ [.opening "a".toList (some ("href".toList, l.target))] ++ [.text l.text] ++
      endTag "a" ++ endTag "li")

def style : Text := "nav\x7bfloat:left;width:14em\x7dmain\x7bmargin-left:15em\x7d".toList

/-- A page with its title, its navigation and its body. -/
def frame (title : Text) (nav body : Markup) : Markup :=
  joinLines [
    tag "!DOCTYPE html",
    tag "html",
    tag "head",
    [.opening "meta".toList (some ("charset".toList, "utf-8".toList))],
    element "title" title,
    element "style" style,
    endTag "head",
    tag "body",
    tag "nav" ++ tag "ul",
    nav,
    endTag "ul" ++ endTag "nav",
    tag "main",
    element "h1" title,
    body,
    endTag "main",
    endTag "body",
    endTag "html",
    []]

/-- The index of all pages. -/
def index (links : List Link) : Markup :=
  let nav := navigation links
  frame "MATLAB Outline".toList nav
    (joinLines [element "h2" "Files".toList, tag "ul", nav, endTag "ul"])

/-- The contents of the page for one file. -/
structure Contents where
  name : Text
  header : Text
  functions : Forest Article
  deriving DecidableEq, Repr

/-- The lines of the body of a page. -/
def bodyLines (c : Contents) (highlight : Text → Text) : List Markup :=
  (if c.header.isEmpty then [] else [element "p" c.header]) ++
  [match c.functions with
    | .nil => element "p" "No functions found.".toList
    | .node .. => element "h2" "Functions".toList] ++
  articlesLines topLevel c.functions highlight

/-- The page for one file. -/
def file (c : Contents) (links : List Link) (highlight : Text → Text) : Markup :=
  frame c.name (navigation links) (joinLines (bodyLines c highlight))

end MatlabOutline.Page
