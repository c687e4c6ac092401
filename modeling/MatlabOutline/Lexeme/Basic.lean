import MatlabOutline.Keyword
import MatlabOutline.Text.Alphanumeric
import MatlabOutline.Lexeme.Literal

/-! Source text cut into lexemes. What a lexeme is depends on the characters before it: a quote
after a value is the transpose sign, and a block comment opens only on a line of its own. The
lexemes put together are the text. -/
namespace MatlabOutline
open Text

inductive Bracket where
  | round | square | curly
  deriving DecidableEq, Repr

namespace Bracket

def ofOpening? (c : Char) : Option Bracket :=
  if c = '(' then some round
  else if c = '[' then some square
  else if c = '{' then some curly
  else none

def isClosing (c : Char) : Bool := c == ')' || c == ']' || c == '}'

end Bracket

namespace Lexeme

/-- The kinds of lexemes. A word carries the block keyword that it is at its place, brackets
apart. -/
inductive Kind where
  | newline
  | lineComment
  | blockComment
  | continuation
  | string
  | opening (b : Bracket)
  | closing
  | number
  | word (k : Option Keyword)
  | other
  deriving DecidableEq, Repr

end Lexeme

structure Lexeme where
  kind : Lexeme.Kind
  text : Text
  deriving DecidableEq, Repr

namespace Lexeme

/-- Characters after which a single quote is the transpose sign. -/
def endsValue (c : Char) : Bool := c.isAlphanum || ")]\x7d.'_".toList.contains c

/-- Whether a quote opens a string. At the place where reading starts a single quote always
does. -/
def opensString (fresh : Bool) (before : Text) (c : Char) : Bool :=
  c == '"' || (c == '\'' && (fresh || !before.head?.any endsValue))

/-- Whether a comment sign, with `rest` after it, opens a block comment: its line holds nothing
but the sign with an opening brace. -/
def opensBlock (before rest : Text) : Bool :=
  match rest with
  | '{' :: t => onlyBlanksBefore before && (restOfLine t).all isTrailingBlank
  | _ => false

/-- A line that holds nothing but a comment sign with a closing brace. -/
def closesBlock (line : Text) : Bool :=
  match line.dropWhile isBlank with
  | '%' :: '}' :: t => t.all isTrailingBlank
  | _ => false

/-- The number of characters of a block comment on the lines after its first: each with the
newline before it, up to the closing line or to the end of the text. -/
def blockTail : List Text → Nat
  | [] => 0
  | l :: ls => 1 + l.length + if closesBlock l then 0 else blockTail ls

/-- The number of characters of a block comment after its comment sign. -/
def blockLength (rest : Text) : Nat := (restOfLine rest).length + blockTail (lines rest).tail

/-- The kind of the lexeme that begins with `c`, and how many characters of `rest` belong to
it. -/
def read (fresh : Bool) (before : Text) (c : Char) (rest : Text) : Kind × Nat :=
  if c = '\n' then (.newline, 0)
  else if c = '%' then
    if opensBlock before rest then (.blockComment, blockLength rest)
    else (.lineComment, (restOfLine rest).length)
  else if (after? "...".toList (c :: rest)).isSome then
    (.continuation, (restOfLine rest).length + 1)
  else if opensString fresh before c then (.string, stringTail c rest)
  else match Bracket.ofOpening? c with
    | some b => (.opening b, 0)
    | none =>
      if Bracket.isClosing c then (.closing, 0)
      else if isDigit c then (.number, if isDecimal c then numberTail rest else 0)
      else if isWordStart c then
        let tail := rest.takeWhile isWord
        (.word (Keyword.here? before (c :: tail) (rest.dropWhile isWord)), tail.length)
      else (.other, 0)

/-- The lexemes of a text, given what comes before it in reverse order and whether reading starts
here. -/
def allFrom (fresh : Bool) (before : Text) : Text → List Lexeme
  | [] => []
  | c :: rest =>
    let next := read fresh before c rest
    let tail := rest.take next.2
    ⟨next.1, c :: tail⟩ :: allFrom false (tail.reverse ++ c :: before) (rest.drop next.2)
termination_by t => t.length
decreasing_by simp only [List.length_drop, List.length_cons]; omega

/-- The lexemes of a text from an offset on. -/
def all (text : Text) (pos : Nat) : List Lexeme :=
  allFrom true (text.take pos).reverse (text.drop pos)

@[simp] theorem allFrom_nil (fresh : Bool) (before : Text) : allFrom fresh before [] = [] := by
  rw [allFrom]

theorem allFrom_cons (fresh : Bool) (before : Text) (c : Char) (rest : Text) :
    allFrom fresh before (c :: rest) =
      ⟨(read fresh before c rest).1, c :: rest.take (read fresh before c rest).2⟩ ::
        allFrom false ((rest.take (read fresh before c rest).2).reverse ++ c :: before)
          (rest.drop (read fresh before c rest).2) := by
  rw [allFrom]

/-- Nothing of the text is lost between the lexemes. -/
theorem flatMap_text_allFrom (fresh : Bool) (before t : Text) :
    (allFrom fresh before t).flatMap text = t := by
  fun_induction allFrom fresh before t with
  | case1 => rfl
  | case2 fresh before c rest next tail ih =>
    rw [List.flatMap_cons, ih]
    simp [tail, List.take_append_drop]

theorem flatMap_text_all (t : Text) (pos : Nat) : (all t pos).flatMap text = t.drop pos :=
  flatMap_text_allFrom _ _ _

end Lexeme
end MatlabOutline
