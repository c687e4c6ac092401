import MatlabOutline.Text.Basic

/-! The tail of a header line: comments are dropped, continued lines are joined, and the
parameter list is cut out and split into names. -/
namespace MatlabOutline.Header
open Text

/-- Cut a line at its first comment sign outside quotes. The argument is the quote that is open
at the start. -/
def dropCommentFrom : Option Char → Text → Text
  | _, [] => []
  | some q, c :: t => c :: dropCommentFrom (if c = q then none else some q) t
  | none, c :: t =>
    if c = '%' then []
    else c :: dropCommentFrom (if c = '\'' ∨ c = '"' then some c else none) t

def dropComment (line : Text) : Text := dropCommentFrom none line

/-- The part of a line before its first continuation mark. -/
def beforeDots? : Text → Option Text
  | [] => none
  | c :: t =>
    if (after? "...".toList (c :: t)).isSome then some [] else (beforeDots? t).map (c :: ·)

/-- Join a line with the lines it continues on, one space between two of them. The number is the
count of characters up to the newline that ends the last one. -/
def joinContinued : List Text → Text × Nat
  | [] => ([], 0)
  | [l] => ((beforeDots? (dropComment l)).getD (dropComment l), l.length)
  | l :: m :: ls =>
    match beforeDots? (dropComment l) with
    | some code =>
      let joined := joinContinued (m :: ls)
      (code ++ ' ' :: joined.1, l.length + 1 + joined.2)
    | none => (dropComment l, l.length)

/-- The logical line at the start of a text, and its length in the text. -/
def logicalLine (t : Text) : Text × Nat := joinContinued (lines t)

/-- The logical line at an offset, and the offset of the newline that ends it. -/
def logicalLineAt (t : Text) (pos : Nat) : Text × Nat :=
  let line := logicalLine (t.drop pos)
  (line.1, min pos t.length + line.2)

/-- The characters up to the parenthesis that brings the depth back to zero. -/
def untilClosed? : Nat → Text → Option Text
  | _, [] => none
  | depth, c :: t =>
    if c = ')' then
      if depth ≤ 1 then some [c] else (untilClosed? (depth - 1) t).map (c :: ·)
    else (untilClosed? (if c = '(' then depth + 1 else depth) t).map (c :: ·)

/-- The parenthesised list that a header line begins with. A line without one is left alone, and
a list that is never closed runs to the end of the line. -/
def parameterClause (line : Text) : Text :=
  match trimLeft line with
  | '(' :: t => '(' :: (untilClosed? 1 t).getD t
  | _ => line

def isClauseSeparator (c : Char) : Bool := "[](),=.".toList.contains c || isSpace c

/-- The names listed in a return or parameter clause. -/
def clauseNames (clause : Text) : List Text :=
  (splitWhere isClauseSeparator clause).filter fun name => !name.isEmpty

example : dropComment "x = 'a%b' % note".toList = "x = 'a%b' ".toList := by decide
example : clauseNames "[a, b.c] =".toList = ["a".toList, "b".toList, "c".toList] := by decide

end MatlabOutline.Header
