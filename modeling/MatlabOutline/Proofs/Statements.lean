import MatlabOutline.Block.Basic
import MatlabOutline.Proofs.Printing
import MatlabOutline.Proofs.Lines

/-! Statements and function bodies as data, and the lines that are printed for them. Strings,
comments and the rests of continued lines hold any text at all; blocks hold further bodies. -/
namespace MatlabOutline
open Text

namespace Text

/-- Any number of spaces and tabs. -/
abbrev Blanks := { t : Text // ∀ c ∈ t, isBlank c = true }

/-- Text on a single line. -/
abbrev Line := { t : Text // ∀ c ∈ t, c ≠ '\n' }

def Blanks.of (t : Text) (h : t.all isBlank = true) : Blanks := ⟨t, List.all_eq_true.1 h⟩

def Line.of (t : Text) (h : t.all (· != '\n') = true) : Line := ⟨t, by simpa using h⟩

/-- A name of any kind, keywords included. -/
abbrev Identifier := { t : Text // IsIdentifier t }

/-- A text with every quote written twice. -/
def doubled (quote : Char) (t : Text) : Text := t.flatMap fun c => if c = quote then [c, c] else [c]

end Text

/-- The name of a variable: an ASCII identifier that is no block keyword. -/
structure Variable where
  name : Text
  identifier : IsIdentifier name
  ascii : ∀ c ∈ name, c.toNat < 0x80
  free : ∀ k ∈ Keyword.all, k.word ≠ name

/-- The two kinds of quotes. -/
inductive Quote where
  | single | double
  deriving DecidableEq, Repr

namespace Quote

def char : Quote → Char
  | single => '\''
  | double => '"'

end Quote

/-- The brackets around an index. -/
inductive IndexBracket where
  | round | curly
  deriving DecidableEq, Repr

namespace IndexBracket

/-- The last index, written as `end` in brackets. -/
def last : IndexBracket → Text
  | round => "(end)".toList
  | curly => "\x7bend\x7d".toList

end IndexBracket

/-- The right side of an assignment: a string, a sum that is continued on the next line, the last
element of an array, or a transposed matrix. -/
inductive Value where
  | string (quote : Quote) (content : Line)
  | sum (w : Variable) (tail : Line) (gap : Blanks)
  | last (w : Variable) (bracket : IndexBracket)
  | transpose (w : Variable)

namespace Value

def print : Value → Text
  | string quote content =>
    quote.char :: doubled quote.char content.1 ++ [quote.char]
  | sum w tail gap =>
    w.name ++ " + ...".toList ++ tail.1 ++ "\n".toList ++ gap.1 ++ w.name
  | last w bracket => w.name ++ bracket.last
  | transpose w => w.name ++ "'".toList

end Value

/-- A statement without a block. The field of a structure may be named like a keyword. -/
inductive Statement where
  | assign (v : Variable) (value : Value)
  | assignField (v : Variable) (field : Identifier) (w : Variable)
  | comment (content : Line)
  | blockComment (content : List { l : Line // Lexeme.closesBlock l = false })

namespace Statement

/-- The lines of a statement, without the newline after the last of them. -/
def print (lead : Text) : Statement → Text
  | assign v value => lead ++ v.name ++ " = ".toList ++ value.print ++ ";".toList
  | assignField v field w =>
    lead ++ v.name ++ ".".toList ++ field.1 ++ " = ".toList ++ w.name ++ ";".toList
  | comment content => lead ++ "% ".toList ++ content.1
  | blockComment content =>
    lead ++ "%\x7b".toList ++ furtherLines (content.map (·.1.1) ++ [lead ++ "%\x7d".toList])

end Statement

/-- The line that opens a block inside a function: a control keyword with a variable, or
`arguments`. -/
inductive Opening where
  | control (o : { o : Opener // o ≠ .function ∧ o ≠ .arguments }) (w : Variable)
  | arguments

namespace Opening

def opener : Opening → Opener
  | control o _ => o.1
  | arguments => .arguments

def print : Opening → Text
  | control o w => o.1.word ++ " ".toList ++ w.name
  | arguments => Opener.arguments.word

end Opening

/-- Statements and blocks one after another. -/
inductive Body where
  | done
  | statement (s : Statement) (rest : Body)
  | block (opening : Opening) (inner rest : Body)

namespace Body

/-- The lines of a body, each with its newline. `lead` gives the blanks that lines in blocks of
each depth begin with. -/
def print (lead : Nat → Blanks) (depth : Nat) : Body → Text
  | done => []
  | statement s rest => s.print (lead depth).1 ++ "\n".toList ++ print lead depth rest
  | block opening inner rest =>
    (lead depth).1 ++ opening.print ++ "\n".toList ++ print lead (depth + 1) inner ++
      (lead depth).1 ++ "end\n".toList ++ print lead depth rest

end Body
end MatlabOutline
