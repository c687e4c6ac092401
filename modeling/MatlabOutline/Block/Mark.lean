import MatlabOutline.Lexeme.Basic

/-! The block keywords of a text with their places. Brackets hide keywords: `end` inside them is
an index. Round brackets do not reach past the end of their line, the others do. -/
namespace MatlabOutline

/-- A block keyword at an offset. -/
structure Mark where
  keyword : Keyword
  start : Nat
  deriving DecidableEq, Repr

namespace Mark

/-- The offset just past the keyword. -/
def stop (m : Mark) : Nat := m.start + m.keyword.word.length

/-- The brackets that are open after a lexeme, innermost first. -/
def brackets (stack : List Bracket) : Lexeme.Kind → List Bracket
  | .newline => stack.dropWhile (· = .round)
  | .opening b => b :: stack
  | .closing => stack.tail
  | _ => stack

/-- The keyword of a lexeme, if no bracket is open around it. -/
def visible? (stack : List Bracket) : Lexeme.Kind → Option Keyword
  | .word k => if stack.isEmpty then k else none
  | _ => none

/-- The marks among lexemes that begin at an offset. -/
def ofLexemes (stack : List Bracket) (offset : Nat) : List Lexeme → List Mark
  | [] => []
  | l :: ls =>
    let later := ofLexemes (brackets stack l.kind) (offset + l.text.length) ls
    match visible? stack l.kind with
    | some k => ⟨k, offset⟩ :: later
    | none => later

/-- The block keywords of a text from an offset on. -/
def all (text : Text) (pos : Nat) : List Mark := ofLexemes [] pos (Lexeme.all text pos)

end Mark
end MatlabOutline
