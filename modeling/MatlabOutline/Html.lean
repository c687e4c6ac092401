import MatlabOutline.Text.Basic

/-! Markup in pieces. Text and attribute values are escaped when a piece is written, so they add
no markup of their own. Only markup that comes from elsewhere is written as it is. -/
namespace MatlabOutline.Html
open Text

def escapeChar (c : Char) : Text :=
  if c = '&' then "&amp;".toList
  else if c = '<' then "&lt;".toList
  else if c = '>' then "&gt;".toList
  else if c = '"' then "&quot;".toList
  else if c = '\'' then "&#x27;".toList
  else [c]

def escape (t : Text) : Text := t.flatMap escapeChar

/-- A piece of a page. An opening tag may carry one attribute; raw markup is not escaped. -/
inductive Piece where
  | opening (element : Text) (attr : Option (Text × Text))
  | closing (element : Text)
  | text (t : Text)
  | newline
  | raw (markup : Text)
  deriving DecidableEq, Repr

namespace Piece

def render : Piece → Text
  | opening element none => '<' :: element ++ ['>']
  | opening element (some (key, value)) =>
    '<' :: element ++ ' ' :: key ++ "=\"".toList ++ escape value ++ "\">".toList
  | closing element => '<' :: '/' :: element ++ ['>']
  | text t => escape t
  | newline => ['\n']
  | raw markup => markup

end Piece

abbrev Markup := List Piece

def render (m : Markup) : Text := m.flatMap Piece.render

/-- A text inside an element. -/
def element (name : String) (content : Text) : Markup :=
  [.opening name.toList none, .text content, .closing name.toList]

/-- An opening tag without attributes. -/
def tag (name : String) : Markup := [.opening name.toList none]

def endTag (name : String) : Markup := [.closing name.toList]

/-- Lines of markup with a newline between two of them. -/
def joinLines : List Markup → Markup
  | [] => []
  | [m] => m
  | m :: n :: ms => m ++ .newline :: joinLines (n :: ms)

theorem mem_escapeChar {c d : Char} (h : d ∈ escapeChar c) :
    d ≠ '<' ∧ d ≠ '>' ∧ d ≠ '"' ∧ d ≠ '\'' := by
  unfold escapeChar at h
  repeat' split at h
  all_goals simp at h; grind

/-- An escaped text holds no character that could open or close a tag or an attribute. -/
theorem mem_escape {t : Text} {d : Char} (h : d ∈ escape t) :
    d ≠ '<' ∧ d ≠ '>' ∧ d ≠ '"' ∧ d ≠ '\'' := by
  simp only [escape, List.mem_flatMap] at h
  obtain ⟨c, _, hd⟩ := h
  exact mem_escapeChar hd

end MatlabOutline.Html
