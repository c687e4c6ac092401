import MatlabOutline.Text.Basic

/-! The words that open and close blocks. -/
namespace MatlabOutline
open Text

inductive Opener where
  | function | ifBlock | forLoop | parforLoop | whileLoop | switchBlock | tryBlock | spmd
  | arguments
  deriving DecidableEq, Repr

namespace Opener

def all : List Opener :=
  [function, ifBlock, forLoop, parforLoop, whileLoop, switchBlock, tryBlock, spmd, arguments]

def word : Opener → Text
  | function => "function".toList
  | ifBlock => "if".toList
  | forLoop => "for".toList
  | parforLoop => "parfor".toList
  | whileLoop => "while".toList
  | switchBlock => "switch".toList
  | tryBlock => "try".toList
  | spmd => "spmd".toList
  | arguments => "arguments".toList

end Opener

/-- A block keyword: one of the openers, or the `end` that closes a block. -/
inductive Keyword where
  | opener (o : Opener)
  | close
  deriving DecidableEq, Repr

namespace Keyword

def word : Keyword → Text
  | opener o => o.word
  | close => "end".toList

def all : List Keyword := close :: Opener.all.map opener

/-- The keyword that a word spells. -/
def ofWord? (w : Text) : Option Keyword := all.find? fun k => k.word = w

@[simp] theorem ofWord?_word (k : Keyword) : ofWord? k.word = some k := by
  cases k with
  | close => decide
  | opener o => cases o <;> decide

theorem word_of_ofWord? {w : Text} {k : Keyword} (h : ofWord? w = some k) : k.word = w := by
  simpa using List.find?_some h

/-- Whether the rest of the line lets `arguments` open a block: at most one attribute in
parentheses, and nothing after it but a comment. -/
def opensArguments (rest : Text) : Bool :=
  let line := (restOfLine rest).dropWhile isBlank
  let attributes := ["(Input)".toList, "(Output)".toList, "(Repeating)".toList]
  let tail := (attributes.findSome? fun a => after? a line).getD line
  (tail.dropWhile isTrailingBlank).head?.all (· == '%')

/-- The block keyword that a word is at its place. The field of a structure is none, and
`arguments` is one only on a line of its own. -/
def here? (before word rest : Text) : Option Keyword :=
  if before.head? = some '.' then none
  else match ofWord? word with
    | some (opener .arguments) =>
      if onlyBlanksBefore before && opensArguments rest then some (opener .arguments) else none
    | k => k

theorem word_of_here? {before w rest : Text} {k : Keyword} (h : here? before w rest = some k) :
    k.word = w := by
  apply word_of_ofWord?
  unfold here? at h
  split at h
  · simp at h
  · split at h
    · rename_i hw
      split at h
      · rw [hw, h]
      · simp at h
    · exact h

end Keyword
end MatlabOutline
