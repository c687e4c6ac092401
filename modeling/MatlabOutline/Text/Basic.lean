/-! Text as a list of characters, with the cuts that the outline needs: at separators, at line
ends and at the blanks around a word. Offsets count characters from the start of the text. -/
namespace MatlabOutline

abbrev Text := List Char

namespace Text

/-- Whether the code point of `c` lies in one of the closed ranges. -/
def inRanges (ranges : List (Nat × Nat)) (c : Char) : Bool :=
  ranges.any fun r => r.1 ≤ c.toNat && c.toNat ≤ r.2

/-- A space or a tab. -/
def isBlank (c : Char) : Bool := c == ' ' || c == '\t'

/-- A blank or the carriage return that a line may end with. -/
def isTrailingBlank (c : Char) : Bool := isBlank c || c == '\r'

/-- White space of any script. -/
def isSpace (c : Char) : Bool :=
  inRanges [(0x09, 0x0D), (0x1C, 0x20), (0x85, 0x85), (0xA0, 0xA0), (0x1680, 0x1680),
    (0x2000, 0x200A), (0x2028, 0x2029), (0x202F, 0x202F), (0x205F, 0x205F), (0x3000, 0x3000)] c

/-- The pieces between separating characters; there is always at least one. -/
def splitWhere (sep : Char → Bool) : Text → List Text
  | [] => [[]]
  | c :: t =>
    if sep c then [] :: splitWhere sep t
    else match splitWhere sep t with
      | [] => [[c]]
      | p :: ps => (c :: p) :: ps

/-- The pieces between occurrences of one character. -/
def splitOn (sep : Char) (t : Text) : List Text := splitWhere (· == sep) t

/-- Put a separator between the pieces. -/
def joinWith (sep : Text) : List Text → Text
  | [] => []
  | [p] => p
  | p :: q :: ps => p ++ sep ++ joinWith sep (q :: ps)

/-- The lines of a text, without their newlines. -/
def lines (t : Text) : List Text := splitOn '\n' t

/-- Everything up to the next newline. -/
def restOfLine (t : Text) : Text := t.takeWhile (· != '\n')

theorem splitWhere_ne_nil (sep : Char → Bool) (t : Text) : splitWhere sep t ≠ [] := by
  cases t with
  | nil => simp [splitWhere]
  | cons c t =>
    rw [splitWhere]
    split
    · simp
    · split <;> simp

@[simp] theorem joinWith_cons_cons (sep p q : Text) (ps : List Text) :
    joinWith sep (p :: q :: ps) = p ++ sep ++ joinWith sep (q :: ps) := rfl

/-- Joining the pieces again gives the text back. -/
theorem joinWith_splitOn (sep : Char) (t : Text) : joinWith [sep] (splitOn sep t) = t := by
  induction t with
  | nil => rfl
  | cons c t ih =>
    rw [splitOn] at ih ⊢
    rw [splitWhere]
    cases hs : splitWhere (· == sep) t with
    | nil => exact absurd hs (splitWhere_ne_nil _ t)
    | cons p ps =>
      rw [hs] at ih
      split
      · rename_i hc
        rw [joinWith_cons_cons, ih, beq_iff_eq.1 hc]
        rfl
      · cases ps with
        | nil => simpa [joinWith] using ih
        | cons q qs => simpa [joinWith] using ih

def trimLeft (t : Text) : Text := t.dropWhile isSpace

def trimRight (t : Text) : Text := (t.reverse.dropWhile isSpace).reverse

/-- Drop the white space at both ends. -/
def trim (t : Text) : Text := trimRight (trimLeft t)

/-- What follows `p` in a text that begins with `p`. -/
def after? : Text → Text → Option Text
  | [], t => some t
  | _ :: _, [] => none
  | a :: p, c :: t => if a = c then after? p t else none

theorem after?_eq_some_iff {p t r : Text} : after? p t = some r ↔ t = p ++ r := by
  induction p generalizing t with
  | nil => simp [after?]
  | cons a p ih =>
    cases t with
    | nil => simp [after?]
    | cons c t =>
      rw [after?]
      split
      · rename_i h; simp [ih, h]
      · rename_i h; simp [Ne.symm h]

/-- What follows the first occurrence of the character. -/
def afterFirst? (c : Char) : Text → Option Text
  | [] => none
  | d :: t => if d = c then some t else afterFirst? c t

/-- A character that ends a line wherever lines are listed one by one. -/
def isLineBreak (c : Char) : Bool :=
  inRanges [(0x0A, 0x0D), (0x1C, 0x1E), (0x85, 0x85), (0x2028, 0x2029)] c

/-- The lines of a text under every kind of line break. A break at the very end opens no new
line, and a carriage return with its newline is one break. -/
def splitLines : Text → List Text
  | [] => []
  | [c] => if isLineBreak c then [[]] else [[c]]
  | c :: d :: t =>
    if c = '\r' ∧ d = '\n' then [] :: splitLines t
    else if isLineBreak c then [] :: splitLines (d :: t)
    else match splitLines (d :: t) with
      | [] => [[c]]
      | l :: ls => (c :: l) :: ls

/-- An integer in decimal notation. -/
def decimal : Int → Text
  | .ofNat n => Nat.toDigits 10 n
  | .negSucc n => '-' :: Nat.toDigits 10 (n + 1)

/-- A text repeated. -/
def times (n : Nat) (t : Text) : Text := (List.replicate n t).flatten

/-- The characters from `start` up to `stop`. -/
def slice (t : Text) (start stop : Nat) : Text := (t.take stop).drop start

/-- An offset counted back from the end when it is negative, and never before the start. -/
def fromEnd (t : Text) (pos : Int) : Nat :=
  if pos < 0 then (t.length + pos).toNat else pos.toNat

/-- The offset of the newline that ends the line at `pos`, or the length of the text. -/
def endOfLine (t : Text) (pos : Nat) : Nat :=
  if pos ≤ t.length then pos + (restOfLine (t.drop pos)).length else t.length

/-- The offset just past the last newline before `pos`. -/
def startOfLine (t : Text) (pos : Nat) : Nat :=
  let before := (t.take pos).reverse
  before.length - (restOfLine before).length

/-- Whether only blanks stand between the last newline and here, given what comes before in
reverse order. -/
def onlyBlanksBefore (before : Text) : Bool := (restOfLine before).all isBlank

/-- Whether only blanks stand between the last newline and an offset that is not past the end. -/
def atLineStart? (t : Text) (pos : Nat) : Option Bool :=
  if pos ≤ t.length then some (onlyBlanksBefore (t.take pos).reverse) else none

example : splitOn '/' "a//b".toList = ["a".toList, [], "b".toList] := by decide
example : splitLines "a\r\nb\n\nc".toList = ["a".toList, "b".toList, [], "c".toList] := by decide

end Text
end MatlabOutline
