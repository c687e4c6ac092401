import MatlabOutline.Text.Digit

/-! String and number literals. A quote inside a string is written twice, and a string that is
not closed ends with its line. -/
namespace MatlabOutline.Lexeme
open Text

/-- The number of characters of a string literal after its opening quote. -/
def stringTail (quote : Char) : Text → Nat
  | [] => 0
  | [c] => if c = '\n' then 0 else 1
  | c :: d :: t =>
    if c = '\n' then 0
    else if c = quote then
      if d = quote then stringTail quote t + 2 else 1
    else stringTail quote (d :: t) + 1

/-- The offset just past the string literal that opens at an offset inside the text. Whatever
character stands there is the quote. -/
def stringEnd? (text : Text) (pos : Nat) : Option Nat :=
  match text.drop pos with
  | [] => none
  | quote :: t => some (pos + 1 + stringTail quote t)

theorem stringTail_le (quote : Char) (t : Text) : stringTail quote t ≤ t.length := by
  fun_induction stringTail quote t <;> simp_all

/-- A decimal point with the digits after it. -/
def fraction : Text → Text
  | '.' :: t => '.' :: t.takeWhile isDecimal
  | _ => []

def sign : Text → Text
  | c :: _ => if c = '+' ∨ c = '-' then [c] else []
  | [] => []

/-- An exponent with at least one digit. -/
def exponent : Text → Text
  | [] => []
  | c :: t =>
    if c = 'e' ∨ c = 'E' then
      let digits := (t.drop (sign t).length).takeWhile isDecimal
      if digits.isEmpty then [] else c :: sign t ++ digits
    else []

def imaginaryUnit : Text → Text
  | c :: _ => if c = 'i' ∨ c = 'j' then [c] else []
  | [] => []

/-- The number of characters of a number literal after its first digit. -/
def numberTail (t : Text) : Nat :=
  let digits := (t.takeWhile isDecimal).length
  let point := (fraction (t.drop digits)).length
  let power := (exponent (t.drop (digits + point))).length
  let imaginary := (imaginaryUnit (t.drop (digits + point + power))).length
  digits + point + power + imaginary

example : stringTail '\'' "it''s' % x".toList = 6 := by decide
example : numberTail "2.5e-3i*x".toList = 7 := by decide

end MatlabOutline.Lexeme
