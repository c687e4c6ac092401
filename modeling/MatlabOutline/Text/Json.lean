import MatlabOutline.Text.Quoted

/-! JSON values and their indented text, in ASCII only. -/
namespace MatlabOutline
open Text

inductive Json where
  | null
  | bool (b : Bool)
  | int (n : Int)
  | text (t : Text)
  | array (items : List Json)
  | object (fields : List (Text × Json))
  deriving Repr

namespace Json

/-- A UTF-16 code unit as an escape. -/
def escapeUnit (n : Nat) : Text := "\\u".toList ++ hexadecimal 4 n

/-- A character inside a JSON string. Above the basic plane it takes two escapes. -/
def escapeChar (c : Char) : Text :=
  if c = '"' then "\\\"".toList
  else if c = '\\' then "\\\\".toList
  else if c = '\n' then "\\n".toList
  else if c = '\r' then "\\r".toList
  else if c = '\t' then "\\t".toList
  else if c = '\x0c' then "\\f".toList
  else if c = '\x08' then "\\b".toList
  else if 0x20 ≤ c.toNat ∧ c.toNat < 0x7F then [c]
  else if c.toNat < 0x10000 then escapeUnit c.toNat
  else
    let n := c.toNat - 0x10000
    escapeUnit (0xD800 + n / 0x400) ++ escapeUnit (0xDC00 + n % 0x400)

def quote (t : Text) : Text := '"' :: t.flatMap escapeChar ++ ['"']

/-- A line break with two spaces for each level. -/
def lineBreak (depth : Nat) : Text := '\n' :: times depth "  ".toList

mutual

/-- The text of a value that stands at a depth. -/
def render (depth : Nat) : Json → Text
  | null => "null".toList
  | bool b => (if b then "true" else "false").toList
  | int n => decimal n
  | text t => quote t
  | array [] => "[]".toList
  | array (v :: vs) => '[' :: renderItems (depth + 1) (v :: vs) ++ lineBreak depth ++ [']']
  | object [] => ['{', '}']
  | object (f :: fs) => '{' :: renderFields (depth + 1) (f :: fs) ++ lineBreak depth ++ ['}']

/-- Items on lines of their own, with commas between them. -/
def renderItems (depth : Nat) : List Json → Text
  | [] => []
  | [v] => lineBreak depth ++ render depth v
  | v :: w :: vs => lineBreak depth ++ render depth v ++ ',' :: renderItems depth (w :: vs)

/-- Fields on lines of their own, with commas between them. -/
def renderFields (depth : Nat) : List (Text × Json) → Text
  | [] => []
  | [(k, v)] => lineBreak depth ++ quote k ++ ": ".toList ++ render depth v
  | (k, v) :: f :: fs =>
    lineBreak depth ++ quote k ++ ": ".toList ++ render depth v ++
      ',' :: renderFields depth (f :: fs)

end

end Json
end MatlabOutline
