import MatlabOutline.Text.Quoted

/-! Text as UTF-8 bytes. Decoding stops at the first byte sequence that is no character and says
which bytes are at fault. -/
namespace MatlabOutline.Text

def encodeChar (c : Char) : List UInt8 :=
  let n := c.toNat
  let tail (k : Nat) : UInt8 := (0x80 + k % 0x40).toUInt8
  if n < 0x80 then [n.toUInt8]
  else if n < 0x800 then [(0xC0 + n / 0x40).toUInt8, tail n]
  else if n < 0x10000 then [(0xE0 + n / 0x1000).toUInt8, tail (n / 0x40), tail n]
  else [(0xF0 + n / 0x40000).toUInt8, tail (n / 0x1000), tail (n / 0x40), tail n]

def encode (t : Text) : List UInt8 := t.flatMap encodeChar

inductive DecodeError.Reason where
  | invalidStart | invalidContinuation | unexpectedEnd
  deriving DecidableEq, Repr

/-- The bytes at fault, `lead` the first of them, where they stand and what is wrong. -/
structure DecodeError where
  lead : UInt8
  start : Nat
  count : Nat
  reason : DecodeError.Reason
  deriving DecidableEq, Repr

namespace DecodeError

def Reason.message : Reason → Text
  | invalidStart => "invalid start byte".toList
  | invalidContinuation => "invalid continuation byte".toList
  | unexpectedEnd => "unexpected end of data".toList

def message (e : DecodeError) : Text :=
  let place :=
    if e.count ≤ 1 then
      "byte 0x".toList ++ hexadecimal 2 e.lead.toNat ++ " in position ".toList ++ decimal e.start
    else "bytes in position ".toList ++ decimal e.start ++ "-".toList ++
      decimal ((e.start + e.count - 1 : Nat) : Int)
  "'utf-8' codec can't decode ".toList ++ place ++ ": ".toList ++ e.reason.message

end DecodeError

/-- The range of the second byte of a character, by its first byte. -/
def secondRange (lead : UInt8) : UInt8 × UInt8 :=
  if lead = 0xE0 then (0xA0, 0xBF)
  else if lead = 0xED then (0x80, 0x9F)
  else if lead = 0xF0 then (0x90, 0xBF)
  else if lead = 0xF4 then (0x80, 0x8F)
  else (0x80, 0xBF)

/-- The number of bytes after the first byte of a character. -/
def tailLength? (lead : UInt8) : Option Nat :=
  if lead < 0x80 then some 0
  else if lead < 0xC2 then none
  else if lead < 0xE0 then some 1
  else if lead < 0xF0 then some 2
  else if lead < 0xF5 then some 3
  else none

/-- The character with these bytes. -/
def ofBytes (lead : UInt8) (tail : List UInt8) : Char :=
  let top := match tail.length with
    | 0 => lead.toNat
    | 1 => lead.toNat - 0xC0
    | 2 => lead.toNat - 0xE0
    | _ => lead.toNat - 0xF0
  Char.ofNat (tail.foldl (fun n b => n * 0x40 + (b.toNat - 0x80)) top)

/-- The longest run of valid bytes, at most `count`, that may follow the first byte. -/
def validTail (lead : UInt8) (count : Nat) (bytes : List UInt8) : List UInt8 :=
  match bytes.take count with
  | [] => []
  | b :: bs =>
    if (secondRange lead).1 ≤ b && b ≤ (secondRange lead).2 then
      b :: bs.takeWhile fun x => 0x80 ≤ x && x ≤ 0xBF
    else []

/-- Decode bytes of which the first stands at an offset. -/
def decodeFrom (offset : Nat) : List UInt8 → Except DecodeError Text
  | [] => .ok []
  | lead :: bytes =>
    match tailLength? lead with
    | none => .error ⟨lead, offset, 1, .invalidStart⟩
    | some count =>
      let tail := validTail lead count bytes
      if tail.length = count then
        (decodeFrom (offset + count + 1) (bytes.drop count)).map (ofBytes lead tail :: ·)
      else
        let reason := if tail.length = bytes.length then DecodeError.Reason.unexpectedEnd
          else .invalidContinuation
        .error ⟨lead, offset, tail.length + 1, reason⟩
termination_by bytes => bytes.length
decreasing_by simp only [List.length_drop, List.length_cons]; omega

def decode (bytes : List UInt8) : Except DecodeError Text := decodeFrom 0 bytes

/-- Line ends of every convention as newlines. -/
def unixLines : Text → Text
  | [] => []
  | [c] => if c = '\r' then ['\n'] else [c]
  | c :: d :: t =>
    if c = '\r' then
      if d = '\n' then '\n' :: unixLines t else '\n' :: unixLines (d :: t)
    else c :: unixLines (d :: t)

end MatlabOutline.Text
