import MatlabOutline.Block.Mark

/-! Blocks. The block that opens at an offset ends with the keyword that brings the number of
open blocks back to zero. -/
namespace MatlabOutline
open Text

/-- Why no block can be read at an offset. -/
inductive BlockError where
  | unexpectedEnd (offset : Nat)
  | unterminated (start : Nat)
  deriving DecidableEq, Repr

namespace BlockError

def message : BlockError → Text
  | unexpectedEnd offset => "unexpected 'end' at offset ".toList ++ decimal offset
  | unterminated start => "unterminated block starting at offset ".toList ++ decimal start

end BlockError

namespace Block

/-- Follow the marks with `depth` blocks open, up to the `end` that closes the first of them. -/
def close (start : Nat) : Nat → List Mark → Except BlockError Nat
  | _, [] => .error (.unterminated start)
  | depth, m :: ms =>
    match m.keyword, depth with
    | .opener _, depth => close start (depth + 1) ms
    | .close, 0 => .error (.unexpectedEnd m.start)
    | .close, 1 => .ok m.stop
    | .close, depth + 2 => close start (depth + 1) ms

/-- The offset just past the `end` of the block that opens at `start`. -/
def stop (text : Text) (start : Nat) : Except BlockError Nat := close start 0 (Mark.all text start)

end Block
end MatlabOutline
