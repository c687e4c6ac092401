import MatlabOutline.Text.Alphanumeric
import MatlabOutline.Header.Clause

/-! Function headers. A header stands at the start of a line: the keyword, an optional return
clause with its equals sign, and the name. Dots and line ends between the keyword and the clause
are passed over, so a header may be continued there. -/
namespace MatlabOutline
open Text

/-- A header found in a text. `stop` is the end of the name, and `lineEnd` the end of the logical
line on which the parameters stand. -/
structure Header where
  start : Nat
  stop : Nat
  lineEnd : Nat
  returnClause : Text
  name : Text
  argClause : Text
  deriving DecidableEq, Repr

namespace Header

/-- The opening part of a header, cut into pieces. -/
structure Signature where
  lead : Text
  returnClause : Text
  gap : Text
  name : Text
  rest : Text
  deriving DecidableEq, Repr

namespace Signature

/-- The number of characters from the start of the line to the end of the name. -/
def width (s : Signature) : Nat :=
  s.lead.length + s.returnClause.length + s.gap.length + s.name.length

end Signature

/-- The identifier that a text begins with, and what follows it. -/
def identifier? : Text → Option (Text × Text)
  | [] => none
  | c :: t => if isWordStart c then some (c :: t.takeWhile isWord, t.dropWhile isWord) else none

/-- The bracketed list that a text begins with, up to the first closing bracket. -/
def bracketed? : Text → Option (Text × Text)
  | '[' :: t =>
    match t.dropWhile (· != ']') with
    | [] => none
    | c :: u => some ('[' :: t.takeWhile (· != ']') ++ [c], u)
  | _ => none

/-- A bracketed list or a single name, together with the equals sign after it. -/
def returnClause? (t : Text) : Option (Text × Text) :=
  match (bracketed? t).or (identifier? t) with
  | none => none
  | some (target, u) =>
    match u.dropWhile isBlank with
    | '=' :: v => some (target ++ u.takeWhile isBlank ++ ['='], v)
    | _ => none

/-- The function name after a return clause. -/
def named? (lead clause t : Text) : Option Signature :=
  (identifier? (t.dropWhile isBlank)).map fun n => ⟨lead, clause, t.takeWhile isBlank, n.1, n.2⟩

/-- Characters passed over between the keyword and the clause. -/
def isFiller (c : Char) : Bool := isBlank c || c == '\n' || c == '.'

/-- What follows the keyword, which must not go on as a longer word. -/
def afterKeyword? (t : Text) : Option Text :=
  match after? "function".toList (t.dropWhile isBlank) with
  | none => none
  | some u => if u.head?.any isWord then none else some u

/-- Read the opening part of a header at the start of a line. A name that is followed by an equals
sign is a return clause if another name comes after it, and else the function's own name. -/
def signature? (t : Text) : Option Signature :=
  match afterKeyword? t with
  | none => none
  | some u =>
    let lead := t.takeWhile isBlank ++ "function".toList ++ u.takeWhile isFiller
    let body := u.dropWhile isFiller
    ((returnClause? body).bind fun c => named? lead c.1 c.2).or (named? lead [] body)

/-- The header whose line begins a text, placed at an offset. -/
def read? (start : Nat) (t : Text) : Option Header :=
  (signature? t).map fun s =>
    let line := logicalLine s.rest
    { start
      stop := start + s.width
      lineEnd := start + s.width + line.2
      returnClause := s.returnClause
      name := s.name
      argClause := parameterClause line.1 }

/-- The first header in a text that begins at the given offset. -/
def search? (lineStart : Bool) (offset : Nat) : Text → Option Header
  | [] => none
  | c :: t =>
    match if lineStart then read? offset (c :: t) else none with
    | some h => some h
    | none => search? (c == '\n') (offset + 1) t

/-- Whether a line starts at an offset. -/
def startsLine (text : Text) (pos : Nat) : Bool := (text.take pos).getLast?.all (· == '\n')

/-- The first header that starts at or after an offset. -/
def next? (text : Text) (pos : Nat) : Option Header :=
  search? (startsLine text pos) pos (text.drop pos)

/-- The first header of a text. -/
def first? (text : Text) : Option Header := next? text 0

/-- All headers from an offset on. `wait` characters still belong to the logical line of the
header before, where no other header is looked for. -/
def allFrom (wait : Nat) (lineStart : Bool) (offset : Nat) : Text → List Header
  | [] => []
  | c :: t =>
    match if wait = 0 ∧ lineStart = true then read? offset (c :: t) else none with
    | some h => h :: allFrom (h.lineEnd - (offset + 1)) (c == '\n') (offset + 1) t
    | none => allFrom (wait - 1) (c == '\n') (offset + 1) t

/-- The headers of a text in order. -/
def all (text : Text) : List Header := allFrom 0 true 0 text

theorem identifier?_append {t n r : Text} (h : identifier? t = some (n, r)) : t = n ++ r := by
  cases t with
  | nil => simp [identifier?] at h
  | cons c t =>
    rw [identifier?] at h
    split at h
    · simp only [Option.some.injEq, Prod.mk.injEq] at h
      rw [← h.1, ← h.2, List.cons_append, List.takeWhile_append_dropWhile]
    · simp at h

theorem bracketed?_append {t b r : Text} (h : bracketed? t = some (b, r)) : t = b ++ r := by
  unfold bracketed? at h
  split at h
  · rename_i u
    split at h
    · simp at h
    · rename_i c v hd
      simp only [Option.some.injEq, Prod.mk.injEq] at h
      rw [← h.1, ← h.2]
      simp [← hd, List.takeWhile_append_dropWhile]
  · simp at h

theorem returnClause?_append {t c r : Text} (h : returnClause? t = some (c, r)) : t = c ++ r := by
  unfold returnClause? at h
  split at h
  · simp at h
  · rename_i target u hu
    have ht : t = target ++ u := by
      rcases Option.or_eq_some_iff.1 hu with hb | ⟨_, hi⟩
      · exact bracketed?_append hb
      · exact identifier?_append hi
    split at h
    · rename_i v hv
      simp only [Option.some.injEq, Prod.mk.injEq] at h
      rw [ht, ← h.1, ← h.2]
      have := List.takeWhile_append_dropWhile (p := isBlank) (l := u)
      rw [hv] at this
      simp [this]
    · simp at h

theorem named?_append {lead clause t : Text} {s : Signature} (h : named? lead clause t = some s) :
    s.lead = lead ∧ s.returnClause = clause ∧ t = s.gap ++ s.name ++ s.rest := by
  simp only [named?, Option.map_eq_some_iff] at h
  obtain ⟨n, hn, rfl⟩ := h
  refine ⟨rfl, rfl, ?_⟩
  have := identifier?_append hn
  rw [List.append_assoc, ← this, List.takeWhile_append_dropWhile]

/-- The pieces of a signature, put together, are the text it was read from. -/
theorem signature?_append {t : Text} {s : Signature} (h : signature? t = some s) :
    t = s.lead ++ s.returnClause ++ s.gap ++ s.name ++ s.rest := by
  unfold signature? afterKeyword? at h
  split at h
  · simp at h
  · rename_i u hu
    split at hu
    · simp at hu
    · rename_i v hv
      split at hu
      · simp at hu
      · obtain rfl := Option.some.inj hu
        have ht : t = (t.takeWhile isBlank ++ "function".toList ++ v.takeWhile isFiller) ++
            v.dropWhile isFiller := by
          rw [List.append_assoc, List.takeWhile_append_dropWhile, List.append_assoc,
            ← after?_eq_some_iff.1 hv, List.takeWhile_append_dropWhile]
        rcases Option.or_eq_some_iff.1 h with hc | ⟨_, hn⟩
        · obtain ⟨c, hc, hn⟩ := Option.bind_eq_some_iff.1 hc
          obtain ⟨h1, h2, h3⟩ := named?_append hn
          rw [returnClause?_append hc, h3, ← h1, ← h2] at ht
          simpa using ht
        · obtain ⟨h1, h2, h3⟩ := named?_append hn
          rw [h3, ← h1] at ht
          simpa [h2] using ht

end Header
end MatlabOutline
