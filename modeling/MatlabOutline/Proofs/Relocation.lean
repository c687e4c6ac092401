import MatlabOutline.Proofs.HeaderCoverage

/-! Texts whose offsets are carried elsewhere in the same order. Functions nest by the order of their
offsets alone, so the outline is carried along; a block ends at the keyword that is carried to its
new end; and what is read on a line does not depend on the lines before it. -/
namespace MatlabOutline
open Text

namespace FunctionEntry

/-- The entry with its extent carried elsewhere. -/
def moved (place : Int → Int) (e : FunctionEntry) : FunctionEntry :=
  { e with start := place e.start, stop := place e.stop }

end FunctionEntry

namespace Outline

/-- Functions nest in the same way wherever the order of their offsets is kept. -/
theorem nest_moved {place : Int → Int} (hplace : ∀ a b, a < b → place a < place b)
    (es : List FunctionEntry) (boundary : Int) :
    nest (es.map (.moved place)) (place boundary) = (nest es boundary).map (.moved place) := by
  have hmono : ∀ a b, a ≤ b → place a ≤ place b := by
    intro a b hab
    rcases Int.lt_or_eq_of_le hab with hlt | rfl
    · exact Int.le_of_lt (hplace a b hlt)
    · exact Int.le_refl _
  have hmin : ∀ a b, min (place a) (place b) = place (min a b) := by
    intro a b
    rcases Int.le_total a b with hab | hab
    · rw [Int.min_eq_left hab, Int.min_eq_left (hmono a b hab)]
    · rw [Int.min_eq_right hab, Int.min_eq_right (hmono b a hab)]
  induction es using (measure List.length).wf.induction generalizing boundary with
  | h es ih =>
    cases es with
    | nil => rw [List.map_nil, nest_nil, nest_nil]; rfl
    | cons e es =>
      by_cases hlt : e.start < boundary
      · have hstart : (e.moved place).start < place boundary := hplace _ _ hlt
        have hstop : min (e.moved place).stop (place boundary) = place (min e.stop boundary) :=
          hmin e.stop boundary
        have hchildren := ih es (by change es.length < (e :: es).length; simp) (min e.stop boundary)
        have hothers := ih (es.drop (nest es (min e.stop boundary)).size) (by
          change (es.drop _).length < (e :: es).length
          rw [List.length_drop, List.length_cons]
          omega) boundary
        rw [List.map_cons, nest_cons_of_lt hstart, nest_cons_of_lt hlt, hstop, hchildren,
          Forest.size_map, ← List.map_drop, hothers]
        rfl
      · have hge : boundary ≤ e.start := Int.not_lt.1 hlt
        rw [List.map_cons, nest_cons_of_le (hmono _ _ hge), nest_cons_of_le hge]
        rfl

end Outline

namespace Mark

/-- The mark with its place carried elsewhere. -/
def moved (place : Nat → Nat) (m : Mark) : Mark := ⟨m.keyword, place m.start⟩

end Mark

namespace Block

/-- A block that is carried elsewhere ends where its last mark is carried to. -/
theorem close_moved {place : Nat → Nat} {ms : List Mark}
    (hms : ∀ m ∈ ms, (m.moved place).stop = place m.stop) (start start' depth : Nat) :
    (close start' depth (ms.map (.moved place))).toOption =
      (close start depth ms).toOption.map place := by
  induction ms generalizing depth with
  | nil => rfl
  | cons m ms ih =>
    obtain ⟨hm, hms⟩ := List.forall_mem_cons.1 hms
    have hkeyword : (m.moved place).keyword = m.keyword := rfl
    rw [List.map_cons]
    unfold close
    rw [hkeyword]
    split
    · exact ih hms _
    · rfl
    · exact congrArg some hm
    · exact ih hms _

end Block

namespace Dialect

theorem functionEnd_closed_eq (text : Text) (p : Nat) :
    (functionEnd closed text p).1 = (Block.stop text p).toOption.getD text.length := by
  rw [functionEnd]
  cases Block.stop text p <;> rfl

/-- The first header decides about the dialect: whether the block that it opens is closed. -/
theorem detect_eq (text : Text) :
    detect text = ((Header.all text).head?.bind fun h =>
      (Block.stop text h.start).toOption).elim unclosed fun _ => closed := by
  rw [detect, Header.first?_eq_head?]
  cases (Header.all text).head? with
  | none => rfl
  | some h =>
    dsimp only [Option.bind]
    cases Block.stop text h.start <;> rfl

end Dialect

namespace Header

/-- A search from an offset has one result. -/
theorem Finds.unique {text : Text} {p : Nat} {hs hs' : List Header} (h : Finds text p hs)
    (h' : Finds text p hs') : hs = hs' := by
  induction h generalizing hs' with
  | done hle => exact (h'.eq_nil hle).symm
  | pass hp _ ih => exact ih (h'.of_none hp)
  | hit ha _ ih =>
    obtain ⟨gs, rfl, hgs⟩ := h'.of_some ha
    rw [ih hgs]

end Header

namespace Text

/-- A class without the newline finds at the end of a text what it finds on its last line. -/
theorem head?_any_restOfLine {p : Char → Bool} (hp : p '\n' = false) (t : Text) :
    (restOfLine t).head?.any p = t.head?.any p := by
  cases t with
  | nil => rfl
  | cons c t =>
    by_cases hc : c = '\n'
    · subst hc
      simp [restOfLine, hp]
    · simp [restOfLine, hc]

theorem restOfLine_append_congr {before before' : Text} (h : restOfLine before = restOfLine before')
    (u : Text) : restOfLine (u ++ before) = restOfLine (u ++ before') := by
  induction u with
  | nil => exact h
  | cons c u ih =>
    rw [restOfLine, restOfLine] at ih ⊢
    rw [List.cons_append, List.cons_append, List.takeWhile_cons, List.takeWhile_cons, ih]

end Text

namespace Lexeme

variable {fresh : Bool} {before before' : Text}

/-- What is read depends on nothing before the line. -/
theorem read_of_sameLine (h : restOfLine before = restOfLine before') (c : Char) (t : Text) :
    read fresh before c t = read fresh before' c t := by
  have hblanks : onlyBlanksBefore before = onlyBlanksBefore before' := by
    rw [onlyBlanksBefore, onlyBlanksBefore, h]
  have hvalue : before.head?.any endsValue = before'.head?.any endsValue := by
    rw [← head?_any_restOfLine (by decide), h, head?_any_restOfLine (by decide)]
  have hdot : before.head? = some '.' ↔ before'.head? = some '.' := by
    have hany : ∀ t : Text, t.head? = some '.' ↔ t.head?.any (· == '.') = true := by
      intro t
      cases t <;> simp
    rw [hany, hany, ← head?_any_restOfLine (by decide), h, head?_any_restOfLine (by decide)]
  have hstring : opensString fresh before c = opensString fresh before' c := by
    rw [opensString, opensString, hvalue]
  have hblock : opensBlock before t = opensBlock before' t := by
    unfold opensBlock
    rw [hblanks]
  have hhere : ∀ w u : Text, Keyword.here? before w u = Keyword.here? before' w u := by
    intro w u
    simp only [Keyword.here?, hdot, hblanks]
  simp only [read, hstring, hblock, hhere]

/-- The lexemes of a text depend on nothing before its line. -/
theorem allFrom_of_sameLine (fresh : Bool) (before t : Text) : ∀ before',
    restOfLine before = restOfLine before' → allFrom fresh before t = allFrom fresh before' t := by
  fun_induction allFrom fresh before t with
  | case1 =>
    intro before' _
    rw [allFrom_nil]
  | case2 fresh before c rest next tail ih =>
    intro before' h
    have hnext : read fresh before' c rest = next := (read_of_sameLine h c rest).symm
    have hline := restOfLine_append_congr h (tail.reverse ++ [c])
    rw [List.append_assoc, List.append_assoc, List.singleton_append, List.singleton_append] at hline
    rw [allFrom_cons, hnext, ih _ hline]

end Lexeme
end MatlabOutline
