import MatlabOutline.Proofs.Relocation

/-! Text in front of the first header. Whole lines without a header can be put in front of a text,
and its outline is the same at later offsets: no reading looks back past the start of its line, so
brackets, quotes, blocks and comments that are left open there have no effect. -/
namespace MatlabOutline
open Text

/-- Whole lines: the text is empty or ends with a newline. -/
def Text.IsWholeLines (t : Text) : Prop := ∀ c ∈ t.getLast?, c = '\n'

namespace Header

/-- The header with its offsets increased. -/
def shifted (n : Nat) (h : Header) : Header :=
  { h with start := n + h.start, stop := n + h.stop, lineEnd := n + h.lineEnd }

theorem read?_shifted (n start : Nat) (t : Text) :
    read? (n + start) t = (read? start t).map (shifted n) := by
  rw [read?, read?, Option.map_map]
  congr 1
  funext s
  simp only [shifted, Function.comp, Nat.add_assoc]

theorem allFrom_shifted (n wait : Nat) (lineStart : Bool) (offset : Nat) (t : Text) :
    allFrom wait lineStart (n + offset) t = (allFrom wait lineStart offset t).map (shifted n) := by
  induction t generalizing wait lineStart offset with
  | nil => rfl
  | cons c t ih =>
    have hif : (if wait = 0 ∧ lineStart = true then read? (n + offset) (c :: t) else none) =
        (if wait = 0 ∧ lineStart = true then read? offset (c :: t) else none).map (shifted n) := by
      split_ifs
      · exact read?_shifted n offset (c :: t)
      · rfl
    rw [allFrom, allFrom, hif]
    cases (if wait = 0 ∧ lineStart = true then read? offset (c :: t) else none) with
    | none => exact ih (wait - 1) (c == '\n') (offset + 1)
    | some h =>
      have hwait : (shifted n h).lineEnd - (n + offset + 1) = h.lineEnd - (offset + 1) := by
        change n + h.lineEnd - (n + offset + 1) = _
        omega
      simp only [Option.map_some, List.map_cons, hwait]
      exact congrArg _ (ih _ _ (offset + 1))

section Lines

variable {lead text : Text}

theorem startsLine_lead (hlead : IsWholeLines lead) (p : Nat) :
    startsLine (lead ++ text) (lead.length + p) = startsLine text p := by
  rw [startsLine, startsLine, List.take_length_add_append, List.getLast?_append]
  cases (text.take p).getLast? with
  | some c => rfl
  | none =>
    cases hlast : lead.getLast? with
    | none => rfl
    | some c => simp [hlead c hlast]

/-- A search that starts in the text finds what it finds there without the lines in front. -/
theorem allFrom_lead (hlead : IsWholeLines lead) (p : Nat) :
    allFrom 0 (startsLine (lead ++ text) (lead.length + p)) (lead.length + p)
        ((lead ++ text).drop (lead.length + p)) =
      (allFrom 0 (startsLine text p) p (text.drop p)).map (shifted lead.length) := by
  rw [startsLine_lead hlead, List.drop_length_add_append, allFrom_shifted]

theorem next?_lead (hlead : IsWholeLines lead) (p : Nat) :
    next? (lead ++ text) (lead.length + p) = (next? text p).map (shifted lead.length) := by
  rw [next?, next?, search?_eq_head?, search?_eq_head?, allFrom_lead hlead, List.head?_map]

/-- Lines in front without a header shift all headers. -/
theorem all_lead (hlead : IsWholeLines lead)
    (hnone : ∀ p < lead.length, ¬ FitsAt (lead ++ text) p) :
    all (lead ++ text) = (all text).map (shifted lead.length) := by
  have hpass : ∀ p ≤ lead.length, Finds (lead ++ text) p (all (lead ++ text)) := by
    intro p hp
    induction p with
    | zero => exact finds_all _
    | succ p ih =>
      apply (ih (by omega)).of_none
      rw [← Option.not_isSome_iff_eq_none, isSome_at?_iff]
      exact hnone p (by omega)
  have hfinds := @finds_allFrom (lead ++ text) 0 lead.length
  have hshift := @allFrom_lead lead text hlead 0
  rw [Nat.add_zero] at hfinds hshift
  rw [hshift] at hfinds
  exact (hpass lead.length (Nat.le_refl _)).unique hfinds

end Lines

end Header

namespace Mark

theorem ofLexemes_shifted (n : Nat) (stack : List Bracket) (offset : Nat) (ls : List Lexeme) :
    ofLexemes stack (n + offset) ls = (ofLexemes stack offset ls).map (moved (n + ·)) := by
  induction ls generalizing stack offset with
  | nil => rfl
  | cons l ls ih =>
    rw [ofLexemes, ofLexemes, Nat.add_assoc, ih]
    cases visible? stack l.kind <;> rfl

/-- Whatever the lines in front leave open, the block keywords of the text are the same. -/
theorem all_lead {lead : Text} (hlead : IsWholeLines lead) (text : Text) (p : Nat) :
    all (lead ++ text) (lead.length + p) = (all text p).map (moved (lead.length + ·)) := by
  have hline : restOfLine ((text.take p).reverse ++ lead.reverse) =
      restOfLine ((text.take p).reverse ++ []) := by
    apply restOfLine_append_congr
    cases hrev : lead.reverse with
    | nil => rfl
    | cons c t =>
      have hlast : lead.getLast? = some c := by rw [← List.head?_reverse, hrev]; rfl
      rw [hlead c hlast]
      rfl
  rw [List.append_nil, ← List.reverse_append] at hline
  rw [all, Lexeme.all, List.take_length_add_append, List.drop_length_add_append,
    Lexeme.allFrom_of_sameLine _ _ _ _ hline, ofLexemes_shifted]
  rfl

end Mark

section Ends

variable {lead text : Text}

theorem Block.stop_lead (hlead : IsWholeLines lead) (p : Nat) :
    (stop (lead ++ text) (lead.length + p)).toOption =
      (stop text p).toOption.map (lead.length + ·) := by
  rw [stop, stop, Mark.all_lead hlead]
  apply close_moved
  intro m _
  exact Nat.add_assoc _ _ _

theorem Text.endOfLine_lead (p : Nat) :
    endOfLine (lead ++ text) (lead.length + p) = lead.length + endOfLine text p := by
  rw [endOfLine, endOfLine, List.drop_length_add_append, List.length_append]
  split_ifs <;> omega

namespace Dialect

theorem nextDefinition_lead (hlead : IsWholeLines lead) (p : Nat) :
    nextDefinition (lead ++ text) ((lead.length + p : Nat) : Int) =
      lead.length + nextDefinition text p := by
  rw [nextDefinition, nextDefinition, fromEnd_natCast, fromEnd_natCast, endOfLine_lead,
    Header.next?_lead hlead]
  cases Header.next? text (endOfLine text p) with
  | none => exact List.length_append
  | some h => rfl

theorem functionEnd_lead (hlead : IsWholeLines lead) (dialect : Dialect) (p : Nat) :
    (functionEnd dialect (lead ++ text) (lead.length + p)).1 =
      lead.length + (functionEnd dialect text p).1 := by
  cases dialect with
  | unclosed => exact nextDefinition_lead hlead p
  | closed =>
    rw [functionEnd_closed_eq, functionEnd_closed_eq, Block.stop_lead hlead]
    cases (Block.stop text p).toOption with
    | none => exact List.length_append
    | some e => rfl

theorem detect_lead (hlead : IsWholeLines lead)
    (hnone : ∀ p < lead.length, ¬ Header.FitsAt (lead ++ text) p) :
    detect (lead ++ text) = detect text := by
  rw [detect_eq, detect_eq, Header.all_lead hlead hnone, List.head?_map]
  cases (Header.all text).head? with
  | none => rfl
  | some h =>
    have hstop : (Block.stop (lead ++ text) (lead.length + h.start)).toOption = _ :=
      Block.stop_lead hlead h.start
    simp only [Option.map_some, Option.bind_some, Header.shifted, hstop]
    cases (Block.stop text h.start).toOption <;> rfl

end Dialect

theorem Docstring.find?_lead (p : Nat) :
    find? (lead ++ text) ((lead.length + p : Nat) : Int) = find? text p := by
  simp only [find?, candidates, Int.toNat_natCast, fromEnd_natCast, List.drop_length_add_append]

/-- The entry for a header that was shifted is the entry for the header, moved. -/
theorem FunctionEntry.ofHeader_lead (hlead : IsWholeLines lead) (dialect : Dialect) (h : Header) :
    ofHeader (lead ++ text) dialect (h.shifted lead.length) =
      (ofHeader text dialect h).moved (lead.length + ·) := by
  have hstop := @Dialect.functionEnd_lead lead text hlead dialect h.start
  have hdoc := @Docstring.find?_lead lead text h.lineEnd
  rw [Int.natCast_add] at hdoc
  simp only [ofHeader, moved, Header.shifted, hstop, hdoc, Int.natCast_add]

end Ends

namespace Source

/-- Lines in front of a text in which no header starts move its outline, and change nothing else. -/
theorem outline_lead (lead text : Text) (roots : List Text) (dialect : Option Dialect)
    (hlead : IsWholeLines lead) (hnone : ∀ p < lead.length, ¬ Header.FitsAt (lead ++ text) p) :
    (outline ⟨lead ++ text, none, roots, dialect⟩).1 =
      (outline ⟨text, none, roots, dialect⟩).1.map (.moved (lead.length + ·)) := by
  have hmono : ∀ a b : Int, a < b → lead.length + a < lead.length + b :=
    fun _ _ h => Int.add_lt_add_left h _
  have hentries : FunctionEntry.ofHeaders (lead ++ text) (dialect.getD (Dialect.detect text)) =
      (FunctionEntry.ofHeaders text (dialect.getD (Dialect.detect text))).map
        (.moved (lead.length + ·)) := by
    rw [FunctionEntry.ofHeaders, Header.all_lead hlead hnone, FunctionEntry.ofHeaders, List.map_map,
      List.map_map]
    exact List.map_congr_left fun h _ => FunctionEntry.ofHeader_lead hlead _ h
  rw [outline, outline, entries_of_no_path, entries_of_no_path, Dialect.detect_lead hlead hnone,
    hentries, List.length_append, Int.natCast_add, Outline.nest_moved hmono]

/-- Lines that leave a bracket, a quote, two blocks and a block comment open. -/
def openLines : Text := "x = [1, (2\ny = 'a\nif x\nfor k\n%\x7b\n".toList

/-- A function with another one inside. -/
def plainNesting : Text := "function f(a)\n %F doc\n function g\n end\nend\n".toList

theorem openLines_move_outline :
    (IsWholeLines openLines ∧ ∀ p < openLines.length, ¬ Header.FitsAt (openLines ++ plainNesting) p) ∧
    (outline ⟨openLines ++ plainNesting, none, [], none⟩).1 =
      (outline ⟨plainNesting, none, [], none⟩).1.map (.moved (openLines.length + ·)) := by
  have hlead : IsWholeLines openLines := by
    intro c hc
    have hlast : openLines.getLast? = some '\n' := by decide
    exact (Option.some.inj (hlast.symm.trans hc)).symm
  have hnone : ∀ p < openLines.length, ¬ Header.FitsAt (openLines ++ plainNesting) p := by
    have hat : ∀ p < openLines.length,
        (Header.at? (openLines ++ plainNesting) p).isSome = false := by decide +kernel
    intro p hp hfits
    rw [← Header.isSome_at?_iff, hat p hp] at hfits
    cases hfits
  exact ⟨⟨hlead, hnone⟩, outline_lead openLines plainNesting [] none hlead hnone⟩

end Source
end MatlabOutline
