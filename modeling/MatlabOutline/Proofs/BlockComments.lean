import MatlabOutline.Lexeme.Basic
import MatlabOutline.Proofs.Lines

/-! Block comments. A block comment is made of whole lines: the one that opens it and all lines after
it up to the first that closes it, or up to the end of the text. -/
namespace MatlabOutline
open Text
namespace Lexeme

theorem opensBlock_of_ne {before t : Text} {c : Char} (hc : c ≠ '\x7b') :
    opensBlock before (c :: t) = false := by
  unfold opensBlock
  split
  · rename_i heq
    exact absurd (List.cons.inj heq).1 hc
  · rfl

/-- A block comment opens with a brace after the sign, on a line of its own. -/
theorem exists_of_opensBlock {before t : Text} (h : opensBlock before t = true) :
    ∃ u, t = '\x7b' :: u ∧ ∀ c ∈ restOfLine before, isBlank c = true := by
  unfold opensBlock at h
  split at h
  · rename_i u
    rw [Bool.and_eq_true] at h
    exact ⟨u, rfl, List.all_eq_true.1 h.1⟩
  · cases h

/-- Whether a block comment opens is decided on its first line. -/
theorem opensBlock_restOfLine (before t : Text) :
    opensBlock before (restOfLine t) = opensBlock before t := by
  cases t with
  | nil => rfl
  | cons c t =>
    by_cases hn : c = '\n'
    · subst hn
      rfl
    have hline : restOfLine (c :: t) = c :: restOfLine t :=
      List.takeWhile_cons_of_pos (by simpa using hn)
    rw [hline]
    by_cases hc : c = '\x7b'
    · subst hc
      change (_ && (restOfLine (restOfLine t)).all isTrailingBlank) =
        (_ && (restOfLine t).all isTrailingBlank)
      rw [restOfLine_restOfLine]
    · rw [opensBlock_of_ne hc, opensBlock_of_ne hc]

/-- The lines of a block comment after its first one. -/
def blockLines : List Text → List Text
  | [] => []
  | l :: ls => l :: if closesBlock l then [] else blockLines ls

theorem blockLines_isPrefix (ls : List Text) : blockLines ls <+: ls := by
  induction ls with
  | nil => exact List.prefix_rfl
  | cons l ls ih =>
    rw [blockLines, List.cons_prefix_cons]
    refine ⟨rfl, ?_⟩
    split_ifs
    · exact List.nil_prefix
    · exact ih

theorem blockTail_eq (ls : List Text) : blockTail ls = (furtherLines (blockLines ls)).length := by
  induction ls with
  | nil => rfl
  | cons l ls ih =>
    rw [blockTail, blockLines, ih]
    split_ifs <;> simp [furtherLines] <;> omega

/-- Lines that do not close a block comment belong to it. -/
theorem blockTail_append {ms : List Text} (h : ∀ m ∈ ms, closesBlock m = false) (ls : List Text) :
    blockTail (ms ++ ls) = (furtherLines ms).length + blockTail ls := by
  induction ms with
  | nil => simp [furtherLines]
  | cons m ms ih =>
    obtain ⟨hm, hms⟩ := List.forall_mem_cons.1 h
    simp only [List.cons_append, blockTail, hm, ih hms, furtherLines, List.flatMap_cons,
      List.length_append, List.length_cons, Bool.false_eq_true, if_false]
    omega

theorem blockTail_append_of_closes {ms : List Text} (h : ∃ m ∈ ms, closesBlock m = true)
    (ls : List Text) : blockTail (ms ++ ls) = blockTail ms := by
  induction ms with
  | nil => simp at h
  | cons m ms ih =>
    rw [List.cons_append, blockTail, blockTail]
    split_ifs with hm
    · rfl
    · rw [ih (by simpa [hm] using h)]

/-- The text of a block comment after its comment sign. -/
def blockText (t : Text) : Text := restOfLine t ++ furtherLines (blockLines (lines t).tail)

theorem length_blockText (t : Text) : (blockText t).length = blockLength t := by
  rw [blockText, blockLength, blockTail_eq, List.length_append]

/-- A block comment is followed by whole lines. -/
theorem exists_blockText_append (t : Text) :
    ∃ later, (lines t).tail = blockLines (lines t).tail ++ later ∧
      t = blockText t ++ furtherLines later := by
  obtain ⟨later, hlater⟩ := blockLines_isPrefix (lines t).tail
  refine ⟨later, hlater.symm, ?_⟩
  calc t = restOfLine t ++ furtherLines (blockLines (lines t).tail ++ later) := by
        rw [hlater]
        exact eq_restOfLine_append t
    _ = blockText t ++ furtherLines later := by
        rw [blockText, furtherLines, List.flatMap_append, ← List.append_assoc]
        rfl

theorem blockLength_le (t : Text) : blockLength t ≤ t.length := by
  obtain ⟨later, -, ht⟩ := exists_blockText_append t
  have hlen := congrArg List.length ht
  rw [List.length_append, length_blockText] at hlen
  omega

theorem take_blockLength (t : Text) : t.take (blockLength t) = blockText t := by
  obtain ⟨later, -, ht⟩ := exists_blockText_append t
  have h : (blockText t ++ furtherLines later).take (blockText t).length = blockText t :=
    List.take_left
  rwa [← ht, length_blockText] at h

/-- A block comment ends at the end of a line. -/
theorem atLineEnd_drop_blockLength (t : Text) : AtLineEnd (t.drop (blockLength t)) := by
  obtain ⟨later, -, ht⟩ := exists_blockText_append t
  have h : (blockText t ++ furtherLines later).drop (blockText t).length = furtherLines later :=
    List.drop_left
  rw [← ht, length_blockText] at h
  rw [h]
  exact atLineEnd_furtherLines later

end Lexeme
end MatlabOutline
