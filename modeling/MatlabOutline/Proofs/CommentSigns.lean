import MatlabOutline.Proofs.LineEndScan
import MatlabOutline.Proofs.TransparentBodies

/-! Where a comment begins on a line. The tail of a header is cut at a comment sign outside quotes,
and every quote opens or closes a string there. The lexemes of the line tell a transposition sign
from a quote. Both ways find the same comment as long as no transposition sign comes before it. -/
namespace MatlabOutline
open Text

namespace Lexeme

/-- Whether the lexeme is a comment. -/
def isComment (l : Lexeme) : Bool := l.kind == .lineComment || l.kind == .blockComment

/-- A single quote that is a transposition sign. -/
def transposition : Lexeme := ⟨.other, ['\'']⟩

/-- The lexemes of a text before its first comment. -/
def code (t : Text) : List Lexeme := (all t 0).takeWhile fun l => !l.isComment

/-- A text up to its first comment, or the whole text if it has none. -/
def codeText (t : Text) : Text := (code t).flatMap text

section Characters

/-- A character that is no comment sign and no quote. -/
def isOrdinary (c : Char) : Bool := !(['%', '\'', '"'].contains c)

theorem isOrdinary_of_isWord {c : Char} (h : isWord c = true) : isOrdinary c = true := by
  rw [isOrdinary, contains_eq_false_of_isWord rfl h, Bool.not_false]

theorem isOrdinary_of_isDecimal {c : Char} (h : isDecimal c = true) : isOrdinary c = true := by
  rw [isOrdinary, Bool.not_eq_true', List.contains_eq_mem, decide_eq_false_iff_not]
  intro hc
  simp only [List.mem_cons, List.not_mem_nil, or_false] at hc
  rcases hc with rfl | rfl | rfl <;> cases h

theorem isOrdinary_of_mem_fraction {t : Text} : ∀ c ∈ fraction t, isOrdinary c = true := by
  intro c hc
  unfold fraction at hc
  split at hc
  · rcases List.mem_cons.1 hc with rfl | hc
    · rfl
    · exact isOrdinary_of_isDecimal (List.mem_takeWhile_imp hc)
  · cases hc

theorem isOrdinary_of_mem_sign {t : Text} : ∀ c ∈ sign t, isOrdinary c = true := by
  intro c hc
  unfold sign at hc
  split at hc
  · split_ifs at hc with hd
    · obtain rfl := List.mem_singleton.1 hc
      rcases hd with rfl | rfl <;> rfl
    · cases hc
  · cases hc

theorem isOrdinary_of_mem_exponent {t : Text} : ∀ c ∈ exponent t, isOrdinary c = true := by
  intro c hc
  unfold exponent at hc
  split at hc
  · cases hc
  · rename_i d u
    dsimp only at hc
    split_ifs at hc with hd hempty
    · cases hc
    · rw [List.cons_append, List.mem_cons, List.mem_append] at hc
      rcases hc with rfl | hc | hc
      · rcases hd with rfl | rfl <;> rfl
      · exact isOrdinary_of_mem_sign c hc
      · exact isOrdinary_of_isDecimal (List.mem_takeWhile_imp hc)
    · cases hc

theorem isOrdinary_of_mem_imaginaryUnit {t : Text} :
    ∀ c ∈ imaginaryUnit t, isOrdinary c = true := by
  intro c hc
  unfold imaginaryUnit at hc
  split at hc
  · split_ifs at hc with hd
    · obtain rfl := List.mem_singleton.1 hc
      rcases hd with rfl | rfl <;> rfl
    · cases hc
  · cases hc

/-- A number holds no comment sign and no quote. -/
theorem isOrdinary_of_mem_numberText {t : Text} :
    ∀ c ∈ numberText t, isOrdinary c = true := by
  intro c hc
  simp only [numberText, List.mem_append] at hc
  rcases hc with ((hc | hc) | hc) | hc
  · exact isOrdinary_of_isDecimal (List.mem_takeWhile_imp hc)
  · exact isOrdinary_of_mem_fraction c hc
  · exact isOrdinary_of_mem_exponent c hc
  · exact isOrdinary_of_mem_imaginaryUnit c hc

end Characters

section Readings

variable {fresh : Bool} {before t : Text} {c : Char}

/-- After its first character a lexeme that skips nothing is a part of a word or of a number. -/
theorem isOrdinary_of_mem_take_read (hc : c ≠ '\n' ∧ c ≠ '%')
    (hdots : (after? "...".toList (c :: t)).isSome = false)
    (hstring : opensString fresh before c = false) :
    ∀ d ∈ t.take (read fresh before c t).2, isOrdinary d = true := by
  have hnone : ∀ d ∈ t.take 0, isOrdinary d = true := by simp
  have hnumber : ∀ d ∈ t.take (numberTail t), isOrdinary d = true := by
    rw [← length_numberText, ← (staysOnLine_numberText t).1]
    exact isOrdinary_of_mem_numberText
  have hword : ∀ d ∈ t.take (t.takeWhile isWord).length, isOrdinary d = true := by
    rw [← List.prefix_iff_eq_take.1 (List.takeWhile_prefix isWord)]
    exact fun d hd => isOrdinary_of_isWord (List.mem_takeWhile_imp hd)
  simp only [read, hc, hdots, hstring, Bool.false_eq_true, if_false]
  cases Bracket.ofOpening? c with
  | some b => exact hnone
  | none =>
    split_ifs
    · exact hnone
    · exact hnumber
    · exact hnone
    · exact hword
    · exact hnone

/-- A comment begins with a comment sign. -/
theorem exists_of_isComment {l : Lexeme} (hl : l ∈ allFrom fresh before t)
    (h : l.isComment = true) : ∃ u, l.text = '%' :: u := by
  fun_induction allFrom fresh before t with
  | case1 => cases hl
  | case2 fresh before c rest next tail ih =>
    rcases List.mem_cons.1 hl with rfl | hl
    · have hreads := reads_read fresh before c rest
      change Reads fresh before c rest next at hreads
      clear_value tail next
      cases hreads with
      | lineComment => exact ⟨_, rfl⟩
      | blockComment => exact ⟨_, rfl⟩
      | newline => cases h
      | continuation => cases h
      | string => cases h
      | plain _ _ _ hkind =>
        simp only [isComment, Bool.or_eq_true, beq_iff_eq] at h
        rcases h with h | h <;> (rw [h] at hkind; cases hkind)
    · exact ih hl

/-- After the code of a text comes its first comment, or the end of the text. -/
theorem exists_code_append (t : Text) :
    ∃ ms, all t 0 = code t ++ ms ∧ (ms = [] ∨ ∃ u, ms.flatMap text = '%' :: u) := by
  refine ⟨(all t 0).dropWhile fun l => !l.isComment, List.takeWhile_append_dropWhile.symm, ?_⟩
  cases hd : (all t 0).dropWhile fun l => !l.isComment with
  | nil => exact .inl rfl
  | cons l ms =>
    right
    have hmem : l ∈ all t 0 := (List.dropWhile_sublist _).mem (hd ▸ List.mem_cons_self)
    have hcomment := List.head?_dropWhile_not (fun l : Lexeme => !l.isComment) (all t 0)
    rw [hd] at hcomment
    obtain ⟨u, hu⟩ := exists_of_isComment hmem (by simpa using hcomment)
    exact ⟨u ++ ms.flatMap text, by rw [List.flatMap_cons, hu, List.cons_append]⟩

end Readings

end Lexeme

namespace Header
open Lexeme

/-- A string is passed over whole. Where a quote is written twice, the string is closed and opened
again at once. -/
theorem dropCommentFrom_string {quote : Char} (hq : quote = '"' ∨ quote = '\'') {t : Text}
    (ht : '\n' ∉ t) :
    dropCommentFrom (some quote) t =
      t.take (stringTail quote t) ++ dropComment (t.drop (stringTail quote t)) := by
  have hne : quote ≠ '%' ∧ (quote = '\'' ∨ quote = '"') := by
    rcases hq with rfl | rfl <;> decide
  fun_induction stringTail quote t with
  | case1 => rfl
  | case2 => simp at ht
  | case3 c hn => simp [dropCommentFrom, dropComment]
  | case4 => simp at ht
  | case5 t hn ih =>
    have hagain : dropCommentFrom (some quote) (quote :: quote :: t) =
        quote :: quote :: dropCommentFrom (some quote) t := by
      simp [dropCommentFrom, hne]
    rw [hagain, ih (by simp_all)]
    rfl
  | case6 d t hd hn => simp [dropCommentFrom, dropComment]
  | case7 c d t hn hc ih =>
    rw [dropCommentFrom, if_neg hc, ih (by simp_all)]
    rfl

theorem dropComment_quote {quote : Char} (hq : quote = '"' ∨ quote = '\'') (t : Text) :
    dropComment (quote :: t) = quote :: dropCommentFrom (some quote) t := by
  rcases hq with rfl | rfl <;> rfl

/-- Between quotes comment signs are kept. -/
theorem dropCommentFrom_append {quote : Char} {u : Text} (hu : quote ∉ u) (v : Text) :
    dropCommentFrom (some quote) (u ++ v) = u ++ dropCommentFrom (some quote) v := by
  induction u with
  | nil => rfl
  | cons c u ih =>
    obtain ⟨hc, hu⟩ := not_or.1 (mt List.mem_cons.2 hu)
    rw [List.cons_append, dropCommentFrom, if_neg (Ne.symm hc), ih hu, List.cons_append]

section Lines

variable {fresh : Bool} {before t : Text} {c : Char}

/-- One lexeme is passed over, unless it is a comment or a transposition sign. -/
theorem dropComment_lexeme (hn : '\n' ∉ c :: t) (hdots : ¬ "...".toList <:+: c :: t)
    (hcomment :
      isComment ⟨(read fresh before c t).1, c :: t.take (read fresh before c t).2⟩ = false)
    (htranspose : (⟨(read fresh before c t).1, c :: t.take (read fresh before c t).2⟩ : Lexeme) ≠
      transposition) :
    dropComment (c :: t) =
      c :: t.take (read fresh before c t).2 ++ dropComment (t.drop (read fresh before c t).2) := by
  have h := reads_read fresh before c t
  generalize hnext : read fresh before c t = next at h hcomment htranspose
  cases h with
  | newline => simp at hn
  | lineComment => cases hcomment
  | blockComment => cases hcomment
  | @continuation t => exact absurd ⟨[], t, rfl⟩ hdots
  | string hc hopens =>
    rw [dropComment_quote hc,
      dropCommentFrom_string hc (fun hmem => hn (List.mem_cons_of_mem _ hmem))]
    rfl
  | plain hc hnot hstring hkind =>
    have hquote : c ≠ '\'' := by
      rintro rfl
      apply htranspose
      rw [read_transpose hstring]
      rfl
    have hdouble : c ≠ '"' := by
      rintro rfl
      cases hstring
    have htail := isOrdinary_of_mem_take_read hc hnot hstring
    have hlexeme : ∀ d ∈ c :: t.take (read fresh before c t).2,
        d ≠ '%' ∧ d ≠ '\'' ∧ d ≠ '"' := by
      intro d hd
      rcases List.mem_cons.1 hd with rfl | hd
      · exact ⟨hc.2, hquote, hdouble⟩
      · simpa [isOrdinary] using htail d hd
    have happend := dropComment_append hlexeme (t.drop (read fresh before c t).2)
    rwa [List.cons_append, List.take_append_drop] at happend

/-- The lexemes up to a comment or a transposition sign are passed over. -/
theorem dropComment_lexemes {ls ms : List Lexeme} (hn : '\n' ∉ t) (hdots : ¬ "...".toList <:+: t)
    (h : Lexeme.allFrom fresh before t = ls ++ ms)
    (hls : ∀ l ∈ ls, l.isComment = false ∧ l ≠ transposition) :
    dropComment t = ls.flatMap text ++ dropComment (ms.flatMap text) := by
  induction ls generalizing fresh before t with
  | nil =>
    rw [← flatMap_text_allFrom fresh before t, h]
    rfl
  | cons l ls ih =>
    obtain ⟨⟨hcomment, htranspose⟩, hrest⟩ := List.forall_mem_cons.1 hls
    cases t with
    | nil => simp at h
    | cons c t =>
      rw [Lexeme.allFrom_cons, List.cons_append, List.cons.injEq] at h
      obtain ⟨rfl, h⟩ := h
      have hdrop : t.drop (read fresh before c t).2 <:+ c :: t :=
        (List.drop_suffix _ _).trans (List.suffix_cons _ _)
      rw [dropComment_lexeme hn hdots hcomment htranspose,
        ih (fun hmem => hn (hdrop.mem hmem)) (fun hin => hdots (hin.trans hdrop.isInfix)) h hrest,
        List.flatMap_cons, List.append_assoc]

end Lines

theorem isComment_of_mem_code {t : Text} {l : Lexeme} (h : l ∈ code t) : l.isComment = false := by
  simpa using List.mem_takeWhile_imp h

/-- On a line without dots that continue it, the comment that the lexemes show is cut off if no
transposition sign stands before it. If there is one, and no single quote after it, the comment is
kept. -/
theorem comment_cut_off_unless_transposed (line : Line) (hdots : ¬ "...".toList <:+: line.1) :
    (transposition ∉ code line.1 → dropComment line.1 = codeText line.1) ∧
    ∀ ls ms, code line.1 = ls ++ transposition :: ms → transposition ∉ ls →
      (∀ l ∈ ms, '\'' ∉ l.text) → codeText line.1 ≠ line.1 →
        dropComment line.1 ≠ codeText line.1 := by
  have hn : '\n' ∉ line.1 := fun hmem => line.2 _ hmem rfl
  obtain ⟨rest, hall, hrest⟩ := exists_code_append line.1
  refine ⟨fun hnone => ?_, fun ls ms hcode hnone hms hne => ?_⟩
  · rw [dropComment_lexemes hn hdots hall fun l hl =>
      ⟨isComment_of_mem_code hl, fun h => hnone (h ▸ hl)⟩]
    rcases hrest with rfl | ⟨u, hu⟩
    · exact List.append_nil _
    · rw [hu]
      exact List.append_nil _
  · -- the transposition sign is taken for a quote, and all that follows it for a string
    obtain ⟨u, hu⟩ : ∃ u, rest.flatMap text = '%' :: u := by
      refine hrest.resolve_left ?_
      rintro rfl
      apply hne
      rw [codeText, ← List.append_nil (code line.1), ← hall]
      exact flatMap_text_all line.1 0
    have hquote : '\'' ∉ ms.flatMap text := by simpa using hms
    have hcut : dropComment line.1 = ls.flatMap text ++
        '\'' :: (ms.flatMap text ++ '%' :: dropCommentFrom (some '\'') u) := by
      have hsplit : Lexeme.allFrom true [] line.1 = ls ++ (transposition :: (ms ++ rest)) := by
        have hall' : Lexeme.allFrom true [] line.1 = code line.1 ++ rest := hall
        rw [hall', hcode, List.append_assoc, List.cons_append]
      rw [dropComment_lexemes hn hdots hsplit]
      · rw [List.flatMap_cons, List.flatMap_append, hu]
        change _ ++ dropComment ('\'' :: (ms.flatMap text ++ '%' :: u)) = _
        rw [dropComment_quote (.inr rfl), dropCommentFrom_append hquote]
        rfl
      · intro l hl
        have hmem : l ∈ code line.1 := by
          rw [hcode]
          exact List.mem_append_left _ hl
        exact ⟨isComment_of_mem_code hmem, fun h => hnone (h ▸ hl)⟩
    rw [hcut, codeText, hcode, List.flatMap_append, List.flatMap_cons]
    simp [transposition]

theorem not_isInfix_of_not_mem {t : Text} (h : '.' ∉ t) : ¬ "...".toList <:+: t :=
  fun hdots => h (hdots.mem (by decide))

/-- A string with a quote and a comment sign in it, and a comment after it. -/
def quotedLine : Line := .of "s = 'it''s 5%'; % note".toList rfl

theorem quotedLine_comment_cut_off :
    (¬ "...".toList <:+: quotedLine.1 ∧ transposition ∉ code quotedLine.1) ∧
    dropComment quotedLine.1 = codeText quotedLine.1 ∧
    codeText quotedLine.1 = "s = 'it''s 5%'; ".toList := by
  have hdots : ¬ "...".toList <:+: quotedLine.1 := not_isInfix_of_not_mem (by decide)
  have hnone : transposition ∉ code quotedLine.1 := by decide +kernel
  have h := comment_cut_off_unless_transposed quotedLine hdots
  exact ⟨⟨hdots, hnone⟩, h.1 hnone, by decide +kernel⟩

/-- A transposed matrix, and a comment after it. -/
def transposedLine : Line := .of "y = x'; % note".toList rfl

/-- The comment after a transposition sign is not cut off. -/
theorem transposedLine_comment_kept :
    ¬ "...".toList <:+: transposedLine.1 ∧ codeText transposedLine.1 = "y = x'; ".toList ∧
      dropComment transposedLine.1 = transposedLine.1 := by
  exact ⟨not_isInfix_of_not_mem (by decide), by decide +kernel, by decide⟩

end Header
end MatlabOutline
