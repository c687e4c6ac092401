import MatlabOutline.Proofs.Lookahead
import MatlabOutline.Proofs.BlockComments

/-! Text that is skipped has no influence. Comments, strings and the rests of continued lines can be
crossed out, character by character, and the lexemes are read again at the same places and with the
same kinds, so that the block keywords stay what they are. -/
namespace MatlabOutline
open Text

namespace Text

/-- Every character but the newlines replaced by an `x`. -/
def crossOut (t : Text) : Text := t.map fun c => if c = '\n' then c else 'x'

@[simp] theorem length_crossOut (t : Text) : (crossOut t).length = t.length := List.length_map _

theorem crossOut_cons {c : Char} (hc : c ≠ '\n') (t : Text) :
    crossOut (c :: t) = 'x' :: crossOut t := by
  rw [crossOut, List.map_cons, if_neg hc]
  rfl

/-- On a single line nothing is left. -/
theorem eq_x_of_mem_crossOut {t : Text} (ht : ∀ c ∈ t, c ≠ '\n') : ∀ c ∈ crossOut t, c = 'x' := by
  intro c hc
  obtain ⟨d, hd, rfl⟩ := List.mem_map.1 hc
  rw [if_neg (ht d hd)]

end Text

namespace Lexeme

/-- Cross out a string after its opening quote. Two quotes stand for one inside the string, and a
single one at the end closes it. -/
def crossOutString (quote : Char) : Text → Text
  | [] => []
  | [c] => if c = quote then [c] else crossOut [c]
  | c :: d :: t =>
    if c = quote then crossOut [c, d] ++ crossOutString quote t
    else crossOut [c] ++ crossOutString quote (d :: t)

/-- Cross out a line of a block comment, unless it closes the comment. -/
def crossOutLine (l : Text) : Text := if closesBlock l then l else crossOut l

/-- The text of a lexeme with all that is skipped crossed out: the rest of a line after a comment
sign or after three dots, the inside of a string, and the lines inside a block comment. -/
def crossedOut (l : Lexeme) : Text :=
  match l.kind with
  | .lineComment => l.text.take 1 ++ crossOut (l.text.drop 1)
  | .continuation => l.text.take 3 ++ crossOut (l.text.drop 3)
  | .string =>
    match l.text with
    | [] => []
    | quote :: t => quote :: crossOutString quote t
  | .blockComment => restOfLine l.text ++ furtherLines ((lines l.text).tail.map crossOutLine)
  | _ => l.text

@[simp] theorem length_crossOutString (quote : Char) (t : Text) :
    (crossOutString quote t).length = t.length := by
  fun_induction crossOutString quote t with
  | case1 => rfl
  | case2 => rfl
  | case3 => rfl
  | case4 d t ih =>
    rw [List.length_append, length_crossOut, ih]
    exact Nat.add_comm 2 t.length
  | case5 c d t _ ih =>
    rw [List.length_append, length_crossOut, ih]
    exact Nat.add_comm 1 _

@[simp] theorem length_crossOutLine (l : Text) : (crossOutLine l).length = l.length := by
  rw [crossOutLine]
  split_ifs
  · rfl
  · exact length_crossOut l

@[simp] theorem length_crossedOut (l : Lexeme) : l.crossedOut.length = l.text.length := by
  have hlines : ∀ ls : List Text,
      (furtherLines (ls.map crossOutLine)).length = (furtherLines ls).length := by
    intro ls
    induction ls with
    | nil => rfl
    | cons l ls ih => simpa [furtherLines] using ih
  obtain ⟨k, t⟩ := l
  unfold crossedOut
  split
  · simp only [List.length_append, length_crossOut, List.length_take, List.length_drop]
    omega
  · simp only [List.length_append, length_crossOut, List.length_take, List.length_drop]
    omega
  · cases t with
    | nil => rfl
    | cons c t => simp
  · have ht := congrArg List.length (eq_restOfLine_append t)
    simp only [List.length_append, hlines] at ht ⊢
    exact ht.symm
  · rfl

theorem crossedOut_of_not_skipped {l : Lexeme} (h : l.kind.isSkipped = false) :
    l.crossedOut = l.text := by
  obtain ⟨k, t⟩ := l
  cases k <;> first | rfl | cases h

section Strings

variable {quote : Char}

theorem crossOutString_cons {c : Char} (hc : c ≠ quote) (t : Text) :
    crossOutString quote (c :: t) = crossOut [c] ++ crossOutString quote t := by
  cases t with
  | nil => simp [crossOutString, hc]
  | cons d t => rw [crossOutString, if_neg hc]

theorem stringTail_cons {c : Char} (hc : c ≠ quote) (hn : c ≠ '\n') (t : Text) :
    stringTail quote (c :: t) = stringTail quote t + 1 := by
  cases t with
  | nil => simp [stringTail, hn]
  | cons d t => rw [stringTail, if_neg hn, if_neg hc]

/-- A string that is crossed out ends where it did. What follows it may change, apart from its
first character. -/
theorem stringTail_crossOutString (hx : quote ≠ 'x') {t after : Text}
    (h : (t.drop (stringTail quote t)).head? = after.head?) :
    stringTail quote (crossOutString quote (t.take (stringTail quote t)) ++ after) =
      stringTail quote t := by
  have hx' : ∀ u, stringTail quote ('x' :: u) = stringTail quote u + 1 :=
    stringTail_cons hx.symm (by decide)
  have hline : ∀ {u : Text}, u.head? = some '\n' → stringTail quote u = 0 := by
    intro u hu
    rcases u with _ | ⟨c, _ | ⟨d, u⟩⟩
    · cases hu
    · simp [stringTail, Option.some.inj hu]
    · simp [stringTail, Option.some.inj hu]
  fun_induction stringTail quote t with
  | case1 =>
    have hnil : after = [] := List.head?_eq_none_iff.1 h.symm
    rw [hnil]
    rfl
  | case2 => exact hline h.symm
  | case3 c hn =>
    have hnil : after = [] := List.head?_eq_none_iff.1 h.symm
    rw [hnil, List.append_nil]
    change stringTail quote (if c = quote then [c] else crossOut [c]) = 1
    split_ifs
    · rw [stringTail, if_neg hn]
    · rw [crossOut_cons hn]
      exact hx' []
  | case4 => exact hline h.symm
  | case5 t hn ih =>
    have hcut : crossOutString quote ((quote :: quote :: t).take (stringTail quote t + 2)) =
        'x' :: 'x' :: crossOutString quote (t.take (stringTail quote t)) := by
      rw [List.take_succ_cons, List.take_succ_cons, crossOutString, if_pos rfl, crossOut_cons hn,
        crossOut_cons hn]
      rfl
    rw [hcut, List.cons_append, List.cons_append, hx', hx', ih h]
  | case6 d t hd hn =>
    obtain ⟨u, rfl⟩ : ∃ u, after = d :: u := by
      cases after with
      | nil => cases h
      | cons e u => exact ⟨u, by rw [Option.some.inj h]⟩
    have hcut : crossOutString quote ((quote :: d :: t).take 1) = [quote] := if_pos rfl
    rw [hcut, List.singleton_append, stringTail, if_neg hn, if_pos rfl, if_neg hd]
  | case7 c d t hn hc ih =>
    rw [List.take_succ_cons, crossOutString_cons hc, crossOut_cons hn]
    exact (hx' _).trans (congrArg (· + 1) (ih h))

/-- A string is closed by a quote, which is not crossed out, or it ends with its line. -/
theorem string_end (t : Text) :
    AtLineEnd (t.drop (stringTail quote t)) ∨
      ∃ u v, t.take (stringTail quote t) = u ++ [quote] ∧
        crossOutString quote (t.take (stringTail quote t)) = v ++ [quote] := by
  fun_induction stringTail quote t with
  | case1 => exact .inl (by simp [AtLineEnd])
  | case2 => exact .inl (by simp [AtLineEnd])
  | case3 => exact .inl (by simp [AtLineEnd])
  | case4 => exact .inl (by simp [AtLineEnd])
  | case5 t hn ih =>
    refine ih.imp id ?_
    rintro ⟨u, v, hu, hv⟩
    refine ⟨quote :: quote :: u, crossOut [quote, quote] ++ v, ?_, ?_⟩
    · rw [List.take_succ_cons, List.take_succ_cons, hu]
      rfl
    · rw [List.take_succ_cons, List.take_succ_cons, crossOutString, if_pos rfl, hv,
        List.append_assoc]
  | case6 d t hd hn => exact .inr ⟨[], [], rfl, if_pos rfl⟩
  | case7 c d t hn hc ih =>
    refine ih.imp id ?_
    rintro ⟨u, v, hu, hv⟩
    refine ⟨c :: u, crossOut [c] ++ v, ?_, ?_⟩
    · rw [List.take_succ_cons, hu]
      rfl
    · rw [List.take_succ_cons, crossOutString_cons hc, hv, List.append_assoc]

end Strings

section Blocks

theorem closesBlock_crossOutLine (l : Text) : closesBlock (crossOutLine l) = closesBlock l := by
  rw [crossOutLine]
  split_ifs with h
  · rfl
  · rw [Bool.eq_false_iff.2 h]
    cases l with
    | nil => rfl
    | cons c l =>
      rw [crossOut, List.map_cons]
      split_ifs with hc
      · rw [hc]
        rfl
      · rfl

theorem ne_newline_of_mem_crossOutLine {l : Text} (hl : ∀ c ∈ l, c ≠ '\n') :
    ∀ c ∈ crossOutLine l, c ≠ '\n' := by
  rw [crossOutLine]
  split_ifs
  · exact hl
  · intro c hc
    rw [eq_x_of_mem_crossOut hl c hc]
    decide

/-- A block comment that is crossed out has as many characters as before, if lines follow it only
where they did. -/
theorem blockTail_map_crossOutLine {ls later : List Text} (h : blockLines ls = ls → later = []) :
    blockTail ((blockLines ls).map crossOutLine ++ later) = blockTail ls := by
  induction ls with
  | nil =>
    rw [h rfl]
    rfl
  | cons l ls ih =>
    rw [blockLines]
    split_ifs with hl
    · rw [List.map_singleton, List.singleton_append, blockTail, blockTail, length_crossOutLine,
        closesBlock_crossOutLine, if_pos hl, if_pos hl]
    · have hrest : blockLines ls = ls → later = [] := by
        intro hls
        apply h
        rw [blockLines, if_neg hl, hls]
      rw [List.map_cons, List.cons_append, blockTail, blockTail, length_crossOutLine,
        closesBlock_crossOutLine, if_neg hl, if_neg hl, ih hrest]

/-- The text of a block comment after its comment sign, crossed out. -/
def crossedBlock (t : Text) : Text :=
  restOfLine t ++ furtherLines ((blockLines (lines t).tail).map crossOutLine)

theorem ne_newline_of_mem_blockLines (t : Text) :
    ∀ l ∈ blockLines (lines t).tail, ∀ c ∈ l, c ≠ '\n' := by
  intro l hl
  apply ne_newline_of_mem_lines (t := t)
  exact List.mem_of_mem_tail ((blockLines_isPrefix _).sublist.mem hl)

theorem crossedOut_blockComment (t : Text) :
    crossedOut ⟨.blockComment, '%' :: blockText t⟩ = '%' :: crossedBlock t := by
  have hfirst : ∀ c ∈ '%' :: restOfLine t, c ≠ '\n' :=
    List.forall_mem_cons.2 ⟨by decide, ne_newline_of_mem_restOfLine⟩
  have hlines := lines_append hfirst (ne_newline_of_mem_blockLines t) (v := [])
    (by simp [AtLineEnd])
  have htail : (lines []).tail = [] := rfl
  rw [List.append_nil, htail, List.append_nil] at hlines
  have hcons := lines_eq_cons ('%' :: restOfLine t ++ furtherLines (blockLines (lines t).tail))
  rw [hlines] at hcons
  change restOfLine ('%' :: restOfLine t ++ furtherLines _) ++
    furtherLines ((lines ('%' :: restOfLine t ++ furtherLines _)).tail.map crossOutLine) = _
  rw [hlines, ← (List.cons.inj hcons).1]
  rfl

/-- A block comment that is crossed out opens and ends where it did. -/
theorem crossedBlock_append {t after : Text}
    (h : (t.drop (blockLength t)).head? = after.head?) :
    restOfLine (crossedBlock t ++ after) = restOfLine t ∧
      blockLength (crossedBlock t ++ after) = blockLength t := by
  have hafter : AtLineEnd after := by
    have hend := atLineEnd_drop_blockLength t
    rwa [AtLineEnd, h] at hend
  have hnewline : ∀ l ∈ (blockLines (lines t).tail).map crossOutLine, ∀ c ∈ l, c ≠ '\n' := by
    intro l hl
    obtain ⟨m, hm, rfl⟩ := List.mem_map.1 hl
    exact ne_newline_of_mem_crossOutLine (ne_newline_of_mem_blockLines t m hm)
  have hlines := lines_append ne_newline_of_mem_restOfLine hnewline hafter (u := restOfLine t)
  change lines (crossedBlock t ++ after) = _ at hlines
  have hcons := lines_eq_cons (crossedBlock t ++ after)
  rw [hlines] at hcons
  have hfirst : restOfLine (crossedBlock t ++ after) = restOfLine t := (List.cons.inj hcons).1.symm
  have hlater : blockLines (lines t).tail = (lines t).tail → (lines after).tail = [] := by
    intro hall
    obtain ⟨later, hlater, ht⟩ := exists_blockText_append t
    rw [hall] at hlater
    rw [List.self_eq_append_right.1 hlater, furtherLines, List.flatMap_nil, List.append_nil] at ht
    have hdrop : t.drop (blockLength t) = [] := by
      rw [List.drop_eq_nil_iff, ← length_blockText, ← ht]
    rw [hdrop] at h
    rw [List.head?_eq_none_iff.1 h.symm]
    rfl
  refine ⟨hfirst, ?_⟩
  rw [blockLength, blockLength, hfirst, hlines]
  exact congrArg (_ + ·) (blockTail_map_crossOutLine hlater)

end Blocks

/-- A lexeme that has been crossed out is read again: it keeps its first character, and with alike
text after it it has the same kind and length. What is read next finds the same context before it,
or a line ends there. -/
def ReadAgain (fresh : Bool) (before : Text) (c : Char) (t : Text) (next : Kind × Nat) : Prop :=
  ∀ before' after, SameContext before before' ∨ AtLineEnd (c :: t) → Alike (t.drop next.2) after →
    ∃ tail, crossedOut ⟨next.1, c :: t.take next.2⟩ = c :: tail ∧
      read fresh before' c (tail ++ after) = next ∧
      (SameContext ((t.take next.2).reverse ++ c :: before) (tail.reverse ++ c :: before') ∨
        AtLineEnd (t.drop next.2))

theorem sameContext_of_ne {before before' t : Text} {c : Char} (hc : c ≠ '\n')
    (h : SameContext before before' ∨ AtLineEnd (c :: t)) : SameContext before before' :=
  h.resolve_right fun hline => hc (hline c rfl)

section ReadAgain

variable {fresh : Bool} {before t : Text} {c : Char}

theorem readAgain_newline : ReadAgain fresh before '\n' t (.newline, 0) :=
  fun before' _ _ _ => ⟨[], rfl, rfl, .inl (.newline before before')⟩

theorem readAgain_lineComment :
    ReadAgain fresh before '%' t (.lineComment, (restOfLine t).length) := by
  intro before' after _ halike
  simp only [restOfLine, drop_length_takeWhile] at halike
  have hend := atLineEnd_dropWhile t
  have hafter : AtLineEnd after := by rwa [AtLineEnd, halike.head?] at hend
  have htake : t.take (restOfLine t).length = restOfLine t :=
    (List.prefix_iff_eq_take.1 (List.takeWhile_prefix _)).symm
  have hx := eq_x_of_mem_crossOut (ne_newline_of_mem_restOfLine (t := t))
  have hline : restOfLine (crossOut (restOfLine t) ++ after) = crossOut (restOfLine t) := by
    apply restOfLine_append _ hafter
    intro d hd
    rw [hx d hd]
    decide
  have hopen : opensBlock before' (crossOut (restOfLine t) ++ after) = false := by
    rw [← opensBlock_restOfLine, hline]
    cases hcross : crossOut (restOfLine t) with
    | nil => rfl
    | cons d u =>
      apply opensBlock_of_ne
      rw [hx d (by simp [hcross])]
      decide
  refine ⟨crossOut (restOfLine t), ?_, ?_, .inr ?_⟩
  · rw [htake]
    rfl
  · rw [read_lineComment hopen, hline, length_crossOut]
  · simp only [restOfLine, drop_length_takeWhile]
    exact hend

theorem readAgain_blockComment (h : opensBlock before t = true) :
    ReadAgain fresh before '%' t (.blockComment, blockLength t) := by
  intro before' after hctx halike
  have hctx := sameContext_of_ne (by decide) hctx
  obtain ⟨hline, hlength⟩ := crossedBlock_append halike.head?
  have hopen : opensBlock before' (crossedBlock t ++ after) = true := by
    rw [← opensBlock_restOfLine, hline, opensBlock_restOfLine, opensBlock_of_sameContext hctx, h]
  refine ⟨crossedBlock t, ?_, ?_, .inr (atLineEnd_drop_blockLength t)⟩
  · rw [take_blockLength, crossedOut_blockComment]
  · rw [read_blockComment hopen, hlength]

theorem readAgain_continuation :
    ReadAgain fresh before '.' ('.' :: '.' :: t) (.continuation, (restOfLine t).length + 3) := by
  intro before' after _ halike
  have hend := atLineEnd_dropWhile t
  have hcut : restOfLine t ++ t.dropWhile (· != '\n') = t := List.takeWhile_append_dropWhile
  generalize t.dropWhile (· != '\n') = v at hend hcut
  -- the newline that ends the line belongs to the lexeme, if there is one
  have htake : ('.' :: '.' :: t).take ((restOfLine t).length + 3) =
      '.' :: '.' :: (restOfLine t ++ v.take 1) := by
    rw [← List.take_length_add_append 1, hcut]
    rfl
  have hdrop : ('.' :: '.' :: t).drop ((restOfLine t).length + 3) = v.drop 1 := by
    rw [← List.drop_length_add_append 1, hcut]
    rfl
  simp only [htake, hdrop] at halike ⊢
  have hx : ∀ d ∈ crossOut (restOfLine t), d ≠ '\n' := by
    intro d hd
    rw [eq_x_of_mem_crossOut ne_newline_of_mem_restOfLine d hd]
    decide
  have hread : AtLineEnd (v.take 1 ++ after) → read fresh before' '.'
      ('.' :: '.' :: (crossOut (restOfLine t) ++ v.take 1) ++ after) =
        (.continuation, (restOfLine t).length + 3) := by
    intro hafter
    rw [List.cons_append, List.cons_append, read_continuation, List.append_assoc,
      restOfLine_append hx hafter, length_crossOut]
  have hkeep : crossOut (v.take 1) = v.take 1 := by
    cases v with
    | nil => rfl
    | cons c v =>
      rw [hend c rfl]
      rfl
  refine ⟨'.' :: '.' :: (crossOut (restOfLine t) ++ v.take 1), ?_, hread ?_, ?_⟩
  · change '.' :: '.' :: '.' :: crossOut (restOfLine t ++ v.take 1) = _
    rw [crossOut, List.map_append]
    change '.' :: '.' :: '.' :: (crossOut (restOfLine t) ++ crossOut (v.take 1)) = _
    rw [hkeep]
  · cases v with
    | nil =>
      rw [List.head?_eq_none_iff.1 halike.head?.symm]
      simp [AtLineEnd]
    | cons c v => exact hend
  · cases v with
    | nil => exact .inr (by simp [AtLineEnd])
    | cons c v =>
      left
      rw [hend c rfl]
      simpa using SameContext.newline _ _

theorem readAgain_string (hc : c = '"' ∨ c = '\'') (h : opensString fresh before c = true) :
    ReadAgain fresh before c t (.string, stringTail c t) := by
  intro before' after hctx halike
  have hne : c ≠ 'x' ∧ c ≠ '\n' ∧ isBlank c = false := by rcases hc with rfl | rfl <;> decide
  have hctx := sameContext_of_ne hne.2.1 hctx
  refine ⟨crossOutString c (t.take (stringTail c t)), rfl, ?_, ?_⟩
  · rw [← opensString_of_sameContext hctx] at h
    rw [read_string hc h, stringTail_crossOutString hne.1 halike.head?]
  · rcases string_end t with hend | ⟨u, v, hu, hv⟩
    · exact .inr hend
    · -- the closing quote is not a blank, so the line before it does not count
      left
      rw [hv, hu, List.reverse_append, List.reverse_append]
      refine ⟨rfl, ?_⟩
      simp [onlyBlanksBefore, restOfLine, hne]

theorem readAgain_plain (hc : c ≠ '\n' ∧ c ≠ '%')
    (hdots : (after? "...".toList (c :: t)).isSome = false)
    (hstring : opensString fresh before c = false)
    (hkind : (read fresh before c t).1.isSkipped = false) :
    ReadAgain fresh before c t (read fresh before c t) := by
  intro before' after hctx halike
  have hctx := sameContext_of_ne hc.1 hctx
  have hrest := halike.append (t.take (read fresh before c t).2)
  rw [List.take_append_drop] at hrest
  refine ⟨t.take (read fresh before c t).2, crossedOut_of_not_skipped hkind,
    read_of_alike hctx hrest hc.2 hdots hstring, .inl ?_⟩
  rw [← List.singleton_append, ← List.singleton_append (l := before'), ← List.append_assoc,
    ← List.append_assoc]
  exact hctx.append _

end ReadAgain

theorem readAgain_read (fresh : Bool) (before : Text) (c : Char) (t : Text) :
    ReadAgain fresh before c t (read fresh before c t) := by
  have h := reads_read fresh before c t
  generalize hnext : read fresh before c t = next at h
  cases h with
  | newline => exact readAgain_newline
  | lineComment _ => exact readAgain_lineComment
  | blockComment h => exact readAgain_blockComment h
  | continuation => exact readAgain_continuation
  | string hc h => exact readAgain_string hc h
  | plain hc hdots hstring hkind => exact readAgain_plain hc hdots hstring hkind

/-- Crossing out a lexeme leaves the sign that it begins with, so that the text stays alike. -/
theorem alike_crossedOut_append {fresh : Bool} {before t u v : Text} {c : Char} {next : Kind × Nat}
    (h : Reads fresh before c t next) (huv : Alike u v) :
    Alike (c :: t.take next.2 ++ u) (crossedOut ⟨next.1, c :: t.take next.2⟩ ++ v) := by
  cases h with
  | newline => exact huv.append _
  | lineComment => exact .skip (s := ['%']) (by decide)
  | blockComment =>
    rw [take_blockLength, crossedOut_blockComment]
    exact .skip (s := ['%']) (by decide)
  | continuation => exact .skip (s := ['.', '.', '.']) (by decide)
  | string hc _ =>
    have hsign : [c] ∈ skipSigns := by rcases hc with rfl | rfl <;> decide
    exact .skip (s := [c]) hsign
  | plain _ _ _ hkind =>
    rw [crossedOut_of_not_skipped hkind]
    exact huv.append _

theorem alike_flatMap_crossedOut (fresh : Bool) (before t : Text) :
    Alike t ((allFrom fresh before t).flatMap crossedOut) := by
  fun_induction allFrom fresh before t with
  | case1 => exact .nil
  | case2 fresh before c rest next tail ih =>
    have h := alike_crossedOut_append (reads_read fresh before c rest) ih
    rw [List.flatMap_cons]
    rwa [List.cons_append, List.take_append_drop] at h

/-- Where a text of the same length as the lexeme's ends, the rest begins. -/
theorem take_drop_append {n : Nat} {t tail after : Text} (hlen : tail.length = (t.take n).length)
    (hafter : t.drop n = [] → after = []) :
    (tail ++ after).take n = tail ∧ (tail ++ after).drop n = after := by
  rw [List.length_take] at hlen
  by_cases hn : n ≤ t.length
  · exact ⟨List.take_left' (by omega), List.drop_left' (by omega)⟩
  · rw [hafter (List.drop_eq_nil_iff.2 (by omega)), List.append_nil]
    exact ⟨List.take_of_length_le (by omega), List.drop_eq_nil_iff.2 (by omega)⟩

/-- The lexemes of a text that is crossed out are those of the text, crossed out. -/
theorem allFrom_crossedOut (fresh : Bool) (before t : Text) :
    ∀ before', SameContext before before' ∨ AtLineEnd t →
      allFrom fresh before' ((allFrom fresh before t).flatMap crossedOut) =
        (allFrom fresh before t).map fun l => ⟨l.kind, l.crossedOut⟩ := by
  fun_induction allFrom fresh before t with
  | case1 => simp
  | case2 fresh before c rest next tail ih =>
    intro before' h
    obtain ⟨crossed, hcrossed, hread, hctx⟩ := readAgain_read fresh before c rest before' _ h
      (alike_flatMap_crossedOut false (tail.reverse ++ c :: before) _)
    have hlen : crossed.length = tail.length := by
      have hlen := congrArg List.length hcrossed
      rw [length_crossedOut] at hlen
      exact (Nat.succ.inj hlen).symm
    have hnil : rest.drop next.2 = [] →
        (allFrom false (tail.reverse ++ c :: before) (rest.drop next.2)).flatMap crossedOut = [] := by
      intro hnil
      rw [hnil, allFrom_nil]
      rfl
    obtain ⟨htake, hdrop⟩ := take_drop_append hlen hnil
    rw [List.flatMap_cons, hcrossed, List.cons_append, allFrom_cons, hread, htake, hdrop,
      List.map_cons, ih _ hctx, hcrossed]

theorem length_flatMap_crossedOut (ls : List Lexeme) :
    (ls.flatMap crossedOut).length = (ls.flatMap text).length := by
  induction ls with
  | nil => rfl
  | cons l ls ih =>
    rw [List.flatMap_cons, List.flatMap_cons, List.length_append, List.length_append,
      length_crossedOut, ih]

end Lexeme

namespace Mark

/-- The marks depend on the kinds and the lengths of lexemes alone. -/
theorem ofLexemes_map_crossedOut (stack : List Bracket) (offset : Nat) (ls : List Lexeme) :
    ofLexemes stack offset (ls.map fun l => ⟨l.kind, l.crossedOut⟩) =
      ofLexemes stack offset ls := by
  induction ls generalizing stack offset with
  | nil => rfl
  | cons l ls ih =>
    rw [List.map_cons, ofLexemes, ofLexemes, ih, Lexeme.length_crossedOut]

/-- A text with everything crossed out that a scan from an offset skips. -/
def crossOutSkipped (text : Text) (pos : Nat) : Text :=
  text.take pos ++ (Lexeme.all text pos).flatMap Lexeme.crossedOut

/-- Nothing that a scan skips has an influence on the keywords that it reports. -/
theorem all_crossOutSkipped (text : Text) (pos : Nat) :
    (crossOutSkipped text pos).length = text.length ∧
      all (crossOutSkipped text pos) pos = all text pos := by
  have hlen := Lexeme.length_flatMap_crossedOut (Lexeme.all text pos)
  rw [Lexeme.flatMap_text_all] at hlen
  constructor
  · rw [crossOutSkipped, List.length_append, hlen, ← List.length_append, List.take_append_drop]
  · have hnil : text.drop pos = [] → (Lexeme.all text pos).flatMap Lexeme.crossedOut = [] := by
      intro hnil
      rw [Lexeme.all, hnil, Lexeme.allFrom_nil]
      rfl
    obtain ⟨htake, hdrop⟩ := Lexeme.take_drop_append (t := text) (n := pos) rfl hnil
    rw [all, Lexeme.all, crossOutSkipped, htake, hdrop, Lexeme.all,
      Lexeme.allFrom_crossedOut _ _ _ _ (.inl (.refl _)), ofLexemes_map_crossedOut]
    rfl

example : crossOutSkipped "x = 'it''s'; % end\n%\x7b\n end\n%\x7d\ny = [1 ... if\n 2];".toList 0 =
    "x = 'xxxxx'; %xxxx\n%\x7b\nxxxx\n%\x7d\ny = [1 ...xxx\n 2];".toList := by decide +kernel

end Mark
end MatlabOutline
