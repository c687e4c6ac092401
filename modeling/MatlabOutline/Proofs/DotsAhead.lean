import MatlabOutline.Proofs.LineEndScan
import MatlabOutline.Proofs.TransparentBodies

/-! Reading with dots ahead. Three dots are put after a text that does not end with a dot, and its
lexemes are read again. Each of them ends where it did, but for three kinds at the end of the text:
what is not complete goes on, a block comment is opened again by the dots on its closing line, and a
whole number takes the first dot for its decimal point. -/
namespace MatlabOutline
open Text
namespace Lexeme

/-- Whether the text after a lexeme is code again. A string, a continuation or a block comment has
to be complete for that. -/
def EndsInCode (l : Lexeme) : Prop :=
  match l.kind with
  | .lineComment => False
  | .string =>
    ∃ (quote : Quote) (s : Line), l.text = quote.char :: doubled quote.char s.1 ++ [quote.char]
  | .continuation => l.text.getLast? = some '\n'
  | .blockComment => ∃ m ∈ (lines l.text).getLast?, closesBlock m = true
  | _ => True

/-- A number that consists of decimal digits alone. -/
def IsInteger (l : Lexeme) : Prop := l.kind = .number ∧ ∀ c ∈ l.text, isDecimal c = true

section Numbers

variable (t x : Text)

theorem sign_append_dot : sign (t ++ '.' :: x) = sign t := by
  cases t <;> rfl

theorem imaginaryUnit_append_dot : imaginaryUnit (t ++ '.' :: x) = imaginaryUnit t := by
  cases t <;> rfl

theorem notAhead_isDecimal_dot : NotAhead isDecimal ('.' :: x) := notAhead_cons (by decide)

/-- What a reading leaves of a text is the same with more text after it. -/
theorem drop_append_of_staysOnLine {f : Text → Text} (hf : StaysOnLine f) (v : Text) :
    (t ++ v).drop (f t).length = t.drop (f t).length ++ v := by
  have hle := congrArg List.length (hf t).1
  rw [List.length_take] at hle
  exact List.drop_append_of_le_length (by omega)

theorem exponent_append_dot : exponent (t ++ '.' :: x) = exponent t := by
  cases t with
  | nil => rfl
  | cons c t =>
    rw [List.cons_append, exponent, exponent, sign_append_dot,
      drop_append_of_staysOnLine t staysOnLine_sign,
      takeWhile_append_notAhead (notAhead_isDecimal_dot x)]

theorem afterFraction_append_dot : afterFraction (t ++ '.' :: x) = afterFraction t := by
  rw [afterFraction, afterFraction, exponent_append_dot,
    drop_append_of_staysOnLine t staysOnLine_exponent, imaginaryUnit_append_dot]

theorem afterDigits_append_dot (h : t ≠ []) : afterDigits (t ++ '.' :: x) = afterDigits t := by
  have hfraction : fraction (t ++ '.' :: x) = fraction t := by
    cases t with
    | nil => exact absurd rfl h
    | cons c t =>
      by_cases hc : c = '.'
      · subst hc
        exact congrArg ('.' :: ·) (takeWhile_append_notAhead (notAhead_isDecimal_dot x) t)
      · rw [List.cons_append, fraction_of_ne hc, fraction_of_ne hc]
  rw [afterDigits, afterDigits, hfraction, drop_append_of_staysOnLine t staysOnLine_fraction,
    afterFraction_append_dot]

/-- A number that is no whole number ends where it did. -/
theorem numberTail_append_dot (h : ∃ c ∈ t, isDecimal c = false) :
    numberTail (t ++ '.' :: x) = numberTail t := by
  have hne : t.dropWhile isDecimal ≠ [] := by
    obtain ⟨c, hc, hdecimal⟩ := h
    intro hnil
    rw [List.dropWhile_eq_nil_iff.1 hnil c hc] at hdecimal
    cases hdecimal
  rw [numberTail_eq, numberTail_eq, takeWhile_append_notAhead (notAhead_isDecimal_dot x),
    dropWhile_append_notAhead (notAhead_isDecimal_dot x), afterDigits_append_dot _ _ hne]

/-- A whole number takes the first of the dots after it for its decimal point. -/
theorem numberTail_append_dots (h : ∀ c ∈ t, isDecimal c = true) :
    numberTail (t ++ '.' :: '.' :: x) = t.length + 1 := by
  rw [numberTail_eq, takeWhile_run h (notAhead_isDecimal_dot _),
    dropWhile_run h (notAhead_isDecimal_dot _)]
  rfl

theorem numberTail_le : numberTail t ≤ t.length := by
  have hlen := congrArg List.length (staysOnLine_numberText t).1
  rw [length_numberText, List.length_take] at hlen
  omega

end Numbers

/-- A text that does not end with a dot does not open a continuation together with what follows. -/
theorem dots_append {c : Char} {t : Text} (h : (c :: t).getLast? ≠ some '.') (v : Text) :
    (after? "...".toList (c :: t ++ v)).isSome = (after? "...".toList (c :: t)).isSome := by
  rcases t with _ | ⟨d, _ | ⟨e, t⟩⟩
  · have hc : '.' ≠ c := by simpa [eq_comm] using h
    simp [after?, hc]
  · have hd : '.' ≠ d := by simpa [eq_comm] using h
    simp [after?, hd]
  · have hdots : "...".toList = ['.', '.', '.'] := rfl
    simp only [hdots, after?, List.cons_append]
    split_ifs <;> rfl

/-- A string that ends before the end of the text ends where it did. -/
theorem stringTail_append {quote : Char} {t : Text} (h : stringTail quote t < t.length) (v : Text) :
    stringTail quote (t ++ v) = stringTail quote t := by
  fun_induction stringTail quote t with
  | case1 => cases h
  | case2 => cases v <;> rfl
  | case3 => exact absurd h (Nat.lt_irrefl 1)
  | case4 => rfl
  | case5 t hn ih =>
    rw [List.cons_append, List.cons_append, stringTail, if_neg hn, if_pos rfl, if_pos rfl,
      ih (by simpa using h)]
  | case6 d t hd hn =>
    rw [List.cons_append, List.cons_append, stringTail, if_neg hn, if_pos rfl, if_neg hd]
  | case7 c d t hn hc ih =>
    rw [List.cons_append, stringTail_cons hc hn, ih (by simpa using h)]

/-- A block comment either ends where it did, or its last line goes on with what follows. -/
theorem blockLength_append_cases {t : Text} (h : '\n' ∈ t) (v : Text) :
    blockLength (t ++ v) = blockLength t ∨
      (blockLength t = t.length ∧ t.length + (restOfLine v).length ≤ blockLength (t ++ v)) := by
  have hcut := eq_restOfLine_append t
  have hcons := lines_eq_cons t
  rcases List.eq_nil_or_concat (lines t).tail with hnil | ⟨ms, l, hlast⟩
  · rw [hnil, furtherLines, List.flatMap_nil, List.append_nil] at hcut
    rw [hcut] at h
    exact absurd rfl (ne_newline_of_mem_restOfLine _ h)
  · rw [List.concat_eq_append] at hlast
    rw [hlast] at hcut
    rw [hlast, ← List.cons_append] at hcons
    have hlines := lines_append_last hcons v
    rw [blockLength, blockLength, restOfLine_append_of_mem h, hlines, hlast, List.cons_append,
      List.tail_cons]
    by_cases hms : ∃ m ∈ ms, closesBlock m = true
    · left
      rw [blockTail_append_of_closes hms, blockTail_append_of_closes hms]
    · right
      have hopen : ∀ m ∈ ms, closesBlock m = false := by simpa using hms
      have hlen : t.length =
          (restOfLine t).length + ((furtherLines ms).length + (1 + l.length)) := by
        have hlen := congrArg List.length hcut
        rw [furtherLines, List.flatMap_append] at hlen
        simpa [furtherLines, Nat.add_comm 1] using hlen
      rw [blockTail_append hopen, blockTail_append hopen, blockTail, blockTail, blockTail, ite_self,
        List.length_append]
      omega

/-- A decimal digit opens a number. -/
theorem read_number {fresh : Bool} {before : Text} {c : Char} (h : isDecimal c = true) (t : Text) :
    read fresh before c t = (.number, numberTail t) := by
  have hdigit : isDigit c = true := by rw [isDigit, h, Bool.true_or]
  rw [read_of_class rfl h, if_pos hdigit, if_pos h]

/-- With more text after it a lexeme ends where it did, and it has the same effect on brackets. -/
def KeepsPlace (fresh : Bool) (before : Text) (c : Char) (t v : Text) : Prop :=
  (read fresh before c t).2 ≤ t.length ∧
    (read fresh before c (t ++ v)).2 = (read fresh before c t).2 ∧
    ∀ stack, Mark.brackets stack (read fresh before c (t ++ v)).1 =
      Mark.brackets stack (read fresh before c t).1

section Readings

variable {fresh : Bool} {before t v x : Text} {c : Char}

theorem keepsPlace_of_eq {next : Kind × Nat} (hle : next.2 ≤ t.length)
    (ht : read fresh before c t = next) (hv : read fresh before c (t ++ v) = next) :
    KeepsPlace fresh before c t v := by
  rw [KeepsPlace, ht, hv]
  exact ⟨hle, rfl, fun _ => rfl⟩

theorem opensBlock_append (h : '\n' ∈ t) : opensBlock before (t ++ v) = opensBlock before t := by
  rw [← opensBlock_restOfLine, restOfLine_append_of_mem h, opensBlock_restOfLine]

/-- A block comment that is closed has more than one line. -/
theorem newline_mem_of_endsInCode (hopen : opensBlock before t = true)
    (hcode : EndsInCode ⟨.blockComment, '%' :: t⟩) : '\n' ∈ t := by
  by_contra hnot
  have hlines : lines ('%' :: t) = ['%' :: t] := by
    apply splitWhere_of_forall
    rintro d (_ | ⟨_, hd⟩)
    · rfl
    · simpa using ne_of_mem_of_not_mem hd hnot
  obtain ⟨m, hm, hcloses⟩ := hcode
  obtain ⟨u, rfl, -⟩ := exists_of_opensBlock hopen
  rw [hlines] at hm
  rw [← Option.some.inj hm] at hcloses
  cases hcloses

theorem keepsPlace_lineComment (hopen : opensBlock before t = false) (h : '\n' ∈ t) :
    KeepsPlace fresh before '%' t v := by
  apply keepsPlace_of_eq (List.takeWhile_sublist _).length_le (read_lineComment hopen)
  rw [read_lineComment (by rw [opensBlock_append h, hopen]), restOfLine_append_of_mem h]

theorem keepsPlace_continuation (h : '\n' ∈ t) :
    KeepsPlace fresh before '.' ('.' :: '.' :: t) v := by
  have hlt := length_restOfLine_lt_iff.2 h
  refine keepsPlace_of_eq ?_ read_continuation ?_
  · simp only [List.length_cons]
    omega
  · rw [List.cons_append, List.cons_append, read_continuation, restOfLine_append_of_mem h]

/-- A string ends where it did if it is closed before the end of the text or by its last
character. -/
theorem keepsPlace_string (hc : c = '"' ∨ c = '\'') (hopens : opensString fresh before c = true)
    (hclosed : stringTail c t < t.length ∨ ∃ s : Line, t = doubled c s.1 ++ [c]) :
    KeepsPlace fresh before c t ('.' :: x) := by
  apply keepsPlace_of_eq (stringTail_le c t) (read_string hc hopens)
  rw [read_string hc hopens]
  congr 1
  rcases hclosed with hlt | ⟨s, rfl⟩
  · exact stringTail_append hlt _
  · have hne : c ≠ '\n' ∧ '.' ≠ c := by rcases hc with rfl | rfl <;> decide
    rw [List.append_assoc, List.singleton_append,
      stringTail_doubled hne.1 s.2 (by simpa using hne.2), stringTail_doubled hne.1 s.2 (by simp)]

/-- The kind of a word may change with what follows it, but it has no effect on brackets. -/
theorem keepsPlace_plain (hc : c ≠ '\n' ∧ c ≠ '%') (hlast : (c :: t).getLast? ≠ some '.')
    (hdots : (after? "...".toList (c :: t)).isSome = false)
    (hstring : opensString fresh before c = false)
    (hinteger : isDecimal c = true → ∃ d ∈ t, isDecimal d = false) :
    KeepsPlace fresh before c t ('.' :: x) := by
  have hdots' := (dots_append hlast ('.' :: x)).trans hdots
  rw [List.cons_append] at hdots'
  have hword := takeWhile_append_notAhead (p := isWord) (v := '.' :: x) (notAhead_cons rfl) t
  simp only [KeepsPlace, read, hc, hdots, hdots', hstring, Bool.false_eq_true, if_false]
  cases Bracket.ofOpening? c with
  | some b => exact ⟨Nat.zero_le _, rfl, fun _ => rfl⟩
  | none =>
    split_ifs with _ _ hdecimal
    · exact ⟨Nat.zero_le _, rfl, fun _ => rfl⟩
    · exact ⟨numberTail_le t, numberTail_append_dot t x (hinteger hdecimal), fun _ => rfl⟩
    · exact ⟨Nat.zero_le _, rfl, fun _ => rfl⟩
    · exact ⟨(List.takeWhile_sublist _).length_le, congrArg List.length hword, fun _ => rfl⟩
    · exact ⟨Nat.zero_le _, rfl, fun _ => rfl⟩

/-- A lexeme ends where it did with a dot after the text, unless it stands at the end and is a whole
number or not complete. A block comment at the end is opened again, and goes on to the end of the
line at least. -/
theorem keepsPlace_or_blockComment (hlast : (c :: t).getLast? ≠ some '.')
    (hcode : t.length ≤ (read fresh before c t).2 →
      EndsInCode ⟨(read fresh before c t).1, c :: t⟩ ∧
        ¬ IsInteger ⟨(read fresh before c t).1, c :: t⟩) (x : Text) :
    KeepsPlace fresh before c t ('.' :: x) ∨
      t.length ≤ (read fresh before c t).2 ∧
        ∃ n, read fresh before c (t ++ '.' :: x) = (.blockComment, n) ∧
          t.length + (restOfLine ('.' :: x)).length ≤ n := by
  have h := reads_read fresh before c t
  generalize hnext : read fresh before c t = next at h hcode
  cases h with
  | newline => exact .inl (keepsPlace_of_eq (Nat.zero_le _) rfl rfl)
  | lineComment hopen =>
    left
    apply keepsPlace_lineComment hopen
    rw [← length_restOfLine_lt_iff]
    by_contra hge
    exact (hcode (by simpa using hge)).1
  | blockComment hopen =>
    have hmem : '\n' ∈ t := by
      by_contra hnot
      have hge : t.length ≤ blockLength t := by
        have := mt length_restOfLine_lt_iff.1 hnot
        rw [blockLength]
        omega
      exact hnot (newline_mem_of_endsInCode hopen (hcode hge).1)
    have hread : read fresh before '%' (t ++ '.' :: x) =
        (.blockComment, blockLength (t ++ '.' :: x)) :=
      read_blockComment (by rw [opensBlock_append hmem, hopen])
    rcases blockLength_append_cases hmem ('.' :: x) with hsame | ⟨hend, hle⟩
    · left
      rw [hsame] at hread
      exact keepsPlace_of_eq (blockLength_le t) hnext hread
    · -- the dots stand on the line that closed the comment, and it does so no longer
      exact .inr ⟨Nat.le_of_eq hend.symm, _, hread, hle⟩
  | continuation =>
    left
    apply keepsPlace_continuation
    by_contra hnot
    have hge := mt length_restOfLine_lt_iff.1 hnot
    have hend := (hcode (by simp only [List.length_cons]; omega)).1
    simpa [hnot] using List.mem_of_getLast? hend
  | string hc hopens =>
    left
    apply keepsPlace_string hc hopens
    by_cases hlt : stringTail c t < t.length
    · exact .inl hlt
    · obtain ⟨quote, s, hs⟩ := (hcode (by simpa using hlt)).1
      obtain ⟨rfl, rfl⟩ := List.cons.inj hs
      exact .inr ⟨s, rfl⟩
  | plain hc hdots hstring hkind =>
    left
    apply keepsPlace_plain hc hlast hdots hstring
    intro hdecimal
    by_contra hnone
    have hall : ∀ d ∈ t, isDecimal d = true := by simpa using hnone
    rw [read_number hdecimal, numberTail_eq, List.takeWhile_eq_self_iff.2 hall] at hcode
    exact (hcode (Nat.le_add_right _ _)).2 ⟨rfl, List.forall_mem_cons.2 ⟨hdecimal, hall⟩⟩

end Readings

end Lexeme
end MatlabOutline
