import MatlabOutline.Proofs.DotsAhead

/-! The rest of a line after three dots. A scan that comes to the dots in code passes over the rest
of the line, and reports no keyword there. The one exception is a whole number in front of the dots:
it takes the first of them for its decimal point, and what is left of the line is read as code. -/
namespace MatlabOutline
open Text

namespace Text

/-- Reading comes to the end of the text in code. -/
def EndsInCode (t : Text) : Prop := ∀ l ∈ (Lexeme.all t 0).getLast?, l.EndsInCode

/-- The text ends with a whole number. -/
def EndsInInteger (t : Text) : Prop := ∃ l ∈ (Lexeme.all t 0).getLast?, l.IsInteger

theorem endsInCode_of_number {t w : Text}
    (h : (Lexeme.all t 0).getLast? = some ⟨.number, w⟩) : EndsInCode t := by
  intro l hl
  obtain rfl := Option.some.inj (h.symm.trans hl)
  trivial

end Text

namespace Lexeme

/-- The lexemes of a text that does not end with a dot, with a dot put after it. -/
theorem at?_append_dot {text : Text} {fresh : Bool} {p q : Nat} {k : Kind}
    (hlast : text.getLast? ≠ some '.') (h : at? text fresh p = some (k, q))
    (hcode : q = text.length → EndsInCode ⟨k, text.drop p⟩ ∧ ¬ IsInteger ⟨k, text.drop p⟩)
    (x : Text) :
    (∃ k', at? (text ++ '.' :: x) fresh p = some (k', q) ∧
        ∀ stack, Mark.brackets stack k' = Mark.brackets stack k) ∨
      q = text.length ∧ ∃ q', at? (text ++ '.' :: x) fresh p = some (.blockComment, q') ∧
        text.length + (restOfLine ('.' :: x)).length ≤ q' := by
  have hb := at?_bounds h
  have hdrop : (text ++ '.' :: x).drop p = text.drop p ++ '.' :: x :=
    List.drop_append_of_le_length (by omega)
  have htake : (text ++ '.' :: x).take p = text.take p := List.take_append_of_le_length (by omega)
  cases hd : text.drop p with
  | nil =>
    rw [at?, hd] at h
    cases h
  | cons c t =>
    have hlen : p + 1 + t.length = text.length := by
      have hlen := congrArg List.length hd
      rw [List.length_drop, List.length_cons] at hlen
      omega
    have hgetLast : (c :: t).getLast? ≠ some '.' := by
      rw [← List.take_append_drop p text, List.getLast?_append, hd] at hlast
      simpa using hlast
    rw [at?, hd] at h
    obtain ⟨rfl, rfl⟩ := Prod.mk.inj (Option.some.inj h)
    rw [hd] at hcode
    simp only [at?, hdrop, htake, hd, List.cons_append]
    generalize (text.take p).reverse = before at hcode
    have hend : t.length ≤ (read fresh before c t).2 →
        p + 1 + (t.take (read fresh before c t).2).length = text.length := by
      intro hge
      rw [List.take_of_length_le hge, hlen]
    obtain ⟨hle, hsame, hbrackets⟩ | ⟨hge, n, hread, hn⟩ :=
      keepsPlace_or_blockComment hgetLast (fun hge => hcode (hend hge)) x
    · left
      refine ⟨_, ?_, hbrackets⟩
      rw [hsame, List.take_append_of_le_length hle]
    · right
      refine ⟨hend hge, _, by rw [hread], ?_⟩
      have hline : (restOfLine ('.' :: x)).length ≤ ('.' :: x).length :=
        (List.takeWhile_sublist _).length_le
      rw [List.length_take, List.length_append]
      omega

/-- A whole number at the end of the text takes the first of two dots after it. -/
theorem at?_integer {text : Text} {p : Nat} (hp : p < text.length)
    (h : ∀ c ∈ text.drop p, isDecimal c = true) (fresh : Bool) (x : Text) :
    at? (text ++ '.' :: '.' :: x) fresh p = some (.number, text.length + 1) := by
  cases hd : text.drop p with
  | nil => exact absurd (List.drop_eq_nil_iff.1 hd) (by omega)
  | cons c t =>
    rw [hd] at h
    obtain ⟨hc, ht⟩ := List.forall_mem_cons.1 h
    have hcut : (text ++ '.' :: '.' :: x).drop p = c :: (t ++ ['.']) ++ '.' :: x := by
      rw [List.drop_append_of_le_length (by omega), hd]
      simp
    have hlen := congrArg List.length hd
    rw [List.length_drop, List.length_cons] at hlen
    rw [at?_of_read (k := .number) hcut]
    · simp only [List.length_cons, List.length_append, List.length_nil]
      congr 2
      omega
    · rw [read_number hc, List.append_assoc, List.singleton_append, numberTail_append_dots _ _ ht]
      simp

end Lexeme

namespace Mark

/-- The states that a scan of a text goes through. -/
inductive Reaches (text : Text) : Bool → List Bracket → Nat → Prop
  | start : Reaches text true [] 0
  | step {fresh : Bool} {stack : List Bracket} {p q : Nat} {k : Lexeme.Kind}
      (h : Reaches text fresh stack p) (hat : Lexeme.at? text fresh p = some (k, q)) :
      Reaches text false (brackets stack k) q

namespace Reaches

variable {text : Text} {fresh : Bool} {stack : List Bracket} {p q : Nat} {k : Lexeme.Kind}
  {m : Mark}

/-- What is reported from a state on is reported by the scan. -/
theorem mem_all (h : Reaches text fresh stack p) (hm : m ∈ scan text fresh stack p) :
    m ∈ all text 0 := by
  induction h with
  | start => exact hm
  | step _ hat ih =>
    apply ih
    rw [scan_step hat]
    exact List.mem_append_right _ hm

/-- What the scan reports lies before a state that it goes through, or is reported from there on. -/
theorem lt_or_mem_scan (h : Reaches text fresh stack p) (hm : m ∈ all text 0) :
    m.start < p ∨ m ∈ scan text fresh stack p := by
  induction h with
  | start => exact .inr hm
  | step _ hat ih =>
    have hb := Lexeme.at?_bounds hat
    rcases ih with hlt | hmem
    · exact .inl (by omega)
    · rcases mem_scan_step hat hmem with ⟨-, -, hstart⟩ | hmem
      · exact .inl (by omega)
      · exact .inr hmem

/-- No keyword starts inside a lexeme. -/
theorem le_or_le (h : Reaches text fresh stack p) (hat : Lexeme.at? text fresh p = some (k, q))
    (hm : m ∈ all text 0) : m.start ≤ p ∨ q ≤ m.start := by
  rcases h.lt_or_mem_scan hm with hlt | hmem
  · exact .inl (by omega)
  · rcases mem_scan_step hat hmem with ⟨-, -, hstart⟩ | hmem
    · exact .inl (by omega)
    · exact .inr (spells_of_mem_scan hmem).1

/-- A scan of the text with a dot after it goes through the same states before the last lexeme. -/
theorem append_dot (h : Reaches text fresh stack p) (hlast : text.getLast? ≠ some '.')
    (hp : p < text.length) (x : Text) : Reaches (text ++ '.' :: x) fresh stack p := by
  induction h with
  | start => exact .start
  | step _ hat ih =>
    have hb := Lexeme.at?_bounds hat
    obtain ⟨k', hat', hsame⟩ | ⟨hend, -⟩ :=
      Lexeme.at?_append_dot hlast hat (fun hend => absurd hend (by omega)) x
    · rw [← hsame]
      exact .step (ih (by omega)) hat'
    · omega

/-- From every state before the end of the text the scan comes to the last lexeme. -/
theorem exists_last (h : Reaches text fresh stack p) (hp : p < text.length) :
    ∃ fresh' stack' p' k, Reaches text fresh' stack' p' ∧
      Lexeme.at? text fresh' p' = some (k, text.length) ∧
      (Lexeme.allFrom fresh (text.take p).reverse (text.drop p)).getLast? =
        some ⟨k, text.drop p'⟩ := by
  induction fresh, stack, p using scan_induction text with
  | done fresh stack p hle => omega
  | step fresh stack p q k hat ih =>
    have hb := Lexeme.at?_bounds hat
    obtain ⟨w, hq, hall⟩ := Lexeme.allFrom_step hat
    by_cases hend : q = text.length
    · subst hend
      rw [List.drop_length, Lexeme.allFrom_nil] at hall
      have hw := Lexeme.flatMap_text_allFrom fresh (text.take p).reverse (text.drop p)
      rw [hall, List.flatMap_singleton] at hw
      refine ⟨fresh, stack, p, k, h, hat, ?_⟩
      rw [hall, ← hw]
      rfl
    · obtain ⟨fresh', stack', p', k', hreach, hat', hlast⟩ := ih (h.step hat) (by omega)
      refine ⟨fresh', stack', p', k', hreach, hat', ?_⟩
      rw [hall, List.getLast?_cons, hlast, Option.getD_some]

end Reaches

theorem exists_reaches_last {text : Text} (hne : text ≠ []) :
    ∃ fresh stack p k, Reaches text fresh stack p ∧
      Lexeme.at? text fresh p = some (k, text.length) ∧
      (Lexeme.all text 0).getLast? = some ⟨k, text.drop p⟩ :=
  Reaches.start.exists_last (List.length_pos_iff.2 hne)

section Tails

variable {text : Text}

/-- A text with three dots after it, and then the rest of the line and further lines. -/
def continued (text : Text) (tail : Line) (after : Text) : Text :=
  text ++ "...".toList ++ tail.1 ++ "\n".toList ++ after

theorem continued_eq (text : Text) (tail : Line) (after : Text) :
    continued text tail after = text ++ '.' :: ('.' :: '.' :: (tail.1 ++ '\n' :: after)) := by
  simp [continued]

/-- Where a scan comes to the dots, it passes over the rest of the line. -/
theorem at?_continued (fresh : Bool) (tail : Line) (after : Text) :
    Lexeme.at? (continued text tail after) fresh text.length =
      some (.continuation, text.length + (tail.1.length + 4)) := by
  apply Lexeme.at?_continuation tail (v := after)
  rw [continued_eq, List.drop_left]

/-- One lexeme covers the rest of the line after the dots. -/
theorem exists_reaches_tail (hcode : EndsInCode text) (hdot : text.getLast? ≠ some '.')
    (hinteger : ¬ EndsInInteger text) (tail : Line) (after : Text) :
    ∃ fresh stack p k q, Reaches (continued text tail after) fresh stack p ∧
      Lexeme.at? (continued text tail after) fresh p = some (k, q) ∧
      p ≤ text.length ∧ text.length + 3 + tail.1.length ≤ q := by
  by_cases hne : text = []
  · subst hne
    exact ⟨true, [], 0, _, _, .start, at?_continued true tail after, Nat.le_refl _, by omega⟩
  obtain ⟨fresh, stack, p, k, hreach, hat, hlast⟩ := exists_reaches_last hne
  have hb := Lexeme.at?_bounds hat
  have hreach' := hreach.append_dot hdot hb.1 ('.' :: '.' :: (tail.1 ++ '\n' :: after))
  obtain ⟨k', hat', -⟩ | ⟨-, q', hat', hle⟩ := Lexeme.at?_append_dot hdot hat
    (fun _ => ⟨hcode _ hlast, fun h => hinteger ⟨_, hlast, h⟩⟩)
    ('.' :: '.' :: (tail.1 ++ '\n' :: after))
  · rw [← continued_eq] at hreach' hat'
    exact ⟨false, _, text.length, _, _, hreach'.step hat', at?_continued false tail after,
      Nat.le_refl _, by omega⟩
  · -- the last lexeme is a block comment, which goes on over the rest of the line
    rw [← continued_eq] at hreach' hat'
    have hline : restOfLine ('.' :: '.' :: '.' :: (tail.1 ++ '\n' :: after)) =
        '.' :: '.' :: '.' :: tail.1 :=
      restOfLine_append (u := '.' :: '.' :: '.' :: tail.1) (by simpa using tail.2)
        (by simp [AtLineEnd])
    rw [hline] at hle
    simp only [List.length_cons] at hle
    exact ⟨fresh, stack, p, _, q', hreach', hat', by omega, by omega⟩

/-- Closing brackets, one for each bracket that is open. -/
theorem Silent.closings {stack stack' : List Bracket} {u : Text} (h : Silent [] u stack') :
    Silent stack (List.replicate stack.length ')' ++ u) stack' := by
  induction stack with
  | nil => exact h
  | cons b stack ih => exact .char (k := .closing) (fun _ _ => rfl) rfl ih

/-- Two dots that are left over, and closing brackets after them. -/
theorem Silent.leftover (stack : List Bracket) :
    Silent stack ('.' :: '.' :: (List.replicate stack.length ')' ++ [' '])) [] := by
  have hafter : ∀ v : Text, (List.replicate stack.length ')' ++ [' '] ++ v).head? ≠ some '.' := by
    intro v
    cases stack <;> simp [List.replicate_succ]
  generalize hu : List.replicate stack.length ')' ++ [' '] = u at hafter
  have hread : ∀ before v, Lexeme.read false before '.' (u ++ v) = (.other, 0) ∧
      Lexeme.read false before '.' ('.' :: (u ++ v)) = (.other, 0) := by
    intro before v
    have hv := hafter v
    constructor
    all_goals
      apply Lexeme.read_dot
      cases huv : u ++ v with
      | nil => rfl
      | cons c w =>
        have hc : '.' ≠ c := by simpa [huv, eq_comm] using hv
        simp [after?, hc]
  apply char_after (fun before v => (hread before v).2) rfl
  apply Silent.after
  apply char_after (fun before v => (hread before v).1) rfl
  apply Silent.after
  rw [← hu]
  exact closings (char (fun _ _ => rfl) rfl nil)

/-- A keyword after the brackets is in sight. -/
theorem close_mem_scan_leftover {T v : Text} {stack : List Bracket} {q : Nat}
    (hd : T.drop q = '.' :: '.' :: (List.replicate stack.length ')' ++ [' ']) ++
      ("end".toList ++ '\n' :: v)) :
    ⟨.close, q + stack.length + 3⟩ ∈ scan T false stack q := by
  have hlen : q + stack.length + 3 =
      q + ('.' :: '.' :: (List.replicate stack.length ')' ++ [' '])).length := by
    simp
    omega
  have hbefore : (T.take (q + stack.length + 3)).reverse.head? = some ' ' := by
    rw [hlen, take_add_length hd, List.head?_reverse, List.getLast?_append, ← List.cons_append,
      ← List.cons_append, List.getLast?_concat, Option.some_or]
  have hhere : Keyword.here? (T.take (q + stack.length + 3)).reverse "end".toList ('\n' :: v) =
      some .close := by
    rw [Keyword.here?, hbefore, if_neg (by decide)]
    rfl
  have hend : T.drop (q + stack.length + 3) = "end".toList ++ '\n' :: v :=
    hlen ▸ drop_add_length hd
  have hat : Lexeme.at? T false (q + stack.length + 3) =
      some (.word (some .close), q + stack.length + 3 + "end".toList.length) := by
    rw [Lexeme.at?_word hend (by decide) (notAhead_cons rfl), hhere]
  rw [Silent.leftover stack T q _ hd, ← hlen, scan_step hat]
  exact List.mem_append_left _ (by simp [visible?])

/-- After a whole number a keyword can stand on the rest of the line. -/
theorem exists_mem_all_tail (hinteger : EndsInInteger text) (hdot : text.getLast? ≠ some '.') :
    ∃ tail : Line, ∃ m ∈ all (continued text tail []) 0,
      text.length + 3 ≤ m.start ∧ m.start < text.length + 3 + tail.1.length := by
  obtain ⟨l, hl, -, hdecimal⟩ := hinteger
  have hne : text ≠ [] := by
    rintro rfl
    simp [Lexeme.all] at hl
  obtain ⟨fresh, stack, p, k, hreach, hat, hlast⟩ := exists_reaches_last hne
  obtain rfl := Option.some.inj (hl.symm.trans hlast)
  have hb := Lexeme.at?_bounds hat
  have htail : ∀ c ∈ List.replicate stack.length ')' ++ " end".toList, c ≠ '\n' := by
    rintro c hc rfl
    rcases List.mem_append.1 hc with hc | hc
    · exact absurd (List.eq_of_mem_replicate hc) (by decide)
    · exact absurd hc (by decide)
  -- brackets that are open at the number are closed, so that the keyword is in sight
  refine ⟨⟨_, htail⟩, ⟨.close, text.length + 1 + stack.length + 3⟩, ?_, by simp; omega,
    by simp; omega⟩
  rw [continued_eq]
  have hreach' : Reaches _ false stack _ :=
    (hreach.append_dot hdot hb.1 _).step (Lexeme.at?_integer hb.1 hdecimal fresh
      ('.' :: (List.replicate stack.length ')' ++ " end".toList ++ '\n' :: [])))
  apply hreach'.mem_all
  apply close_mem_scan_leftover (v := [])
  rw [← List.drop_drop, List.drop_left]
  simp

/-- A continuation hides the rest of its line just if no whole number stands in front of its
dots. -/
theorem tails_skipped_iff (text : Text) (hcode : EndsInCode text)
    (hdot : text.getLast? ≠ some '.') :
    (∀ (tail : Line) (after : Text), ∀ m ∈ all (continued text tail after) 0,
        m.start < text.length + 3 ∨ text.length + 3 + tail.1.length ≤ m.start) ↔
      ¬ EndsInInteger text := by
  constructor
  · intro hskip hinteger
    obtain ⟨tail, m, hm, hge, hlt⟩ := exists_mem_all_tail hinteger hdot
    rcases hskip tail [] m hm with h | h <;> omega
  · intro hinteger tail after m hm
    obtain ⟨fresh, stack, p, k, q, hreach, hat, hp, hq⟩ :=
      exists_reaches_tail hcode hdot hinteger tail after
    rcases hreach.le_or_le hat hm with h | h
    · exact .inl (by omega)
    · exact .inr (by omega)

end Tails

/-- A line that ends with a decimal fraction, inside a bracket and after a string. -/
def fractionLine : Text := "x = ['it''s', y' + 2.5".toList

theorem fractionLine_tails_skipped :
    (EndsInCode fractionLine ∧ fractionLine.getLast? ≠ some '.') ∧
      ∀ (tail : Line) (after : Text), ∀ m ∈ all (continued fractionLine tail after) 0,
        m.start < fractionLine.length + 3 ∨
          fractionLine.length + 3 + tail.1.length ≤ m.start := by
  have hlast : (Lexeme.all fractionLine 0).getLast? = some ⟨.number, "2.5".toList⟩ := by
    decide +kernel
  have hcode : EndsInCode fractionLine := endsInCode_of_number hlast
  have hdot : fractionLine.getLast? ≠ some '.' := by decide
  have hinteger : ¬ EndsInInteger fractionLine := by
    rintro ⟨l, hl, -, hdecimal⟩
    obtain rfl := Option.some.inj (hlast.symm.trans hl)
    exact absurd (hdecimal '.' (by decide)) (by decide)
  exact ⟨⟨hcode, hdot⟩, (tails_skipped_iff fractionLine hcode hdot).2 hinteger⟩

/-- A line that ends with a whole number. -/
def integerLine : Text := "x = 5".toList

theorem integerLine_tail_reported :
    (EndsInCode integerLine ∧ integerLine.getLast? ≠ some '.') ∧
      ∃ m ∈ all (continued integerLine (.of " end".toList rfl) []) 0,
        integerLine.length + 3 ≤ m.start ∧
          m.start < integerLine.length + 3 + " end".toList.length := by
  have hlast : (Lexeme.all integerLine 0).getLast? = some ⟨.number, "5".toList⟩ := by
    decide +kernel
  exact ⟨⟨endsInCode_of_number hlast, by decide⟩, by decide +kernel⟩

end Mark
end MatlabOutline
