import Mathlib.Data.Option.Basic
import MatlabOutline.Proofs.KeywordStream

/-! What the reading of a lexeme looks at beyond it. Two texts are alike if they agree up to a sign
after which text may be skipped: a comment sign, a quote or three dots. Words, numbers and the rest
of an `arguments` line are read the same in texts that are alike. -/
namespace MatlabOutline
open Text

theorem Text.drop_length_takeWhile (p : Char → Bool) (t : Text) :
    t.drop (t.takeWhile p).length = t.dropWhile p := by
  have hcut : t.drop 0 = t.takeWhile p ++ t.dropWhile p := List.takeWhile_append_dropWhile.symm
  have hdrop := drop_add_length hcut
  rwa [Nat.zero_add] at hdrop

/-- Two lines decide the same about an `arguments` block if they are related in a way that attributes
and the first character after blanks respect. -/
theorem Keyword.opensArguments_of_rel {R : Text → Text → Prop} {t u : Text}
    (hline : R ((restOfLine t).dropWhile isBlank) ((restOfLine u).dropWhile isBlank))
    (hafter : ∀ w ∈ ["(Input)".toList, "(Output)".toList, "(Repeating)".toList],
      ∀ x y, R x y → Option.Rel R (after? w x) (after? w y))
    (hhead : ∀ x y, R x y →
      (x.dropWhile isTrailingBlank).head? = (y.dropWhile isTrailingBlank).head?) :
    opensArguments t = opensArguments u := by
  generalize hx : (restOfLine t).dropWhile isBlank = x at hline
  generalize hy : (restOfLine u).dropWhile isBlank = y at hline
  have hfound : ∀ ws : List Text,
      (∀ w ∈ ws, ∀ x y, R x y → Option.Rel R (after? w x) (after? w y)) →
        R ((ws.findSome? fun w => after? w x).getD x)
          ((ws.findSome? fun w => after? w y).getD y) := by
    intro ws hws
    induction ws with
    | nil => exact hline
    | cons w ws ih =>
      obtain ⟨hw, hws⟩ := List.forall_mem_cons.1 hws
      have hrel := hw x y hline
      simp only [List.findSome?_cons]
      generalize after? w x = a, after? w y = b at hrel
      cases hrel with
      | none => exact ih hws
      | some h => exact h
  have htail := hhead _ _ (hfound _ hafter)
  simp only [opensArguments, hx, hy, htail]

namespace Lexeme

/-- The signs that open a comment, a string or a continuation. -/
def skipSigns : List Text := [['%'], ['\''], ['"'], ['.', '.', '.']]

/-- Two texts that are the same altogether, or up to and with one of the signs. -/
inductive Alike : Text → Text → Prop
  | nil : Alike [] []
  | cons {t u : Text} (c : Char) (h : Alike t u) : Alike (c :: t) (c :: u)
  | skip {s t u : Text} (h : s ∈ skipSigns) : Alike (s ++ t) (s ++ u)

/-- A class of characters without those that the signs consist of. -/
def AvoidsSigns (p : Char → Bool) : Prop := ∀ c ∈ ['%', '\'', '"', '.'], p c = false

instance (p : Char → Bool) : Decidable (AvoidsSigns p) :=
  List.decidableBAll (p · = false) ['%', '\'', '"', '.']

theorem avoidsSigns_isWord : AvoidsSigns isWord := by decide
theorem avoidsSigns_isDecimal : AvoidsSigns isDecimal := by decide
theorem avoidsSigns_isBlank : AvoidsSigns isBlank := by decide
theorem avoidsSigns_isTrailingBlank : AvoidsSigns isTrailingBlank := by decide

/-- A sign begins with a character that the class avoids. -/
theorem AvoidsSigns.head {p : Char → Bool} (hp : AvoidsSigns p) {s : Text} (hs : s ∈ skipSigns) :
    ∃ c r, s = c :: r ∧ p c = false := by
  simp only [skipSigns, List.mem_cons, List.not_mem_nil, or_false] at hs
  rcases hs with rfl | rfl | rfl | rfl
  all_goals exact ⟨_, _, rfl, hp _ (by simp)⟩

namespace Alike

variable {t u : Text} {p : Char → Bool}

theorem append (w : Text) (h : Alike t u) : Alike (w ++ t) (w ++ u) := by
  induction w with
  | nil => exact h
  | cons c w ih => exact .cons c ih

theorem head? (h : Alike t u) : t.head? = u.head? := by
  cases h with
  | nil => rfl
  | cons => rfl
  | skip hs =>
    obtain ⟨c, r, rfl, -⟩ := avoidsSigns_isWord.head hs
    rfl

theorem takeWhile (hp : AvoidsSigns p) (h : Alike t u) : t.takeWhile p = u.takeWhile p := by
  induction h with
  | nil => rfl
  | cons c _ ih => simp only [List.takeWhile_cons, ih]
  | skip hs =>
    obtain ⟨c, r, rfl, hc⟩ := hp.head hs
    simp [hc]

theorem dropWhile (hp : AvoidsSigns p) (h : Alike t u) :
    Alike (t.dropWhile p) (u.dropWhile p) := by
  induction h with
  | nil => exact .nil
  | @cons t u c h ih =>
    rw [List.dropWhile_cons, List.dropWhile_cons]
    split_ifs
    · exact ih
    · exact .cons c h
  | @skip s t u hs =>
    have hsign := Alike.skip (t := t) (u := u) hs
    obtain ⟨c, r, rfl, hc⟩ := hp.head hs
    simpa [hc] using hsign

theorem restOfLine (h : Alike t u) : Alike (restOfLine t) (restOfLine u) := by
  induction h with
  | nil => exact .nil
  | @cons t u c h ih =>
    rw [Text.restOfLine, Text.restOfLine, List.takeWhile_cons, List.takeWhile_cons]
    split_ifs
    · exact .cons c ih
    · exact .nil
  | @skip s t u hs =>
    have hline : ∀ c ∈ s, (c != '\n') = true := by
      simp only [skipSigns, List.mem_cons, List.not_mem_nil, or_false] at hs
      rcases hs with rfl | rfl | rfl | rfl <;> exact List.all_eq_true.1 rfl
    rw [Text.restOfLine, Text.restOfLine, List.takeWhile_append_of_pos hline,
      List.takeWhile_append_of_pos hline]
    exact .skip hs

/-- A word without any of the signs is found in both texts or in none. -/
theorem after? {w : Text} (hw : AvoidsSigns (w.contains ·)) (h : Alike t u) :
    Option.Rel Alike (after? w t) (after? w u) := by
  induction w generalizing t u with
  | nil => exact .some h
  | cons a w ih =>
    have htail : AvoidsSigns (w.contains ·) := by
      intro c hc
      have := hw c hc
      simp only [List.contains_cons, Bool.or_eq_false_iff] at this
      exact this.2
    cases h with
    | nil => exact .none
    | cons c h =>
      rw [Text.after?, Text.after?]
      split_ifs
      · exact ih htail h
      · exact .none
    | skip hs =>
      obtain ⟨c, r, rfl, hc⟩ := hw.head hs
      have hne : a ≠ c := by
        rintro rfl
        simp at hc
      rw [List.cons_append, List.cons_append, Text.after?, Text.after?, if_neg hne, if_neg hne]
      exact .none

/-- The rest of the line decides the same about an `arguments` block. -/
theorem opensArguments (h : Alike t u) :
    Keyword.opensArguments t = Keyword.opensArguments u := by
  have hattributes : ∀ w ∈ ["(Input)".toList, "(Output)".toList, "(Repeating)".toList],
      AvoidsSigns (w.contains ·) := by decide
  apply Keyword.opensArguments_of_rel (h.restOfLine.dropWhile avoidsSigns_isBlank)
  · exact fun w hw _ _ hxy => hxy.after? (hattributes w hw)
  · exact fun _ _ hxy => (hxy.dropWhile avoidsSigns_isTrailingBlank).head?

/-- Three dots stand at the head of both texts or of none. -/
theorem dots (c : Char) (h : Alike t u) :
    (Text.after? "...".toList (c :: t)).isSome = (Text.after? "...".toList (c :: u)).isSome := by
  have hone : ∀ v : Text, (Text.after? ['.'] v).isSome = (v.head? == some '.') := by
    intro v
    cases v with
    | nil => rfl
    | cons d v =>
      rw [Text.after?]
      split_ifs with hd
      · simp [Text.after?, ← hd]
      · simp [Ne.symm hd]
  change (if '.' = c then Text.after? ['.', '.'] t else none).isSome =
    (if '.' = c then Text.after? ['.', '.'] u else none).isSome
  split_ifs
  · cases h with
    | nil => rfl
    | @cons t u d h =>
      change (if '.' = d then Text.after? ['.'] t else none).isSome =
        (if '.' = d then Text.after? ['.'] u else none).isSome
      split_ifs
      · rw [hone, hone, h.head?]
      · rfl
    | skip hs =>
      simp only [skipSigns, List.mem_cons, List.not_mem_nil, or_false] at hs
      rcases hs with rfl | rfl | rfl | rfl <;> rfl
  · rfl

end Alike

theorem fraction_of_ne {c : Char} (hc : c ≠ '.') (t : Text) : fraction (c :: t) = [] := by
  unfold fraction
  split
  · rename_i heq
    exact absurd (List.cons.inj heq).1 hc
  · rfl

/-- The number of characters of a number after its digits and its fraction. -/
def afterFraction (t : Text) : Nat :=
  (exponent t).length + (imaginaryUnit (t.drop (exponent t).length)).length

/-- The number of characters of a number after the digits before its point. -/
def afterDigits (t : Text) : Nat :=
  (fraction t).length + afterFraction (t.drop (fraction t).length)

theorem numberTail_eq (t : Text) :
    numberTail t = (t.takeWhile isDecimal).length + afterDigits (t.dropWhile isDecimal) := by
  have hdrop := drop_length_takeWhile isDecimal t
  rw [numberTail, afterDigits, afterFraction, ← hdrop]
  simp only [List.drop_drop]
  omega

namespace Alike

variable {t u : Text}

theorem drop_sign (h : Alike t u) : sign t = sign u ∧
    Alike (t.drop (sign t).length) (u.drop (sign u).length) := by
  cases h with
  | nil => exact ⟨rfl, .nil⟩
  | cons c h =>
    refine ⟨rfl, ?_⟩
    rw [sign, sign]
    split_ifs
    · exact h
    · exact .cons c h
  | @skip s t u hs =>
    have hskip := Alike.skip (t := t) (u := u) hs
    simp only [skipSigns, List.mem_cons, List.not_mem_nil, or_false] at hs
    rcases hs with rfl | rfl | rfl | rfl <;> exact ⟨rfl, hskip⟩

theorem drop_exponent (h : Alike t u) : exponent t = exponent u ∧
    Alike (t.drop (exponent t).length) (u.drop (exponent u).length) := by
  cases h with
  | nil => exact ⟨rfl, .nil⟩
  | @cons t u c h =>
    obtain ⟨hsign, hrest⟩ := h.drop_sign
    have hdigits := hrest.takeWhile avoidsSigns_isDecimal
    have hend := hrest.dropWhile avoidsSigns_isDecimal
    rw [← drop_length_takeWhile, ← drop_length_takeWhile, List.drop_drop, List.drop_drop] at hend
    rw [exponent, exponent]
    split_ifs
    · simp only [← hdigits]
      split_ifs
      · exact ⟨rfl, .cons c h⟩
      · refine ⟨by rw [hsign], ?_⟩
        simpa [hdigits] using hend
    · exact ⟨rfl, .cons c h⟩
  | @skip s t u hs =>
    have hskip := Alike.skip (t := t) (u := u) hs
    simp only [skipSigns, List.mem_cons, List.not_mem_nil, or_false] at hs
    rcases hs with rfl | rfl | rfl | rfl <;> exact ⟨rfl, hskip⟩

theorem afterFraction (h : Alike t u) : Lexeme.afterFraction t = Lexeme.afterFraction u := by
  obtain ⟨heq, hrest⟩ := h.drop_exponent
  have hunit : ∀ {v w : Text}, Alike v w → imaginaryUnit v = imaginaryUnit w := by
    intro v w hvw
    have hhead : ∀ v : Text, imaginaryUnit v = imaginaryUnit v.head?.toList := by
      intro v
      cases v <;> rfl
    rw [hhead, hhead w, hvw.head?]
  rw [Lexeme.afterFraction, Lexeme.afterFraction, hunit hrest, heq]

theorem afterDigits (h : Alike t u) : Lexeme.afterDigits t = Lexeme.afterDigits u := by
  cases h with
  | nil => rfl
  | @cons t u c h =>
    by_cases hc : c = '.'
    · subst hc
      have hdigits := h.takeWhile avoidsSigns_isDecimal
      have hend := h.dropWhile avoidsSigns_isDecimal
      rw [← drop_length_takeWhile, ← drop_length_takeWhile] at hend
      have hpoint : ∀ v : Text, Lexeme.afterDigits ('.' :: v) =
          (v.takeWhile isDecimal).length + 1 +
            Lexeme.afterFraction (v.drop (v.takeWhile isDecimal).length) := fun v => rfl
      rw [hpoint, hpoint, hend.afterFraction, hdigits]
    · rw [Lexeme.afterDigits, Lexeme.afterDigits, fraction_of_ne hc, fraction_of_ne hc]
      exact congrArg (0 + ·) (Alike.cons c h).afterFraction
  | skip hs =>
    simp only [skipSigns, List.mem_cons, List.not_mem_nil, or_false] at hs
    rcases hs with rfl | rfl | rfl | rfl <;> rfl

/-- A number ends at the same place. -/
theorem numberTail (h : Alike t u) : Lexeme.numberTail t = Lexeme.numberTail u := by
  rw [numberTail_eq, numberTail_eq, h.takeWhile avoidsSigns_isDecimal,
    (h.dropWhile avoidsSigns_isDecimal).afterDigits]

end Alike

/-- Two texts after which everything is read the same: they end with the same character, and blanks
alone stand on the last line of both or of neither. Both are given in reverse order. -/
structure SameContext (before before' : Text) : Prop where
  head : before.head? = before'.head?
  blanks : onlyBlanksBefore before = onlyBlanksBefore before'

theorem SameContext.refl (before : Text) : SameContext before before := ⟨rfl, rfl⟩

theorem SameContext.append {before before' : Text} (h : SameContext before before') (u : Text) :
    SameContext (u ++ before) (u ++ before') := by
  induction u with
  | nil => exact h
  | cons c u ih =>
    refine ⟨rfl, ?_⟩
    have hblanks := ih.blanks
    rw [onlyBlanksBefore, onlyBlanksBefore, restOfLine, restOfLine] at hblanks ⊢
    simp only [List.cons_append, List.takeWhile_cons]
    split_ifs
    · rw [List.all_cons, List.all_cons, hblanks]
    · rfl

/-- At the start of a line nothing before it counts. -/
theorem SameContext.newline (before before' : Text) :
    SameContext ('\n' :: before) ('\n' :: before') := ⟨rfl, rfl⟩

section Readings

variable {fresh : Bool} {before before' t u : Text} {c : Char}

theorem here?_of_alike (hctx : SameContext before before') (h : Alike t u) (w : Text) :
    Keyword.here? before' w u = Keyword.here? before w t := by
  rw [Keyword.here?, Keyword.here?, hctx.head, hctx.blanks, h.opensArguments]

theorem opensString_of_sameContext (hctx : SameContext before before') (c : Char) :
    opensString fresh before' c = opensString fresh before c := by
  rw [opensString, opensString, hctx.head]

theorem opensBlock_of_sameContext (hctx : SameContext before before') (t : Text) :
    opensBlock before' t = opensBlock before t := by
  unfold opensBlock
  rw [hctx.blanks]

/-- A lexeme that skips nothing is read the same in texts that are alike. -/
theorem read_of_alike (hctx : SameContext before before') (h : Alike t u) (hc : c ≠ '%')
    (hdots : (after? "...".toList (c :: t)).isSome = false)
    (hstring : opensString fresh before c = false) :
    read fresh before' c u = read fresh before c t := by
  have hdots' := hdots
  rw [h.dots] at hdots'
  have hword := h.takeWhile avoidsSigns_isWord
  have hhere := here?_of_alike hctx (h.dropWhile avoidsSigns_isWord)
  simp only [read, hc, hdots, hdots', hstring, opensString_of_sameContext hctx, hword, hhere,
    h.numberTail, Bool.false_eq_true, if_false]

theorem read_lineComment (h : opensBlock before t = false) :
    read fresh before '%' t = (.lineComment, (restOfLine t).length) := by
  simp [read, h]

theorem read_blockComment (h : opensBlock before t = true) :
    read fresh before '%' t = (.blockComment, blockLength t) := by
  simp [read, h]

theorem read_continuation :
    read fresh before '.' ('.' :: '.' :: t) = (.continuation, (restOfLine t).length + 3) := rfl

theorem read_string (hc : c = '"' ∨ c = '\'') (h : opensString fresh before c = true) :
    read fresh before c t = (.string, stringTail c t) := by
  have hdots : after? "...".toList (c :: t) = none := by rcases hc with rfl | rfl <;> rfl
  have hne : c ≠ '\n' ∧ c ≠ '%' := by rcases hc with rfl | rfl <;> decide
  simp only [read, hne, hdots, h]
  rfl

end Readings

/-- The kinds of lexemes of which a part is skipped. -/
def Kind.isSkipped : Kind → Bool
  | .lineComment | .blockComment | .continuation | .string => true
  | _ => false

/-- The ways to read a lexeme. -/
inductive Reads (fresh : Bool) (before : Text) : Char → Text → Kind × Nat → Prop
  | newline {t : Text} : Reads fresh before '\n' t (.newline, 0)
  | lineComment {t : Text} (h : opensBlock before t = false) :
      Reads fresh before '%' t (.lineComment, (restOfLine t).length)
  | blockComment {t : Text} (h : opensBlock before t = true) :
      Reads fresh before '%' t (.blockComment, blockLength t)
  | continuation {t : Text} :
      Reads fresh before '.' ('.' :: '.' :: t) (.continuation, (restOfLine t).length + 3)
  | string {c : Char} {t : Text} (hc : c = '"' ∨ c = '\'')
      (h : opensString fresh before c = true) : Reads fresh before c t (.string, stringTail c t)
  | plain {c : Char} {t : Text} (hc : c ≠ '\n' ∧ c ≠ '%')
      (hdots : (after? "...".toList (c :: t)).isSome = false)
      (hstring : opensString fresh before c = false)
      (hkind : (read fresh before c t).1.isSkipped = false) :
      Reads fresh before c t (read fresh before c t)

theorem reads_read (fresh : Bool) (before : Text) (c : Char) (t : Text) :
    Reads fresh before c t (read fresh before c t) := by
  by_cases hn : c = '\n'
  · subst hn
    exact .newline
  by_cases hp : c = '%'
  · subst hp
    cases ho : opensBlock before t with
    | true => rw [read_blockComment ho]; exact .blockComment ho
    | false => rw [read_lineComment ho]; exact .lineComment ho
  cases hdots : (after? "...".toList (c :: t)).isSome with
  | true =>
    obtain ⟨r, hr⟩ := Option.isSome_iff_exists.1 hdots
    obtain ⟨rfl, rfl⟩ := List.cons.inj (after?_eq_some_iff.1 hr)
    exact .continuation
  | false =>
    cases hs : opensString fresh before c with
    | true =>
      have hc : c = '"' ∨ c = '\'' := by
        simp only [opensString, Bool.or_eq_true, Bool.and_eq_true, beq_iff_eq] at hs
        exact hs.imp_right And.left
      rw [read_string hc hs]
      exact .string hc hs
    | false =>
      refine .plain ⟨hn, hp⟩ hdots hs ?_
      simp only [read, hn, hp, hdots, hs, Bool.false_eq_true, if_false]
      repeat' split
      all_goals rfl

end Lexeme
end MatlabOutline
