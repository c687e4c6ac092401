import Mathlib.Data.List.Infix
import MatlabOutline.Proofs.DotsAhead
import MatlabOutline.Proofs.DetectedDialects

/-! What follows the `end` of a block has no influence on it. A reading looks beyond the lexeme it
takes: for one more quote, for a digit after an exponent, for the rest of an `arguments` line. None
of this reaches past the `end` of a block that is still open, so two texts that agree up to that
`end` hold the same marks up to it. -/
namespace MatlabOutline
open Text

namespace Text

section Cuts

variable {p : Char → Bool} {v v' : Text}

theorem take_of_take {m n : Nat} (h : v.take n = v'.take n) (hm : m ≤ n) : v.take m = v'.take m := by
  rw [← Nat.min_eq_left hm, ← List.take_take, h, List.take_take]

theorem take_append_of_take {m n : Nat} (h : v.take n = v'.take n) (hm : m ≤ n) (w : Text) :
    (w ++ v).take m = (w ++ v').take m := by
  rw [List.take_append, List.take_append, take_of_take h (Nat.sub_le_of_le_add (by omega))]

theorem slice_append_drop {t : Text} {m n : Nat} (h : m ≤ n) :
    slice t m n ++ t.drop n = t.drop m := by
  have hdrop : t.drop n = (t.drop m).drop (n - m) := by
    rw [List.drop_drop, Nat.add_sub_cancel' h]
  rw [slice, List.drop_take, hdrop, List.take_append_drop]

/-- A piece of one text stands in every text that agrees with it up to the end of the piece. -/
theorem drop_of_take {t t' u : Text} {n : Nat} (hd : t.drop n = u ++ v)
    (h : t'.take (n + u.length) = t.take (n + u.length)) :
    t'.drop n = u ++ t'.drop (n + u.length) := by
  rw [← slice_append_drop (t := t') (Nat.le_add_right n u.length), slice, h, ← slice,
    slice_of_drop hd]

theorem head?_of_take {n : Nat} (h : v.take (n + 1) = v'.take (n + 1)) : v.head? = v'.head? := by
  simpa [List.head?_take] using congrArg List.head? h

theorem NotAhead.of_head? (hv : NotAhead p v) (h : v.head? = v'.head?) : NotAhead p v' := by
  rwa [NotAhead, ← h]

/-- A run that takes as many characters as the first part of a text has is that part. -/
theorem run_of_length_takeWhile {w : Text} (h : ((w ++ v).takeWhile p).length = w.length) :
    (∀ c ∈ w, p c = true) ∧ NotAhead p v := by
  induction w with
  | nil =>
    refine ⟨by simp, ?_⟩
    cases v with
    | nil => simp [NotAhead]
    | cons c v =>
      apply notAhead_cons
      simpa [List.takeWhile_cons] using h
  | cons c w ih =>
    rw [List.cons_append, List.takeWhile_cons] at h
    split_ifs at h with hc
    obtain ⟨hw, hv⟩ := ih (by simpa using h)
    exact ⟨List.forall_mem_cons.2 ⟨hc, hw⟩, hv⟩

end Cuts

/-- Two texts that are the same altogether, or up to and with a word. -/
inductive SameThrough (w : Text) : Text → Text → Prop
  | same (t : Text) : SameThrough w t t
  | cons {t u : Text} (c : Char) (h : SameThrough w t u) : SameThrough w (c :: t) (c :: u)
  | word (t u : Text) : SameThrough w (w ++ t) (w ++ u)

namespace SameThrough

variable {w t u : Text}

theorem append (x : Text) (h : SameThrough w t u) : SameThrough w (x ++ t) (x ++ u) := by
  induction x with
  | nil => exact h
  | cons c x ih => exact .cons c ih

theorem take {n : Nat} (hn : n ≤ w.length) (h : SameThrough w t u) : t.take n = u.take n := by
  induction h generalizing n with
  | same => rfl
  | cons c _ ih =>
    cases n with
    | zero => rfl
    | succ n => rw [List.take_succ_cons, List.take_succ_cons, ih (by omega)]
  | word => rw [List.take_append_of_le_length hn, List.take_append_of_le_length hn]

theorem dropWhile {p : Char → Bool} (hp : ∀ v, NotAhead p (w ++ v)) (h : SameThrough w t u) :
    SameThrough w (t.dropWhile p) (u.dropWhile p) := by
  induction h with
  | same => exact .same _
  | cons c h ih =>
    rw [List.dropWhile_cons, List.dropWhile_cons]
    split_ifs
    · exact ih
    · exact .cons c h
  | word t u =>
    have hrun : ∀ v, (w ++ v).dropWhile p = w ++ v :=
      fun v => dropWhile_run (u := []) (by simp) (hp v)
    rw [hrun, hrun]
    exact .word t u

theorem restOfLine (hw : '\n' ∉ w) (h : SameThrough w t u) :
    SameThrough w (restOfLine t) (restOfLine u) := by
  induction h with
  | same => exact .same _
  | cons c h ih =>
    rw [Text.restOfLine, Text.restOfLine, List.takeWhile_cons, List.takeWhile_cons]
    split_ifs
    · exact .cons c ih
    · exact .same []
  | word =>
    have hline : ∀ c ∈ w, (c != '\n') = true := by
      intro c hc
      simpa using ne_of_mem_of_not_mem hc hw
    rw [Text.restOfLine, Text.restOfLine, List.takeWhile_append_of_pos hline,
      List.takeWhile_append_of_pos hline]
    exact .word _ _

/-- A text that does not overlap with the word stands at the head of both texts or of none. -/
theorem after? {a : Text} (ha : ∀ s, s <:+ a → s ≠ [] → ¬ s <+: w ∧ ¬ w <+: s)
    (h : SameThrough w t u) : Option.Rel (SameThrough w) (after? a t) (after? a u) := by
  induction a generalizing t u with
  | nil => exact .some h
  | cons b a ih =>
    have htail : ∀ s, s <:+ a → s ≠ [] → ¬ s <+: w ∧ ¬ w <+: s :=
      fun s hs => ha s (hs.trans (List.suffix_cons b a))
    cases h with
    | same =>
      cases Text.after? (b :: a) t with
      | none => exact .none
      | some r => exact .some (.same r)
    | cons c h =>
      rw [Text.after?, Text.after?]
      split_ifs
      · exact ih htail h
      · exact .none
    | word =>
      obtain ⟨hshort, hlong⟩ := ha _ List.suffix_rfl (by simp)
      have hnone : ∀ v, Text.after? (b :: a) (w ++ v) = none := by
        intro v
        rw [Option.eq_none_iff_forall_ne_some]
        intro r hr
        have ha : b :: a <+: w ++ v := ⟨r, (after?_eq_some_iff.1 hr).symm⟩
        exact (List.prefix_or_prefix_of_prefix ha (List.prefix_append w v)).elim hshort hlong
      rw [hnone, hnone]
      exact .none

end SameThrough

end Text

/-- Whether an `arguments` block opens is decided before the next `end`. -/
theorem Keyword.opensArguments_of_sameThrough {t u : Text} (h : SameThrough close.word t u) :
    opensArguments t = opensArguments u := by
  have hattributes : ∀ a ∈ ["(Input)".toList, "(Output)".toList, "(Repeating)".toList],
      ∀ s ∈ a.tails, s ≠ [] → ¬ s <+: close.word ∧ ¬ close.word <+: s := by decide
  apply opensArguments_of_rel (R := SameThrough close.word)
  · exact (h.restOfLine (by decide)).dropWhile fun _ => notAhead_cons (by decide)
  · exact fun a ha _ _ hxy => hxy.after? fun s hs => hattributes a ha s ((List.mem_tails s a).2 hs)
  · intro x y hxy
    have hdrop := hxy.dropWhile (p := isTrailingBlank) fun _ => notAhead_cons (by decide)
    exact head?_of_take (hdrop.take (n := 1) (by decide))

theorem Keyword.here?_close (before rest : Text) :
    here? before close.word rest = if before.head? = some '.' then none else some close := by
  simp [here?]

theorem Keyword.here?_of_sameThrough {t u : Text} (h : SameThrough close.word t u)
    (before w : Text) : here? before w t = here? before w u := by
  rw [here?, here?, opensArguments_of_sameThrough h]

namespace Lexeme

section Numbers

/-- A reading that looks at no more than three characters after what it takes. -/
def ReadsLocally (x : Text → Text) : Prop :=
  ∀ w v v', v.take 3 = v'.take 3 → x (w ++ v) = w → x (w ++ v') = w

variable {x y : Text → Text}

theorem ReadsLocally.andThen (hx : ReadsLocally x) (hy : ReadsLocally y) :
    ReadsLocally fun t => x t ++ y (t.drop (x t).length) := by
  intro w v v' hv hw
  dsimp only at hw
  generalize ha : x (w ++ v) = a at hw
  obtain ⟨b, rfl⟩ : a <+: w := ⟨_, hw⟩
  rw [List.append_assoc] at ha
  have hb : y (b ++ v) = b := by
    rw [List.append_assoc, List.drop_left] at hw
    exact List.append_cancel_left hw
  have ha' := hx a _ _ (take_append_of_take hv (Nat.le_refl 3) b) ha
  simp only [List.append_assoc, ha', List.drop_left, hy b v v' hv hb]

theorem readsLocally_nothing : ReadsLocally fun _ => [] := fun _ _ _ _ h => h

theorem readsLocally_digits : ReadsLocally fun t => t.takeWhile isDecimal := by
  intro w v v' hv hw
  obtain ⟨hdigits, hend⟩ := run_of_length_takeWhile (congrArg List.length hw)
  exact takeWhile_run hdigits (hend.of_head? (head?_of_take hv))

theorem ReadsLocally.headed {p : Char → Bool} {q : Text → Bool} (hx : Headed x p q y)
    (hy : ReadsLocally y) (hq : ∀ t u : Text, t.take 2 = u.take 2 → q t = q u) :
    ReadsLocally x := by
  intro w v v' hv hw
  cases w with
  | nil =>
    rcases v with _ | ⟨c, v⟩
    · obtain rfl : v' = [] := by simpa using hv.symm
      exact hx.nil
    · obtain ⟨u, rfl⟩ := List.head?_eq_some_iff.1 (head?_of_take hv).symm
      have hahead := hq v u (List.cons.inj hv).2
      rw [List.nil_append, hx.cons] at hw ⊢
      rw [← hahead]
      split_ifs at hw ⊢
      rfl
  | cons c w =>
    have hahead := hq _ _ (take_append_of_take hv (by decide : 2 ≤ 3) w)
    rw [List.cons_append, hx.cons] at hw ⊢
    rw [← hahead]
    split_ifs at hw ⊢ with hpq
    rw [hy w v v' hv (List.cons.inj hw).2]

theorem readsLocally_sign : ReadsLocally sign :=
  readsLocally_nothing.headed headed_sign fun _ _ _ => rfl

theorem readsLocally_imaginaryUnit : ReadsLocally imaginaryUnit :=
  readsLocally_nothing.headed headed_imaginaryUnit fun _ _ _ => rfl

theorem readsLocally_fraction : ReadsLocally fraction :=
  readsLocally_digits.headed headed_fraction fun _ _ _ => rfl

theorem readsLocally_exponent : ReadsLocally exponent := by
  apply (readsLocally_sign.andThen readsLocally_digits).headed headed_exponent
  -- a sign and one digit decide whether there is an exponent
  have hahead : ∀ t : Text, ((t.drop (sign t).length).takeWhile isDecimal).isEmpty =
      (((t.take 2).drop (sign (t.take 2)).length).takeWhile isDecimal).isEmpty := by
    intro t
    rcases t with _ | ⟨c, _ | ⟨d, t⟩⟩
    · rfl
    · rfl
    · simp only [List.take_succ_cons, sign]
      split_ifs
      · cases hd : isDecimal d <;> simp [hd]
      · cases hc : isDecimal c <;> simp [hc]
  intro t u htu
  rw [hahead t, htu, ← hahead]

theorem numberTail_of_take {w v v' : Text} (hv : v.take 3 = v'.take 3)
    (h : numberTail (w ++ v) = w.length) : numberTail (w ++ v') = w.length := by
  have hlocal : ReadsLocally numberText :=
    ((readsLocally_digits.andThen readsLocally_fraction).andThen readsLocally_exponent).andThen
      readsLocally_imaginaryUnit
  have hw : numberText (w ++ v) = w := by
    rw [(staysOnLine_numberText _).1, length_numberText, h, List.take_left]
  rw [← length_numberText, hlocal w v v' hv hw]

end Numbers

section Strings

variable {quote : Char} {w v v' : Text}

/-- With more text after it a string does not get shorter. -/
theorem stringTail_le_append (quote : Char) (t v : Text) :
    stringTail quote t ≤ stringTail quote (t ++ v) := by
  fun_induction stringTail quote t with
  | case1 => exact Nat.zero_le _
  | case2 => exact Nat.zero_le _
  | case3 c hn =>
    cases v with
    | nil => simp [stringTail, hn]
    | cons d v =>
      rw [List.singleton_append, stringTail, if_neg hn]
      split_ifs <;> omega
  | case4 => exact Nat.zero_le _
  | case5 t hn ih =>
    rw [List.cons_append, List.cons_append, stringTail, if_neg hn, if_pos rfl, if_pos rfl]
    omega
  | case6 d t hd hn =>
    rw [List.cons_append, List.cons_append, stringTail, if_neg hn, if_pos rfl, if_neg hd]
  | case7 c d t hn hc ih =>
    rw [List.cons_append, stringTail_cons hc hn]
    omega

/-- The one character after a string decides that it ends there. -/
theorem stringTail_of_head? (hv : v.head? = v'.head?)
    (h : stringTail quote (w ++ v) = w.length) : stringTail quote (w ++ v') = w.length := by
  rcases v with _ | ⟨c, v⟩
  · rw [List.head?_eq_none_iff.1 hv.symm]
    exact h
  · obtain ⟨u, rfl⟩ := List.head?_eq_some_iff.1 hv.symm
    have hcut : ∀ z, w ++ c :: z = w ++ [c] ++ z := by simp
    have hlt : stringTail quote (w ++ [c]) < (w ++ [c]).length := by
      have hle := stringTail_le_append quote (w ++ [c]) v
      rw [← hcut, h] at hle
      rw [List.length_append, List.length_singleton]
      omega
    rw [hcut, stringTail_append hlt] at h ⊢
    exact h

end Strings

section Blocks

variable {w v v' : Text}

/-- A block comment that ends before a newline does so whatever the lines after it are. -/
theorem blockLength_newline {z : Text} (h : blockLength (w ++ '\n' :: z) = w.length) (z' : Text) :
    blockLength (w ++ '\n' :: z') = w.length := by
  have hlines : ∀ z, lines (w ++ '\n' :: z) = lines w ++ lines z :=
    splitWhere_append_cons (by decide) w
  have hlength : ∀ z, blockLength (w ++ '\n' :: z) =
      (restOfLine w).length + blockTail ((lines w).tail ++ lines z) := by
    intro z
    have hline : restOfLine (w ++ '\n' :: z) = restOfLine w :=
      takeWhile_append_notAhead (notAhead_cons (by decide)) w
    rw [blockLength, hline, hlines, lines_eq_cons w]
    rfl
  have hcloses : ∃ l ∈ (lines w).tail, closesBlock l = true := by
    by_contra hnone
    have hopen : ∀ l ∈ (lines w).tail, closesBlock l = false := by simpa using hnone
    have hw := congrArg List.length (eq_restOfLine_append w)
    rw [List.length_append] at hw
    rw [hlength, blockTail_append hopen, lines_eq_cons z, blockTail] at h
    omega
  rw [hlength, blockTail_append_of_closes hcloses] at h ⊢
  exact h

theorem atLineEnd_of_blockLength (h : blockLength (w ++ v) = w.length) : AtLineEnd v := by
  have hend := atLineEnd_drop_blockLength (w ++ v)
  rwa [h, List.drop_left] at hend

theorem blockLength_of_head? (hv : v.head? = v'.head?) (h : blockLength (w ++ v) = w.length) :
    blockLength (w ++ v') = w.length := by
  rcases v with _ | ⟨c, v⟩
  · rw [List.head?_eq_none_iff.1 hv.symm]
    exact h
  · obtain rfl := atLineEnd_of_blockLength h c rfl
    obtain ⟨u, rfl⟩ := List.head?_eq_some_iff.1 hv.symm
    exact blockLength_newline h u

end Blocks

section Readings

variable {fresh : Bool} {before w v v' : Text} {c : Char} {k : Kind}

theorem restOfLine_of_head? (hv : v.head? = v'.head?)
    (h : (restOfLine (w ++ v)).length = w.length) :
    restOfLine (w ++ v) = w ∧ restOfLine (w ++ v') = w := by
  obtain ⟨hw, hend⟩ := run_of_length_takeWhile h
  exact ⟨takeWhile_run hw hend, takeWhile_run hw (hend.of_head? hv)⟩

/-- Three dots are seen within two more characters. -/
theorem dots_of_take {t u : Text} (h : t.take 2 = u.take 2) :
    (after? "...".toList (c :: t)).isSome = (after? "...".toList (c :: u)).isSome := by
  have hahead : ∀ t : Text, (after? "...".toList (c :: t)).isSome =
      (after? "...".toList (c :: t.take 2)).isSome := by
    intro t
    rcases t with _ | ⟨d, _ | ⟨e, t⟩⟩
    · rfl
    · rfl
    · have hdots : "...".toList = ['.', '.', '.'] := rfl
      simp only [hdots, after?, List.take_succ_cons]
      split_ifs <;> rfl
  rw [hahead t, h, ← hahead]

/-- The newline after the dots belongs to the lexeme, and nothing after it is looked at. -/
theorem read_continuation_local {t : Text} (ht : w ++ v = '.' :: '.' :: t)
    (hlength : (restOfLine t).length + 3 = w.length) :
    read fresh before '.' (w ++ v') = (.continuation, w.length) := by
  rcases w with _ | ⟨a, _ | ⟨b, w⟩⟩
  · simp at hlength
  · simp at hlength
  · simp only [List.cons_append, List.cons.injEq] at ht
    obtain ⟨rfl, rfl, rfl⟩ := ht
    have hmem : '\n' ∈ w := by
      by_contra hnot
      have hline : restOfLine (w ++ v) = w ++ restOfLine v := by
        apply List.takeWhile_append_of_pos
        intro d hd
        simpa using ne_of_mem_of_not_mem hd hnot
      rw [hline, List.length_append, List.length_cons, List.length_cons] at hlength
      omega
    rw [restOfLine_append_of_mem hmem] at hlength
    rw [List.cons_append, List.cons_append, read_continuation, restOfLine_append_of_mem hmem,
      hlength]

/-- A number looks at three more characters, and the rest of an `arguments` line is looked at as far
as the `end`. -/
theorem read_plain_local (h : SameThrough Keyword.close.word v v') (hc : c ≠ '\n' ∧ c ≠ '%')
    (hdots : (after? "...".toList (c :: (w ++ v))).isSome = false)
    (hstring : opensString fresh before c = false)
    (hread : read fresh before c (w ++ v) = (k, w.length)) :
    read fresh before c (w ++ v') = (k, w.length) := by
  have hthree : v.take 3 = v'.take 3 := h.take (by decide)
  have hdots' := hdots
  rw [dots_of_take (take_append_of_take hthree (by decide : 2 ≤ 3) w)] at hdots'
  simp only [read, hc, hdots, hdots', hstring, Bool.false_eq_true, if_false] at hread ⊢
  cases hopening : Bracket.ofOpening? c with
  | some b => simpa [hopening] using hread
  | none =>
    simp only [hopening] at hread ⊢
    split_ifs at hread ⊢ with hclosing hdigit hdecimal hword
    · exact hread
    · obtain ⟨rfl, hlength⟩ := Prod.mk.inj hread
      rw [numberTail_of_take hthree hlength]
    · exact hread
    · obtain ⟨hrun, hend⟩ := run_of_length_takeWhile (Prod.mk.inj hread).2
      have hend' := hend.of_head? (head?_of_take hthree)
      rw [takeWhile_run hrun hend, dropWhile_run hrun hend] at hread
      rw [takeWhile_run hrun hend', dropWhile_run hrun hend', ← Keyword.here?_of_sameThrough h,
        hread]
    · exact hread

/-- A lexeme with an `end` somewhere after it is read the same whatever follows that `end`. -/
theorem read_local (h : SameThrough Keyword.close.word v v')
    (hread : read fresh before c (w ++ v) = (k, w.length)) :
    read fresh before c (w ++ v') = (k, w.length) := by
  have hhead : v.head? = v'.head? := head?_of_take (h.take (n := 1) (by decide))
  have hr := reads_read fresh before c (w ++ v)
  generalize ht : w ++ v = t at hr
  generalize hnext : read fresh before c t = next at hr
  rw [ht, hnext] at hread
  cases hr with
  | newline =>
    rw [← hread]
    rfl
  | lineComment hopen =>
    obtain ⟨rfl, hlength⟩ := Prod.mk.inj hread
    subst ht
    obtain ⟨hline, hline'⟩ := restOfLine_of_head? hhead hlength
    rw [← opensBlock_restOfLine, hline, ← hline', opensBlock_restOfLine] at hopen
    rw [read_lineComment hopen, hline']
  | blockComment hopen =>
    obtain ⟨rfl, hlength⟩ := Prod.mk.inj hread
    subst ht
    have hend := (atLineEnd_of_blockLength hlength).notAhead
    have hline : restOfLine (w ++ v') = restOfLine (w ++ v) := by
      rw [restOfLine, restOfLine, takeWhile_append_notAhead hend,
        takeWhile_append_notAhead (hend.of_head? hhead)]
    rw [← opensBlock_restOfLine, ← hline, opensBlock_restOfLine] at hopen
    rw [read_blockComment hopen, blockLength_of_head? hhead hlength]
  | @continuation t =>
    obtain ⟨rfl, hlength⟩ := Prod.mk.inj hread
    exact read_continuation_local ht hlength
  | string hc hopens =>
    obtain ⟨rfl, hlength⟩ := Prod.mk.inj hread
    subst ht
    rw [read_string hc hopens, stringTail_of_head? hhead hlength]
  | plain hc hdots hstring =>
    subst ht
    exact read_plain_local h hc hdots hstring hread

variable {text text' : Text} {p q : Nat}

/-- A lexeme that is not the last one, cut out of the text. -/
theorem exists_of_at? (h : at? text fresh p = some (k, q)) (hq : q < text.length) :
    ∃ c w, text.drop p = c :: w ++ text.drop q ∧ q = p + (c :: w).length ∧
      read fresh (text.take p).reverse c (w ++ text.drop q) = (k, w.length) := by
  rw [at?] at h
  split at h
  · cases h
  · rename_i c t hd
    simp only [Option.some.injEq, Prod.mk.injEq] at h
    obtain ⟨hkind, hlength⟩ := h
    generalize hread : read fresh (text.take p).reverse c t = next at hkind hlength
    have ht : text.length - p = t.length + 1 := by
      rw [← List.length_drop, hd, List.length_cons]
    have hn : next.2 = (t.take next.2).length := by
      rw [List.length_take] at hlength ⊢
      omega
    have hcut : text.drop p = c :: t.take next.2 ++ t.drop next.2 := by
      rw [hd, List.cons_append, List.take_append_drop]
    have hq : q = p + (c :: t.take next.2).length := by
      rw [List.length_cons]
      omega
    have hdrop : text.drop q = t.drop next.2 := by
      rw [hq, drop_add_length hcut]
    refine ⟨c, t.take next.2, by rw [hdrop, hcut], hq, ?_⟩
    rw [hdrop, List.take_append_drop, hread, ← hn, ← hkind]

/-- A lexeme before an `end` is read again in a text that goes on otherwise after that `end`. -/
theorem at?_local (h : at? text fresh p = some (k, q)) (hq : q < text.length)
    (hsame : text'.take q = text.take q)
    (hahead : SameThrough Keyword.close.word (text.drop q) (text'.drop q)) :
    at? text' fresh p = some (k, q) := by
  obtain ⟨c, w, hd, rfl, hread⟩ := exists_of_at? h hq
  apply at?_of_read (drop_of_take hd hsame)
  rw [take_of_take hsame (Nat.le_add_right _ _)]
  exact read_local hahead hread

theorem here?_of_at? {k : Keyword} (h : at? text fresh p = some (.word (some k), q)) :
    ∃ rest, Keyword.here? (text.take p).reverse k.word rest = some k := by
  rw [at?] at h
  split at h
  · cases h
  · simp only [Option.some.injEq, Prod.mk.injEq] at h
    have hread := h.1
    rw [read_word (isWordStart_of_read hread)] at hread
    have hk := Kind.word.inj hread
    exact ⟨_, Keyword.word_of_here? hk ▸ hk⟩

/-- An `end` is read again if it is still a whole word. -/
theorem at?_close_local (h : at? text fresh p = some (.word (some .close), q))
    (hsame : text'.take q = text.take q) (hend : NotAhead isWord (text'.drop q)) :
    at? text' fresh p = some (.word (some .close), q) := by
  obtain ⟨hd, rfl, -⟩ := at?_keyword h
  obtain ⟨rest, hhere⟩ := here?_of_at? h
  rw [Keyword.here?_close] at hhere
  rw [at?_word (drop_of_take hd hsame) (by decide) hend,
    take_of_take hsame (Nat.le_add_right _ _), Keyword.here?_close, hhere]

end Readings

end Lexeme

namespace Mark

variable {text text' : Text}

/-- Two texts that agree up to the end of a mark are the same through its word. -/
theorem sameThrough_drop {m : Mark} {q : Nat}
    (hd : text.drop m.start = m.keyword.word ++ text.drop m.stop)
    (hsame : text'.take m.stop = text.take m.stop) (hq : q ≤ m.start) :
    SameThrough m.keyword.word (text.drop q) (text'.drop q) := by
  have hbefore : text'.take m.start = text.take m.start :=
    take_of_take hsame (Nat.le_add_right _ _)
  rw [← slice_append_drop (t := text) hq, ← slice_append_drop (t := text') hq, slice, slice, hbefore,
    hd, drop_of_take hd hsame]
  exact (SameThrough.word _ _).append _

/-- Up to an `end` the scans of two texts that agree so far report the same marks. -/
theorem scan_local {m : Mark} (hm : m.keyword = .close)
    (hsame : text'.take m.stop = text.take m.stop) (hend : NotAhead isWord (text'.drop m.stop))
    {fresh : Bool} {stack : List Bracket} {p : Nat} {before after : List Mark}
    (hscan : scan text fresh stack p = before ++ m :: after) :
    ∃ after', scan text' fresh stack p = before ++ m :: after' := by
  induction fresh, stack, p using scan_induction text generalizing before with
  | done fresh stack p h => simp [scan_eq_nil h] at hscan
  | step fresh stack p q k h ih =>
    -- a lexeme before the `end` takes both scans to the same state
    have hlater : ∀ {before}, scan text false (brackets stack k) q = before ++ m :: after →
        ∃ after', scan text' fresh stack p =
          (visible? stack k).toList.map (⟨·, p⟩) ++ (before ++ m :: after') := by
      intro before hscan
      obtain ⟨hle, hstop, hspells⟩ := spells_of_mem_scan (m := m) (by rw [hscan]; simp)
      have hlt : q < m.stop := by
        rw [stop, hm]
        exact Nat.lt_of_le_of_lt hle (Nat.lt_add_of_pos_right (by decide))
      have hahead := sameThrough_drop hspells hsame hle
      rw [hm] at hahead
      have hat := Lexeme.at?_local h (Nat.lt_of_lt_of_le hlt hstop)
        (take_of_take hsame (Nat.le_of_lt hlt)) hahead
      obtain ⟨after', hafter⟩ := ih hscan
      exact ⟨after', by rw [scan_step hat, hafter]⟩
    rw [scan_step h] at hscan
    cases hv : visible? stack k with
    | none => simpa [hv] using hlater (by simpa [hv] using hscan)
    | some w =>
      simp only [hv, Option.toList_some, List.map_cons, List.map_nil, List.singleton_append] at hscan
      cases before with
      | nil =>
        obtain ⟨rfl, -⟩ := List.cons.inj hscan
        obtain rfl : w = .close := hm
        obtain ⟨rfl, rfl⟩ := visible?_eq_some_iff.1 hv
        obtain rfl := (Lexeme.at?_keyword h).2.1
        exact ⟨_, scan_step (Lexeme.at?_close_local h hsame hend)⟩
      | cons a before =>
        obtain ⟨rfl, hrest⟩ := List.cons.inj hscan
        simpa [hv] using hlater hrest

end Mark

namespace Block

/-- A block ends with an `end` of its own, and the marks after it do not matter. -/
theorem exists_append_of_close {start e : Nat} {ms : List Mark} (h : close start 0 ms = .ok e) :
    ∃ before m after, ms = before ++ m :: after ∧ m.keyword = .close ∧ m.stop = e ∧
      ∀ after', close start 0 (before ++ m :: after') = .ok e := by
  rcases ms with _ | ⟨⟨o | _, s⟩, ms⟩
  · cases h
  · obtain ⟨body, t, after, hbody, rfl, -⟩ := exists_balanced_of_close h
    have hclose : ∀ after', close start 0 (⟨.opener o, s⟩ :: body ++ ⟨.close, t⟩ :: after') =
        .ok (Mark.stop ⟨.close, t⟩) := by
      intro after'
      rw [List.cons_append, close_opener, hbody.close_append]
      rfl
    have he := Except.ok.inj ((hclose after).symm.trans h)
    exact ⟨⟨.opener o, s⟩ :: body, ⟨.close, t⟩, after, rfl, rfl, he,
      fun after' => he ▸ hclose after'⟩
  · cases h

/-- A block ends at the same place in every text that agrees with the first one up to its `end`, if
that `end` is a whole word there too. So nothing after its `end` changes the extent of a function. -/
theorem stop_local {text text' : Text} {start e : Nat} (h : stop text start = .ok e)
    (hsame : text'.take e = text.take e) (hafter : ∀ c, text'[e]? = some c → isWord c = false) :
    stop text' start = .ok e ∧
      Dialect.closed.functionEnd text' start = Dialect.closed.functionEnd text start := by
  have hstop : stop text' start = .ok e := by
    obtain ⟨before, m, after, hscan, hm, rfl, hclose⟩ := exists_append_of_close h
    have hend : NotAhead isWord (text'.drop m.stop) := by
      rwa [NotAhead, List.head?_drop]
    obtain ⟨after', hscan'⟩ := Mark.scan_local hm hsame hend hscan
    rw [stop, Mark.all_eq_scan, hscan', hclose]
  refine ⟨hstop, ?_⟩
  rw [Dialect.functionEnd, Dialect.functionEnd, hstop, h]

/-- A function whose `end` stands directly after a number, with another `end` on the same line. -/
def tightText : Text := "function f\narguments (Input)\nend\ny = 3end, end\n".toList

/-- The same function before a transpose sign and a block comment that is not closed. -/
def openText : Text := "function f\narguments (Input)\nend\ny = 3end' if\n%\x7b\nend".toList

theorem openText_as_tightText :
    (stop tightText 0 = .ok 41 ∧ openText.take 41 = tightText.take 41 ∧
      ∀ c, openText[41]? = some c → isWord c = false) ∧
    stop openText 0 = .ok 41 ∧
      Dialect.closed.functionEnd openText 0 = Dialect.closed.functionEnd tightText 0 := by
  have hstop : stop tightText 0 = .ok 41 := by decide +kernel
  have hsame : openText.take 41 = tightText.take 41 := by decide +kernel
  have hafter : ∀ c, openText[41]? = some c → isWord c = false := by
    have hquote : openText[41]? = some '\'' := by decide +kernel
    intro c hc
    obtain rfl := Option.some.inj (hquote.symm.trans hc)
    decide
  exact ⟨⟨hstop, hsame, hafter⟩, stop_local hstop hsame hafter⟩

end Block
end MatlabOutline
