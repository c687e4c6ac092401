import MatlabOutline.Proofs.SkippedText
import MatlabOutline.Proofs.LineEnds

/-! Lexemes in a text with line ends of two characters. Each lexeme is read again at the place it is
carried to. One that ends with its line takes the carriage return along, and a carriage return by
itself is a lexeme that hides and shows nothing, so the block keywords are carried along with the
text and blocks end where they did. -/
namespace MatlabOutline
open Text

namespace Text

section Runs

variable {t : Text} {n : Nat}

/-- A run of characters without a newline stands in both texts. -/
theorem take_crlf_of_forall (h : ∀ c ∈ t.take n, c ≠ '\n') : (crlf t).take n = t.take n := by
  have hcut := crlf_append (t.take n) (t.drop n)
  rw [List.take_append_drop, crlf_of_forall h] at hcut
  by_cases hn : n ≤ t.length
  · rw [hcut, List.take_left' (by rw [List.length_take, Nat.min_eq_left hn])]
  · have hle : t.length ≤ n := by omega
    rw [hcut, List.drop_eq_nil_iff.2 hle, crlf_nil, List.append_nil, List.take_take, Nat.min_self]

theorem drop_crlf_of_forall (h : ∀ c ∈ t.take n, c ≠ '\n') : (crlf t).drop n = crlf (t.drop n) := by
  have hcut := crlf_append (t.take n) (t.drop n)
  rw [List.take_append_drop, crlf_of_forall h] at hcut
  by_cases hn : n ≤ t.length
  · rw [hcut, List.drop_left' (by rw [List.length_take, Nat.min_eq_left hn])]
  · have hle : t.length ≤ n := by omega
    rw [hcut, List.drop_eq_nil_iff.2 hle, crlf_nil, List.append_nil,
      List.drop_eq_nil_iff.2 (List.length_take_le n t)]

end Runs

/-- The last line before a place is the same, since carriage returns stand at the ends of lines. -/
theorem restOfLine_reverse_crlf (t : Text) :
    restOfLine (crlf t).reverse = restOfLine t.reverse := by
  induction t using List.reverseRecOn with
  | nil => rfl
  | append_singleton t c ih =>
    rw [crlf_append, List.reverse_append, List.reverse_append]
    by_cases hc : c = '\n'
    · subst hc
      rfl
    · rw [crlf_cons hc]
      change restOfLine (c :: (crlf t).reverse) = restOfLine (c :: t.reverse)
      rw [restOfLine_cons hc, restOfLine_cons hc, ih]

namespace EndsAlike

variable {t u : Text} {p : Char → Bool}

theorem dropWhile (hp : p '\r' = false) (h : EndsAlike t u) :
    EndsAlike (t.dropWhile p) (u.dropWhile p) := by
  rcases h with rfl | rfl
  · exact .inl rfl
  · right
    rw [List.dropWhile_append]
    split_ifs with hnil
    · rw [List.isEmpty_iff.1 hnil, List.dropWhile_cons_of_neg (by simp [hp])]
      rfl
    · rfl

/-- The first character past a run is the same, as the carriage return belongs to the run. -/
theorem head?_dropWhile (hp : p '\r' = true) (h : EndsAlike t u) :
    (u.dropWhile p).head? = (t.dropWhile p).head? := by
  rcases h with rfl | rfl
  · rfl
  · rw [List.dropWhile_append]
    split_ifs with hnil
    · rw [List.isEmpty_iff.1 hnil, List.dropWhile_cons_of_pos hp]
      rfl
    · obtain ⟨c, v, hv⟩ := List.exists_cons_of_ne_nil (mt List.isEmpty_iff.2 hnil)
      rw [hv]
      rfl

theorem after? {w : Text} (hw : '\r' ∉ w) (h : EndsAlike t u) :
    Option.Rel EndsAlike (after? w t) (after? w u) := by
  rcases h with rfl | rfl
  · cases Text.after? w u with
    | none => exact .none
    | some r => exact .some (.inl rfl)
  · rw [after?_append_return hw]
    cases Text.after? w t with
    | none => exact .none
    | some r => exact .some (.inr rfl)

end EndsAlike

end Text

namespace Keyword

/-- The rest of the line decides the same about an `arguments` block. -/
theorem opensArguments_crlf (t : Text) : opensArguments (crlf t) = opensArguments t := by
  have hattributes : ∀ w ∈ ["(Input)".toList, "(Output)".toList, "(Repeating)".toList],
      '\r' ∉ w := by decide
  apply Eq.symm
  apply opensArguments_of_rel ((endsAlike_restOfLine t).dropWhile (p := isBlank) (by decide))
  · exact fun w hw _ _ hxy => hxy.after? (hattributes w hw)
  · exact fun _ _ hxy => (hxy.head?_dropWhile (p := isTrailingBlank) (by decide)).symm

theorem here?_crlf (before w t : Text) : here? before w (crlf t) = here? before w t := by
  rw [here?, here?, opensArguments_crlf]

end Keyword

namespace Lexeme

section Numbers

/-- A reading that takes some characters from the head of a text, never a newline, and the same ones
before a carriage return. -/
def StaysOnLine (x : Text → Text) : Prop :=
  ∀ t, x t = t.take (x t).length ∧ (∀ c ∈ x t, c ≠ '\n') ∧ x (crlf t) = x t

variable {x y : Text → Text}

theorem StaysOnLine.drop_crlf (hx : StaysOnLine x) (t : Text) :
    (crlf t).drop (x t).length = crlf (t.drop (x t).length) := by
  obtain ⟨htake, hline, -⟩ := hx t
  apply drop_crlf_of_forall
  rwa [← htake]

/-- One reading after another. -/
theorem StaysOnLine.andThen (hx : StaysOnLine x) (hy : StaysOnLine y) :
    StaysOnLine fun t => x t ++ y (t.drop (x t).length) := by
  intro t
  obtain ⟨hxtake, hxline, hxsame⟩ := hx t
  obtain ⟨hytake, hyline, hysame⟩ := hy (t.drop (x t).length)
  refine ⟨?_, ?_, ?_⟩
  · rw [List.length_append, List.take_add, ← hxtake, ← hytake]
  · intro c hc
    exact (List.mem_append.1 hc).elim (hxline c) (hyline c)
  · simp only [hxsame, hx.drop_crlf, hysame]

theorem staysOnLine_digits : StaysOnLine fun t => t.takeWhile isDecimal := by
  intro t
  refine ⟨List.prefix_iff_eq_take.1 (List.takeWhile_prefix _), ?_,
    takeWhile_crlf_of_not (by decide) (by decide) t⟩
  rintro c hc rfl
  exact absurd (List.mem_takeWhile_imp hc) (by decide)

theorem staysOnLine_nothing : StaysOnLine fun _ => [] :=
  fun _ => ⟨rfl, by simp, rfl⟩

/-- A reading that begins with a character of a class, under a condition on what follows it, and goes
on with another reading. -/
structure Headed (x : Text → Text) (p : Char → Bool) (q : Text → Bool) (y : Text → Text) : Prop where
  nil : x [] = []
  cons (c : Char) (t : Text) : x (c :: t) = if p c && q t then c :: y t else []

theorem headed_sign : Headed sign (fun c => c = '+' ∨ c = '-') (fun _ => true) fun _ => [] :=
  ⟨rfl, fun c t => by simp [sign]⟩

theorem headed_imaginaryUnit :
    Headed imaginaryUnit (fun c => c = 'i' ∨ c = 'j') (fun _ => true) fun _ => [] :=
  ⟨rfl, fun c t => by simp [imaginaryUnit]⟩

theorem headed_fraction :
    Headed fraction (fun c => c = '.') (fun _ => true) fun t => t.takeWhile isDecimal := by
  refine ⟨rfl, fun c t => ?_⟩
  unfold fraction
  split <;> simp_all

theorem headed_exponent :
    Headed exponent (fun c => c = 'e' ∨ c = 'E')
      (fun t => !((t.drop (sign t).length).takeWhile isDecimal).isEmpty)
      fun t => sign t ++ (t.drop (sign t).length).takeWhile isDecimal := by
  refine ⟨rfl, fun c t => ?_⟩
  rw [exponent]
  by_cases hc : c = 'e' ∨ c = 'E'
  · cases hempty : ((t.drop (sign t).length).takeWhile isDecimal).isEmpty <;> simp [hc, hempty]
  · simp [hc]

/-- A reading that begins with a character of a class without line ends stays on the line if what it
goes on with does. -/
theorem StaysOnLine.headed {p : Char → Bool} {q : Text → Bool} (hx : Headed x p q y)
    (hy : StaysOnLine y) (hr : p '\r' = false) (hn : p '\n' = false)
    (hq : ∀ t, q (crlf t) = q t) : StaysOnLine x := by
  have hnone : ∀ {t : Text}, x t = [] → x (crlf t) = [] →
      x t = t.take (x t).length ∧ (∀ c ∈ x t, c ≠ '\n') ∧ x (crlf t) = x t := by
    intro t ht ht'
    rw [ht, ht']
    exact ⟨rfl, by simp, rfl⟩
  rintro (_ | ⟨c, t⟩)
  · exact hnone hx.nil hx.nil
  by_cases hc : c = '\n'
  · subst hc
    apply hnone
    · rw [hx.cons, hn]
      rfl
    · rw [crlf_newline, hx.cons, hr]
      rfl
  · have hcrlf := hx.cons c (crlf t)
    rw [← crlf_cons hc, hq] at hcrlf
    cases hpq : p c && q t with
    | false =>
      apply hnone
      · rw [hx.cons, hpq]
        rfl
      · rw [hcrlf, hpq]
        rfl
    | true =>
      obtain ⟨htake, hline, hsame⟩ := hy t
      rw [hcrlf, hx.cons, hpq, if_pos rfl, if_pos rfl, hsame, List.length_cons, List.take_succ_cons,
        ← htake]
      refine ⟨rfl, ?_, rfl⟩
      intro d hd
      exact (List.mem_cons.1 hd).elim (fun h => h ▸ hc) (hline d)

theorem staysOnLine_sign : StaysOnLine sign :=
  staysOnLine_nothing.headed headed_sign (by decide) (by decide) fun _ => rfl

theorem staysOnLine_imaginaryUnit : StaysOnLine imaginaryUnit :=
  staysOnLine_nothing.headed headed_imaginaryUnit (by decide) (by decide) fun _ => rfl

theorem staysOnLine_fraction : StaysOnLine fraction :=
  staysOnLine_digits.headed headed_fraction (by decide) (by decide) fun _ => rfl

theorem staysOnLine_exponent : StaysOnLine exponent := by
  have hdigits : ∀ t : Text, ((crlf t).drop (sign (crlf t)).length).takeWhile isDecimal =
      (t.drop (sign t).length).takeWhile isDecimal := by
    intro t
    rw [(staysOnLine_sign t).2.2, staysOnLine_sign.drop_crlf]
    exact (staysOnLine_digits _).2.2
  exact (staysOnLine_sign.andThen staysOnLine_digits).headed headed_exponent (by decide) (by decide)
    fun t => by rw [hdigits]

/-- The characters of a number after its first digit. -/
def numberText : Text → Text :=
  let digits := fun t : Text => t.takeWhile isDecimal
  let real := fun t : Text => digits t ++ fraction (t.drop (digits t).length)
  let scaled := fun t : Text => real t ++ exponent (t.drop (real t).length)
  fun t => scaled t ++ imaginaryUnit (t.drop (scaled t).length)

theorem length_numberText (t : Text) : (numberText t).length = numberTail t := by
  simp only [numberText, numberTail, List.length_append]

theorem staysOnLine_numberText : StaysOnLine numberText :=
  ((staysOnLine_digits.andThen staysOnLine_fraction).andThen staysOnLine_exponent).andThen
    staysOnLine_imaginaryUnit

end Numbers

section Cuts

variable {t : Text} {n n' : Nat}

/-- The first `n'` characters with line ends of two characters come from the first `n` characters,
and perhaps the carriage return before the next newline is among them. -/
def CutAlike (t : Text) (n n' : Nat) : Prop :=
  ((crlf t).take n').length = (crlf (t.take n)).length ∨
    ((crlf t).take n').length = (crlf (t.take n)).length + 1 ∧ ∃ u, t.drop n = '\n' :: u

theorem cutAlike_of_forall (h : ∀ c ∈ t.take n, c ≠ '\n') : CutAlike t n n := by
  left
  rw [take_crlf_of_forall h, crlf_of_forall h]

theorem length_crlf_take_add_drop (t : Text) (n : Nat) :
    (crlf (t.take n)).length + (crlf (t.drop n)).length = (crlf t).length := by
  rw [← List.length_append, ← crlf_append, List.take_append_drop]

theorem cutAlike_of_length (h : n' = (crlf (t.take n)).length) : CutAlike t n n' := by
  have hlength := length_crlf_take_add_drop t n
  left
  rw [List.length_take, h, Nat.min_eq_left (by omega)]

/-- A cut at the end of a line comes after the carriage return. -/
theorem cutAlike_of_returnAhead
    (h : n' = (crlf (t.take n)).length + (returnAhead (t.drop n)).length) : CutAlike t n n' := by
  have hlength := length_crlf_take_add_drop t n
  unfold returnAhead at h
  split at h
  · rename_i u hu
    rw [hu, crlf_newline, List.length_cons] at hlength
    right
    refine ⟨?_, u, hu⟩
    rw [List.length_take, h, Nat.min_eq_left]
    · rfl
    · change (crlf (t.take n)).length + 1 ≤ _
      omega
  · exact cutAlike_of_length h

theorem cutAlike_restOfLine (t : Text) :
    CutAlike t (restOfLine t).length (restOfLine (crlf t)).length := by
  have htake : t.take (restOfLine t).length = restOfLine t :=
    (List.prefix_iff_eq_take.1 (List.takeWhile_prefix _)).symm
  have hdrop : t.drop (restOfLine t).length = t.dropWhile (· != '\n') := drop_length_takeWhile _ t
  apply cutAlike_of_returnAhead
  rw [htake, hdrop, crlf_of_forall ne_newline_of_mem_restOfLine, restOfLine_crlf,
    List.length_append]

/-- The newline after the dots belongs to the lexeme with both of its characters. -/
theorem cutAlike_continuation (t : Text) :
    CutAlike ('.' :: '.' :: t) ((restOfLine t).length + 3) ((restOfLine (crlf t)).length + 3) := by
  have hend := atLineEnd_dropWhile t
  have hcut : restOfLine t ++ t.dropWhile (· != '\n') = t := List.takeWhile_append_dropWhile
  rw [restOfLine_crlf]
  generalize t.dropWhile (· != '\n') = v at hend hcut ⊢
  have hline : crlf t = restOfLine t ++ crlf v := by
    conv_lhs => rw [← hcut]
    rw [crlf_append, crlf_of_forall ne_newline_of_mem_restOfLine]
  have htake : ('.' :: '.' :: t).take ((restOfLine t).length + 3) =
      '.' :: '.' :: (restOfLine t ++ v.take 1) := by
    rw [← List.take_length_add_append 1, hcut]
    rfl
  left
  rw [htake]
  change (('.' :: '.' :: crlf t).take _).length =
    ('.' :: '.' :: crlf (restOfLine t ++ v.take 1)).length
  rw [hline, crlf_append, crlf_of_forall ne_newline_of_mem_restOfLine]
  cases v with
  | nil => simp [returnAhead]
  | cons c v =>
    obtain rfl := hend c rfl
    simp [returnAhead]

end Cuts

section Strings

variable {quote : Char}

/-- A string that its quote closes is the same, and one that ends with its line takes the carriage
return along. -/
theorem stringTail_crlf (hr : quote ≠ '\r') (t : Text) :
    stringTail quote (crlf t) = (crlf (t.take (stringTail quote t))).length ∨
      stringTail quote (crlf t) = (crlf (t.take (stringTail quote t))).length +
        (returnAhead (t.drop (stringTail quote t))).length := by
  have hreturn : ∀ u, stringTail quote ('\r' :: '\n' :: u) = 1 := by
    intro u
    rw [stringTail, if_neg (by decide), if_neg hr.symm]
    cases u <;> rfl
  fun_induction stringTail quote t with
  | case1 => exact .inl rfl
  | case2 => exact .inr (hreturn [])
  | case3 c hc =>
    left
    rw [crlf_cons hc, List.take_succ_cons, crlf_cons hc]
    exact if_neg hc
  | case4 => exact .inr (hreturn _)
  | case5 t hq ih =>
    rw [List.take_succ_cons, List.take_succ_cons, List.drop_succ_cons, List.drop_succ_cons,
      crlf_cons hq, crlf_cons hq, crlf_cons hq, crlf_cons hq, stringTail, if_neg hq, if_pos rfl,
      if_pos rfl, List.length_cons, List.length_cons]
    omega
  | case6 d t hd hq =>
    left
    obtain ⟨e, u, he, hu⟩ : ∃ e u, e ≠ quote ∧ crlf (d :: t) = e :: u := by
      by_cases hdn : d = '\n'
      · subst hdn
        exact ⟨_, _, hr.symm, rfl⟩
      · exact ⟨_, _, hd, crlf_cons hdn t⟩
    rw [crlf_cons hq, hu, stringTail, if_neg hq, if_pos rfl, if_neg he, List.take_succ_cons,
      crlf_cons hq]
    rfl
  | case7 c d t hc hq ih =>
    rw [List.take_succ_cons, List.drop_succ_cons, crlf_cons hc, crlf_cons hc, stringTail_cons hq hc,
      List.length_cons]
    omega

end Strings

section Blocks

/-- A carriage return after a closing line changes nothing. -/
theorem closesBlock_of_endsAlike {l m : Text} (h : EndsAlike l m) :
    closesBlock m = closesBlock l := by
  have hblanks := h.dropWhile (p := isBlank) (by decide)
  unfold closesBlock
  generalize l.dropWhile isBlank = x, m.dropWhile isBlank = y at hblanks
  rcases hblanks with rfl | rfl
  · rfl
  rcases x with _ | ⟨c, _ | ⟨d, x⟩⟩
  · rfl
  · split <;> simp_all
  · by_cases hcd : c = '%' ∧ d = '\x7d'
    · obtain ⟨rfl, rfl⟩ := hcd
      change (x ++ ['\r']).all isTrailingBlank = x.all isTrailingBlank
      rw [List.all_append]
      exact Bool.and_true _
    · split <;> split <;> simp_all

theorem opensBlock_crlf (before t : Text) : opensBlock before (crlf t) = opensBlock before t := by
  cases t with
  | nil => rfl
  | cons c t =>
    by_cases hn : c = '\n'
    · subst hn
      rfl
    rw [crlf_cons hn]
    by_cases hc : c = '\x7b'
    · subst hc
      change (_ && (restOfLine (crlf t)).all isTrailingBlank) =
        (_ && (restOfLine t).all isTrailingBlank)
      rcases endsAlike_restOfLine t with h | h
      · rw [h]
      · rw [h, List.all_append]
        exact congrArg _ (Bool.and_true _)
    · rw [opensBlock_of_ne hc, opensBlock_of_ne hc]

theorem withReturns_cons (l : Text) (ls : List Text) :
    withReturns (l :: ls) = (l ++ returnAhead (furtherLines ls)) :: withReturns ls := by
  cases ls with
  | nil => exact congrArg (· :: []) (List.append_nil l).symm
  | cons m ls => rfl

/-- A block comment is closed by the same line. -/
theorem blockTail_withReturns {ls later : List Text} (hls : ∀ l ∈ ls, ∀ c ∈ l, c ≠ '\n')
    (hlater : ls = blockLines ls ++ later) :
    (returnAhead (furtherLines ls)).length + blockTail (withReturns ls) =
      (crlf (furtherLines (blockLines ls))).length + (returnAhead (furtherLines later)).length := by
  induction ls with
  | nil =>
    rw [List.self_eq_append_right.1 hlater]
    rfl
  | cons l ls ih =>
    obtain ⟨hl, hls⟩ := List.forall_mem_cons.1 hls
    have hreturn : (returnAhead (furtherLines (l :: ls))).length = 1 := rfl
    have hcloses : closesBlock (l ++ returnAhead (furtherLines ls)) = closesBlock l := by
      apply closesBlock_of_endsAlike
      unfold returnAhead
      split
      · exact .inr rfl
      · exact .inl (List.append_nil l)
    have hfirst : ∀ ms, (crlf (furtherLines (l :: ms))).length =
        l.length + 2 + (crlf (furtherLines ms)).length := by
      intro ms
      change (crlf (('\n' :: l) ++ furtherLines ms)).length = _
      rw [crlf_append, crlf_newline, crlf_of_forall hl, List.length_append, List.length_cons,
        List.length_cons]
    rw [blockLines] at hlater
    rw [withReturns_cons, blockTail, hcloses, blockLines, hfirst, hreturn, List.length_append]
    split_ifs at hlater ⊢ with hclose
    · obtain rfl : ls = later := List.tail_eq_of_cons_eq hlater
      change _ = l.length + 2 + 0 + _
      omega
    · have hnext := ih hls (List.tail_eq_of_cons_eq hlater)
      omega

theorem cutAlike_blockComment (t : Text) : CutAlike t (blockLength t) (blockLength (crlf t)) := by
  obtain ⟨later, hlater, ht⟩ := exists_blockText_append t
  have htail : ∀ l ∈ (lines t).tail, ∀ c ∈ l, c ≠ '\n' :=
    fun l hl => ne_newline_of_mem_lines l (List.mem_of_mem_tail hl)
  have hlines : lines (crlf t) =
      (restOfLine t ++ returnAhead (furtherLines (lines t).tail)) :: withReturns (lines t).tail := by
    rw [lines_crlf, lines_eq_cons t, withReturns_cons]
    rfl
  have hfirst : restOfLine (crlf t) = restOfLine t ++ returnAhead (furtherLines (lines t).tail) := by
    rw [lines_eq_cons] at hlines
    exact (List.cons.inj hlines).1
  have hdrop : t.drop (blockLength t) = furtherLines later := by
    have h : (blockText t ++ furtherLines later).drop (blockText t).length = furtherLines later :=
      List.drop_left
    rwa [← ht, length_blockText] at h
  apply cutAlike_of_returnAhead
  rw [take_blockLength, hdrop, blockText, crlf_append, crlf_of_forall ne_newline_of_mem_restOfLine,
    List.length_append, blockLength, hfirst, hlines, List.tail_cons, List.length_append]
  have hblock := blockTail_withReturns htail hlater
  omega

end Blocks

section Readings

variable {fresh : Bool} {before t : Text} {c : Char}

/-- A word or a number is read the same, and it stays on its line. -/
theorem read_crlf_plain (hc : c ≠ '\n' ∧ c ≠ '%')
    (hdots : (after? "...".toList (c :: t)).isSome = false)
    (hstring : opensString fresh before c = false) :
    read fresh before c (crlf t) = read fresh before c t ∧
      ∀ d ∈ t.take (read fresh before c t).2, d ≠ '\n' := by
  have hdots' : (after? "...".toList (c :: crlf t)).isSome = false := by
    rw [← crlf_cons hc.1, after?_crlf (by decide) (by decide), Option.isSome_map]
    exact hdots
  have hnumber : numberTail (crlf t) = numberTail t := by
    rw [← length_numberText, ← length_numberText, (staysOnLine_numberText t).2.2]
  constructor
  · simp only [read, hc.1, hc.2, hdots, hdots', hstring, hnumber, Bool.false_eq_true, if_false,
      takeWhile_crlf_of_not (p := isWord) (by decide) (by decide), dropWhile_crlf (p := isWord)
      (by decide), Keyword.here?_crlf]
  · obtain ⟨htake, hline, -⟩ := staysOnLine_numberText t
    rw [length_numberText] at htake
    rw [htake] at hline
    have hword : ∀ d ∈ t.take (t.takeWhile isWord).length, d ≠ '\n' := by
      rw [← List.prefix_iff_eq_take.1 (List.takeWhile_prefix isWord)]
      rintro d hd rfl
      exact absurd (List.mem_takeWhile_imp hd) (by decide)
    simp only [read, hc.1, hc.2, hdots, hstring, Bool.false_eq_true, if_false]
    split
    · simp
    · split_ifs
      · simp
      · exact hline
      · simp
      · exact hword
      · simp

/-- Every lexeme other than a newline is read again. -/
theorem read_crlf (hc : c ≠ '\n') :
    (read fresh before c (crlf t)).1 = (read fresh before c t).1 ∧
      CutAlike t (read fresh before c t).2 (read fresh before c (crlf t)).2 := by
  have h := reads_read fresh before c t
  generalize hnext : read fresh before c t = next at h
  cases h with
  | newline => exact absurd rfl hc
  | lineComment h =>
    rw [read_lineComment ((opensBlock_crlf before t).trans h)]
    exact ⟨rfl, cutAlike_restOfLine t⟩
  | blockComment h =>
    rw [read_blockComment ((opensBlock_crlf before t).trans h)]
    exact ⟨rfl, cutAlike_blockComment t⟩
  | @continuation t => exact ⟨rfl, cutAlike_continuation t⟩
  | string hq h =>
    rw [read_string hq h]
    refine ⟨rfl, ?_⟩
    have hr : c ≠ '\r' := by rcases hq with rfl | rfl <;> decide
    rcases stringTail_crlf hr t with htail | htail
    · exact cutAlike_of_length htail
    · exact cutAlike_of_returnAhead htail
  | plain hc hdots hstring hkind =>
    obtain ⟨hread, hline⟩ := read_crlf_plain hc hdots hstring
    rw [hread]
    exact ⟨rfl, cutAlike_of_forall hline⟩

variable {text : Text} {p q : Nat} {k : Kind}

/-- The lexeme at an offset is read again at the place the offset is carried to, and it ends where
its end is carried to or just past the carriage return there. -/
theorem at?_crlf (h : at? text fresh p = some (k, q)) (hd : text.drop p = c :: t) (hc : c ≠ '\n') :
    at? (crlf text) fresh (crlfOffset text p) = some (k, crlfOffset text q) ∨
      at? (crlf text) fresh (crlfOffset text p) = some (k, crlfOffset text q + 1) ∧
        ∃ u, text.drop q = '\n' :: u := by
  have hp : p ≤ text.length := by
    have := at?_bounds h
    omega
  have hcontext : ∀ u, read fresh ((crlf text).take (crlfOffset text p)).reverse c u =
      read fresh (text.take p).reverse c u := by
    intro u
    rw [take_crlfOffset hp]
    exact read_of_sameLine (restOfLine_reverse_crlf _) c u
  obtain ⟨hkind, hcut⟩ := @read_crlf fresh (text.take p).reverse t c hc
  rw [at?, hd] at h
  simp only [Option.some.injEq, Prod.mk.injEq] at h
  obtain ⟨rfl, rfl⟩ := h
  generalize hn : (read fresh (text.take p).reverse c t).2 = n at hcut
  have hpieces : text.drop p = (c :: t.take n) ++ t.drop n := by
    rw [hd, List.cons_append, List.take_append_drop]
  have hq : p + 1 + (t.take n).length = p + (c :: t.take n).length := by
    rw [List.length_cons]
    omega
  have hend : crlfOffset text (p + (c :: t.take n).length) =
      crlfOffset text p + 1 + (crlf (t.take n)).length := by
    rw [crlfOffset_add_length hpieces, crlf_cons hc, List.length_cons]
    omega
  rw [at?, drop_crlfOffset, hd, crlf_cons hc, hq, hend, drop_add_length hpieces]
  simp only [hcontext, hkind, Option.some.injEq, Prod.mk.injEq, true_and]
  rcases hcut with hcut | ⟨hcut, hnewline⟩
  · left
    omega
  · right
    exact ⟨by omega, hnewline⟩

theorem drop_crlf_newline {u : Text} (hd : text.drop p = '\n' :: u) :
    (crlf text).drop (crlfOffset text p) = '\r' :: '\n' :: crlf u := by
  rw [drop_crlfOffset, hd, crlf_newline]

/-- The first character of a line end is a lexeme of its own. -/
theorem at?_crlf_return {u : Text} (hd : text.drop p = '\n' :: u) :
    at? (crlf text) fresh (crlfOffset text p) = some (.other, crlfOffset text p + 1) := by
  rw [at?, drop_crlf_newline hd]
  rfl

theorem at?_crlf_newline {u : Text} (hd : text.drop p = '\n' :: u) :
    at? (crlf text) fresh (crlfOffset text p + 1) = some (.newline, crlfOffset text (p + 1)) := by
  have hnext : crlfOffset text (p + 1) = crlfOffset text p + 2 :=
    crlfOffset_add_length (u := ['\n']) hd
  have hnewline : (crlf text).drop (crlfOffset text p + 1) = '\n' :: crlf u :=
    drop_add_length (u := ['\r']) (drop_crlf_newline hd)
  rw [at?, hnewline, hnext]
  rfl

end Readings

end Lexeme

namespace Mark

variable {text : Text}

/-- The carriage return of a line end is passed over. -/
theorem scan_crlf_return {u : Text} {p : Nat} (hd : text.drop p = '\n' :: u) (fresh : Bool)
    (stack : List Bracket) : scan (crlf text) fresh stack (crlfOffset text p) =
      scan (crlf text) false stack (crlfOffset text p + 1) :=
  scan_step (Lexeme.at?_crlf_return hd)

/-- A scan reports the same marks, each at the place it is carried to. -/
theorem scan_crlf (fresh : Bool) (stack : List Bracket) (p : Nat) :
    scan (crlf text) fresh stack (crlfOffset text p) =
      (scan text fresh stack p).map (.moved (crlfOffset text)) := by
  induction fresh, stack, p using scan_induction text with
  | done fresh stack p h =>
    rw [scan_eq_nil h, scan_eq_nil (length_crlf_le_crlfOffset h)]
    rfl
  | step fresh stack p q k h ih =>
    have hb := Lexeme.at?_bounds h
    obtain ⟨c, t, hd⟩ := List.exists_cons_of_ne_nil (mt List.drop_eq_nil_iff.1
      (show ¬ text.length ≤ p by omega))
    rw [scan_step h, List.map_append, ← ih, List.map_map]
    by_cases hc : c = '\n'
    · -- the newline is the second of two lexemes
      subst hc
      have hnewline : k = .newline ∧ q = p + 1 := by
        rw [Lexeme.at?, hd] at h
        simpa [Lexeme.read, eq_comm] using h
      obtain ⟨rfl, rfl⟩ := hnewline
      rw [scan_crlf_return hd fresh, scan_step (Lexeme.at?_crlf_newline hd)]
      rfl
    · rcases Lexeme.at?_crlf h hd hc with hstep | ⟨hstep, u, hu⟩
      · rw [scan_step hstep]
        rfl
      · rw [scan_step hstep, ← scan_crlf_return hu false]
        rfl

theorem moved_stop_of_mem_scan {fresh : Bool} {stack : List Bracket} {p : Nat} {m : Mark}
    (hm : m ∈ scan text fresh stack p) :
    (m.moved (crlfOffset text)).stop = crlfOffset text m.stop := by
  have hword : ∀ k : Keyword, '\n' ∉ k.word := by
    rintro (o | _)
    · cases o <;> decide
    · decide
  obtain ⟨-, -, hspells⟩ := spells_of_mem_scan hm
  rw [stop, stop, crlfOffset_add_length hspells,
    crlf_of_forall fun c hc heq => hword m.keyword (heq ▸ hc)]
  rfl

end Mark

/-- A block ends where its end is carried to. -/
theorem Block.stop_crlf (text : Text) (p : Nat) :
    (Block.stop (crlf text) (crlfOffset text p)).toOption =
      (Block.stop text p).toOption.map (crlfOffset text) := by
  rw [Block.stop, Block.stop, Mark.all_eq_scan, Mark.all_eq_scan, Mark.scan_crlf]
  exact Block.close_moved (fun m hm => Mark.moved_stop_of_mem_scan hm) _ _ _

end MatlabOutline
