import Mathlib.Data.List.Induction
import MatlabOutline.Proofs.Relocation
import MatlabOutline.Proofs.PrintedHeaders

/-! Line ends of two characters. A carriage return is put before every newline of a text, and each
offset is carried to the place of its character. Lines then end with a carriage return, which no
clause and no description keeps. -/
namespace MatlabOutline
open Text

namespace Text

/-- The text with a carriage return before every newline. -/
def crlf (t : Text) : Text := t.flatMap fun c => if c = '\n' then ['\r', '\n'] else [c]

@[simp] theorem crlf_nil : crlf [] = [] := rfl

@[simp] theorem crlf_newline (t : Text) : crlf ('\n' :: t) = '\r' :: '\n' :: crlf t := rfl

theorem crlf_cons {c : Char} (hc : c ≠ '\n') (t : Text) : crlf (c :: t) = c :: crlf t := by
  rw [crlf, List.flatMap_cons, if_neg hc]
  rfl

@[simp] theorem crlf_append (t u : Text) : crlf (t ++ u) = crlf t ++ crlf u := List.flatMap_append

/-- A text without newlines is left alone. -/
theorem crlf_of_forall {t : Text} (ht : ∀ c ∈ t, c ≠ '\n') : crlf t = t := by
  induction t with
  | nil => rfl
  | cons c t ih =>
    obtain ⟨hc, ht⟩ := List.forall_mem_cons.1 ht
    rw [crlf_cons hc, ih ht]

theorem length_crlf (t : Text) : (crlf t).length = t.length + t.count '\n' := by
  induction t with
  | nil => rfl
  | cons c t ih =>
    by_cases hc : c = '\n'
    · subst hc
      simp only [crlf_newline, List.length_cons, ih, List.count_cons_self]
      omega
    · rw [crlf_cons hc, List.length_cons, ih, List.length_cons, List.count_cons_of_ne hc]
      omega

theorem getLast?_crlf (t : Text) : (crlf t).getLast? = t.getLast? := by
  cases t using List.reverseRecOn with
  | nil => rfl
  | append_singleton t c =>
    rw [crlf_append, List.getLast?_append, List.getLast?_append]
    by_cases hc : c = '\n'
    · subst hc
      rfl
    · rw [crlf_cons hc]
      rfl

section Classes

variable {p : Char → Bool}

theorem takeWhile_crlf (hp : p '\r' = p '\n') (t : Text) :
    (crlf t).takeWhile p = crlf (t.takeWhile p) := by
  induction t with
  | nil => rfl
  | cons c t ih =>
    by_cases hc : c = '\n'
    · subst hc
      cases hn : p '\n' <;> simp [hn, hp, ih]
    · rw [crlf_cons hc, List.takeWhile_cons, List.takeWhile_cons, ih]
      split_ifs
      · rw [crlf_cons hc]
      · rfl

theorem dropWhile_crlf (hp : p '\r' = p '\n') (t : Text) :
    (crlf t).dropWhile p = crlf (t.dropWhile p) := by
  induction t with
  | nil => rfl
  | cons c t ih =>
    by_cases hc : c = '\n'
    · subst hc
      cases hn : p '\n' <;> simp [hn, hp, ih]
    · rw [crlf_cons hc, List.dropWhile_cons, List.dropWhile_cons, ih]
      split_ifs
      · rfl
      · rw [crlf_cons hc]

/-- A run of a class without newlines is the same run. -/
theorem takeWhile_crlf_of_not (hr : p '\r' = false) (hn : p '\n' = false) (t : Text) :
    (crlf t).takeWhile p = t.takeWhile p := by
  rw [takeWhile_crlf (hr.trans hn.symm), crlf_of_forall]
  rintro c hc rfl
  rw [List.mem_takeWhile_imp hc] at hn
  cases hn

theorem head?_any_crlf (hp : p '\r' = p '\n') (t : Text) :
    (crlf t).head?.any p = t.head?.any p := by
  cases t with
  | nil => rfl
  | cons c t =>
    by_cases hc : c = '\n'
    · subst hc
      exact hp
    · rw [crlf_cons hc]
      rfl

end Classes

theorem after?_crlf {w : Text} (hr : '\r' ∉ w) (hn : '\n' ∉ w) (t : Text) :
    after? w (crlf t) = (after? w t).map crlf := by
  induction w generalizing t with
  | nil => rfl
  | cons a w ih =>
    rw [List.mem_cons, not_or] at hr hn
    cases t with
    | nil => rfl
    | cons c t =>
      by_cases hc : c = '\n'
      · subst hc
        rw [crlf_newline, after?, after?, if_neg (Ne.symm hr.1), if_neg (Ne.symm hn.1)]
        rfl
      · rw [crlf_cons hc, after?, after?, ih hr.2 hn.2]
        split_ifs <;> rfl

/-- The carriage return that comes before the newline at the head of a text, if there is one. -/
def returnAhead : Text → Text
  | '\n' :: _ => ['\r']
  | _ => []

theorem returnAhead_cons {c : Char} (hc : c ≠ '\n') (t : Text) : returnAhead (c :: t) = [] := by
  unfold returnAhead
  split
  · rename_i heq
    exact absurd (List.cons.inj heq).1 hc
  · rfl

theorem restOfLine_cons {c : Char} (hc : c ≠ '\n') (t : Text) :
    restOfLine (c :: t) = c :: restOfLine t :=
  List.takeWhile_cons_of_pos (by simpa using hc)

/-- A line of the text ends with the carriage return of its line end. -/
theorem restOfLine_crlf (t : Text) :
    restOfLine (crlf t) = restOfLine t ++ returnAhead (t.dropWhile (· != '\n')) := by
  induction t with
  | nil => rfl
  | cons c t ih =>
    by_cases hc : c = '\n'
    · subst hc
      rfl
    · rw [crlf_cons hc, restOfLine_cons hc, restOfLine_cons hc, ih,
        List.dropWhile_cons_of_pos (by simpa using hc), List.cons_append]

/-- Where an offset of the text is carried to. -/
def crlfOffset (text : Text) (p : Nat) : Nat := p + (text.take p).count '\n'

theorem length_crlf_eq_crlfOffset (text : Text) :
    (crlf text).length = crlfOffset text text.length := by
  rw [length_crlf, crlfOffset, List.take_length]

theorem length_crlf_le_crlfOffset {text : Text} {p : Nat} (h : text.length ≤ p) :
    (crlf text).length ≤ crlfOffset text p := by
  rw [length_crlf, crlfOffset, List.take_of_length_le h]
  omega

theorem length_crlf_take {text : Text} {p : Nat} (hp : p ≤ text.length) :
    (crlf (text.take p)).length = crlfOffset text p := by
  rw [length_crlf, List.length_take, Nat.min_eq_left hp, crlfOffset]

theorem take_crlfOffset {text : Text} {p : Nat} (hp : p ≤ text.length) :
    (crlf text).take (crlfOffset text p) = crlf (text.take p) := by
  have hcut := crlf_append (text.take p) (text.drop p)
  rw [List.take_append_drop] at hcut
  rw [hcut, List.take_left' (length_crlf_take hp)]

theorem drop_crlfOffset (text : Text) (p : Nat) :
    (crlf text).drop (crlfOffset text p) = crlf (text.drop p) := by
  by_cases hp : p ≤ text.length
  · have hcut := crlf_append (text.take p) (text.drop p)
    rw [List.take_append_drop] at hcut
    rw [hcut, List.drop_left' (length_crlf_take hp)]
  · have hle : text.length ≤ p := by omega
    rw [List.drop_eq_nil_iff.2 hle, List.drop_eq_nil_iff.2 (length_crlf_le_crlfOffset hle)]
    rfl

/-- The characters from one offset to the next are carried along. -/
theorem crlfOffset_add_length {text u v : Text} {p : Nat} (hd : text.drop p = u ++ v) :
    crlfOffset text (p + u.length) = crlfOffset text p + (crlf u).length := by
  rw [crlfOffset, crlfOffset, take_add_length hd, List.count_append, length_crlf]
  omega

/-- Whether a line starts at an offset is not changed. -/
theorem startsLine_crlf {text : Text} {p : Nat} (hp : p ≤ text.length) :
    Header.startsLine (crlf text) (crlfOffset text p) = Header.startsLine text p := by
  rw [Header.startsLine, Header.startsLine, take_crlfOffset hp, getLast?_crlf]

/-- Lines with a carriage return at the end of each but the last. -/
def withReturns : List Text → List Text
  | [] => []
  | [l] => [l]
  | l :: m :: ls => (l ++ ['\r']) :: withReturns (m :: ls)

theorem lines_crlf (t : Text) : lines (crlf t) = withReturns (lines t) := by
  induction t with
  | nil => rfl
  | cons c t ih =>
    by_cases hc : c = '\n'
    · subst hc
      have hcut : lines ('\r' :: '\n' :: crlf t) = ['\r'] :: lines (crlf t) :=
        @splitWhere_append_cons (· == '\n') '\n' rfl ['\r'] (crlf t)
      have hcut' : lines ('\n' :: t) = [] :: lines t := rfl
      rw [crlf_newline, hcut, hcut', ih, lines_eq_cons t]
      rfl
    · have hcut : ∀ u, lines (c :: u) = (c :: restOfLine u) :: (lines u).tail := by
        intro u
        have htail : (lines (c :: u)).tail = (lines u).tail := by
          rw [lines, splitOn, splitWhere, if_neg (by simpa using hc)]
          split
          · rename_i heq
            exact absurd heq (splitWhere_ne_nil _ u)
          · rename_i heq
            rw [lines, splitOn, heq]
            rfl
        rw [lines_eq_cons, restOfLine_cons hc, htail]
      rw [lines_eq_cons (crlf t), lines_eq_cons t] at ih
      rw [crlf_cons hc, hcut, hcut]
      generalize (lines t).tail = ls at ih ⊢
      cases ls
      all_goals
        obtain ⟨hhead, htail⟩ := List.cons.inj ih
        rw [hhead, htail]
        rfl

/-- The second text is the first one, perhaps with a carriage return after it. -/
def EndsAlike (t u : Text) : Prop := u = t ∨ u = t ++ ['\r']

theorem endsAlike_restOfLine (t : Text) : EndsAlike (restOfLine t) (restOfLine (crlf t)) := by
  rw [restOfLine_crlf]
  unfold returnAhead
  split
  · exact .inr rfl
  · exact .inl (List.append_nil _)

theorem after?_append_return {w : Text} (hw : '\r' ∉ w) (t : Text) :
    after? w (t ++ ['\r']) = (after? w t).map (· ++ ['\r']) := by
  induction w generalizing t with
  | nil => rfl
  | cons a w ih =>
    rw [List.mem_cons, not_or] at hw
    cases t with
    | nil =>
      change (if a = '\r' then after? w [] else none) = none
      rw [if_neg (Ne.symm hw.1)]
    | cons c t =>
      rw [List.cons_append, after?, after?, ih hw.2]
      split_ifs <;> rfl

namespace EndsAlike

variable {t u : Text}

theorem append (h : EndsAlike t u) (s : Text) : EndsAlike (s ++ t) (s ++ u) := by
  rcases h with rfl | rfl
  · exact .inl rfl
  · exact .inr (List.append_assoc _ _ _).symm

/-- White space at the end is trimmed, carriage return or not. -/
theorem trimRight (h : EndsAlike t u) : Text.trimRight u = Text.trimRight t := by
  rcases h with rfl | rfl
  · rfl
  · rw [Text.trimRight, List.reverse_append]
    rfl

end EndsAlike

end Text

namespace Header

/-- A carriage return at the end of a line is no comment sign and closes no quote. -/
theorem endsAlike_dropCommentFrom (quote : Option Char) (l : Text) :
    EndsAlike (dropCommentFrom quote l) (dropCommentFrom quote (l ++ ['\r'])) := by
  induction l generalizing quote with
  | nil => cases quote <;> exact .inr rfl
  | cons c l ih =>
    cases quote with
    | some q => exact (ih (if c = q then none else some q)).append [c]
    | none =>
      rw [List.cons_append, dropCommentFrom, dropCommentFrom]
      split_ifs
      · exact .inl rfl
      · exact (ih _).append [c]
      · exact (ih _).append [c]

theorem beforeDots?_append_return (l : Text) : beforeDots? (l ++ ['\r']) = beforeDots? l := by
  induction l with
  | nil => rfl
  | cons c l ih =>
    have hdots := after?_append_return (w := "...".toList) (by decide) (c :: l)
    rw [List.cons_append] at hdots
    rw [List.cons_append, beforeDots?, beforeDots?, hdots, ih, Option.isSome_map]

theorem beforeDots?_of_endsAlike {t u : Text} (h : EndsAlike t u) :
    beforeDots? u = beforeDots? t := by
  rcases h with rfl | rfl
  · rfl
  · exact beforeDots?_append_return t

/-- A logical line is joined from the same pieces, and ends before the same newline. -/
theorem joinContinued_withReturns {ls : List Text} (hls : ∀ l ∈ ls, ∀ c ∈ l, c ≠ '\n') :
    EndsAlike (joinContinued ls).1 (joinContinued (withReturns ls)).1 ∧
      (joinContinued (withReturns ls)).2 =
        (crlf ((joinWith ['\n'] ls).take (joinContinued ls).2)).length +
          (returnAhead ((joinWith ['\n'] ls).drop (joinContinued ls).2)).length := by
  induction ls with
  | nil => exact ⟨.inl rfl, rfl⟩
  | cons l ls ih =>
    obtain ⟨hl, hls⟩ := List.forall_mem_cons.1 hls
    cases ls with
    | nil =>
      refine ⟨.inl rfl, ?_⟩
      change l.length = (crlf (l.take l.length)).length + (returnAhead (l.drop l.length)).length
      rw [List.take_length, crlf_of_forall hl, List.drop_length]
      rfl
    | cons m ls =>
      obtain ⟨hjoin, hlength⟩ := ih hls
      have hcomment : EndsAlike (dropComment l) (dropComment (l ++ ['\r'])) :=
        endsAlike_dropCommentFrom none l
      have hdots := beforeDots?_of_endsAlike hcomment
      obtain ⟨n, ns, hns⟩ : ∃ n ns, withReturns (m :: ls) = n :: ns := by
        cases ls <;> exact ⟨_, _, rfl⟩
      have htext : joinWith ['\n'] (l :: m :: ls) = l ++ '\n' :: joinWith ['\n'] (m :: ls) := by
        rw [joinWith_cons_cons, List.append_assoc]
        rfl
      rw [withReturns, hns, htext]
      rw [hns] at hjoin hlength
      cases hcode : beforeDots? (dropComment l) with
      | none =>
        have hleft : joinContinued (l :: m :: ls) = (dropComment l, l.length) := by
          rw [joinContinued, hcode]
        have hright : joinContinued ((l ++ ['\r']) :: n :: ns) =
            (dropComment (l ++ ['\r']), (l ++ ['\r']).length) := by
          rw [joinContinued, hdots, hcode]
        rw [hleft, hright]
        refine ⟨hcomment, ?_⟩
        simp only [List.take_left, List.drop_left, crlf_of_forall hl, List.length_append]
        rfl
      | some code =>
        have hleft : joinContinued (l :: m :: ls) = (code ++ ' ' :: (joinContinued (m :: ls)).1,
            l.length + 1 + (joinContinued (m :: ls)).2) := by
          rw [joinContinued, hcode]
        have hright : joinContinued ((l ++ ['\r']) :: n :: ns) =
            (code ++ ' ' :: (joinContinued (n :: ns)).1,
              (l ++ ['\r']).length + 1 + (joinContinued (n :: ns)).2) := by
          rw [joinContinued, hdots, hcode]
        rw [hleft, hright]
        refine ⟨(hjoin.append [' ']).append code, ?_⟩
        simp only [Nat.add_assoc, List.take_length_add_append, List.drop_length_add_append,
          Nat.add_comm 1, List.take_succ_cons, List.drop_succ_cons, crlf_append,
          crlf_of_forall hl, crlf_newline, List.length_append, List.length_cons, hlength]
        simp only [List.length_nil]
        omega

theorem logicalLine_crlf (t : Text) :
    EndsAlike (logicalLine t).1 (logicalLine (crlf t)).1 ∧
      (logicalLine (crlf t)).2 = (crlf (t.take (logicalLine t).2)).length +
        (returnAhead (t.drop (logicalLine t).2)).length := by
  have h := joinContinued_withReturns (ne_newline_of_mem_lines (t := t))
  have htext : joinWith ['\n'] (lines t) = t := joinWith_splitOn '\n' t
  rw [← lines_crlf, htext] at h
  exact h

theorem untilClosed?_append_return (depth : Nat) (t : Text) :
    untilClosed? depth (t ++ ['\r']) = untilClosed? depth t := by
  induction t generalizing depth with
  | nil => rfl
  | cons c t ih => simp only [List.cons_append, untilClosed?, ih]

theorem parameterClause_of_parenthesis {t v : Text} (h : trimLeft t = '(' :: v) :
    parameterClause t = '(' :: (untilClosed? 1 v).getD v := by
  rw [parameterClause, h]
  rfl

/-- The parameter list is the same, apart from a carriage return after it. -/
theorem endsAlike_parameterClause {t u : Text} (h : EndsAlike t u) :
    EndsAlike (parameterClause t) (parameterClause u) := by
  rcases h with rfl | rfl
  · exact .inl rfl
  · by_cases hspace : ∀ c ∈ t, isSpace c = true
    · have hleft : trimLeft t = [] := List.dropWhile_eq_nil_iff.2 hspace
      have hright : trimLeft (t ++ ['\r']) = [] := by
        rw [trimLeft, List.dropWhile_append_of_pos hspace]
        rfl
      rw [parameterClause, parameterClause, hleft, hright]
      exact .inr rfl
    · have htrim : trimLeft (t ++ ['\r']) = trimLeft t ++ ['\r'] := by
        rw [trimLeft, trimLeft, List.dropWhile_append, if_neg]
        rw [List.isEmpty_iff, List.dropWhile_eq_nil_iff]
        exact hspace
      have hne : trimLeft t ≠ [] := fun hnil => hspace (List.dropWhile_eq_nil_iff.1 hnil)
      obtain ⟨c, v, hv⟩ := List.exists_cons_of_ne_nil hne
      rw [hv, List.cons_append] at htrim
      by_cases hc : c = '('
      · subst hc
        rw [parameterClause_of_parenthesis hv, parameterClause_of_parenthesis htrim,
          untilClosed?_append_return]
        cases untilClosed? 1 v with
        | none => exact .inr rfl
        | some w => exact .inl rfl
      · have hplain : ∀ x y : Text, trimLeft x = c :: y → parameterClause x = x := by
          intro x y hx
          rw [parameterClause, hx]
          split
          · rename_i heq
            exact absurd (List.cons.inj heq).1 hc
          · rfl
        rw [hplain t v hv, hplain _ _ htrim]
        exact .inr rfl

/-- No name of a clause holds a carriage return. -/
theorem clauseNames_of_endsAlike {t u : Text} (h : EndsAlike t u) :
    clauseNames u = clauseNames t := by
  rcases h with rfl | rfl
  · rfl
  · rw [clauseNames_append_cons (by decide)]
    exact List.append_nil _

theorem clauseNames_append_crlf (t u : Text) :
    clauseNames (t ++ crlf u) = clauseNames (t ++ u) := by
  induction u generalizing t with
  | nil => rfl
  | cons c u ih =>
    by_cases hc : c = '\n'
    · subst hc
      have hsep : isClauseSeparator '\r' = true ∧ isClauseSeparator '\n' = true := by decide
      have hrest := ih []
      rw [List.nil_append, List.nil_append] at hrest
      rw [crlf_newline, clauseNames_append_cons hsep.1, clauseNames_append_cons hsep.2, ← hrest]
      exact congrArg _ (clauseNames_append_cons hsep.2 [] (crlf u))
    · have hnext := ih (t ++ [c])
      rw [crlf_cons hc]
      simpa using hnext

/-- The names in a clause are the same when it goes on over several lines. -/
theorem clauseNames_crlf (t : Text) : clauseNames (crlf t) = clauseNames t :=
  clauseNames_append_crlf [] t

end Header

namespace Docstring

/-- What a way of finding the comment gives, perhaps with a carriage return after it. -/
def SameComment (a b : Option Text) : Prop := Option.Rel EndsAlike a b

theorem sameComment_comment? (t : Text) : SameComment (comment? t) (comment? (crlf t)) := by
  cases t with
  | nil => exact .none
  | cons c t =>
    by_cases hn : c = '\n'
    · subst hn
      exact .none
    · rw [crlf_cons hn]
      by_cases hc : c = '%'
      · subst hc
        rw [← crlf_cons (by decide)]
        have hright : comment? (crlf ('%' :: t)) =
            some (restOfLine (crlf ((('%' :: t).dropWhile (· == '%')).dropWhile isBlank))) := by
          rw [← dropWhile_crlf (by decide), ← dropWhile_crlf (by decide)]
          rfl
        rw [hright]
        exact .some (endsAlike_restOfLine _)
      · rw [comment?_of_ne hc, comment?_of_ne hc]
        exact .none

theorem tagged?_of_percent {t u : Text} (h : t.dropWhile isBlank = '%' :: u) :
    tagged? ('\n' :: t) =
      if u.head?.any isTagChar && (u.dropWhile isTagChar).head?.any isBlank then
        some (restOfLine ((u.dropWhile isTagChar).dropWhile isBlank))
      else none := by
  simp only [tagged?, afterFirst?, if_true, Option.map_some, h]

theorem tagged?_of_ne {t : Text} (h : ∀ u, t.dropWhile isBlank ≠ '%' :: u) :
    tagged? ('\n' :: t) = none := by
  simp only [tagged?, afterFirst?, if_true, Option.map_some]
  split
  · rename_i u heq
    exact absurd (Option.some.inj heq) (h u)
  · rfl

theorem sameComment_tagged? (t : Text) :
    SameComment (tagged? ('\n' :: t)) (tagged? ('\n' :: crlf t)) := by
  have hblank := dropWhile_crlf (p := isBlank) (by decide) t
  by_cases hu : ∃ u, t.dropWhile isBlank = '%' :: u
  · obtain ⟨u, hu⟩ := hu
    rw [hu, crlf_cons (by decide)] at hblank
    rw [tagged?_of_percent hu, tagged?_of_percent hblank]
    simp only [dropWhile_crlf (p := isTagChar) (by decide),
      dropWhile_crlf (p := isBlank) (by decide), head?_any_crlf (p := isTagChar) (by decide),
      head?_any_crlf (p := isBlank) (by decide)]
    split_ifs
    · exact .some (endsAlike_restOfLine _)
    · exact .none
  · have hne : ∀ u, (crlf t).dropWhile isBlank ≠ '%' :: u := by
      intro u heq
      rw [hblank] at heq
      cases hd : t.dropWhile isBlank with
      | nil =>
        rw [hd] at heq
        cases heq
      | cons c v =>
        rw [hd] at heq
        by_cases hn : c = '\n'
        · subst hn
          cases heq
        · rw [crlf_cons hn] at heq
          rw [(List.cons.inj heq).1] at hd
          exact hu ⟨v, hd⟩
    rw [tagged?_of_ne (not_exists.1 hu), tagged?_of_ne hne]
    exact .none

theorem sameComment_plain? (t : Text) :
    SameComment (plain? ('\n' :: t)) (plain? ('\n' :: crlf t)) := by
  have h := sameComment_comment? (t.dropWhile isBlank)
  rwa [← dropWhile_crlf (by decide)] at h

theorem sameComment_first? (t : Text) :
    SameComment (first? ('\n' :: t)) (first? ('\n' :: crlf t)) := by
  have h := sameComment_comment? (t.dropWhile isSpace)
  rwa [← dropWhile_crlf (by decide)] at h

/-- The first of several candidates is the same comment. -/
theorem sameComment_findSome? {as bs : List (Option Text)} (h : List.Forall₂ SameComment as bs) :
    SameComment (as.findSome? id) (bs.findSome? id) := by
  induction h with
  | nil => exact .none
  | cons hab _ ih =>
    cases hab with
    | none => exact ih
    | some hab => exact .some hab

/-- The description below a line is the same with both kinds of line ends. -/
theorem find?_crlf {text text' : Text} {p p' : Nat}
    (hd : text.drop p = [] ∧ text'.drop p' = [] ∨
      ∃ u, text.drop p = '\n' :: u ∧ text'.drop p' = '\n' :: crlf u) :
    find? text' p' = find? text p := by
  have hcandidates : SameComment ((candidates text p).findSome? id)
      ((candidates text' p').findSome? id) := by
    rcases hd with ⟨hd, hd'⟩ | ⟨u, hd, hd'⟩
    · simp only [candidates, Int.toNat_natCast, fromEnd_natCast, hd, hd']
      exact .none
    · rw [candidates_of_drop hd, candidates_of_drop hd']
      apply sameComment_findSome?
      exact .cons (sameComment_tagged? u) (.cons (sameComment_plain? u)
        (.cons (sameComment_first? u) .nil))
  rw [find?, find?]
  generalize (candidates text p).findSome? id = a, (candidates text' p').findSome? id = b
    at hcandidates
  cases hcandidates with
  | none => rfl
  | some h => simp only [h.trimRight]

end Docstring
end MatlabOutline
