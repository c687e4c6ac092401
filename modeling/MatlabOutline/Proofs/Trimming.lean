import MatlabOutline.Proofs.Characters

/-! Trimming. What is left of a text neither begins nor ends with white space, and a part of a text
is, once trimmed, a part of the trimmed text. -/
namespace MatlabOutline.Text

/-- The text ends in no white space. -/
def EndsInk (t : Text) : Prop := ∀ c ∈ t.getLast?, isSpace c = false

theorem trimRight_isPrefix (t : Text) : trimRight t <+: t := by
  have hsuffix := List.dropWhile_suffix isSpace (l := t.reverse)
  rwa [← List.reverse_prefix, List.reverse_reverse] at hsuffix

theorem endsInk_trimRight (t : Text) : EndsInk (trimRight t) := by
  intro c hc
  rw [trimRight, List.getLast?_reverse] at hc
  exact notAhead_dropWhile isSpace t.reverse c hc

/-- A part of a text that begins with no white space is kept when the text is trimmed on the
left. -/
theorem infix_trimLeft {u v : Text} (h : u <:+: v) (hu : NotAhead isSpace u) :
    u <:+: trimLeft v := by
  obtain ⟨a, b, rfl⟩ := h
  cases u with
  | nil => exact List.nil_infix
  | cons c u =>
    have hrest : (c :: u ++ b).dropWhile isSpace = c :: u ++ b :=
      dropWhile_run (u := []) (by simp) (notAhead_cons (hu c rfl))
    rw [trimLeft, List.append_assoc, List.dropWhile_append, hrest]
    split_ifs
    · exact ⟨[], b, rfl⟩
    · exact ⟨a.dropWhile isSpace, b, List.append_assoc _ _ _⟩

theorem infix_trimRight {u v : Text} (h : u <:+: v) (hu : EndsInk u) : u <:+: trimRight v := by
  have hhead : NotAhead isSpace u.reverse := by
    intro c hc
    rw [List.head?_reverse] at hc
    exact hu c hc
  have hleft := infix_trimLeft (List.reverse_infix.2 h) hhead
  rwa [← List.reverse_infix, List.reverse_reverse] at hleft

theorem trim_isInfix (t : Text) : trim t <:+: t :=
  (trimRight_isPrefix _).isInfix.trans (List.dropWhile_suffix isSpace).isInfix

theorem notAhead_trim (t : Text) : NotAhead isSpace (trim t) := by
  intro c hc
  obtain ⟨v, hv⟩ := trimRight_isPrefix (trimLeft t)
  apply notAhead_dropWhile isSpace t c
  change (trimLeft t).head? = some c
  rw [trim, Option.mem_def] at hc
  rw [← hv, List.head?_append, hc]
  rfl

/-- Trimming keeps parts. -/
theorem trim_isInfix_trim {u v : Text} (h : u <:+: v) : trim u <:+: trim v := by
  have hleft : trim u <:+: trimLeft v :=
    infix_trimLeft ((trim_isInfix u).trans h) (notAhead_trim u)
  exact infix_trimRight hleft (endsInk_trimRight _)

end MatlabOutline.Text
