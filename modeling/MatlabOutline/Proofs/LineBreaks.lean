import Mathlib.Data.List.Basic
import MatlabOutline.Proofs.Characters

/-! Lines under every kind of line break. Texts that are joined by newlines fall into the lines that
each of them falls into by itself, provided that none of them ends at a line break; and such a text
is a single line exactly if it holds no line break at all. -/
namespace MatlabOutline.Text

/-- No line break stands in the text. -/
def Unbroken (t : Text) : Prop := ∀ c ∈ t, isLineBreak c = false

instance (t : Text) : Decidable (Unbroken t) :=
  List.decidableBAll (fun c => isLineBreak c = false) t

/-- The text ends within a line that is not empty. -/
def EndsUnbroken (t : Text) : Prop := ∃ c, t.getLast? = some c ∧ isLineBreak c = false

section Characters

variable {c : Char}

theorem isLineBreak_of_isBlank (h : isBlank c = true) : isLineBreak c = false := by
  simp only [isBlank, Bool.or_eq_true, beq_iff_eq] at h
  rcases h with rfl | rfl <;> decide

theorem isSpace_of_isLineBreak (h : isLineBreak c = true) : isSpace c = true := by
  simp only [isLineBreak, isSpace, inRanges, List.any_cons, List.any_nil, Bool.or_false,
    Bool.or_eq_true, Bool.and_eq_true, decide_eq_true_eq] at h ⊢
  omega

theorem isLineBreak_of_not_isSpace (h : isSpace c = false) : isLineBreak c = false := by
  rw [Bool.eq_false_iff]
  intro hc
  rw [isSpace_of_isLineBreak hc] at h
  cases h

theorem isLineBreak_of_isWord (h : isWord c = true) : isLineBreak c = false :=
  isLineBreak_of_not_isSpace (eq_false_of_isWord isWord_of_isSpace h)

end Characters

section Unbroken

variable {t u : Text}

theorem unbroken_append_iff : Unbroken (t ++ u) ↔ Unbroken t ∧ Unbroken u := List.forall_mem_append

theorem unbroken_cons_iff {c : Char} : Unbroken (c :: t) ↔ isLineBreak c = false ∧ Unbroken t :=
  List.forall_mem_cons

theorem EndsUnbroken.append (h : EndsUnbroken u) (t : Text) : EndsUnbroken (t ++ u) := by
  obtain ⟨c, hlast, hc⟩ := h
  exact ⟨c, by rw [List.getLast?_append, hlast, Option.some_or], hc⟩

theorem Unbroken.endsUnbroken (h : Unbroken t) (hne : t ≠ []) : EndsUnbroken t :=
  ⟨t.getLast hne, List.getLast?_eq_some_getLast hne, h _ (List.getLast_mem hne)⟩

theorem not_endsUnbroken_nil : ¬ EndsUnbroken [] := by
  rintro ⟨c, hc, -⟩
  cases hc

theorem EndsUnbroken.ne_nil (h : EndsUnbroken t) : t ≠ [] := by
  rintro rfl
  exact not_endsUnbroken_nil h

theorem endsUnbroken_singleton_iff {c : Char} : EndsUnbroken [c] ↔ isLineBreak c = false := by
  simp [EndsUnbroken]

theorem endsUnbroken_cons_cons_iff {c d : Char} :
    EndsUnbroken (c :: d :: t) ↔ EndsUnbroken (d :: t) := by
  rw [EndsUnbroken, List.getLast?_cons_cons]
  rfl

theorem EndsUnbroken.of_cons {c : Char} (h : EndsUnbroken (c :: t)) (hc : isLineBreak c = true) :
    EndsUnbroken t := by
  cases t with
  | nil =>
    rw [endsUnbroken_singleton_iff, hc] at h
    cases h
  | cons d t => exact endsUnbroken_cons_cons_iff.1 h

end Unbroken

theorem splitLines_cons {c : Char} (hc : isLineBreak c = false) (t : Text) :
    splitLines (c :: t) = (c :: (splitLines t).headD []) :: (splitLines t).tail := by
  have hr : c ≠ '\r' := by
    rintro rfl
    exact absurd hc (by decide)
  cases t with
  | nil => simp [splitLines, hc]
  | cons d t =>
    rw [splitLines, if_neg (fun h => hr h.1), if_neg (by simp [hc])]
    cases splitLines (d :: t) <;> rfl

/-- A line break ends an empty line, if it is not the first half of a longer one. -/
theorem splitLines_break {c : Char} {t : Text} (hc : isLineBreak c = true)
    (ht : c = '\r' → t.head? ≠ some '\n') : splitLines (c :: t) = [] :: splitLines t := by
  cases t with
  | nil => simp [splitLines, hc]
  | cons d t =>
    rw [splitLines, if_neg, if_pos hc]
    rintro ⟨hr, rfl⟩
    exact ht hr rfl

theorem splitLines_ne_nil {t : Text} (h : t ≠ []) : splitLines t ≠ [] := by
  obtain ⟨c, u, rfl⟩ := List.exists_cons_of_ne_nil h
  cases hc : isLineBreak c with
  | false => simp [splitLines_cons hc]
  | true =>
    cases u with
    | nil => simp [splitLines, hc]
    | cons d u =>
      rw [splitLines, if_pos hc]
      split_ifs <;> simp

/-- What stands before the first line break is part of the first line. -/
theorem exists_splitLines_append {u : Text} {c : Char} (hu : ∀ d ∈ u, isLineBreak d = false)
    (hc : isLineBreak c = false) (t : Text) :
    ∃ l ls, splitLines (u ++ c :: t) = (u ++ c :: l) :: ls := by
  induction u with
  | nil => exact ⟨_, _, splitLines_cons hc t⟩
  | cons d u ih =>
    obtain ⟨hd, hu⟩ := List.forall_mem_cons.1 hu
    obtain ⟨l, ls, hls⟩ := ih hu
    exact ⟨l, ls, by rw [List.cons_append, splitLines_cons hd, hls]; rfl⟩

theorem unbroken_of_mem_splitLines {t : Text} : ∀ l ∈ splitLines t, Unbroken l := by
  fun_induction splitLines t with
  | case1 => simp
  | case2 c hc => simp [Unbroken]
  | case3 c hc => simpa [Unbroken] using hc
  | case4 c d t _ ih => exact List.forall_mem_cons.2 ⟨by simp [Unbroken], ih⟩
  | case5 c d t _ _ ih => exact List.forall_mem_cons.2 ⟨by simp [Unbroken], ih⟩
  | case6 c d t _ hc hnil ih => simpa [Unbroken] using hc
  | case7 c d t _ hc l ls hls ih =>
    rw [hls] at ih
    obtain ⟨hl, hls⟩ := List.forall_mem_cons.1 ih
    exact List.forall_mem_cons.2 ⟨unbroken_cons_iff.2 ⟨by simpa using hc, hl⟩, hls⟩

/-- A newline after a line that is not empty only parts what stands before it from what follows. -/
theorem splitLines_append_newline {u : Text} (hu : EndsUnbroken u) (v : Text) :
    splitLines (u ++ '\n' :: v) = splitLines u ++ splitLines v := by
  fun_induction splitLines u with
  | case1 => exact absurd hu not_endsUnbroken_nil
  | case2 c hc => exact absurd (hu.of_cons hc) not_endsUnbroken_nil
  | case3 c hc =>
    rw [List.singleton_append, splitLines_cons (by simpa using hc),
      splitLines_break (by decide) (fun h => absurd h (by decide))]
    rfl
  | case4 c d t hcd ih =>
    have ht : EndsUnbroken t :=
      (hu.of_cons (by rw [hcd.1]; decide)).of_cons (by rw [hcd.2]; decide)
    rw [List.cons_append, List.cons_append, splitLines, if_pos hcd, ih ht]
    rfl
  | case5 c d t hcd hc ih =>
    rw [List.cons_append, List.cons_append, splitLines, if_neg hcd, if_pos hc, ← List.cons_append,
      ih (hu.of_cons hc)]
    rfl
  | case6 c d t _ _ hnil => exact absurd hnil (splitLines_ne_nil (List.cons_ne_nil d t))
  | case7 c d t _ hc l ls hls ih =>
    rw [List.cons_append, splitLines_cons (by simpa using hc),
      ih (endsUnbroken_cons_cons_iff.1 hu), hls]
    rfl

/-- Joined texts fall into the lines of each of them. -/
theorem splitLines_joinWith {ts : List Text} (h : ∀ t ∈ ts, EndsUnbroken t) :
    splitLines (joinWith ['\n'] ts) = ts.flatMap splitLines := by
  induction ts with
  | nil => rfl
  | cons t ts ih =>
    obtain ⟨ht, hts⟩ := List.forall_mem_cons.1 h
    cases ts with
    | nil => simp [joinWith]
    | cons u ts =>
      rw [joinWith_cons_cons, List.append_assoc, List.singleton_append,
        splitLines_append_newline ht, ih hts]
      rfl

theorem splitLines_of_unbroken {t : Text} (h : Unbroken t) (hne : t ≠ []) : splitLines t = [t] := by
  induction t with
  | nil => exact absurd rfl hne
  | cons c t ih =>
    obtain ⟨hc, ht⟩ := unbroken_cons_iff.1 h
    rw [splitLines_cons hc]
    cases t with
    | nil => rfl
    | cons d t =>
      rw [ih ht (List.cons_ne_nil d t)]
      rfl

/-- A line break within a text makes a second line. -/
theorem length_splitLines_eq_one_iff {t : Text} (ht : EndsUnbroken t) :
    (splitLines t).length = 1 ↔ Unbroken t := by
  have hmore : ∀ {u : Text}, EndsUnbroken u → ([] :: splitLines u).length ≠ 1 := by
    intro u hu
    have hpos := List.length_pos_iff.2 (splitLines_ne_nil hu.ne_nil)
    rw [List.length_cons]
    omega
  constructor
  · intro hone
    fun_induction splitLines t with
    | case1 => cases hone
    | case2 c hc => exact absurd (ht.of_cons hc) not_endsUnbroken_nil
    | case3 c hc => simpa [Unbroken] using hc
    | case4 c d t hcd =>
      have hd := ht.of_cons (by rw [hcd.1]; decide)
      exact absurd hone (hmore (hd.of_cons (by rw [hcd.2]; decide)))
    | case5 c d t _ hc => exact absurd hone (hmore (ht.of_cons hc))
    | case6 c d t _ _ hnil => exact absurd hnil (splitLines_ne_nil (List.cons_ne_nil d t))
    | case7 c d t _ hc l ls hls ih =>
      rw [hls] at ih
      exact unbroken_cons_iff.2 ⟨by simpa using hc, ih (endsUnbroken_cons_cons_iff.1 ht) hone⟩
  · intro h
    rw [splitLines_of_unbroken h ht.ne_nil, List.length_singleton]

section Several

variable {ts : List Text}

theorem length_le_length_flatMap_splitLines (h : ∀ t ∈ ts, EndsUnbroken t) :
    ts.length ≤ (ts.flatMap splitLines).length := by
  induction ts with
  | nil => exact Nat.le_refl 0
  | cons t ts ih =>
    obtain ⟨ht, hts⟩ := List.forall_mem_cons.1 h
    have hpos := List.length_pos_iff.2 (splitLines_ne_nil ht.ne_nil)
    have hrest := ih hts
    rw [List.flatMap_cons, List.length_append, List.length_cons]
    omega

/-- There are no more lines than texts exactly if each text is a line. -/
theorem length_flatMap_splitLines_eq_iff (h : ∀ t ∈ ts, EndsUnbroken t) :
    (ts.flatMap splitLines).length = ts.length ↔ ∀ t ∈ ts, Unbroken t := by
  induction ts with
  | nil => simp
  | cons t ts ih =>
    obtain ⟨ht, hts⟩ := List.forall_mem_cons.1 h
    have hpos := List.length_pos_iff.2 (splitLines_ne_nil ht.ne_nil)
    have hrest := length_le_length_flatMap_splitLines hts
    rw [List.forall_mem_cons, ← length_splitLines_eq_one_iff ht, List.flatMap_cons,
      List.length_append, List.length_cons]
    refine Iff.trans ?_ (and_congr_right fun _ => ih hts)
    omega

theorem flatMap_splitLines_eq_iff (h : ∀ t ∈ ts, EndsUnbroken t) :
    ts.flatMap splitLines = ts ↔ ∀ t ∈ ts, Unbroken t := by
  constructor
  · intro heq
    exact (length_flatMap_splitLines_eq_iff h).1 (by rw [heq])
  · intro hall
    have hone : ∀ t ∈ ts, splitLines t = [t] :=
      fun t ht => splitLines_of_unbroken (hall t ht) (h t ht).ne_nil
    rw [List.flatMap_congr hone, List.flatMap_singleton']

end Several

end MatlabOutline.Text
