import MatlabOutline.Proofs.Characters

/-! Lines. A text is cut into lines at its newlines and is put together from them again, and the
first of them is what stands before the first newline. -/
namespace MatlabOutline.Text

/-- A line ends here, or the text. -/
def AtLineEnd (t : Text) : Prop := ∀ c ∈ t.head?, c = '\n'

theorem atLineEnd_dropWhile (t : Text) : AtLineEnd (t.dropWhile (· != '\n')) := by
  intro c hc
  simpa using notAhead_dropWhile (· != '\n') t c hc

theorem AtLineEnd.notAhead {t : Text} (h : AtLineEnd t) : NotAhead (· != '\n') t := by
  intro c hc
  simpa using h c hc

theorem ne_newline_of_mem_restOfLine {t : Text} : ∀ c ∈ restOfLine t, c ≠ '\n' := by
  intro c hc
  simpa using List.mem_takeWhile_imp hc

/-- A line with its end after it. -/
theorem restOfLine_append {u v : Text} (hu : ∀ c ∈ u, c ≠ '\n') (hv : AtLineEnd v) :
    restOfLine (u ++ v) = u :=
  takeWhile_run (by simpa using hu) hv.notAhead

theorem restOfLine_restOfLine (t : Text) : restOfLine (restOfLine t) = restOfLine t := by
  have h := restOfLine_append (v := []) (ne_newline_of_mem_restOfLine (t := t)) (by simp [AtLineEnd])
  rwa [List.append_nil] at h

theorem ne_of_mem_splitWhere {sep : Char → Bool} {t : Text} :
    ∀ p ∈ splitWhere sep t, ∀ c ∈ p, sep c = false := by
  induction t with
  | nil => simp [splitWhere]
  | cons c t ih =>
    rw [splitWhere]
    split_ifs with hc
    · simpa using ih
    · split
      · simpa using hc
      · rename_i p ps hs
        obtain ⟨hp, hps⟩ := List.forall_mem_cons.1 (hs ▸ ih)
        refine List.forall_mem_cons.2 ⟨List.forall_mem_cons.2 ⟨?_, hp⟩, hps⟩
        simpa using hc

theorem ne_newline_of_mem_lines {t : Text} : ∀ l ∈ lines t, ∀ c ∈ l, c ≠ '\n' := by
  intro l hl c hc
  simpa using ne_of_mem_splitWhere l hl c hc

/-- Lines after the first one, each with the newline before it. -/
def furtherLines (ls : List Text) : Text := ls.flatMap ('\n' :: ·)

theorem atLineEnd_furtherLines (ls : List Text) : AtLineEnd (furtherLines ls) := by
  cases ls <;> simp [AtLineEnd, furtherLines]

theorem joinWith_newline (l : Text) (ls : List Text) :
    joinWith ['\n'] (l :: ls) = l ++ furtherLines ls := by
  induction ls generalizing l with
  | nil => simp [joinWith, furtherLines]
  | cons m ls ih =>
    rw [joinWith_cons_cons, ih, furtherLines, furtherLines, List.flatMap_cons]
    simp

/-- The lines of a text that is put together from lines. -/
theorem lines_append {u v : Text} {ls : List Text} (hu : ∀ c ∈ u, c ≠ '\n')
    (hls : ∀ l ∈ ls, ∀ c ∈ l, c ≠ '\n') (hv : AtLineEnd v) :
    lines (u ++ furtherLines ls ++ v) = u :: ls ++ (lines v).tail := by
  have hline : lines u = [u] := splitWhere_of_forall (by simpa using hu)
  induction ls generalizing u with
  | nil =>
    rw [furtherLines, List.flatMap_nil, List.append_nil]
    cases v with
    | nil => simpa [lines, splitOn, splitWhere] using hline
    | cons c v =>
      obtain rfl : c = '\n' := hv c rfl
      have hcut : lines (u ++ '\n' :: v) = lines u ++ lines v := splitWhere_append_cons rfl u v
      rw [hcut, hline]
      rfl
  | cons l ls ih =>
    obtain ⟨hl, hls⟩ := List.forall_mem_cons.1 hls
    have hcut : u ++ furtherLines (l :: ls) ++ v = u ++ '\n' :: (l ++ furtherLines ls ++ v) := by
      simp [furtherLines]
    have hsplit : lines (u ++ '\n' :: (l ++ furtherLines ls ++ v)) =
        lines u ++ lines (l ++ furtherLines ls ++ v) := splitWhere_append_cons rfl _ _
    rw [hcut, hsplit, hline, ih hl hls (splitWhere_of_forall (by simpa using hl))]
    rfl

/-- A text is its first line and the lines after it. -/
theorem lines_eq_cons (t : Text) : lines t = restOfLine t :: (lines t).tail := by
  have hcut : restOfLine t ++ furtherLines [] ++ t.dropWhile (· != '\n') = t := by
    simp [furtherLines, restOfLine, List.takeWhile_append_dropWhile]
  have h : lines (restOfLine t ++ furtherLines [] ++ t.dropWhile (· != '\n')) = _ :=
    lines_append ne_newline_of_mem_restOfLine (by simp) (atLineEnd_dropWhile t)
  rw [hcut] at h
  rw [h]
  rfl

theorem eq_restOfLine_append (t : Text) : t = restOfLine t ++ furtherLines (lines t).tail := by
  rw [← joinWith_newline, ← lines_eq_cons, lines, joinWith_splitOn]

theorem lines_cons {c : Char} {t l : Text} {ls : List Text} (hc : c ≠ '\n')
    (h : lines t = l :: ls) : lines (c :: t) = (c :: l) :: ls := by
  rw [lines, splitOn] at h ⊢
  rw [splitWhere, if_neg (by simpa using hc), h]

/-- The last line of a text goes on with the first line of what follows. -/
theorem lines_append_last {t l : Text} {ls : List Text} (h : lines t = ls ++ [l]) (v : Text) :
    lines (t ++ v) = ls ++ (l ++ restOfLine v) :: (lines v).tail := by
  induction t generalizing ls l with
  | nil =>
    cases ls with
    | nil =>
      obtain rfl := (List.cons.inj h).1
      exact lines_eq_cons v
    | cons u ms => simp [lines, splitOn, splitWhere] at h
  | cons c t ih =>
    have hcons := lines_eq_cons t
    by_cases hc : c = '\n'
    · subst hc
      cases ls with
      | nil => exact absurd (List.cons.inj h).2 (splitWhere_ne_nil _ t)
      | cons u ms =>
        obtain ⟨rfl, hms⟩ := List.cons.inj h
        exact congrArg ([] :: ·) (ih hms)
    · rw [lines_cons hc hcons] at h
      cases ls with
      | nil =>
        obtain ⟨rfl, htail⟩ := List.cons.inj h
        rw [htail] at hcons
        have hsplit : lines t = [] ++ [restOfLine t] := hcons
        exact lines_cons hc (ih hsplit)
      | cons u ms =>
        obtain ⟨rfl, htail⟩ := List.cons.inj h
        rw [htail] at hcons
        have hsplit : lines t = (restOfLine t :: ms) ++ [l] := hcons
        exact lines_cons hc (ih hsplit)

/-- Before the first newline nothing depends on what follows the text. -/
theorem restOfLine_append_of_mem {t : Text} (h : '\n' ∈ t) (v : Text) :
    restOfLine (t ++ v) = restOfLine t := by
  induction t with
  | nil => cases h
  | cons c t ih =>
    rw [restOfLine, restOfLine, List.cons_append, List.takeWhile_cons, List.takeWhile_cons]
    split_ifs with hc
    · have hmem : '\n' ∈ t := by simpa [Ne.symm (bne_iff_ne.1 hc)] using h
      exact congrArg (c :: ·) (ih hmem)
    · rfl

/-- The first line ends before the text does just if there is a newline. -/
theorem length_restOfLine_lt_iff {t : Text} : (restOfLine t).length < t.length ↔ '\n' ∈ t := by
  have hsub : (restOfLine t).Sublist t := List.takeWhile_sublist _
  constructor
  · intro h
    by_contra hnot
    have hline : restOfLine t = t :=
      List.takeWhile_eq_self_iff.2 fun c hc => by simpa using ne_of_mem_of_not_mem hc hnot
    rw [hline] at h
    exact Nat.lt_irrefl _ h
  · intro h
    by_contra hge
    rw [← hsub.eq_of_length_le (by omega)] at h
    exact ne_newline_of_mem_restOfLine _ h rfl

theorem endOfLine_le (t : Text) (p : Nat) : endOfLine t p ≤ t.length := by
  rw [endOfLine]
  split_ifs with hp
  · have hle := (List.takeWhile_sublist (l := t.drop p) (· != '\n')).length_le
    rw [List.length_drop] at hle
    rw [restOfLine]
    omega
  · exact Nat.le_refl _

theorem le_endOfLine {t : Text} {p : Nat} (hp : p ≤ t.length) : p ≤ endOfLine t p := by
  rw [endOfLine, if_pos hp]
  exact Nat.le_add_right _ _

/-- No newline stands between an offset and the end of its line. -/
theorem ne_newline_of_lt_endOfLine {t : Text} {p q : Nat} {c : Char} (hpq : p ≤ q)
    (hq : q < endOfLine t p) (hc : t[q]? = some c) : c ≠ '\n' := by
  have hp : p ≤ t.length := Nat.le_trans hpq (Nat.le_trans (Nat.le_of_lt hq) (endOfLine_le t p))
  rw [endOfLine, if_pos hp] at hq
  have hget : (restOfLine (t.drop p))[q - p]? = some c := by
    have hcut : t.drop p = restOfLine (t.drop p) ++ (t.drop p).dropWhile (· != '\n') :=
      List.takeWhile_append_dropWhile.symm
    have hin : (t.drop p)[q - p]? = some c := by
      rw [List.getElem?_drop, Nat.add_sub_cancel' hpq, hc]
    rwa [hcut, List.getElem?_append_left (by omega)] at hin
  have := List.mem_takeWhile_imp (List.mem_of_getElem? hget)
  simpa using this

/-- A line is cut at an offset into what stands before it and what follows. -/
theorem drop_startOfLine (t : Text) (p : Nat) :
    t.drop (startOfLine t p) = (restOfLine (t.take p).reverse).reverse ++ t.drop p := by
  generalize hu : (t.take p).reverse.dropWhile (· != '\n') = u
  generalize hv : restOfLine (t.take p).reverse = v
  have hcut : (t.take p).reverse = v ++ u := by
    rw [← hu, ← hv]
    exact List.takeWhile_append_dropWhile.symm
  have ht : u.reverse ++ (v.reverse ++ t.drop p) = t := by
    rw [← List.append_assoc, ← List.reverse_append, ← hcut, List.reverse_reverse,
      List.take_append_drop]
  have hlen : u.reverse.length = startOfLine t p := by
    rw [startOfLine, hv, hcut, List.length_append, List.length_reverse]
    omega
  have h : (u.reverse ++ (v.reverse ++ t.drop p)).drop u.reverse.length = v.reverse ++ t.drop p :=
    List.drop_left
  rwa [ht, hlen] at h

theorem startOfLine_add_length {t : Text} {p : Nat} (hp : p ≤ t.length) :
    startOfLine t p + (restOfLine (t.take p).reverse).length = p := by
  have hle : (restOfLine (t.take p).reverse).length ≤ (t.take p).reverse.length :=
    (List.takeWhile_sublist _).length_le
  have hlen : (t.take p).reverse.length = p := by simp [Nat.min_eq_left hp]
  rw [startOfLine, hlen]
  omega

/-- All offsets of a line have the same end of line. -/
theorem endOfLine_startOfLine {t : Text} {p : Nat} (hp : p ≤ t.length) :
    endOfLine t (startOfLine t p) = endOfLine t p := by
  have hadd := startOfLine_add_length hp
  have hline : restOfLine ((restOfLine (t.take p).reverse).reverse ++ t.drop p) =
      (restOfLine (t.take p).reverse).reverse ++ restOfLine (t.drop p) := by
    apply List.takeWhile_append_of_pos
    intro c hc
    simpa using ne_newline_of_mem_restOfLine c (List.mem_reverse.1 hc)
  rw [endOfLine, endOfLine, if_pos hp, if_pos (by omega), drop_startOfLine, hline,
    List.length_append, List.length_reverse]
  omega

end MatlabOutline.Text
