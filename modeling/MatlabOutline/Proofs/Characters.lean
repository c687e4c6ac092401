import Mathlib.Data.List.TakeWhile
import MatlabOutline.Text.Digit
import MatlabOutline.Text.Alphanumeric
import MatlabOutline.Header.Basic

/-! Character classes that exclude each other, and the runs of one class that they cut out of a
text. -/
namespace MatlabOutline.Text

/-- A word that begins with a letter or an underscore. -/
def IsIdentifier (t : Text) : Prop :=
  t.head?.any isWordStart = true ∧ ∀ c ∈ t, isWord c = true

instance (t : Text) : Decidable (IsIdentifier t) :=
  decidable_of_iff (t.head?.any isWordStart = true ∧ t.all isWord = true)
    (and_congr_right fun _ => List.all_eq_true)

theorem IsIdentifier.head?_append {n : Text} (h : IsIdentifier n) (t : Text) :
    (n ++ t).head?.any isWordStart = true := by
  cases n with
  | nil => simp [IsIdentifier] at h
  | cons c n => exact h.1

theorem IsIdentifier.ne_nil {n : Text} (h : IsIdentifier n) : n ≠ [] := by
  rintro rfl
  simp [IsIdentifier] at h

/-- No character of a class stands at the head of the text. -/
def NotAhead (p : Char → Bool) (t : Text) : Prop := ∀ c ∈ t.head?, p c = false

theorem notAhead_cons {p : Char → Bool} {c : Char} {t : Text} (h : p c = false) :
    NotAhead p (c :: t) := by
  intro d hd
  obtain rfl : c = d := Option.some.inj hd
  exact h

theorem takeWhile_run {p : Char → Bool} {u v : Text} (hu : ∀ c ∈ u, p c = true)
    (hv : NotAhead p v) : (u ++ v).takeWhile p = u := by
  rw [List.takeWhile_append_of_pos hu]
  cases v with
  | nil => simp
  | cons c v => simp [hv c rfl]

theorem dropWhile_run {p : Char → Bool} {u v : Text} (hu : ∀ c ∈ u, p c = true)
    (hv : NotAhead p v) : (u ++ v).dropWhile p = v := by
  rw [List.dropWhile_append_of_pos hu]
  cases v with
  | nil => rfl
  | cons c v => simp [hv c rfl]

/-- A run ends where it did when a character of another class follows the text. -/
theorem takeWhile_append_notAhead {p : Char → Bool} {v : Text} (hv : NotAhead p v) (t : Text) :
    (t ++ v).takeWhile p = t.takeWhile p := by
  induction t with
  | nil => exact takeWhile_run (u := []) (by simp) hv
  | cons c t ih => simp only [List.cons_append, List.takeWhile_cons, ih]

theorem dropWhile_append_notAhead {p : Char → Bool} {v : Text} (hv : NotAhead p v) (t : Text) :
    (t ++ v).dropWhile p = t.dropWhile p ++ v := by
  induction t with
  | nil => exact dropWhile_run (u := []) (by simp) hv
  | cons c t ih =>
    simp only [List.cons_append, List.dropWhile_cons, ih]
    split <;> rfl

theorem drop_add_length {t u v : Text} {p : Nat} (h : t.drop p = u ++ v) :
    t.drop (p + u.length) = v := by
  rw [← List.drop_drop, h, List.drop_left]

theorem take_add_length {t u v : Text} {p : Nat} (h : t.drop p = u ++ v) :
    t.take (p + u.length) = t.take p ++ u := by
  rw [List.take_add, h, List.take_left]

theorem slice_of_drop {t u v : Text} {p : Nat} (h : t.drop p = u ++ v) :
    slice t p (p + u.length) = u := by
  rw [slice, List.drop_take, h, Nat.add_sub_cancel_left, List.take_left]

theorem notAhead_dropWhile (p : Char → Bool) (t : Text) : NotAhead p (t.dropWhile p) := by
  intro c hc
  have h := List.head?_dropWhile_not p t
  rw [Option.mem_def.1 hc] at h
  simpa using h

theorem splitWhere_append_cons {sep : Char → Bool} {c : Char} (hc : sep c = true) (x y : Text) :
    splitWhere sep (x ++ c :: y) = splitWhere sep x ++ splitWhere sep y := by
  induction x with
  | nil => simp [splitWhere, hc]
  | cons d x ih =>
    rw [List.cons_append, splitWhere, splitWhere, ih]
    split
    · rfl
    · cases hs : splitWhere sep x with
      | nil => exact absurd hs (splitWhere_ne_nil sep x)
      | cons p ps => rfl

theorem splitWhere_of_forall {sep : Char → Bool} {x : Text} (h : ∀ c ∈ x, sep c = false) :
    splitWhere sep x = [x] := by
  induction x with
  | nil => rfl
  | cons c x ih =>
    obtain ⟨hc, hx⟩ := List.forall_mem_cons.1 h
    rw [splitWhere, if_neg (by simp [hc]), ih hx]

theorem mem_joinWith {sep : Text} {ps : List Text} {c : Char} (h : c ∈ joinWith sep ps) :
    c ∈ sep ∨ ∃ p ∈ ps, c ∈ p := by
  induction ps with
  | nil => cases h
  | cons p ps ih =>
    cases ps with
    | nil => exact .inr ⟨p, List.mem_cons_self, h⟩
    | cons q ps =>
      rw [joinWith_cons_cons, List.mem_append, List.mem_append] at h
      rcases h with (h | h) | h
      · exact .inr ⟨p, List.mem_cons_self, h⟩
      · exact .inl h
      · exact (ih h).imp id fun ⟨x, hx, hc⟩ => ⟨x, List.mem_cons_of_mem p hx, hc⟩

theorem mem_times {n : Nat} {t : Text} {c : Char} (h : c ∈ times n t) : c ∈ t := by
  obtain ⟨u, hu, hcu⟩ := List.mem_flatten.1 h
  rwa [List.eq_of_mem_replicate hu] at hcu

theorem fromEnd_natCast (t : Text) (p : Nat) : fromEnd t p = p := by
  rw [fromEnd, if_neg (by omega), Int.toNat_natCast]

/-- Two lists of ranges without a common code point. -/
def apart (r s : List (Nat × Nat)) : Bool := r.all fun a => s.all fun b => a.2 < b.1 || b.2 < a.1

theorem inRanges_of_apart {r s : List (Nat × Nat)} {c : Char} (h : apart r s = true)
    (hc : inRanges r c = true) : inRanges s c = false := by
  simp only [inRanges, apart, List.any_eq_true, List.all_eq_true, Bool.and_eq_true, Bool.or_eq_true,
    decide_eq_true_eq] at h hc
  obtain ⟨a, ha, h1, h2⟩ := hc
  apply List.any_eq_false.2
  intro b hb
  rcases h a ha b hb with h | h <;> simp <;> omega

/-- White space is no part of a word. -/
theorem isWord_of_isSpace {c : Char} (h : isSpace c = true) : isWord c = false := by
  by_cases hc : c.toNat < 0x80
  · have hascii : ∀ n < 0x80, isSpace (Char.ofNat n) = true → isWord (Char.ofNat n) = false := by
      decide +kernel
    have := hascii c.toNat hc
    rw [Char.ofNat_toNat] at this
    exact this h
  · have hn : c ≠ '_' := fun h => hc (by rw [h]; decide)
    simp only [isWord, isAlphanumeric, beq_eq_false_iff_ne.2 hn, hc, if_false, Bool.false_or]
    exact inRanges_of_apart (by decide +kernel) h

theorem isSpace_of_isBlank {c : Char} (h : isBlank c = true) : isSpace c = true := by
  simp only [isBlank, Bool.or_eq_true, beq_iff_eq] at h
  rcases h with rfl | rfl <;> decide

/-- A class without word characters holds no character of a word. -/
theorem eq_false_of_isWord {p : Char → Bool} {c : Char} (hp : p c = true → isWord c = false)
    (hc : isWord c = true) : p c = false := by
  rw [Bool.eq_false_iff]
  intro h
  rw [hp h] at hc
  cases hc

/-- A list of other characters holds no character of a word. -/
theorem contains_eq_false_of_isWord {l : Text} {c : Char}
    (hl : l.all (fun d => !isWord d) = true) (hc : isWord c = true) : l.contains c = false := by
  rw [List.contains_eq_mem, decide_eq_false_iff_not]
  intro hmem
  simpa [hc] using List.all_eq_true.1 hl c hmem

theorem isWord_of_isFiller {c : Char} (h : Header.isFiller c = true) : isWord c = false := by
  simp only [Header.isFiller, isBlank, Bool.or_eq_true, beq_iff_eq] at h
  rcases h with ((rfl | rfl) | rfl) | rfl <;> decide

theorem ne_of_isWordStart {c d : Char} (hc : isWordStart c = true) (hd : isWordStart d = false) :
    c ≠ d := by
  rintro rfl
  rw [hc] at hd
  cases hd

theorem toNat_lt_of_isWordStart {c : Char} (h : isWordStart c = true) : c.toNat < 0x80 := by
  simp only [isWordStart, Bool.or_eq_true, beq_iff_eq] at h
  rcases h with rfl | h
  · decide
  · exact toNat_lt_of_isAlpha h

theorem isDigit_of_isWordStart {c : Char} (h : isWordStart c = true) : isDigit c = false := by
  have hascii : ∀ n < 0x80, isWordStart (Char.ofNat n) = true → isDigit (Char.ofNat n) = false := by
    decide +kernel
  have := hascii c.toNat (toNat_lt_of_isWordStart h)
  rw [Char.ofNat_toNat] at this
  exact this h

end MatlabOutline.Text
