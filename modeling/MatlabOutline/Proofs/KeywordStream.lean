import MatlabOutline.Block.Mark
import MatlabOutline.Proofs.Characters

/-! The stream of block keywords. A scan is a state made of an offset and the open brackets, and one
lexeme takes it on. The marks come in order and spell their keywords in the text, and a scan that
starts at a mark reports what the first scan reports from there on. -/
namespace MatlabOutline
open Text
namespace Lexeme

/-- The kind of the lexeme at an offset, and the offset just past it. -/
def at? (text : Text) (fresh : Bool) (p : Nat) : Option (Kind × Nat) :=
  match text.drop p with
  | [] => none
  | c :: rest =>
    let next := read fresh (text.take p).reverse c rest
    some (next.1, p + 1 + (rest.take next.2).length)

theorem at?_eq_none_iff {text : Text} {fresh : Bool} {p : Nat} :
    at? text fresh p = none ↔ text.length ≤ p := by
  rw [at?, ← List.drop_eq_nil_iff]
  split <;> simp [*]

theorem at?_bounds {text : Text} {fresh : Bool} {p q : Nat} {k : Kind}
    (h : at? text fresh p = some (k, q)) : p < q ∧ q ≤ text.length := by
  rw [at?] at h
  split at h
  · simp at h
  · rename_i c rest hd
    simp only [Option.some.injEq, Prod.mk.injEq] at h
    have hlen := congrArg List.length hd
    have := List.length_take_le (read fresh (text.take p).reverse c rest).2 rest
    rw [List.length_drop, List.length_cons] at hlen
    have := List.length_take_le' (read fresh (text.take p).reverse c rest).2 rest
    omega

/-- One lexeme is read, and reading goes on where it ends. -/
theorem allFrom_step {text : Text} {fresh : Bool} {p q : Nat} {k : Kind}
    (h : at? text fresh p = some (k, q)) :
    ∃ w : Text, q = p + w.length ∧
      allFrom fresh (text.take p).reverse (text.drop p) =
        ⟨k, w⟩ :: allFrom false (text.take q).reverse (text.drop q) := by
  rw [at?] at h
  split at h
  · simp at h
  · rename_i c rest hd
    simp only [Option.some.injEq, Prod.mk.injEq] at h
    obtain ⟨rfl, rfl⟩ := h
    generalize hnext : read fresh (text.take p).reverse c rest = next
    have hcut : text.drop p = (c :: rest.take next.2) ++ rest.drop next.2 := by
      rw [hd, List.cons_append, List.take_append_drop]
    have hq : p + 1 + (rest.take next.2).length = p + (c :: rest.take next.2).length := by
      rw [List.length_cons]
      omega
    refine ⟨c :: rest.take next.2, hq, ?_⟩
    rw [hd, allFrom_cons, hnext, hq, take_add_length hcut, drop_add_length hcut]
    simp

/-- The characters that are read by themselves, whatever class they belong to. -/
def signs : Text := "\n%.\"'([\x7b)]\x7d".toList

/-- A character of a class without signs is read as a digit, a letter or something else. -/
theorem read_of_class {p : Char → Bool} (hp : signs.all (fun d => !p d) = true) {c : Char}
    (hc : p c = true) (fresh : Bool) (before rest : Text) :
    read fresh before c rest =
      if isDigit c then (.number, if isDecimal c then numberTail rest else 0)
      else if isWordStart c then
        (.word (Keyword.here? before (c :: rest.takeWhile isWord) (rest.dropWhile isWord)),
          (rest.takeWhile isWord).length)
      else (.other, 0) := by
  have hne : ∀ d ∈ signs, c ≠ d := by
    rintro d hd rfl
    simpa [hc] using List.all_eq_true.1 hp c hd
  have hdots : after? ['.', '.', '.'] (c :: rest) = none := by
    rw [after?, if_neg (hne '.' (by decide)).symm]
  have hstring : opensString fresh before c = false := by
    simp [opensString, hne '"' (by decide), hne '\'' (by decide)]
  have hopen : Bracket.ofOpening? c = none := by
    simp [Bracket.ofOpening?, hne '(' (by decide), hne '[' (by decide), hne '\x7b' (by decide)]
  have hclose : Bracket.isClosing c = false := by
    simp [Bracket.isClosing, hne ')' (by decide), hne ']' (by decide), hne '\x7d' (by decide)]
  simp [read, hne '\n' (by decide), hne '%' (by decide), hdots, hstring, hopen, hclose]

/-- A letter or an underscore opens a word, which is read whole. -/
theorem read_word {fresh : Bool} {before : Text} {c : Char} {rest : Text}
    (h : isWordStart c = true) :
    read fresh before c rest =
      (.word (Keyword.here? before (c :: rest.takeWhile isWord) (rest.dropWhile isWord)),
        (rest.takeWhile isWord).length) := by
  rw [read_of_class rfl h, if_neg (by simp [isDigit_of_isWordStart h]), if_pos h]

theorem at?_of_isBlank {text t : Text} {fresh : Bool} {p : Nat} {c : Char}
    (hd : text.drop p = c :: t) (hc : isBlank c = true) :
    at? text fresh p = some (.other, p + 1) := by
  simp only [isBlank, Bool.or_eq_true, beq_iff_eq] at hc
  rw [at?, hd]
  rcases hc with rfl | rfl <;> rfl

/-- A whole word is one lexeme. -/
theorem at?_word {text w u : Text} {fresh : Bool} {p : Nat} (hd : text.drop p = w ++ u)
    (hw : IsIdentifier w) (hu : NotAhead isWord u) :
    at? text fresh p = some (.word (Keyword.here? (text.take p).reverse w u), p + w.length) := by
  obtain ⟨hs, hall⟩ := hw
  cases w with
  | nil => simp at hs
  | cons c w =>
    have hw : ∀ d ∈ w, isWord d = true := fun d hd => hall d (by simp [hd])
    rw [at?, hd, List.cons_append]
    simp only [read_word (show isWordStart c = true by simpa using hs), takeWhile_run hw hu,
      dropWhile_run hw hu, List.take_left, List.length_cons]
    rw [Nat.add_assoc, Nat.add_comm 1]

theorem isWordStart_of_read {fresh : Bool} {before : Text} {c : Char} {rest : Text}
    {k : Option Keyword} (h : (read fresh before c rest).1 = .word k) : isWordStart c = true := by
  by_contra hw
  simp only [read, hw, if_false] at h
  repeat' split at h
  all_goals cases h

/-- A keyword stands in the text where it is read, whatever was read before. -/
theorem at?_keyword {text : Text} {fresh : Bool} {p q : Nat} {k : Keyword}
    (h : at? text fresh p = some (.word (some k), q)) :
    text.drop p = k.word ++ text.drop q ∧ q = p + k.word.length ∧
      ∀ b, at? text b p = some (.word (some k), q) := by
  rw [at?] at h
  split at h
  · simp at h
  · rename_i c rest hd
    simp only [Option.some.injEq, Prod.mk.injEq] at h
    have hc := isWordStart_of_read h.1
    rw [read_word hc] at h
    obtain ⟨hk, hq⟩ := h
    have hword := Keyword.word_of_here? (Kind.word.inj hk)
    have htake : rest.take (rest.takeWhile isWord).length = rest.takeWhile isWord :=
      (List.prefix_iff_eq_take.1 (List.takeWhile_prefix _)).symm
    have hcut : text.drop p = k.word ++ rest.dropWhile isWord := by
      rw [hd, hword, List.cons_append, List.takeWhile_append_dropWhile]
    have hlen : q = p + k.word.length := by
      rw [← hq, htake, hword, List.length_cons]
      omega
    refine ⟨?_, hlen, fun b => ?_⟩
    · rw [hlen, ← List.drop_drop, hcut, List.drop_left]
    · rw [at?, hd]
      simp only [read_word hc, hk, hq]

end Lexeme

namespace Mark

/-- The marks of a scan in a given state: the place, and the brackets that are open. -/
def scan (text : Text) (fresh : Bool) (stack : List Bracket) (p : Nat) : List Mark :=
  ofLexemes stack p (Lexeme.allFrom fresh (text.take p).reverse (text.drop p))

theorem all_eq_scan (text : Text) (p : Nat) : all text p = scan text true [] p := rfl

theorem scan_eq_nil {text : Text} {fresh : Bool} {stack : List Bracket} {p : Nat}
    (h : text.length ≤ p) : scan text fresh stack p = [] := by
  rw [scan, List.drop_eq_nil_iff.2 h, Lexeme.allFrom_nil, ofLexemes]

/-- One lexeme takes the scan to the next state and reports at most one mark. -/
theorem scan_step {text : Text} {fresh : Bool} {stack : List Bracket} {p q : Nat}
    {k : Lexeme.Kind} (h : Lexeme.at? text fresh p = some (k, q)) :
    scan text fresh stack p =
      (visible? stack k).toList.map (⟨·, p⟩) ++ scan text false (brackets stack k) q := by
  obtain ⟨w, hq, hall⟩ := Lexeme.allFrom_step h
  rw [scan, scan, hall, ofLexemes, hq]
  cases hv : visible? stack k <;> simp

/-- Induction along a scan, from one lexeme to the next. -/
theorem scan_induction (text : Text) {motive : Bool → List Bracket → Nat → Prop}
    (done : ∀ fresh stack p, text.length ≤ p → motive fresh stack p)
    (step : ∀ fresh stack p q k, Lexeme.at? text fresh p = some (k, q) →
      motive false (brackets stack k) q → motive fresh stack p)
    (fresh : Bool) (stack : List Bracket) (p : Nat) : motive fresh stack p := by
  induction hn : text.length - p using Nat.strong_induction_on generalizing fresh stack p with
  | h n ih =>
    cases ha : Lexeme.at? text fresh p with
    | none => exact done _ _ _ (Lexeme.at?_eq_none_iff.1 ha)
    | some kq =>
      have hb := Lexeme.at?_bounds ha
      exact step _ _ _ _ _ ha (ih (text.length - kq.2) (by omega) _ _ _ rfl)

theorem visible?_eq_some_iff {stack : List Bracket} {k : Lexeme.Kind} {w : Keyword} :
    visible? stack k = some w ↔ stack = [] ∧ k = .word (some w) := by
  cases k <;> simp [visible?]

/-- A mark is reported either for the lexeme at hand or later in the scan. -/
theorem mem_scan_step {text : Text} {fresh : Bool} {stack : List Bracket} {p q : Nat}
    {k : Lexeme.Kind} {m : Mark} (h : Lexeme.at? text fresh p = some (k, q))
    (hm : m ∈ scan text fresh stack p) :
    (stack = [] ∧ k = .word (some m.keyword) ∧ m.start = p) ∨
      m ∈ scan text false (brackets stack k) q := by
  rw [scan_step h, List.mem_append] at hm
  refine hm.imp_left fun hm => ?_
  obtain ⟨w, hw, rfl⟩ := List.mem_map.1 hm
  obtain ⟨h1, h2⟩ := visible?_eq_some_iff.1 (Option.mem_toList.1 hw)
  exact ⟨h1, h2, rfl⟩

/-- A mark spells its keyword in the text. -/
theorem spells_of_mem_scan {text : Text} {fresh : Bool} {stack : List Bracket} {p : Nat} {m : Mark}
    (hm : m ∈ scan text fresh stack p) :
    p ≤ m.start ∧ m.stop ≤ text.length ∧
      text.drop m.start = m.keyword.word ++ text.drop m.stop := by
  induction fresh, stack, p using scan_induction text with
  | done fresh stack p h => simp [scan_eq_nil h] at hm
  | step fresh stack p q k h ih =>
    have hb := Lexeme.at?_bounds h
    rcases mem_scan_step h hm with ⟨-, rfl, rfl⟩ | hm
    · obtain ⟨h1, rfl, -⟩ := Lexeme.at?_keyword h
      exact ⟨Nat.le_refl _, hb.2, h1⟩
    · obtain ⟨h1, h2⟩ := ih hm
      exact ⟨by omega, h2⟩

/-- The marks of a scan follow each other in the text. -/
theorem scan_pairwise (text : Text) (fresh : Bool) (stack : List Bracket) (p : Nat) :
    (scan text fresh stack p).Pairwise fun a b => a.stop ≤ b.start := by
  induction fresh, stack, p using scan_induction text with
  | done fresh stack p h => simp [scan_eq_nil h]
  | step fresh stack p q k h ih =>
    rw [scan_step h]
    cases hv : visible? stack k with
    | none => simpa using ih
    | some w =>
      obtain ⟨-, rfl⟩ := visible?_eq_some_iff.1 hv
      have hq := (Lexeme.at?_keyword h).2.1
      refine List.pairwise_cons.2 ⟨fun m hm => ?_, ih⟩
      have hle := (spells_of_mem_scan hm).1
      rw [hq] at hle
      exact hle

/-- A scan from a mark reports that mark and then all that the first scan reports after it. -/
theorem drop_scan {text : Text} {fresh : Bool} {stack : List Bracket} {p a : Nat} {m : Mark}
    (hm : (scan text fresh stack p)[a]? = some m) :
    (scan text fresh stack p).drop a = all text m.start := by
  induction fresh, stack, p using scan_induction text generalizing a with
  | done fresh stack p h => simp [scan_eq_nil h] at hm
  | step fresh stack p q k h ih =>
    rw [scan_step h] at hm ⊢
    cases hv : visible? stack k with
    | none =>
      simp only [hv, Option.toList_none, List.map_nil, List.nil_append] at hm ⊢
      exact ih hm
    | some w =>
      simp only [hv, Option.toList_some, List.map_cons, List.map_nil, List.singleton_append] at hm ⊢
      cases a with
      | zero =>
        -- a word is read alike wherever the scan has come from
        obtain ⟨rfl, rfl⟩ := visible?_eq_some_iff.1 hv
        obtain rfl := Option.some.inj hm
        rw [List.drop_zero, all_eq_scan, scan_step ((Lexeme.at?_keyword h).2.2 true)]
        rfl
      | succ a =>
        rw [List.getElem?_cons_succ] at hm
        rw [List.drop_succ_cons]
        exact ih hm

/-- Blanks hold no marks. -/
theorem scan_blanks {text u v : Text} {stack : List Bracket} {p : Nat}
    (hd : text.drop p = u ++ v) (hu : ∀ c ∈ u, isBlank c = true) :
    scan text false stack p = scan text false stack (p + u.length) := by
  induction u generalizing p with
  | nil => rfl
  | cons c u ih =>
    obtain ⟨hc, hu⟩ := List.forall_mem_cons.1 hu
    have hnext : text.drop (p + 1) = u ++ v := drop_add_length (u := [c]) hd
    rw [scan_step (Lexeme.at?_of_isBlank hd hc)]
    change scan text false stack (p + 1) = _
    rw [ih hnext hu, List.length_cons, Nat.add_assoc, Nat.add_comm 1]

/-- The marks of a scan stand in the text in the order in which they are reported, and a scan that
starts at one of them reports that mark and all that follow it. -/
theorem all_ordered_resumable (text : Text) (pos : Nat) :
    (∀ m ∈ all text pos, pos ≤ m.start ∧ m.stop ≤ text.length ∧
      slice text m.start m.stop = m.keyword.word) ∧
    ((all text pos).Pairwise fun m n => m.stop ≤ n.start) ∧
    ∀ (i : Nat) (m : Mark), (all text pos)[i]? = some m →
      all text m.start = (all text pos).drop i := by
  refine ⟨fun m hm => ?_, scan_pairwise text true [] pos, fun i m hm => (drop_scan hm).symm⟩
  obtain ⟨hstart, hstop, hspell⟩ := spells_of_mem_scan hm
  exact ⟨hstart, hstop, slice_of_drop hspell⟩

example :
    all "if a(end)', x = [1, end]'; end % end".toList 0 = [⟨.opener .ifBlock, 0⟩, ⟨.close, 27⟩] ∧
      all "if a(end)', x = [1, end]'; end % end".toList 27 = [⟨.close, 27⟩] := by
  decide +kernel

end Mark
end MatlabOutline
