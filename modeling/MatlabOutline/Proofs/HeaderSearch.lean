import MatlabOutline.Proofs.Lines
import MatlabOutline.Proofs.HeaderPattern

/-! The search for headers. A header is looked for at each offset in turn, and after one is found
the search goes on at the end of its logical line. Every header found is where the pattern fits,
and where it fits and nothing is found, the logical line of an earlier header is still open. -/
namespace MatlabOutline
open Text
namespace Header

theorem width_add_length_rest {t : Text} {s : Signature} (h : signature? t = some s) :
    s.width + s.rest.length = t.length := by
  have ht := congrArg List.length (signature?_append h)
  simp only [List.length_append] at ht
  rw [ht, Signature.width]

theorem rest_eq_drop {t : Text} {s : Signature} (h : signature? t = some s) :
    s.rest = t.drop s.width := by
  have ht := signature?_append h
  rw [ht]
  exact (List.drop_left' (by simp [Signature.width]; omega)).symm

/-- A logical line ends at a newline or at the end of the text. -/
theorem joinContinued_end (ls : List Text) :
    (joinContinued ls).2 ≤ (joinWith ['\n'] ls).length ∧
      ∀ c ∈ ((joinWith ['\n'] ls).drop (joinContinued ls).2).head?, c = '\n' := by
  fun_induction joinContinued ls with
  | case1 => simp [joinWith]
  | case2 l => simp [joinWith]
  | case3 l m ls code hcode joined ih =>
    change l.length + 1 + joined.2 ≤ _ ∧ _
    change joined.2 ≤ _ ∧ ∀ c ∈ (List.drop joined.2 _).head?, c = '\n' at ih
    rw [joinWith_cons_cons, List.append_assoc, List.length_append, List.length_append]
    refine ⟨by simp only [List.length_singleton]; omega, ?_⟩
    rw [Nat.add_assoc, List.drop_length_add_append, List.singleton_append, Nat.add_comm 1,
      List.drop_succ_cons]
    exact ih.2
  | case4 l m ls hcode => simp [joinWith]

theorem logicalLine_end (t : Text) :
    (logicalLine t).2 ≤ t.length ∧ ∀ c ∈ (t.drop (logicalLine t).2).head?, c = '\n' := by
  have h := joinContinued_end (lines t)
  rwa [lines, joinWith_splitOn] at h

/-- What a header says about its place: the name is not empty, and its logical line ends at a
newline or at the end of the text. -/
theorem read?_bounds {start : Nat} {t : Text} {h : Header} (hr : read? start t = some h) :
    h.start = start ∧ start < h.stop ∧ h.stop ≤ h.lineEnd ∧ h.lineEnd ≤ start + t.length ∧
      ∀ c ∈ (t.drop (h.lineEnd - start)).head?, c = '\n' := by
  obtain ⟨s, hs, rfl⟩ := Option.map_eq_some_iff.1 hr
  have hwidth := width_add_length_rest hs
  have hname := List.length_pos_iff.2 (signature?_pieces hs).2.2.1.ne_nil
  have hpos : s.name.length ≤ s.width := by rw [Signature.width]; omega
  obtain ⟨hle, hend⟩ := logicalLine_end s.rest
  refine ⟨rfl, by simp only; omega, by simp only; omega, by simp only; omega, ?_⟩
  rw [rest_eq_drop hs, List.drop_drop] at hend
  have hsub : start + s.width + (logicalLine s.rest).2 - start =
      s.width + (logicalLine s.rest).2 := by omega
  simp only [hsub]
  rwa [← rest_eq_drop hs] at hend

/-- The keyword stands first on the line of a header, after blanks. -/
theorem keyword_of_read? {start : Nat} {t : Text} {h : Header} (hr : read? start t = some h) :
    ∃ u, t.dropWhile isBlank = "function".toList ++ u ∧ NotAhead isWord u := by
  obtain ⟨s, hs, -⟩ := Option.map_eq_some_iff.1 hr
  rw [signature?] at hs
  split at hs
  · simp at hs
  · rename_i u hu
    exact ⟨u, afterKeyword?_eq_some_iff.1 hu⟩

/-- The header that begins at an offset. -/
def at? (text : Text) (p : Nat) : Option Header :=
  if startsLine text p then read? p (text.drop p) else none

theorem at?_eq_some_iff {text : Text} {p : Nat} {h : Header} :
    at? text p = some h ↔ startsLine text p = true ∧ read? p (text.drop p) = some h := by
  rw [at?]
  split_ifs with hp <;> simp [hp]

theorem at?_bounds {text : Text} {p : Nat} {h : Header} (hp : at? text p = some h) :
    h.start = p ∧ p < h.stop ∧ h.stop ≤ h.lineEnd ∧ h.lineEnd ≤ text.length := by
  obtain ⟨h1, h2, h3, h4, -⟩ := read?_bounds (at?_eq_some_iff.1 hp).2
  rw [List.length_drop] at h4
  omega

theorem head_of_at? {text : Text} {p : Nat} {h : Header} (hp : at? text p = some h) :
    ∃ c t, text.drop p = c :: t ∧ c ≠ '\n' := by
  obtain ⟨u, hu, -⟩ := keyword_of_read? (at?_eq_some_iff.1 hp).2
  cases hd : text.drop p with
  | nil => simp [hd] at hu
  | cons c t =>
    refine ⟨c, t, rfl, ?_⟩
    rintro rfl
    rw [hd, List.dropWhile_cons_of_neg (by decide)] at hu
    simp at hu

/-- The logical line of a header ends where a line ends. -/
theorem atLineEnd_drop_lineEnd {text : Text} {p : Nat} {h : Header} (hp : at? text p = some h) :
    AtLineEnd (text.drop h.lineEnd) := by
  obtain ⟨-, h2, h3, -, hend⟩ := read?_bounds (at?_eq_some_iff.1 hp).2
  rwa [List.drop_drop, Nat.add_sub_cancel' (by omega)] at hend

/-- No header begins where the logical line of another ends. -/
theorem at?_lineEnd {text : Text} {p : Nat} {h : Header} (hp : at? text p = some h) :
    at? text h.lineEnd = none := by
  cases ha : at? text h.lineEnd with
  | none => rfl
  | some a =>
    obtain ⟨c, t, hd, hc⟩ := head_of_at? ha
    exact absurd (atLineEnd_drop_lineEnd hp c (by rw [hd]; rfl)) hc

/-- A search for headers from an offset on, step by step. -/
inductive Finds (text : Text) : Nat → List Header → Prop
  | done {p : Nat} (h : text.length ≤ p) : Finds text p []
  | pass {p : Nat} {hs : List Header} (h : at? text p = none) (rest : Finds text (p + 1) hs) :
      Finds text p hs
  | hit {p : Nat} {a : Header} {hs : List Header} (h : at? text p = some a)
      (rest : Finds text a.lineEnd hs) : Finds text p (a :: hs)

theorem startsLine_succ {text t : Text} {p : Nat} {c : Char} (h : text.drop p = c :: t) :
    startsLine text (p + 1) = (c == '\n') := by
  have hc : text[p]? = some c := by rw [← List.head?_drop, h]; rfl
  rw [startsLine, List.take_add_one, hc, Option.toList_some, List.getLast?_append]
  rfl

theorem startsLine_add_length {text u v : Text} {p : Nat} (hline : startsLine text p = true)
    (hd : text.drop p = u ++ v) (hu : ∀ c ∈ u.getLast?, c = '\n') :
    startsLine text (p + u.length) = true := by
  rw [startsLine, take_add_length hd, List.getLast?_append]
  cases hl : u.getLast? with
  | none => exact hline
  | some c => simp [hu c hl]

/-- After the blanks that open a line no field access leads on. -/
theorem head?_take_blanks {text u v : Text} {p : Nat} (hline : startsLine text p = true)
    (hd : text.drop p = u ++ v) (hu : ∀ c ∈ u, isBlank c = true) :
    (text.take (p + u.length)).reverse.head? ≠ some '.' := by
  rw [take_add_length hd, List.head?_reverse, List.getLast?_append]
  intro hdot
  cases hlast : u.getLast? with
  | none =>
    rw [hlast, Option.none_or] at hdot
    rw [startsLine, hdot] at hline
    simp at hline
  | some c =>
    rw [hlast, Option.some_or, Option.some.injEq] at hdot
    have := hu c (List.mem_of_getLast? hlast)
    rw [hdot] at this
    exact absurd this (by decide)

/-- The pattern of a header fits at an offset: a line starts there, and opens with a header. -/
def FitsAt (text : Text) (p : Nat) : Prop :=
  (∀ q, p = q + 1 → text[q]? = some '\n') ∧ Opens (text.drop p)

theorem startsLine_iff {text : Text} {p : Nat} (h : p ≤ text.length) :
    startsLine text p = true ↔ ∀ q, p = q + 1 → text[q]? = some '\n' := by
  cases p with
  | zero => simp [startsLine]
  | succ p =>
    have hd := List.drop_eq_getElem_cons (l := text) (i := p) h
    rw [startsLine_succ hd, beq_iff_eq]
    simp [List.getElem?_eq_getElem (l := text) (i := p) h]

/-- A header begins exactly where the pattern fits. -/
theorem isSome_at?_iff {text : Text} {p : Nat} : (at? text p).isSome ↔ FitsAt text p := by
  by_cases hp : p ≤ text.length
  · rw [FitsAt, ← startsLine_iff hp, ← isSome_signature?_iff, at?]
    split_ifs with hs <;> simp [hs, read?]
  · have hd : text.drop p = [] := List.drop_eq_nil_iff.2 (by omega)
    have hnil : ¬ Opens [] := fun h => absurd (isSome_signature?_iff.2 h) (by decide)
    refine iff_of_false (fun h => ?_) (fun h => hnil (hd ▸ h.2))
    obtain ⟨a, ha⟩ := Option.isSome_iff_exists.1 h
    have := at?_bounds ha
    omega

/-- A header that fits after an offset starts past the line of the offset. -/
theorem endOfLine_lt_of_fitsAt {text : Text} {p q : Nat} (hlt : p < q) (hq : FitsAt text q) :
    endOfLine text p < q := by
  obtain ⟨r, rfl⟩ : ∃ r, q = r + 1 := ⟨q - 1, by omega⟩
  by_contra hgt
  exact ne_newline_of_lt_endOfLine (p := p) (by omega) (by omega) (hq.1 r rfl) rfl

/-- The one-pass search is a search step by step, from the offset where it stops waiting. -/
theorem finds_allFrom {text : Text} (wait p : Nat) :
    Finds text (p + wait) (allFrom wait (startsLine text p) p (text.drop p)) := by
  generalize ht : text.drop p = t
  induction t generalizing p wait with
  | nil =>
    rw [allFrom]
    exact .done (by have := List.drop_eq_nil_iff.1 ht; omega)
  | cons c t ih =>
    have hdrop : text.drop (p + 1) = t := by rw [← List.drop_drop, ht]; rfl
    have hnext : ∀ wait, Finds text (p + 1 + wait) (allFrom wait (c == '\n') (p + 1) t) := by
      intro wait
      rw [← startsLine_succ ht]
      exact ih wait (p + 1) hdrop
    rw [allFrom]
    cases wait with
    | zero =>
      have hat : at? text p = if startsLine text p then read? p (c :: t) else none := by
        rw [at?, ht]
      simp only [true_and]
      rw [← hat]
      split
      · rename_i h hh
        have hb := at?_bounds hh
        have := hnext (h.lineEnd - (p + 1))
        rw [Nat.add_sub_cancel' (by omega)] at this
        exact .hit hh this
      · rename_i hh
        exact .pass hh (hnext 0)
    | succ wait =>
      have := hnext wait
      simpa [Nat.add_right_comm, Nat.add_assoc] using this

theorem finds_all (text : Text) : Finds text 0 (all text) := finds_allFrom 0 0

/-- Every header found is the one at its offset. -/
theorem Finds.at? {text : Text} {p : Nat} {hs : List Header} (h : Finds text p hs) :
    ∀ a ∈ hs, p ≤ a.start ∧ Header.at? text a.start = some a := by
  induction h with
  | done => simp
  | pass _ _ ih =>
    intro a ha
    obtain ⟨hle, hat⟩ := ih a ha
    exact ⟨by omega, hat⟩
  | @hit p b hs hb _ ih =>
    have hbounds := at?_bounds hb
    intro a ha
    rcases List.mem_cons.1 ha with rfl | ha
    · exact ⟨by omega, by rw [hbounds.1]; exact hb⟩
    · obtain ⟨hle, hat⟩ := ih a ha
      exact ⟨by omega, hat⟩

/-- A header starts only after the logical line of the header before has ended. -/
theorem Finds.pairwise {text : Text} {p : Nat} {hs : List Header} (h : Finds text p hs) :
    hs.Pairwise fun a b => a.lineEnd < b.start := by
  induction h with
  | done => exact .nil
  | pass _ _ ih => exact ih
  | @hit p a hs ha rest ih =>
    refine List.pairwise_cons.2 ⟨fun b hb => ?_, ih⟩
    obtain ⟨hle, hat⟩ := rest.at? b hb
    have hne : a.lineEnd ≠ b.start := by
      intro he
      rw [← he, at?_lineEnd ha] at hat
      cases hat
    omega

/-- A header that is not found lies within the logical line of one that is. -/
theorem Finds.complete {text : Text} {p q : Nat} {hs : List Header} {a : Header}
    (h : Finds text p hs) (hq : Header.at? text q = some a) (hpq : p ≤ q) :
    a ∈ hs ∨ ∃ b ∈ hs, b.start < q ∧ q < b.lineEnd := by
  induction h with
  | done hle =>
    have := at?_bounds hq
    omega
  | @pass p hs hp _ ih =>
    have hne : p ≠ q := by
      intro he
      rw [he, hq] at hp
      cases hp
    exact ih (by omega)
  | @hit p b hs hb _ ih =>
    have hbounds := at?_bounds hb
    by_cases he : p = q
    · rw [he, hq, Option.some.injEq] at hb
      exact .inl (by simp [hb])
    · by_cases hlt : q < b.lineEnd
      · exact .inr ⟨b, by simp, by omega, hlt⟩
      · rcases ih (by omega) with hmem | ⟨c, hc, hcq⟩
        · exact .inl (by simp [hmem])
        · exact .inr ⟨c, by simp [hc], hcq⟩

/-- A search at a place without a header goes on at the next one. -/
theorem Finds.of_none {text : Text} {p : Nat} {hs : List Header} (h : Finds text p hs)
    (hp : Header.at? text p = none) : Finds text (p + 1) hs := by
  cases h with
  | done hle => exact .done (by omega)
  | pass _ rest => exact rest
  | hit ha _ =>
    rw [hp] at ha
    cases ha

/-- A search at a header finds it, and goes on at the end of its logical line. -/
theorem Finds.of_some {text : Text} {p : Nat} {hs : List Header} {a : Header}
    (h : Finds text p hs) (hp : Header.at? text p = some a) :
    ∃ gs, hs = a :: gs ∧ Finds text a.lineEnd gs := by
  have hb := at?_bounds hp
  cases h with
  | done hle => omega
  | pass ha _ =>
    rw [hp] at ha
    cases ha
  | @hit _ b gs ha rest =>
    obtain rfl : a = b := Option.some.inj (hp.symm.trans ha)
    exact ⟨gs, rfl, rest⟩

/-- A line without a header is passed over. -/
theorem Finds.skip_line {text l v : Text} {p : Nat} {hs : List Header} (h : Finds text p hs)
    (hd : text.drop p = l ++ '\n' :: v) (hl : ∀ c ∈ l, c ≠ '\n')
    (hp : Header.at? text p = none) : Finds text (p + l.length + 1) hs := by
  induction l generalizing p with
  | nil => exact h.of_none hp
  | cons c l ih =>
    obtain ⟨hc, hl⟩ := List.forall_mem_cons.1 hl
    have hstart : startsLine text (p + 1) = false := by
      rw [startsLine_succ hd]
      simpa using hc
    have hnext : Header.at? text (p + 1) = none := by simp [Header.at?, hstart]
    have hrest := ih (h.of_none hp) (drop_add_length (u := [c]) hd) hl hnext
    rwa [List.length_cons, Nat.add_comm l.length, ← Nat.add_assoc p]

/-- No header begins on a line that opens with another letter than its keyword. -/
theorem at?_eq_none_of_ne {text blanks v : Text} {p : Nat} {c : Char}
    (hd : text.drop p = blanks ++ c :: v) (hb : ∀ x ∈ blanks, isBlank x = true)
    (hc : isBlank c = false ∧ c ≠ 'f') : at? text p = none := by
  cases ha : at? text p with
  | none => rfl
  | some a =>
    obtain ⟨u, hu, -⟩ := keyword_of_read? (at?_eq_some_iff.1 ha).2
    rw [hd, dropWhile_run hb (notAhead_cons hc.1)] at hu
    exact absurd (List.cons.inj hu).1 hc.2

theorem Finds.eq_nil {text : Text} {p : Nat} {hs : List Header} (h : Finds text p hs)
    (hp : text.length ≤ p) : hs = [] := by
  cases hs with
  | nil => rfl
  | cons a hs =>
    obtain ⟨hle, hat⟩ := h.at? a (by simp)
    have := at?_bounds hat
    omega

/-- The first header of a search is the first of all headers from there on. -/
theorem search?_eq_head? (lineStart : Bool) (offset : Nat) (t : Text) :
    search? lineStart offset t = (allFrom 0 lineStart offset t).head? := by
  induction t generalizing lineStart offset with
  | nil => rfl
  | cons c t ih =>
    rw [search?, allFrom, ih]
    cases lineStart with
    | false => simp
    | true => cases hr : read? offset (c :: t) <;> simp

theorem first?_eq_head? (text : Text) : first? text = (all text).head? := search?_eq_head? _ _ _

theorem mem_all_of_first? {text : Text} {a : Header} (h : first? text = some a) : a ∈ all text := by
  rw [first?_eq_head?] at h
  exact List.mem_of_head? h

theorem at?_of_first? {text : Text} {a : Header} (h : first? text = some a) :
    at? text a.start = some a :=
  ((finds_all text).at? a (mem_all_of_first? h)).2

/-- The next header is the first of a search from the offset. -/
theorem exists_finds_next? (text : Text) (p : Nat) :
    ∃ hs, Finds text p hs ∧ next? text p = hs.head? :=
  ⟨_, finds_allFrom 0 p, search?_eq_head? _ _ _⟩

theorem next?_of_at? {text : Text} {p : Nat} {a : Header} (h : at? text p = some a) :
    next? text p = some a := by
  obtain ⟨hs, hfinds, hnext⟩ := exists_finds_next? text p
  obtain ⟨gs, rfl, -⟩ := hfinds.of_some h
  exact hnext

/-- The end of the logical line of the header at an offset. -/
def lineEndAt (text : Text) (p : Nat) : Nat := ((at? text p).map lineEnd).getD p

theorem lineEndAt_eq {text : Text} {p : Nat} {a : Header} (h : at? text p = some a) :
    lineEndAt text p = a.lineEnd := by
  rw [lineEndAt, h]
  rfl

/-- No header found starts within the logical line of another. -/
theorem Finds.apart {text : Text} {p : Nat} {hs : List Header} (h : Finds text p hs)
    {a b : Header} (ha : a ∈ hs) (hb : b ∈ hs) (hlt : a.start < b.start) :
    a.lineEnd < b.start := by
  induction h with
  | done => simp at ha
  | pass _ _ ih => exact ih ha hb
  | @hit p c hs hc rest ih =>
    rcases List.mem_cons.1 ha with rfl | ha'
    · rcases List.mem_cons.1 hb with rfl | hb'
      · omega
      · exact (List.pairwise_cons.1 (Finds.hit hc rest).pairwise).1 b hb'
    · rcases List.mem_cons.1 hb with rfl | hb'
      · have hle := (rest.at? a ha').1
        have := at?_bounds hc
        omega
      · exact ih ha' hb'

end Header
end MatlabOutline
