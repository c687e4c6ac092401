import MatlabOutline.Docstring
import MatlabOutline.Proofs.Printing
import MatlabOutline.Proofs.HeaderSearch

/-! What is read back from the lines printed for a declaration. The clauses are split into the
names they were joined from, the description is found below the header, and the search for headers
passes over every other line. -/
namespace MatlabOutline
open Text

namespace Text

/-- Names joined by commas hold nothing but word characters, commas and spaces. -/
theorem mem_joinWith_names {ns : List Text} (h : ∀ n ∈ ns, IsIdentifier n) {c : Char}
    (hc : c ∈ joinWith ", ".toList ns) : isWord c = true ∨ c = ',' ∨ c = ' ' := by
  rcases mem_joinWith hc with hsep | ⟨n, hn, hcn⟩
  · right
    simpa using hsep
  · exact .inl ((h n hn).2 c hcn)

theorem ne_of_mem_joinWith {ns : List Text} (h : ∀ n ∈ ns, IsIdentifier n) {c d : Char}
    (hc : c ∈ joinWith ", ".toList ns) (hd : isWord d = false ∧ d ≠ ',' ∧ d ≠ ' ') : c ≠ d := by
  rintro rfl
  rcases mem_joinWith_names h hc with hw | hw | hw
  · rw [hd.1] at hw
    cases hw
  · exact hd.2.1 hw
  · exact hd.2.2 hw

end Text

namespace Header

theorem isClauseSeparator_of_isWord {c : Char} (h : isWord c = true) :
    isClauseSeparator c = false := by
  rw [isClauseSeparator, contains_eq_false_of_isWord rfl h, Bool.false_or]
  exact eq_false_of_isWord isWord_of_isSpace h

/-- A separator belongs to no name. -/
theorem clauseNames_append_cons {c : Char} (hc : isClauseSeparator c = true) (x y : Text) :
    clauseNames (x ++ c :: y) = clauseNames x ++ clauseNames y := by
  simp only [clauseNames, splitWhere_append_cons hc, List.filter_append]

theorem clauseNames_of_identifier {n : Text} (h : IsIdentifier n) : clauseNames n = [n] := by
  rw [clauseNames, splitWhere_of_forall fun c hc => isClauseSeparator_of_isWord (h.2 c hc)]
  simp [h.ne_nil]

/-- A clause is split into the names that it was joined from. -/
theorem clauseNames_joinWith {ns : List Text} (h : ∀ n ∈ ns, IsIdentifier n) :
    clauseNames (joinWith ", ".toList ns) = ns := by
  induction ns with
  | nil => rfl
  | cons n ns ih =>
    obtain ⟨hn, hns⟩ := List.forall_mem_cons.1 h
    cases ns with
    | nil => exact clauseNames_of_identifier hn
    | cons m ns =>
      have hcut : joinWith ", ".toList (n :: m :: ns) =
          n ++ ',' :: ([] ++ ' ' :: joinWith ", ".toList (m :: ns)) := by simp
      rw [hcut, clauseNames_append_cons rfl, clauseNames_append_cons rfl, ih hns,
        clauseNames_of_identifier hn]
      rfl

/-- No comment begins in a text without comment signs and quotes. -/
theorem dropComment_append {l : Text} (h : ∀ c ∈ l, c ≠ '%' ∧ c ≠ '\'' ∧ c ≠ '"') (r : Text) :
    dropComment (l ++ r) = l ++ dropComment r := by
  rw [dropComment, dropComment]
  induction l with
  | nil => rfl
  | cons c l ih =>
    obtain ⟨⟨h1, h2, h3⟩, hl⟩ := List.forall_mem_cons.1 h
    simp [dropCommentFrom, h1, h2, h3, ih hl]

theorem beforeDots?_append {l : Text} (h : ∀ c ∈ l, c ≠ '.') (r : Text) :
    beforeDots? (l ++ r) = (beforeDots? r).map (l ++ ·) := by
  induction l with
  | nil => simp
  | cons c l ih =>
    obtain ⟨hc, hl⟩ := List.forall_mem_cons.1 h
    simp [beforeDots?, after?, hc.symm, ih hl, Function.comp_def]

/-- A line without quotes, comments and dots is its own logical line. -/
theorem logicalLine_of_forall {l r : Text} (hn : ∀ c ∈ l, c ≠ '\n')
    (hq : ∀ c ∈ l, c ≠ '%' ∧ c ≠ '\'' ∧ c ≠ '"') (hdots : ∀ c ∈ l, c ≠ '.') :
    logicalLine (l ++ '\n' :: r) = (l, l.length) := by
  have hl : splitWhere (· == '\n') l = [l] := splitWhere_of_forall (by simpa using hn)
  rw [logicalLine, lines, splitOn, splitWhere_append_cons rfl, hl]
  cases hr : splitWhere (· == '\n') r with
  | nil => exact absurd hr (splitWhere_ne_nil _ _)
  | cons m ls =>
    have hcode : dropComment l = l := by
      simpa [dropComment, dropCommentFrom] using dropComment_append hq []
    have hend : beforeDots? l = none := by simpa [beforeDots?] using beforeDots?_append hdots []
    rw [List.singleton_append, joinContinued, hcode, hend]

theorem untilClosed?_append {l : Text} (h : ∀ c ∈ l, c ≠ '(' ∧ c ≠ ')') (r : Text) :
    untilClosed? 1 (l ++ ')' :: r) = some (l ++ [')']) := by
  induction l with
  | nil => rfl
  | cons c l ih =>
    obtain ⟨⟨h1, h2⟩, hl⟩ := List.forall_mem_cons.1 h
    simp [untilClosed?, h1, h2, ih hl]

/-- The parameter list is cut out of a line, whatever follows it. -/
theorem parameterClause_append {s l : Text} (hs : ∀ c ∈ s, isSpace c = true)
    (hl : ∀ c ∈ l, c ≠ '(' ∧ c ≠ ')') (r : Text) :
    parameterClause (s ++ '(' :: (l ++ ')' :: r)) = '(' :: l ++ [')'] := by
  have htrim : trimLeft (s ++ '(' :: (l ++ ')' :: r)) = '(' :: (l ++ ')' :: r) :=
    dropWhile_run hs (notAhead_cons (by decide))
  rw [parameterClause, htrim]
  simp only [untilClosed?_append hl, Option.getD_some, List.cons_append]

theorem clauseNames_returnClause (d : Declaration) : clauseNames d.returnClause = d.returns := by
  have hcut : d.returnClause =
      [] ++ '[' :: (joinWith ", ".toList d.returns ++ ']' :: ([] ++ ' ' :: ([] ++ '=' :: []))) := by
    simp [Declaration.returnClause]
  rw [hcut, clauseNames_append_cons rfl, clauseNames_append_cons rfl,
    clauseNames_append_cons rfl, clauseNames_append_cons rfl,
    clauseNames_joinWith d.returns_identifier]
  simp [clauseNames, splitWhere]

theorem clauseNames_argClause (d : Declaration) : clauseNames d.argClause = d.args := by
  have hcut : d.argClause = [] ++ '(' :: (joinWith ", ".toList d.args ++ ')' :: []) := by
    simp [Declaration.argClause]
  rw [hcut, clauseNames_append_cons rfl, clauseNames_append_cons rfl,
    clauseNames_joinWith d.args_identifier]
  simp [clauseNames, splitWhere]

/-- The line after the name of a printed header is its parameter clause. -/
theorem logicalLine_argClause (d : Declaration) (v : Text) :
    logicalLine (d.argClause ++ '\n' :: v) = (d.argClause, d.argClause.length) := by
  have hne : ∀ {e : Char}, isWord e = false ∧ e ≠ ',' ∧ e ≠ ' ' ∧ e ≠ '(' ∧ e ≠ ')' →
      ∀ c ∈ d.argClause, c ≠ e := by
    rintro e ⟨h1, h2, h3, h4, h5⟩ c hc
    simp only [Declaration.argClause, List.mem_append, List.mem_cons, List.not_mem_nil,
      or_false] at hc
    rcases hc with (rfl | hc) | rfl
    · exact h4.symm
    · exact ne_of_mem_joinWith d.args_identifier hc ⟨h1, h2, h3⟩
    · exact h5.symm
  apply logicalLine_of_forall (hne (by decide)) _ (hne (by decide))
  exact fun c hc => ⟨hne (by decide) c hc, hne (by decide) c hc, hne (by decide) c hc⟩

theorem parameterClause_argClause (d : Declaration) :
    parameterClause d.argClause = d.argClause := by
  apply parameterClause_append (s := []) (by simp) _ []
  exact fun c hc => ⟨ne_of_mem_joinWith d.args_identifier hc (by decide),
    ne_of_mem_joinWith d.args_identifier hc (by decide)⟩

theorem signature?_headerLine {depth : Nat} (d : Declaration) {v : Text} :
    signature? (indent depth ++ d.headerLine ++ '\n' :: v) =
      some ⟨indent depth ++ "function".toList ++ [' '], d.returnClause, [' '], d.name,
        d.argClause ++ '\n' :: v⟩ := by
  have hcut : indent depth ++ d.headerLine ++ '\n' :: v = indent depth ++ "function".toList ++
      ([' '] ++ (d.returnClause ++ ([' '] ++ d.name ++ (d.argClause ++ '\n' :: v)))) := by
    simp only [d.headerLine_eq, List.append_assoc]
  have hret : ∀ c ∈ joinWith ", ".toList d.returns, c ≠ ']' :=
    fun c hc => ne_of_mem_joinWith d.returns_identifier hc (by decide)
  have hspace : ∀ c ∈ [' '], isBlank c = true := List.all_eq_true.1 rfl
  have hfiller : ∀ c ∈ [' '], isFiller c = true := List.all_eq_true.1 rfl
  have hbody : ∀ t, NotAhead isFiller (d.returnClause ++ t) := fun t => notAhead_cons (c := '[') rfl
  have hkey : ∀ t, NotAhead isWord ([' '] ++ t) := fun t => notAhead_cons rfl
  have hrest : NotAhead isWord (d.argClause ++ '\n' :: v) := notAhead_cons (c := '(') rfl
  rw [hcut, signature?_of_keyword isBlank_of_mem_indent hfiller (hbody _) (hkey _),
    Declaration.returnClause, returnClause?_bracketed hret hspace, Option.bind_some,
    named?_eq_some hspace d.name_identifier hrest, Option.some_or]

/-- The header printed for a declaration is read back. -/
theorem at?_headerLine {text v : Text} {p depth : Nat} {d : Declaration}
    (hline : startsLine text p = true)
    (hd : text.drop p = indent depth ++ d.headerLine ++ '\n' :: v) :
    ∃ a, at? text p = some a ∧ a.start = p ∧
      a.lineEnd = p + (indent depth ++ d.headerLine).length ∧
      clauseNames a.returnClause = d.returns ∧ a.name = d.name ∧
      clauseNames a.argClause = d.args := by
  rw [at?, if_pos hline, hd, read?, signature?_headerLine, Option.map_some]
  refine ⟨_, rfl, rfl, ?_, clauseNames_returnClause d, rfl, ?_⟩
  · simp only [logicalLine_argClause, Signature.width, d.headerLine_eq, List.length_append]
    omega
  · simp only [logicalLine_argClause, parameterClause_argClause, clauseNames_argClause]

end Header

namespace Docstring

theorem trimRight_of_description {t : Text} (h : IsDescription t) : trimRight t = t := by
  have hlast : NotAhead isSpace t.reverse := by
    intro c hc
    rw [List.head?_reverse] at hc
    exact h.trimmed c hc
  have hdrop : t.reverse.dropWhile isSpace = t.reverse := dropWhile_run (u := []) (by simp) hlast
  rw [trimRight, hdrop, List.reverse_reverse]

/-- The candidates at the end of a line depend on the next line alone. -/
theorem candidates_of_drop {text u : Text} {p : Nat} (hd : text.drop p = '\n' :: u) :
    candidates text p = [tagged? ('\n' :: u), plain? ('\n' :: u), first? ('\n' :: u)] := by
  rw [candidates, Int.toNat_natCast, fromEnd_natCast, hd]

theorem comment?_of_ne {c : Char} {t : Text} (h : c ≠ '%') : comment? (c :: t) = none := by
  unfold comment?
  split
  · rename_i heq
    exact absurd (List.cons.inj heq).1 h
  · rfl

/-- A line that opens with a word holds no description. -/
theorem find?_of_word {text blanks v : Text} {p : Nat} {c : Char}
    (hd : text.drop p = '\n' :: (blanks ++ c :: v)) (hb : ∀ x ∈ blanks, isBlank x = true)
    (hc : isWordStart c = true) : find? text p = none := by
  have hne : c ≠ '%' := ne_of_isWordStart hc rfl
  have hspace : NotAhead isSpace (c :: v) := by
    apply notAhead_cons
    exact eq_false_of_isWord isWord_of_isSpace (isWord_of_isWordStart hc)
  have hblank : NotAhead isBlank (c :: v) := by
    apply Header.notAhead_isBlank
    exact Header.notAhead_isFiller (by simpa using hc)
  have htagged : tagged? ('\n' :: (blanks ++ c :: v)) = none := by
    simp only [tagged?, afterFirst?, if_true, Option.map_some, dropWhile_run hb hblank]
    split
    · rename_i heq
      exact absurd (List.cons.inj (Option.some.inj heq)).1 hne
    · rfl
  have hplain : plain? ('\n' :: (blanks ++ c :: v)) = none := by
    simp only [plain?, afterFirst?, if_true, Option.bind_some, dropWhile_run hb hblank]
    exact comment?_of_ne hne
  have hfirst : first? ('\n' :: (blanks ++ c :: v)) = none := by
    simp only [first?, afterFirst?, if_true, Option.bind_some,
      dropWhile_run (fun x hx => isSpace_of_isBlank (hb x hx)) hspace]
    exact comment?_of_ne hne
  rw [find?, candidates_of_drop hd, htagged, hplain, hfirst]
  rfl

/-- A description on a comment line of its own is found. -/
theorem find?_of_description {text blanks t v : Text} {p : Nat}
    (hd : text.drop p = '\n' :: (blanks ++ '%' :: ' ' :: (t ++ '\n' :: v)))
    (hb : ∀ x ∈ blanks, isBlank x = true) (ht : IsDescription t) : find? text p = some t := by
  have hsign : NotAhead isBlank ('%' :: ' ' :: (t ++ '\n' :: v)) := notAhead_cons rfl
  have htagged : tagged? ('\n' :: (blanks ++ '%' :: ' ' :: (t ++ '\n' :: v))) = none := by
    simp only [tagged?, afterFirst?, if_true, Option.map_some, dropWhile_run hb hsign]
    rfl
  have hflush : NotAhead isBlank (t ++ '\n' :: v) := by
    cases t with
    | nil => exact absurd rfl ht.nonempty
    | cons c t => exact ht.flush
  have hline : restOfLine (t ++ '\n' :: v) = t := by
    apply takeWhile_run
    · exact fun c hc => by simpa using ht.single c hc
    · exact notAhead_cons rfl
  have hcomment : comment? ('%' :: ' ' :: (t ++ '\n' :: v)) = some t := by
    have hsigns : ('%' :: ' ' :: (t ++ '\n' :: v)).dropWhile (· == '%') = ' ' :: (t ++ '\n' :: v) :=
      rfl
    have hspace : (' ' :: (t ++ '\n' :: v)).dropWhile isBlank = t ++ '\n' :: v :=
      dropWhile_run (u := [' ']) (List.all_eq_true.1 rfl) hflush
    simp only [comment?, hsigns, hspace, hline]
  have hplain : plain? ('\n' :: (blanks ++ '%' :: ' ' :: (t ++ '\n' :: v))) = some t := by
    simp only [plain?, afterFirst?, if_true, Option.bind_some, dropWhile_run hb hsign, hcomment]
  rw [find?, candidates_of_drop hd, htagged, hplain]
  simp [trimRight_of_description ht, ht.nonempty]

/-- The description printed for a declaration is found, if a word opens the line after it. -/
theorem find?_docLine {text blanks v : Text} {p depth : Nat} {c : Char} {d : Declaration}
    (hd : text.drop p = '\n' :: (d.docLine depth ++ (blanks ++ c :: v)))
    (hb : ∀ x ∈ blanks, isBlank x = true) (hc : isWordStart c = true) :
    find? text p = d.doc := by
  cases hdoc : d.doc with
  | none =>
    rw [Declaration.docLine, hdoc] at hd
    exact find?_of_word hd hb hc
  | some t =>
    have hline : text.drop p =
        '\n' :: (indent depth ++ '%' :: ' ' :: (t ++ '\n' :: (blanks ++ c :: v))) := by
      rw [hd, Declaration.docLine, hdoc]
      simp
    exact find?_of_description hline isBlank_of_mem_indent (d.doc_description t hdoc)

end Docstring

namespace Header

/-- An indented line that opens with another letter is passed over. -/
theorem Finds.skip_indented {text l v : Text} {p depth : Nat} {c : Char} {hs : List Header}
    (h : Finds text p hs) (hd : text.drop p = indent depth ++ c :: l ++ '\n' :: v)
    (hc : isBlank c = false ∧ c ≠ 'f') (hl : ∀ x ∈ c :: l, x ≠ '\n') :
    Finds text (p + (indent depth ++ c :: l).length + 1) hs := by
  apply h.skip_line hd
  · intro x hx
    rcases List.mem_append.1 hx with hx | hx
    · rintro rfl
      exact absurd (isBlank_of_mem_indent _ hx) (by decide)
    · exact hl x hx
  · rw [List.append_assoc] at hd
    exact at?_eq_none_of_ne hd isBlank_of_mem_indent hc

theorem Finds.skip_docLine {text v : Text} {p depth : Nat} {hs : List Header} {d : Declaration}
    (h : Finds text p hs) (hd : text.drop p = d.docLine depth ++ v) :
    Finds text (p + (d.docLine depth).length) hs := by
  cases hdoc : d.doc with
  | none => simpa [Declaration.docLine, hdoc] using h
  | some t =>
    have ht := d.doc_description t hdoc
    have hline : d.docLine depth = indent depth ++ '%' :: ' ' :: t ++ ['\n'] := by
      simp [Declaration.docLine, hdoc]
    have hcut : text.drop p = indent depth ++ '%' :: ' ' :: t ++ '\n' :: v := by
      rw [hd, hline, List.append_assoc, List.singleton_append]
    rw [hline, List.length_append]
    apply h.skip_indented hcut (by decide)
    rintro x (_ | ⟨_, _ | ⟨_, hx⟩⟩)
    · decide
    · decide
    · exact ht.single x hx

theorem Finds.skip_end {text v : Text} {p depth : Nat} {hs : List Header} (h : Finds text p hs)
    (hd : text.drop p = indent depth ++ "end".toList ++ '\n' :: v) :
    Finds text (p + (indent depth ++ "end".toList).length + 1) hs :=
  h.skip_indented (c := 'e') (l := ['n', 'd']) hd (by decide) (by simp)

end Header
end MatlabOutline
