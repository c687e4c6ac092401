import MatlabOutline.Proofs.BlockNesting
import MatlabOutline.Proofs.ListedFunctions
import MatlabOutline.Proofs.UnclosedFunctions

/-! Where the description of a function stands. It is taken from the comment that comes first after
the logical line of the header, white space apart. The search for it does not know the extent of the
function, but the comment lies inside the extent whenever the extent goes past the header at all. -/
namespace MatlabOutline
open Text

namespace Text

theorem eq_of_afterFirst? {t u : Text} (h : afterFirst? '\n' t = some u) :
    t = restOfLine t ++ '\n' :: u := by
  induction t with
  | nil => cases h
  | cons c t ih =>
    rw [afterFirst?] at h
    split_ifs at h with hc
    · obtain rfl := Option.some.inj h
      subst hc
      rfl
    · rw [restOfLine, List.takeWhile_cons_of_pos (by simpa using hc), List.cons_append,
        ← restOfLine, ← ih h]

/-- What is left of a line after a run at its head is an end of the line. -/
theorem restOfLine_dropWhile_suffix {p : Char → Bool} (hp : p '\n' = false) (t : Text) :
    restOfLine (t.dropWhile p) <:+ restOfLine t := by
  induction t with
  | nil => exact List.suffix_refl _
  | cons c t ih =>
    rw [List.dropWhile_cons]
    split_ifs with hc
    · have hne : c ≠ '\n' := by
        rintro rfl
        rw [hp] at hc
        cases hc
      have hline : restOfLine (c :: t) = c :: restOfLine t :=
        List.takeWhile_cons_of_pos (by simpa using hne)
      rw [hline]
      exact ih.trans (List.suffix_cons _ _)
    · exact List.suffix_refl _

end Text

namespace Docstring

/-- The comment at `c` is the one from which the description below the line of `pos` is taken. It is
the first thing after the line but white space, and the description is the end of its line, trimmed.
-/
structure TakenFrom (text : Text) (pos c : Nat) (d : Text) : Prop where
  below : endOfLine text pos < c
  sign : text[c]? = some '%'
  alone : ∀ q, endOfLine text pos ≤ q → q < c → ∃ x ∈ text[q]?, isSpace x = true
  described : ∃ s, s <:+ restOfLine (text.drop c) ∧ d = trimRight s ∧ d ≠ []

/-- A text whose next line holds a comment, with white space before it. -/
def CommentBelow (t s : Text) : Prop :=
  ∃ spaces v, t = restOfLine t ++ '\n' :: (spaces ++ '%' :: v) ∧
    (∀ c ∈ spaces, isSpace c = true) ∧ s <:+ restOfLine v

theorem suffix_of_comment? {t s : Text} (h : comment? t = some s) :
    ∃ v, t = '%' :: v ∧ s <:+ restOfLine v := by
  unfold comment? at h
  split at h
  · rename_i v
    refine ⟨v, rfl, ?_⟩
    rw [← Option.some.inj h, List.dropWhile_cons_of_pos (by rfl)]
    exact (restOfLine_dropWhile_suffix (by decide) _).trans (restOfLine_dropWhile_suffix rfl _)
  · cases h

/-- Each way of finding a comment skips nothing but white space on the way to it. -/
theorem commentBelow_of_run {p : Char → Bool} (hp : ∀ c, p c = true → isSpace c = true)
    {t u s : Text} (hu : afterFirst? '\n' t = some u) (h : comment? (u.dropWhile p) = some s) :
    CommentBelow t s := by
  obtain ⟨v, hv, hs⟩ := suffix_of_comment? h
  refine ⟨u.takeWhile p, v, ?_, fun c hc => hp c (List.mem_takeWhile_imp hc), hs⟩
  rw [← hv, List.takeWhile_append_dropWhile]
  exact eq_of_afterFirst? hu

theorem commentBelow_of_tagged? {t s : Text} (h : tagged? t = some s) : CommentBelow t s := by
  unfold tagged? at h
  split at h
  · rename_i v hv
    obtain ⟨u, hu, hline⟩ := Option.map_eq_some_iff.1 hv
    split_ifs at h
    refine ⟨u.takeWhile isBlank, v, ?_, ?_, ?_⟩
    · rw [← hline, List.takeWhile_append_dropWhile]
      exact eq_of_afterFirst? hu
    · exact fun c hc => isSpace_of_isBlank (List.mem_takeWhile_imp hc)
    · rw [← Option.some.inj h]
      exact (restOfLine_dropWhile_suffix rfl _).trans (restOfLine_dropWhile_suffix rfl v)
  · cases h

theorem commentBelow_of_mem_candidates {text s : Text} {pos : Nat}
    (h : some s ∈ candidates text pos) : CommentBelow (text.drop pos) s := by
  rw [candidates, Int.toNat_natCast, fromEnd_natCast] at h
  simp only [List.mem_cons, List.not_mem_nil, or_false] at h
  rcases h with h | h | h
  · exact commentBelow_of_tagged? h.symm
  · obtain ⟨u, hu, hc⟩ := Option.bind_eq_some_iff.1 h.symm
    exact commentBelow_of_run (fun _ => isSpace_of_isBlank) hu hc
  · obtain ⟨u, hu, hc⟩ := Option.bind_eq_some_iff.1 h.symm
    exact commentBelow_of_run (fun _ => id) hu hc

/-- Where the comment below the line of an offset stands: past the newline that ends the line, with
white space between them. -/
theorem CommentBelow.exists_place {text s : Text} {pos : Nat} (hpos : pos ≤ text.length)
    (h : CommentBelow (text.drop pos) s) :
    text[endOfLine text pos]? = some '\n' ∧
      ∃ c v, endOfLine text pos < c ∧ text.drop c = '%' :: v ∧
        (∀ q, endOfLine text pos ≤ q → q < c → ∃ x ∈ text[q]?, isSpace x = true) ∧
        s <:+ restOfLine v := by
  obtain ⟨spaces, v, hcut, hspaces, hsuffix⟩ := h
  have hend : endOfLine text pos = pos + (restOfLine (text.drop pos)).length := if_pos hpos
  have hbelow : text.drop (endOfLine text pos) = '\n' :: spaces ++ '%' :: v :=
    hend ▸ drop_add_length hcut
  refine ⟨?_, endOfLine text pos + ('\n' :: spaces).length, v, by simp,
    drop_add_length hbelow, fun q hle hlt => ?_, hsuffix⟩
  · rw [← List.head?_drop, hbelow]
    rfl
  · obtain ⟨i, rfl⟩ := Nat.exists_eq_add_of_le hle
    have hi : i < ('\n' :: spaces).length := by omega
    have hget : text[endOfLine text pos + i]? = some (('\n' :: spaces).get ⟨i, hi⟩) := by
      rw [← List.getElem?_drop, hbelow, List.getElem?_append_left hi]
      exact List.getElem?_eq_getElem hi
    refine ⟨_, hget, ?_⟩
    rcases List.mem_cons.1 (List.get_mem ('\n' :: spaces) ⟨i, hi⟩) with hc | hc
    · rw [hc]
      decide
    · exact hspaces _ hc

/-- Every description is taken from a comment. -/
theorem exists_takenFrom {text d : Text} {pos : Nat} (hpos : pos ≤ text.length)
    (h : find? text pos = some d) : ∃ c, TakenFrom text pos c d := by
  obtain ⟨s, hs, hd, hne⟩ := exists_of_find? h
  obtain ⟨-, c, v, hlt, hcomment, hspaces, hsuffix⟩ :=
    (commentBelow_of_mem_candidates hs).exists_place hpos
  refine ⟨c, hlt, ?_, hspaces, s, ?_, hd, hne⟩
  · rw [← List.head?_drop, hcomment]
    rfl
  · have hline : restOfLine ('%' :: v) = '%' :: restOfLine v := rfl
    rw [hcomment, hline]
    exact hsuffix.trans (List.suffix_cons '%' _)

/-- Before anything else but white space that stands past the line, there is the comment. -/
theorem TakenFrom.lt_of_not_isSpace {text d : Text} {pos c q : Nat} {x : Char}
    (h : TakenFrom text pos c d) (hq : endOfLine text pos ≤ q) (hx : text[q]? = some x)
    (hspace : isSpace x = false) (hsign : x ≠ '%') : c < q := by
  by_contra hle
  rcases Nat.lt_or_eq_of_le (Nat.le_of_not_lt hle) with hlt | rfl
  · obtain ⟨y, hy, hblank⟩ := h.alone q hq hlt
    rw [hx, Option.mem_def, Option.some.injEq] at hy
    rw [← hy, hspace] at hblank
    cases hblank
  · rw [h.sign, Option.some.injEq] at hx
    exact hsign hx.symm

end Docstring

namespace Header

/-- A logical line ends where a line of the text ends. -/
theorem endOfLine_lineEnd {text : Text} {h : Header} (hp : at? text h.start = some h) :
    endOfLine text h.lineEnd = h.lineEnd := by
  have hline : restOfLine (text.drop h.lineEnd) = [] :=
    restOfLine_append (u := []) (by simp) (atLineEnd_drop_lineEnd hp)
  rw [endOfLine, if_pos (at?_bounds hp).2.2.2, hline]
  rfl

end Header

namespace Dialect

variable {text d : Text} {h : Header} {c : Nat}

/-- An `end` past the header comes after the comment. -/
theorem lt_of_stop_eq_ok {e : Nat} (hc : Docstring.TakenFrom text h.lineEnd c d)
    (hp : Header.at? text h.start = some h) (he : Block.stop text h.start = .ok e)
    (hlt : h.lineEnd < e) : c < e := by
  obtain ⟨m, hm, hk, rfl⟩ := Block.exists_of_close_eq_ok he
  obtain ⟨-, -, hspell⟩ := Mark.spells_of_mem_scan hm
  have hstop : m.stop = m.start + 3 := by rw [Mark.stop, hk]; rfl
  have hlast : text[m.start + 2]? = some 'd' := by
    rw [← List.getElem?_drop, hspell, hk]
    rfl
  have hend := Header.endOfLine_lineEnd hp
  have := hc.lt_of_not_isSpace (by omega) hlast (by decide) (by decide)
  omega

/-- A header past this one comes after the comment. -/
theorem lt_of_header {a : Header} (hc : Docstring.TakenFrom text h.lineEnd c d)
    (hp : Header.at? text h.start = some h) (ha : Header.at? text a.start = some a)
    (hlt : h.lineEnd < a.start) : c < a.start := by
  obtain ⟨u, hblanks, hword, -⟩ := Header.drop_mark ha
  have hend := Header.endOfLine_lineEnd hp
  have hmark : (a.mark text).start =
      a.start + ((text.drop a.start).takeWhile isBlank).length := rfl
  have hletter : text[(a.mark text).start]? = some 'f' := by
    rw [← List.head?_drop, hword]
    rfl
  have hbefore := hc.lt_of_not_isSpace (by omega) hletter (by decide) (by decide)
  by_contra hle
  -- the comment sign would be one of the blanks before the keyword
  have hsign : ((text.drop a.start).takeWhile isBlank)[c - a.start]? = some '%' := by
    rw [← List.getElem?_append_left (by omega), ← hblanks, List.getElem?_drop,
      Nat.add_sub_cancel' (by omega), hc.sign]
  exact absurd (List.mem_takeWhile_imp (List.mem_of_getElem? hsign)) (by decide)

/-- A function that ends past its header ends past the comment below it. -/
theorem lt_functionEnd (dialect : Dialect) (hc : Docstring.TakenFrom text h.lineEnd c d)
    (hp : Header.at? text h.start = some h)
    (hlt : h.lineEnd < (dialect.functionEnd text h.start).1) :
    c < (dialect.functionEnd text h.start).1 := by
  have hin : c < text.length := (List.getElem?_eq_some_iff.1 hc.sign).1
  cases dialect with
  | closed =>
    rw [functionEnd] at hlt ⊢
    cases hstop : Block.stop text h.start with
    | ok e =>
      rw [hstop] at hlt
      exact lt_of_stop_eq_ok hc hp hstop hlt
    | error e => exact hin
  | unclosed =>
    change h.lineEnd < nextDefinition text h.start at hlt
    change c < nextDefinition text h.start
    by_cases hnext : nextDefinition text h.start < text.length
    · obtain ⟨a, ha⟩ := exists_at?_nextDefinition hnext
      have hstart := (Header.at?_bounds ha).1
      rw [← hstart] at ha hlt ⊢
      exact lt_of_header hc hp ha hlt
    · omega

end Dialect

namespace Source

theorem exists_header_of_builtin_eq_false {s : Source} {e : FunctionEntry}
    (he : e ∈ s.entries.1) (hb : e.builtin = false) :
    ∃ h, Header.at? s.text h.start = some h ∧
      e = FunctionEntry.ofHeader s.text s.usedDialect h := by
  by_cases hh : Header.all s.text = []
  · rw [entries_of_no_headers hh] at he
    obtain ⟨d, -, rfl⟩ := Option.map_eq_some_iff.1 (Option.mem_toList.1 he)
    cases hb
  · rw [entries_of_headers hh] at he
    exact FunctionEntry.mem_ofHeaders he

/-- The description of a function is taken from the comment below the logical line of its header,
and the comment lies inside the extent if the extent goes past that line. -/
theorem docstring_in_extent (s : Source) (e : FunctionEntry) (d : Text) (he : e ∈ s.entries.1)
    (hb : e.builtin = false) (hd : e.docstring = some d) :
    ∃ c : Nat, Docstring.TakenFrom s.text (Header.lineEndAt s.text e.start.toNat) c d ∧
      e.start ≤ Header.lineEndAt s.text e.start.toNat ∧
      Header.lineEndAt s.text e.start.toNat < c ∧
      (Header.lineEndAt s.text e.start.toNat < e.stop → c < e.stop) := by
  obtain ⟨h, hp, rfl⟩ := exists_header_of_builtin_eq_false he hb
  have hbounds := Header.at?_bounds hp
  have hline : Header.lineEndAt s.text h.start = h.lineEnd := Header.lineEndAt_eq hp
  obtain ⟨c, hc⟩ := Docstring.exists_takenFrom (by omega) hd
  have hbelow := hc.below
  rw [Header.endOfLine_lineEnd hp] at hbelow
  simp only [FunctionEntry.ofHeader, Int.toNat_natCast, hline]
  refine ⟨c, hc, by omega, by omega, fun hlt => ?_⟩
  exact Int.ofNat_lt.2 (Dialect.lt_functionEnd s.usedDialect hc hp (Int.ofNat_lt.1 hlt))

/-- A description after a continued header and an empty line. -/
def describedSource : Source :=
  ⟨"function y = f(a, ...\n b)\n\n  % Adds.\nend\n".toList, none, [], some .closed⟩

theorem describedSource_docstring_in_extent :
    (∃ e ∈ describedSource.entries.1, e.builtin = false ∧ e.docstring = some "Adds.".toList ∧
      Header.lineEndAt describedSource.text e.start.toNat < e.stop) ∧
    ∃ e ∈ describedSource.entries.1, ∃ c : Nat,
      Docstring.TakenFrom describedSource.text 25 c "Adds.".toList ∧ e.start ≤ c ∧ c < e.stop := by
  have hentry : ∃ e ∈ describedSource.entries.1,
      e.builtin = false ∧ e.docstring = some "Adds.".toList ∧
        Header.lineEndAt describedSource.text e.start.toNat < e.stop := by decide +kernel
  have hline : ∀ e ∈ describedSource.entries.1,
      Header.lineEndAt describedSource.text e.start.toNat = 25 := by decide +kernel
  refine ⟨hentry, ?_⟩
  obtain ⟨e, he, hb, hd, hlt⟩ := hentry
  obtain ⟨c, hc, hstart, hbelow, hin⟩ :=
    docstring_in_extent describedSource e "Adds.".toList he hb hd
  have hstop := hin hlt
  rw [hline e he] at hc hstart hbelow
  exact ⟨e, he, c, hc, by omega, hstop⟩

/-- A function on a line of its own, and a comment about the next one. -/
def oneLineSource : Source :=
  ⟨"function f, end\n% About g.\nfunction g\nend\n".toList, none, [], some .closed⟩

/-- The comment below a function that ends on the line of its header is not inside its extent, and
describes it all the same. -/
theorem oneLineSource_docstring_outside :
    ∃ e ∈ oneLineSource.entries.1, e.builtin = false ∧ e.name = ['f'] ∧
      e.docstring = some "About g.".toList ∧
      ∀ c : Nat, Docstring.TakenFrom oneLineSource.text
        (Header.lineEndAt oneLineSource.text e.start.toNat) c "About g.".toList →
        ¬ (e.start ≤ c ∧ c < e.stop) := by
  have hentry : ∃ e ∈ oneLineSource.entries.1, e.builtin = false ∧ e.name = ['f'] ∧
      e.docstring = some "About g.".toList ∧ e.stop = 15 ∧
      endOfLine oneLineSource.text (Header.lineEndAt oneLineSource.text e.start.toNat) = 15 := by
    decide +kernel
  obtain ⟨e, he, hb, hname, hd, hstop, hline⟩ := hentry
  refine ⟨e, he, hb, hname, hd, fun c hc hin => ?_⟩
  have hbelow := hc.below
  omega

end Source
end MatlabOutline
