import MatlabOutline.Proofs.LineBreaks
import MatlabOutline.Proofs.BlockComments
import MatlabOutline.Proofs.Lookahead
import MatlabOutline.Proofs.BlockNesting
import MatlabOutline.Proofs.HeaderCoverage

/-! Headers in block comments. The search for headers takes each line as it stands, while the scan
for block keywords passes over a block comment as a whole. A header that is commented out is found
like any other, but its keyword is not among the block keywords of the text. -/
namespace MatlabOutline
open Text

namespace Lexeme

/-- The kinds of lexemes that begin at an offset, each with the places where it begins and ends. -/
def spans (offset : Nat) : List Lexeme → List (Kind × Nat × Nat)
  | [] => []
  | l :: ls => (l.kind, offset, offset + l.text.length) :: spans (offset + l.text.length) ls

/-- The spans of the lexemes that are still to be read. -/
def spansFrom (text : Text) (fresh : Bool) (p : Nat) : List (Kind × Nat × Nat) :=
  spans p (allFrom fresh (text.take p).reverse (text.drop p))

theorem spansFrom_eq_nil {text : Text} {fresh : Bool} {p : Nat} (h : text.length ≤ p) :
    spansFrom text fresh p = [] := by
  rw [spansFrom, List.drop_eq_nil_iff.2 h, allFrom_nil, spans]

theorem spansFrom_step {text : Text} {fresh : Bool} {p q : Nat} {k : Kind}
    (h : at? text fresh p = some (k, q)) :
    spansFrom text fresh p = (k, p, q) :: spansFrom text false q := by
  obtain ⟨w, rfl, hall⟩ := allFrom_step h
  rw [spansFrom, hall, spans]
  rfl

/-- A span is that of the lexeme at its start. -/
theorem at?_of_mem_spansFrom {text : Text} {fresh : Bool} {p a b : Nat} {k : Kind}
    (hs : (k, a, b) ∈ spansFrom text fresh p) :
    p ≤ a ∧ ∃ fresh, at? text fresh a = some (k, b) := by
  revert hs
  refine Mark.scan_induction text (motive := fun fresh _ p => (k, a, b) ∈ spansFrom text fresh p →
    p ≤ a ∧ ∃ fresh, at? text fresh a = some (k, b)) ?_ ?_ fresh [] p
  · intro fresh _ p h hs
    simp [spansFrom_eq_nil h] at hs
  · intro fresh _ p q k' h ih hs
    rw [spansFrom_step h] at hs
    rcases List.mem_cons.1 hs with heq | hs
    · obtain ⟨rfl, rfl, rfl⟩ : k = k' ∧ a = p ∧ b = q := by simpa using heq
      exact ⟨Nat.le_refl _, fresh, h⟩
    · have hb := at?_bounds h
      obtain ⟨hle, hat⟩ := ih hs
      exact ⟨by omega, hat⟩

/-- A block comment opens after blanks on its line, and ends with a line. -/
theorem at?_blockComment {text : Text} {fresh : Bool} {a b : Nat}
    (h : at? text fresh a = some (.blockComment, b)) :
    (∃ u, text.drop a = '%' :: '\x7b' :: u) ∧
      (∀ c ∈ restOfLine (text.take a).reverse, isBlank c = true) ∧ AtLineEnd (text.drop b) := by
  rw [at?] at h
  split at h
  · simp at h
  · rename_i c rest hd
    have hreads := reads_read fresh (text.take a).reverse c rest
    generalize read fresh (text.take a).reverse c rest = next at h hreads
    simp only [Option.some.injEq, Prod.mk.injEq] at h
    cases hreads with
    | blockComment hopens =>
      have hend := atLineEnd_drop_blockLength rest
      have hcut : text.drop a = ('%' :: rest.take (blockLength rest)) ++
          rest.drop (blockLength rest) := by
        rw [hd, List.cons_append, List.take_append_drop]
      rw [← drop_add_length hcut, List.length_cons, Nat.add_comm _ 1, ← Nat.add_assoc, h.2] at hend
      obtain ⟨u, rfl, hblank⟩ := exists_of_opensBlock hopens
      exact ⟨⟨u, hd⟩, hblank, hend⟩
    | plain _ _ _ hkind =>
      rw [h.1] at hkind
      cases hkind
    | _ => cases h.1

/-- The line on which a block comment opens. -/
theorem drop_startOfLine_blockComment {text : Text} {fresh : Bool} {a b : Nat}
    (h : at? text fresh a = some (.blockComment, b)) :
    ∃ blanks u, text.drop (startOfLine text a) = blanks ++ '%' :: '\x7b' :: u ∧
      ∀ c ∈ blanks, isBlank c = true := by
  obtain ⟨⟨u, hu⟩, hblank, -⟩ := at?_blockComment h
  refine ⟨_, u, by rw [drop_startOfLine, hu], ?_⟩
  exact fun c hc => hblank c (List.mem_reverse.1 hc)

end Lexeme

namespace Mark

/-- No mark lies within a lexeme that is not a word. -/
theorem apart_of_mem_spansFrom {text : Text} {fresh : Bool} {stack : List Bracket} {p a b : Nat}
    {k : Lexeme.Kind} {m : Mark} (hk : ∀ w, k ≠ .word w) (hm : m ∈ scan text fresh stack p)
    (hs : (k, a, b) ∈ Lexeme.spansFrom text fresh p) : m.stop ≤ a ∨ b ≤ m.start := by
  induction fresh, stack, p using scan_induction text with
  | done fresh stack p h => simp [scan_eq_nil h] at hm
  | step fresh stack p q k' h ih =>
    rw [Lexeme.spansFrom_step h] at hs
    rcases mem_scan_step h hm with ⟨-, hword, rfl⟩ | hm <;>
      rcases List.mem_cons.1 hs with heq | hrest
    · exact absurd ((Prod.mk.inj heq).1.trans hword) (hk _)
    · left
      subst hword
      have hq := (Lexeme.at?_keyword h).2.1
      have hle := (Lexeme.at?_of_mem_spansFrom hrest).1
      rw [stop]
      omega
    · right
      obtain ⟨-, -, rfl⟩ : k = k' ∧ a = p ∧ b = q := by simpa using heq
      exact (spells_of_mem_scan hm).1
    · exact ih hm hrest

end Mark

namespace Header

section BlockComment

variable {text : Text} {fresh : Bool} {a b : Nat} {h : Header}

/-- The keyword of a header stands on its first line. -/
theorem restOfLine_header (hp : at? text h.start = some h) :
    ∃ u, restOfLine (text.drop h.start) =
      (text.drop h.start).takeWhile isBlank ++ ("function".toList ++ u) := by
  obtain ⟨u, hu, -⟩ := drop_mark hp
  have hblank : ∀ c ∈ (text.drop h.start).takeWhile isBlank, (c != '\n') = true := by
    intro c hc
    have := List.mem_takeWhile_imp hc
    rw [bne_iff_ne]
    rintro rfl
    exact absurd this (by decide)
  refine ⟨restOfLine u, ?_⟩
  rw [hu, restOfLine, List.takeWhile_append_of_pos hblank,
    List.takeWhile_append_of_pos (List.all_eq_true.1 rfl), ← hu]
  rfl

/-- A header in a block comment starts past the line that opens the comment. -/
theorem endOfLine_lt_start (hc : Lexeme.at? text fresh a = some (.blockComment, b))
    (hp : at? text h.start = some h) (hle : startOfLine text a ≤ h.start) :
    endOfLine text a < h.start := by
  have hb := Lexeme.at?_bounds hc
  rcases Nat.lt_or_eq_of_le hle with hlt | heq
  · have hfits := isSome_at?_iff.1 (Option.isSome_iff_exists.2 ⟨h, hp⟩)
    have := endOfLine_lt_of_fitsAt hlt hfits
    rwa [endOfLine_startOfLine (by omega)] at this
  · obtain ⟨blanks, u, hu, hblank⟩ := Lexeme.drop_startOfLine_blockComment hc
    have hnone := at?_eq_none_of_ne hu hblank (by decide)
    rw [heq, hp] at hnone
    cases hnone

theorem mark_lt_endOfLine (hp : at? text h.start = some h) :
    (h.mark text).start < endOfLine text h.start := by
  obtain ⟨u, hu⟩ := restOfLine_header hp
  have hb := at?_bounds hp
  have hlen := congrArg List.length hu
  rw [List.length_append, List.length_append] at hlen
  have hword : "function".toList.length = 8 := rfl
  rw [endOfLine, if_pos (by omega), mark]
  simp only
  omega

/-- If a header starts in a block comment, its keyword stands there, too. -/
theorem mark_in_blockComment (hc : Lexeme.at? text fresh a = some (.blockComment, b))
    (hp : at? text h.start = some h) (hle : startOfLine text a ≤ h.start) (hlt : h.start < b) :
    a < (h.mark text).start ∧ (h.mark text).start < b := by
  obtain ⟨-, -, hend⟩ := Lexeme.at?_blockComment hc
  have hbounds := Lexeme.at?_bounds hc
  have hopen := le_endOfLine (t := text) (p := a) (by omega)
  have hline := endOfLine_lt_start hc hp hle
  have hstart : h.start ≤ (h.mark text).start := Nat.le_add_right _ _
  refine ⟨by omega, ?_⟩
  -- the line of the header does not go on past the end of the comment
  have hmark := mark_lt_endOfLine hp
  have hlen := endOfLine_le text h.start
  by_contra hge
  obtain ⟨c, hget⟩ : ∃ c, text[b]? = some c := ⟨_, List.getElem?_eq_getElem (by omega)⟩
  have hne := ne_newline_of_lt_endOfLine (p := h.start) (by omega) (by omega) hget
  exact hne (hend c (by rw [List.head?_drop, hget]; rfl))

theorem closesBlock_header (hp : at? text h.start = some h) :
    Lexeme.closesBlock (restOfLine (text.drop h.start)) = false := by
  obtain ⟨u, hu⟩ := restOfLine_header hp
  have hblank : ∀ c ∈ (text.drop h.start).takeWhile isBlank, isBlank c = true :=
    fun c hc => List.mem_takeWhile_imp hc
  have hfun : NotAhead isBlank ("function".toList ++ u) := notAhead_cons (c := 'f') rfl
  rw [hu, Lexeme.closesBlock, dropWhile_run hblank hfun]
  rfl

end BlockComment
end Header

namespace Text

theorem trim_ne_nil {blanks u : Text} {c : Char} (hb : ∀ d ∈ blanks, isSpace d = true)
    (hc : isSpace c = false) : trim (blanks ++ c :: u) ≠ [] := by
  rw [trim, trimLeft, dropWhile_run hb (notAhead_cons hc), trimRight]
  intro h
  have hall := List.dropWhile_eq_nil_iff.1 (List.reverse_eq_nil_iff.1 h) c (by simp)
  rw [hc] at hall
  cases hall

end Text

namespace Builtin

/-- A file that opens with a block comment documents no builtin. -/
theorem find?_blockComment {blanks u : Text} (hb : ∀ c ∈ blanks, isBlank c = true) :
    find? (blanks ++ '%' :: '\x7b' :: u) = none := by
  have hbreak : ∀ c ∈ blanks ++ ['%'], isLineBreak c = false := by
    intro c hc
    rcases List.mem_append.1 hc with hc | hc
    · exact isLineBreak_of_isBlank (hb c hc)
    · rw [List.mem_singleton.1 hc]
      decide
  obtain ⟨l, ls, hls⟩ := exists_splitLines_append hbreak (c := '\x7b') (by decide) u
  rw [List.append_assoc, List.append_assoc, List.singleton_append, List.singleton_append] at hls
  have htrim : trim (blanks ++ '%' :: '\x7b' :: l) ≠ [] :=
    trim_ne_nil (fun c hc => isSpace_of_isBlank (hb c hc)) (by decide)
  rw [find?, hls, List.find?_cons_of_pos (by simpa using htrim), Option.bind_some, ofLine?,
    dropWhile_run hb (notAhead_cons (by decide))]
  rfl

end Builtin

namespace FunctionEntry

/-- The keyword of the header from which an entry is taken. -/
def mark (text : Text) (e : FunctionEntry) : Mark :=
  ⟨.opener .function,
    e.start.toNat + ((text.drop e.start.toNat).takeWhile isBlank).length⟩

theorem mark_ofHeader (text : Text) (dialect : Dialect) (h : Header) :
    (ofHeader text dialect h).mark text = h.mark text := rfl

end FunctionEntry

namespace Source

section BlockComment

variable {s : Source} {a b : Nat} {fresh : Bool}

/-- An entry that starts on a line of a block comment is that of a header. -/
theorem exists_header_of_mem_entries
    (hc : Lexeme.at? s.text fresh a = some (.blockComment, b)) {e : FunctionEntry}
    (he : e ∈ s.entries.1) (hle : startOfLine s.text a ≤ e.start) :
    ∃ h, Header.at? s.text h.start = some h ∧
      e = FunctionEntry.ofHeader s.text s.usedDialect h := by
  by_cases hh : Header.all s.text = []
  · obtain ⟨blanks, u, hu, hblank⟩ := Lexeme.drop_startOfLine_blockComment hc
    rw [entries_of_no_headers hh] at he
    obtain ⟨d, hd, rfl⟩ : ∃ d, s.builtin? = some d ∧ e = .ofBuiltin d.1 d.2 := by
      simpa [eq_comm] using he
    have hzero : startOfLine s.text a = 0 := by
      simp only [FunctionEntry.ofBuiltin] at hle
      omega
    rw [hzero, List.drop_zero] at hu
    rw [builtin?_eq_none (hu ▸ Builtin.find?_blockComment hblank)] at hd
    cases hd
  · rw [entries_of_headers hh] at he
    exact FunctionEntry.mem_ofHeaders he

/-- On the lines of a block comment functions start as they do elsewhere. -/
theorem exists_start_iff_of_blockComment
    (hc : Lexeme.at? s.text fresh a = some (.blockComment, b)) {p : Nat}
    (hp : startOfLine s.text a ≤ p) :
    (∃ e ∈ s.entries.1, e.start = p) ↔
      Header.FitsAt s.text p ∧ ∀ e ∈ s.entries.1,
        ¬ (e.start < p ∧ p ≤ Header.lineEndAt s.text e.start.toNat) := by
  by_cases hh : Header.all s.text = []
  · have hfinds := Header.finds_all s.text
    rw [hh] at hfinds
    refine iff_of_false ?_ ?_
    · rintro ⟨e, he, hstart⟩
      obtain ⟨h, hat, -⟩ := exists_header_of_mem_entries hc he (by omega)
      simpa using hfinds.complete hat (Nat.zero_le _)
    · rintro ⟨hfits, -⟩
      obtain ⟨h, hat⟩ := Option.isSome_iff_exists.1 (Header.isSome_at?_iff.2 hfits)
      simpa using hfinds.complete hat (Nat.zero_le _)
  · rw [entries_of_headers hh]
    exact FunctionEntry.exists_start_iff

end BlockComment

/-- Functions in a block comment that the scan for block keywords passes over. None of them has a
block keyword, and none starts on the line that opens the comment or on one that closes it. Apart
from that a function starts in the comment wherever a header fits, as it does elsewhere. -/
theorem entries_in_blockComment (s : Source) (a b : Nat)
    (hc : (.blockComment, a, b) ∈ Lexeme.spans 0 (Lexeme.all s.text 0)) :
    (∀ e ∈ s.entries.1, e.mark s.text ∈ Mark.all s.text 0 →
      e.start < startOfLine s.text a ∨ b ≤ e.start) ∧
    (∀ e ∈ s.entries.1, startOfLine s.text a ≤ e.start → e.start < b →
      endOfLine s.text a < e.start ∧
        Lexeme.closesBlock (restOfLine (s.text.drop e.start.toNat)) = false) ∧
    ∀ p : Nat, startOfLine s.text a ≤ p → p < b →
      ((∃ e ∈ s.entries.1, e.start = p) ↔
        Header.FitsAt s.text p ∧ ∀ e ∈ s.entries.1,
          ¬ (e.start < p ∧ p ≤ Header.lineEndAt s.text e.start.toNat)) := by
  have hspan : (.blockComment, a, b) ∈ Lexeme.spansFrom s.text true 0 := hc
  obtain ⟨-, fresh, hat⟩ := Lexeme.at?_of_mem_spansFrom hspan
  refine ⟨fun e he hm => ?_, fun e he hle hlt => ?_,
    fun p hp _ => exists_start_iff_of_blockComment hat hp⟩
  · by_contra hin
    obtain ⟨hle, hlt⟩ := not_or.1 hin
    obtain ⟨h, hh, rfl⟩ := exists_header_of_mem_entries hat he (by omega)
    rw [FunctionEntry.mark_ofHeader] at hm
    simp only [FunctionEntry.ofHeader] at hle hlt
    have hmark := Header.mark_in_blockComment hat hh (by omega) (by omega)
    have hstop : (h.mark s.text).start ≤ (h.mark s.text).stop := Nat.le_add_right _ _
    have hapart := Mark.apart_of_mem_spansFrom (fun w => by simp) hm hspan
    omega
  · obtain ⟨h, hh, rfl⟩ := exists_header_of_mem_entries hat he hle
    simp only [FunctionEntry.ofHeader] at hle hlt ⊢
    have hline := Header.endOfLine_lt_start hat hh (by omega)
    exact ⟨by omega, Header.closesBlock_header hh⟩

/-- A function in a block comment, and another one after it. -/
def commentedSource : Source :=
  ⟨"%\x7b\nfunction f\n%\x7d\nfunction g\n".toList, none, [], none⟩

theorem commentedSource_blockComment :
    (.blockComment, 0, 16) ∈ Lexeme.spans 0 (Lexeme.all commentedSource.text 0) ∧
    (∀ e ∈ commentedSource.entries.1,
      e.mark commentedSource.text ∈ Mark.all commentedSource.text 0 → 16 ≤ e.start) ∧
    Header.FitsAt commentedSource.text 3 := by
  have hc : (.blockComment, 0, 16) ∈ Lexeme.spans 0 (Lexeme.all commentedSource.text 0) := by
    decide +kernel
  obtain ⟨hseen, -, hiff⟩ := entries_in_blockComment commentedSource 0 16 hc
  have hzero : startOfLine commentedSource.text 0 = 0 := by decide
  have hfound : ∃ e ∈ commentedSource.entries.1, e.start = (3 : Nat) := by decide +kernel
  refine ⟨hc, fun e he hm => ?_, ((hiff 3 (by omega) (by decide)).1 hfound).1⟩
  have hnonneg : ∀ e ∈ commentedSource.entries.1, 0 ≤ e.start := by decide +kernel
  have hstart := hnonneg e he
  rcases hseen e he hm with hlt | hle
  · omega
  · exact hle

/-- The function in the comment is listed. -/
theorem commentedSource_lists_comment :
    (.blockComment, 0, 16) ∈ Lexeme.spans 0 (Lexeme.all commentedSource.text 0) ∧
    ∃ e ∈ commentedSource.entries.1,
      startOfLine commentedSource.text 0 ≤ e.start ∧ e.start < 16 ∧ e.name = ['f'] := by
  decide +kernel

end Source
end MatlabOutline
