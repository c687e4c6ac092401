import MatlabOutline.Proofs.Extent
import MatlabOutline.Proofs.Balance

/-! Functions that are closed by an `end`. If the keyword of every header is a block keyword of the
text, then extents are nested or apart, no end is cut off, and one function lies below another
exactly if its keyword stands inside the other's block. -/
namespace MatlabOutline
open Text

namespace Header

/-- The keyword that opens a header. -/
def mark (text : Text) (h : Header) : Mark :=
  ⟨.opener .function, h.start + ((text.drop h.start).takeWhile isBlank).length⟩

theorem mark_lt_stop {text : Text} {h : Header} (hp : at? text h.start = some h) :
    (h.mark text).start < h.stop := by
  obtain ⟨s, hs, heq⟩ := Option.map_eq_some_iff.1 (at?_eq_some_iff.1 hp).2
  obtain ⟨-, -, -, -, filler, hlead, -⟩ := signature?_pieces hs
  have hstop : h.stop = h.start + s.width := by rw [← heq]
  have hlen := congrArg List.length hlead
  simp only [List.length_append] at hlen
  have hword : "function".toList.length = 8 := rfl
  rw [hstop, mark, Signature.width]
  simp only
  omega

/-- Only blanks stand between the start of a header and its keyword. -/
theorem drop_mark {text : Text} {h : Header} (hp : at? text h.start = some h) :
    ∃ u, text.drop h.start = (text.drop h.start).takeWhile isBlank ++ ("function".toList ++ u) ∧
      text.drop (h.mark text).start = "function".toList ++ u ∧ NotAhead isWord u := by
  obtain ⟨u, hu, hw⟩ := keyword_of_read? (at?_eq_some_iff.1 hp).2
  have hcut := List.takeWhile_append_dropWhile (p := isBlank) (l := text.drop h.start)
  rw [hu] at hcut
  exact ⟨u, hcut.symm, drop_add_length hcut.symm, hw⟩

end Header

/-- Only blanks stand before a place that blanks lead to from the start of its line. -/
theorem Text.onlyBlanksBefore_take {text u v : Text} {p : Nat}
    (hline : Header.startsLine text p = true) (hd : text.drop p = u ++ v)
    (hu : ∀ c ∈ u, isBlank c = true) :
    onlyBlanksBefore (text.take (p + u.length)).reverse = true := by
  have hnewline : ∀ c ∈ u.reverse, c ≠ '\n' := by
    rintro c hc rfl
    exact absurd (hu _ (List.mem_reverse.1 hc)) (by decide)
  have hend : AtLineEnd (text.take p).reverse := by
    intro c hc
    rw [List.head?_reverse, Option.mem_def] at hc
    simpa [Header.startsLine, hc] using hline
  rw [onlyBlanksBefore, take_add_length hd, List.reverse_append, restOfLine_append hnewline hend,
    List.all_reverse]
  exact List.all_eq_true.2 hu

namespace Lexeme

/-- A keyword that opens a line is a lexeme in its own right, and so is `arguments` if nothing else
stands on the line. -/
theorem at?_indented {text u v : Text} {p : Nat} {k : Keyword}
    (hk : k = .opener .arguments → Keyword.opensArguments v = true)
    (hline : Header.startsLine text p = true) (hd : text.drop p = u ++ (k.word ++ v))
    (hu : ∀ c ∈ u, isBlank c = true) (hv : NotAhead isWord v) (fresh : Bool) :
    at? text fresh (p + u.length) = some (.word (some k), p + u.length + k.word.length) := by
  have hword : IsIdentifier k.word := by
    cases k with
    | close => exact ⟨rfl, List.all_eq_true.1 rfl⟩
    | opener o => cases o <;> exact ⟨rfl, List.all_eq_true.1 rfl⟩
  have hhere : Keyword.here? (text.take (p + u.length)).reverse k.word v = some k := by
    rw [Keyword.here?, if_neg (Header.head?_take_blanks hline hd hu), Keyword.ofWord?_word]
    split
    · rename_i heq
      rw [onlyBlanksBefore_take hline hd hu, hk (Option.some.inj heq), heq]
      rfl
    · rfl
  rw [at?_word (drop_add_length hd) hword hv, hhere]

/-- The keyword of a header is a lexeme in its own right. -/
theorem at?_mark {text : Text} {h : Header} (hp : Header.at? text h.start = some h) (fresh : Bool) :
    at? text fresh (h.mark text).start =
      some (.word (some (.opener .function)), (h.mark text).stop) := by
  obtain ⟨u, hu, -, hw⟩ := Header.drop_mark hp
  exact at?_indented (k := .opener .function) (by simp) (Header.at?_eq_some_iff.1 hp).1 hu
    (fun c hc => List.mem_takeWhile_imp hc) hw fresh

end Lexeme

namespace Mark

/-- A scan from the start of a line begins with the keyword that opens the line. -/
theorem scan_indented {text u v : Text} {p : Nat} {k : Keyword}
    (hk : k = .opener .arguments → Keyword.opensArguments v = true)
    (hline : Header.startsLine text p = true) (hd : text.drop p = u ++ (k.word ++ v))
    (hu : ∀ c ∈ u, isBlank c = true) (hv : NotAhead isWord v) (fresh : Bool) :
    scan text fresh [] p =
      ⟨k, p + u.length⟩ :: scan text false [] (p + u.length + k.word.length) := by
  have hmark : ∀ fresh, scan text fresh [] (p + u.length) =
      ⟨k, p + u.length⟩ :: scan text false [] (p + u.length + k.word.length) := by
    intro fresh
    rw [scan_step (Lexeme.at?_indented hk hline hd hu hv fresh)]
    rfl
  cases u with
  | nil => exact hmark fresh
  | cons c b =>
    rw [← hmark false, ← scan_blanks hd hu, scan_step (Lexeme.at?_of_isBlank hd (hu c (by simp))),
      scan_step (Lexeme.at?_of_isBlank hd (hu c (by simp)))]

/-- A scan from a header begins with the keyword of the header. -/
theorem all_of_header {text : Text} {h : Header} (hp : Header.at? text h.start = some h) :
    all text h.start = h.mark text :: scan text false [] (h.mark text).stop := by
  obtain ⟨u, hu, -, hw⟩ := Header.drop_mark hp
  exact scan_indented (k := .opener .function) (by simp) (Header.at?_eq_some_iff.1 hp).1 hu
    (fun c hc => List.mem_takeWhile_imp hc) hw true

/-- A scan from the keyword of a header is the scan from the header. -/
theorem all_mark {text : Text} {h : Header} (hp : Header.at? text h.start = some h) :
    all text (h.mark text).start = all text h.start := by
  rw [all_of_header hp, all_eq_scan, scan_step (Lexeme.at?_mark hp true)]
  rfl

theorem stop_le_start_of_lt {text : Text} {p a b : Nat} {m n : Mark}
    (hm : (all text p)[a]? = some m) (hn : (all text p)[b]? = some n) (hab : a < b) :
    m.stop ≤ n.start := by
  obtain ⟨ha, rfl⟩ := List.getElem?_eq_some_iff.1 hm
  obtain ⟨hb, rfl⟩ := List.getElem?_eq_some_iff.1 hn
  exact List.pairwise_iff_getElem.1 (scan_pairwise text true [] p) a b ha hb hab

/-- An `end` before the keyword of a header stands before the whole header. -/
theorem stop_le_header {text : Text} {p a b : Nat} {m : Mark} {h : Header}
    (hp : Header.at? text h.start = some h) (hm : (all text p)[a]? = some m)
    (hh : (all text p)[b]? = some (h.mark text)) (hab : a < b) (hk : m.keyword = .close) :
    m.stop ≤ h.start := by
  have hle := stop_le_start_of_lt hm hh hab
  obtain ⟨-, -, hspell⟩ := spells_of_mem_scan (List.mem_of_getElem? hm)
  have hstop : m.stop = m.start + 3 := by rw [stop, hk]; rfl
  have hlast : text[m.start + 2]? = some 'd' := by
    rw [← List.getElem?_drop, hspell, hk]
    rfl
  by_contra hlt
  -- the last letter of the `end` would be one of the blanks before the keyword
  obtain ⟨u, hu, -⟩ := Header.drop_mark hp
  have hin : m.start + 2 - h.start < ((text.drop h.start).takeWhile isBlank).length := by
    rw [Header.mark] at hle
    simp only at hle
    omega
  have hblank : ((text.drop h.start).takeWhile isBlank)[m.start + 2 - h.start]? = some 'd' := by
    rw [← List.getElem?_append_left hin, ← hu, List.getElem?_drop, ← hlast]
    congr 1
    omega
  exact absurd (List.mem_takeWhile_imp (List.mem_of_getElem? hblank)) (by decide)

end Mark

/-- The block of a header is open after its keyword. -/
theorem Block.stop_of_header {text : Text} {h : Header} (hp : Header.at? text h.start = some h) :
    stop text h.start = close h.start 1 (Mark.scan text false [] (h.mark text).stop) := by
  rw [stop, Mark.all_of_header hp]
  exact close_opener _ _ _ _ _

namespace Dialect

/-- A function ends with the `end` that closes its block, or with the text. -/
theorem functionEnd_closed {text : Text} {h : Header} (hp : Header.at? text h.start = some h) :
    (∃ c m, 0 < c ∧ Block.ClosesAt (Mark.all text h.start) c ∧
      (Mark.all text h.start)[c]? = some m ∧ (closed.functionEnd text h.start).1 = m.stop) ∨
    (∀ c, ¬ Block.ClosesAt (Mark.all text h.start) c) ∧
      (closed.functionEnd text h.start).1 = text.length := by
  have hall := Mark.all_of_header hp
  have hopen : Block.rise (h.mark text).keyword = 1 := rfl
  rw [functionEnd, Block.stop_of_header hp, hall]
  rcases Block.exists_returnsAt_or Int.one_pos (Mark.scan text false [] (h.mark text).stop) with
    ⟨i, hi⟩ | hpos
  · left
    obtain ⟨m, hm⟩ : ∃ m, (Mark.scan text false [] (h.mark text).stop)[i]? = some m :=
      ⟨_, List.getElem?_eq_getElem hi.1⟩
    refine ⟨i + 1, m, by omega, (Block.closesAt_cons_succ hopen).2 hi, hm, ?_⟩
    rw [Block.close_of_returnsAt Nat.one_pos hi hm]
  · right
    constructor
    · rintro c hc
      cases c with
      | zero =>
        have := hc.2.1
        simp [Block.balance, hopen] at this
      | succ c =>
        have hzero := ((Block.closesAt_cons_succ hopen).1 hc).2.1
        have := hpos (c + 1)
        omega
    · rw [Block.close_of_forall_pos hpos]

section Stream

variable {text : Text} {p a b : Nat} {h g : Header}

theorem drop_stream (hh : Header.at? text h.start = some h)
    (ha : (Mark.all text p)[a]? = some (h.mark text)) :
    (Mark.all text p).drop a = Mark.all text h.start := by
  rw [← Mark.all_mark hh]
  exact Mark.drop_scan ha

/-- Where a function ends in a stream that holds its keyword. -/
theorem functionEnd_stream (hh : Header.at? text h.start = some h)
    (ha : (Mark.all text p)[a]? = some (h.mark text)) :
    (∃ c m, 0 < c ∧ Block.ClosesAt ((Mark.all text p).drop a) c ∧ m.keyword = .close ∧
      (Mark.all text p)[a + c]? = some m ∧ (closed.functionEnd text h.start).1 = m.stop) ∨
    (∀ c, ¬ Block.ClosesAt ((Mark.all text p).drop a) c) ∧
      (closed.functionEnd text h.start).1 = text.length := by
  have hdrop := drop_stream hh ha
  rcases functionEnd_closed hh with ⟨c, m, hpos, hc, hm, hend⟩ | hnever
  · left
    refine ⟨c, m, hpos, hdrop ▸ hc, hc.keyword hpos hm, ?_, hend⟩
    rw [← List.getElem?_drop, hdrop, hm]
  · right
    rwa [hdrop]

/-- A function that opens inside the block of another starts and ends there. -/
theorem inner_bounds {c : Nat} {m : Mark} (hg : Header.at? text g.start = some g)
    (hb : (Mark.all text p)[b]? = some (g.mark text)) (hab : a < b) (hbc : b < a + c)
    (hc : Block.ClosesAt ((Mark.all text p).drop a) c) (hm : (Mark.all text p)[a + c]? = some m) :
    g.start < m.stop ∧ (closed.functionEnd text g.start).1 ≤ m.stop := by
  have hbefore := Mark.stop_le_start_of_lt hb hm hbc
  have hstart : g.start ≤ (g.mark text).start := Nat.le_add_right _ _
  have hmark : (g.mark text).stop = (g.mark text).start + 8 := rfl
  have hmstop : m.start ≤ m.stop := Nat.le_add_right _ _
  refine ⟨by omega, ?_⟩
  obtain ⟨d, hd, hdc⟩ := hc.inner hab hbc hb rfl
  rcases functionEnd_stream hg hb with ⟨d', n, -, hd', -, hn, hend⟩ | ⟨hnever, -⟩
  · obtain rfl := hd.unique hd'
    have := Mark.stop_le_start_of_lt hn hm hdc
    omega
  · exact absurd hd (hnever d)

/-- A later function starts before the end of an earlier one exactly if its keyword stands before
the `end` that closes the earlier one, or there is no such `end`. -/
theorem start_lt_functionEnd_iff (hh : Header.at? text h.start = some h)
    (hg : Header.at? text g.start = some g) (ha : (Mark.all text p)[a]? = some (h.mark text))
    (hb : (Mark.all text p)[b]? = some (g.mark text)) (hab : a < b) :
    g.start < (closed.functionEnd text h.start).1 ↔
      ∀ c, Block.ClosesAt ((Mark.all text p).drop a) c → b < a + c := by
  rcases functionEnd_stream hh ha with ⟨c, m, -, hc, hk, hm, hend⟩ | ⟨hnever, hend⟩
  · rw [hend]
    constructor
    · intro hlt d hd
      obtain rfl := hc.unique hd
      by_contra hle
      have hne : a + c ≠ b := by
        rintro rfl
        rw [hm, Option.some.injEq] at hb
        rw [hb] at hk
        cases hk
      have := Mark.stop_le_header hg hm hb (by omega) hk
      omega
    · exact fun hin => (inner_bounds hg hb hab (hin c hc) hc hm).1
  · rw [hend]
    have := Header.at?_bounds hg
    exact iff_of_true (by omega) fun c hc => absurd hc (hnever c)

/-- Two functions of a stream are nested or apart. -/
theorem functionEnd_nested_or_apart (hh : Header.at? text h.start = some h)
    (hg : Header.at? text g.start = some g) (ha : (Mark.all text p)[a]? = some (h.mark text))
    (hb : (Mark.all text p)[b]? = some (g.mark text)) (hab : a < b) :
    (closed.functionEnd text g.start).1 ≤ (closed.functionEnd text h.start).1 ∨
      (closed.functionEnd text h.start).1 ≤ g.start := by
  by_cases hlt : g.start < (closed.functionEnd text h.start).1
  · left
    have hin := (start_lt_functionEnd_iff hh hg ha hb hab).1 hlt
    rcases functionEnd_stream hh ha with ⟨c, m, -, hc, -, hm, hend⟩ | ⟨-, hend⟩
    · rw [hend]
      exact (inner_bounds hg hb hab (hin c hc) hc hm).2
    · rw [hend]
      exact (functionEnd_bounds closed hg).2
  · right
    omega

/-- Headers and their keywords come in the same order. -/
theorem index_lt_of_start_lt (hh : h ∈ Header.all text) (hg : g ∈ Header.all text)
    (ha : (Mark.all text p)[a]? = some (h.mark text))
    (hb : (Mark.all text p)[b]? = some (g.mark text)) (hlt : h.start < g.start) : a < b := by
  have hfinds := Header.finds_all text
  have hline := hfinds.apart hh hg hlt
  have hat := (hfinds.at? h hh).2
  have hbounds := Header.at?_bounds hat
  have hmark := Header.mark_lt_stop hat
  have hstart : g.start ≤ (g.mark text).start := Nat.le_add_right _ _
  by_contra hle
  rcases Nat.lt_or_eq_of_le (Nat.le_of_not_lt hle) with hba | rfl
  · have := Mark.stop_le_start_of_lt hb ha hba
    have hstop : (g.mark text).stop = (g.mark text).start + 8 := rfl
    omega
  · rw [ha, Option.some.injEq] at hb
    rw [hb] at hmark
    omega

end Stream

end Dialect

namespace Source

theorem pairwise_nested_or_apart {text : Text} {p : Nat}
    (hseen : ∀ h ∈ Header.all text, h.mark text ∈ Mark.all text p) :
    (FunctionEntry.ofHeaders text .closed).Pairwise fun x y =>
      y.stop ≤ x.stop ∨ x.stop ≤ y.start := by
  have hfinds := Header.finds_all text
  rw [FunctionEntry.ofHeaders, List.pairwise_map]
  refine hfinds.pairwise.imp_of_mem fun {h g} hh hg hlt => ?_
  obtain ⟨a, ha⟩ := List.getElem?_of_mem (hseen h hh)
  obtain ⟨b, hb⟩ := List.getElem?_of_mem (hseen g hg)
  have hat := (hfinds.at? h hh).2
  have hbounds := Header.at?_bounds hat
  have hab := Dialect.index_lt_of_start_lt hh hg ha hb (by omega)
  have := Dialect.functionEnd_nested_or_apart hat (hfinds.at? g hg).2 ha hb hab
  simp only [FunctionEntry.ofHeader]
  omega

theorem flatten_nest_eq {text : Text} {p : Nat}
    (hseen : ∀ h ∈ Header.all text, h.mark text ∈ Mark.all text p) :
    (Outline.nest (FunctionEntry.ofHeaders text .closed) text.length).flatten =
      FunctionEntry.ofHeaders text .closed := by
  have hbounds := @FunctionEntry.ofHeaders_bounds text .closed
  have hin : Outline.inside text.length (FunctionEntry.ofHeaders text .closed) =
      FunctionEntry.ofHeaders text .closed := by
    apply Outline.inside_eq_self
    intro e he
    have := hbounds e he
    omega
  have h := (Outline.nests_nest (FunctionEntry.ofHeaders text .closed) text.length).flatten_eq
    (by rw [hin]; exact fun e he => (hbounds e he).2.2) (pairwise_nested_or_apart hseen)
  rwa [hin] at h

/-- In the outline of sorted functions that keep their ends, a function lies below another exactly
if it comes later and starts before the other ends. -/
theorem isAncestor_iff_start_lt {text : Text} {p i j : Nat} {h g : Header}
    (hseen : ∀ h ∈ Header.all text, h.mark text ∈ Mark.all text p)
    (hi : (Header.all text)[i]? = some h) (hj : (Header.all text)[j]? = some g) :
    (Outline.nest (FunctionEntry.ofHeaders text .closed) text.length).IsAncestor i j ↔
      i < j ∧ g.start < (Dialect.closed.functionEnd text h.start).1 := by
  have hflat := flatten_nest_eq hseen
  have hget : ∀ (k : Nat) (x : Header), (Header.all text)[k]? = some x →
      (FunctionEntry.ofHeaders text .closed)[k]? =
        some (FunctionEntry.ofHeader text .closed x) := by
    intro k x hx
    rw [FunctionEntry.ofHeaders, List.getElem?_map, hx]
    rfl
  have hsize : j < (Outline.nest (FunctionEntry.ofHeaders text .closed) text.length).size := by
    rw [← Forest.length_flatten, hflat]
    exact (List.getElem?_eq_some_iff.1 (hget j g hj)).1
  rw [(Outline.nests_nest _ _).isAncestor_iff hsize (by rw [hflat]; exact hget i h hi)]
  refine and_congr_right fun hij => ?_
  rw [Outline.startBefore_iff_of_sorted
    ((FunctionEntry.ofHeaders_sorted text .closed).imp Int.le_of_lt) hij (hget j g hj)]
  exact Int.ofNat_lt

theorem index_lt_iff {text : Text} {p i j a b : Nat} {h g : Header}
    (hi : (Header.all text)[i]? = some h) (hj : (Header.all text)[j]? = some g)
    (ha : (Mark.all text p)[a]? = some (h.mark text))
    (hb : (Mark.all text p)[b]? = some (g.mark text)) : i < j ↔ a < b := by
  have hfinds := Header.finds_all text
  have horder : ∀ {k l : Nat} {x y : Header}, (Header.all text)[k]? = some x →
      (Header.all text)[l]? = some y → k < l → x.start < y.start := by
    intro k l x y hx hy hkl
    obtain ⟨hk, rfl⟩ := List.getElem?_eq_some_iff.1 hx
    obtain ⟨hl, rfl⟩ := List.getElem?_eq_some_iff.1 hy
    have hline := List.pairwise_iff_getElem.1 hfinds.pairwise k l hk hl hkl
    have := Header.at?_bounds (hfinds.at? _ (List.getElem_mem hk)).2
    omega
  have hhmem := List.mem_of_getElem? hi
  have hgmem := List.mem_of_getElem? hj
  constructor
  · exact fun hij => Dialect.index_lt_of_start_lt hhmem hgmem ha hb (horder hi hj hij)
  · intro hab
    rcases Nat.lt_trichotomy i j with hij | rfl | hji
    · exact hij
    · rw [hi, Option.some.injEq] at hj
      subst hj
      have := Mark.stop_le_start_of_lt ha hb hab
      have hstop : (h.mark text).stop = (h.mark text).start + 8 := rfl
      omega
    · have := Dialect.index_lt_of_start_lt hgmem hhmem hb ha (horder hj hi hji)
      omega

/-- If the keyword of every header is seen by the scan from the first one, then closed functions
are nested as their blocks are. -/
theorem outline_follows_blocks (s : Source) (first : Header) (hdialect : s.dialect = some .closed)
    (hfirst : Header.first? s.text = some first)
    (hseen : ∀ h ∈ Header.all s.text, h.mark s.text ∈ Mark.all s.text first.start) :
    (s.entries.1.Pairwise fun x y => y.stop ≤ x.stop ∨ x.stop ≤ y.start) ∧
    s.outline.1.flatten = s.entries.1 ∧
    ∀ (i j a b : Nat) (h g : Header),
      (Header.all s.text)[i]? = some h → (Header.all s.text)[j]? = some g →
      (Mark.all s.text first.start)[a]? = some (h.mark s.text) →
      (Mark.all s.text first.start)[b]? = some (g.mark s.text) →
      (s.outline.1.IsAncestor i j ↔
        a < b ∧ ∀ c, Block.ClosesAt ((Mark.all s.text first.start).drop a) c → b < a + c) := by
  have hne : Header.all s.text ≠ [] := by
    rw [Header.first?_eq_head?] at hfirst
    exact List.ne_nil_of_mem (List.mem_of_head? hfirst)
  have hused : s.usedDialect = .closed := by rw [usedDialect, hdialect]; rfl
  rw [outline, entries_of_headers hne, hused]
  refine ⟨pairwise_nested_or_apart hseen, flatten_nest_eq hseen, ?_⟩
  intro i j a b h g hi hj ha hb
  have hat : ∀ x ∈ Header.all s.text, Header.at? s.text x.start = some x :=
    fun x hx => ((Header.finds_all s.text).at? x hx).2
  rw [isAncestor_iff_start_lt hseen hi hj, index_lt_iff hi hj ha hb]
  exact and_congr_right fun hab => Dialect.start_lt_functionEnd_iff
    (hat h (List.mem_of_getElem? hi)) (hat g (List.mem_of_getElem? hj)) ha hb hab

/-- One function closed inside another, and a third that is never closed. -/
def nestedSource : Source :=
  ⟨"function a\n function b\n end\nend\nfunction c\n".toList, none, [], some .closed⟩

theorem nestedSource_follows_blocks :
    (Header.first? nestedSource.text = some ⟨0, 10, 10, [], ['a'], []⟩ ∧
      ∀ h ∈ Header.all nestedSource.text,
        h.mark nestedSource.text ∈ Mark.all nestedSource.text 0) ∧
    nestedSource.outline.1.flatten = nestedSource.entries.1 ∧
    (nestedSource.outline.1.IsAncestor 0 1 ↔
      0 < 1 ∧ ∀ c, Block.ClosesAt ((Mark.all nestedSource.text 0).drop 0) c → 1 < 0 + c) := by
  have hfirst : Header.first? nestedSource.text = some ⟨0, 10, 10, [], ['a'], []⟩ := by
    decide +kernel
  have hseen : ∀ h ∈ Header.all nestedSource.text,
      h.mark nestedSource.text ∈ Mark.all nestedSource.text 0 := by decide +kernel
  have h := outline_follows_blocks nestedSource _ rfl hfirst hseen
  refine ⟨⟨hfirst, hseen⟩, h.2.1, h.2.2 0 1 0 1 ⟨0, 10, 10, [], ['a'], []⟩
    ⟨11, 22, 22, [], ['b'], []⟩ ?_ ?_ ?_ ?_⟩ <;> decide +kernel

end Source
end MatlabOutline
