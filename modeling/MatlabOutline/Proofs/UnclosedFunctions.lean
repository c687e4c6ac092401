import MatlabOutline.Proofs.HeaderCoverage

/-! Functions without an `end` of their own. Each runs from its header to the next place past its
first line where a header fits. So it ends before the next function starts, and the outline is flat.
The extents leave a gap exactly if a header fits within the logical line of another one: a function
then ends in its own header. -/
namespace MatlabOutline
open Text

namespace Header

/-- The first line of a header ends no later than its logical line. -/
theorem endOfLine_le_lineEnd {text : Text} {h : Header} (hp : at? text h.start = some h) :
    endOfLine text h.start ≤ h.lineEnd := by
  obtain ⟨-, hlt, hle, -⟩ := at?_bounds hp
  by_contra hgt
  have hlen := endOfLine_le text h.start
  obtain ⟨c, hc⟩ : ∃ c, text[h.lineEnd]? = some c := ⟨_, List.getElem?_eq_getElem (by omega)⟩
  have hne := ne_newline_of_lt_endOfLine (p := h.start) (by omega) (by omega) hc
  apply hne
  apply atLineEnd_drop_lineEnd hp
  rw [List.head?_drop]
  exact hc

/-- A search finds something no later than at the first header that fits. -/
theorem Finds.exists_head_le {text : Text} {p q : Nat} {hs : List Header} {a : Header}
    (h : Finds text p hs) (hq : Header.at? text q = some a) (hpq : p ≤ q) :
    ∃ b ∈ hs.head?, b.start ≤ q := by
  obtain ⟨c, hc, hle⟩ : ∃ c ∈ hs, c.start ≤ q := by
    rcases h.complete hq hpq with ha | ⟨c, hc, hlt, -⟩
    · exact ⟨a, ha, Nat.le_of_eq (at?_bounds hq).1⟩
    · exact ⟨c, hc, Nat.le_of_lt hlt⟩
  cases hs with
  | nil => simp at hc
  | cons b hs =>
    refine ⟨b, rfl, ?_⟩
    rcases List.mem_cons.1 hc with rfl | hmem
    · exact hle
    · have hlt := (List.pairwise_cons.1 h.pairwise).1 c hmem
      have := at?_bounds (h.at? b (by simp)).2
      omega

end Header

namespace Dialect

/-- A function without an `end` does not run past a header after its first line. -/
theorem nextDefinition_le {text : Text} {p q : Nat} {a : Header}
    (hq : Header.at? text q = some a) (hpq : endOfLine text p ≤ q) :
    nextDefinition text p ≤ q := by
  obtain ⟨hs, hfinds, hnext⟩ := Header.exists_finds_next? text (endOfLine text p)
  obtain ⟨b, hb, hle⟩ := hfinds.exists_head_le hq hpq
  rw [nextDefinition, fromEnd_natCast, hnext, Option.mem_def.1 hb]
  exact hle

/-- A function without an `end` ends at a header, or with the text. -/
theorem exists_at?_nextDefinition {text : Text} {p : Nat}
    (h : nextDefinition text p < text.length) :
    ∃ a, Header.at? text (nextDefinition text p) = some a := by
  obtain ⟨hs, hfinds, hnext⟩ := Header.exists_finds_next? text (endOfLine text p)
  rw [nextDefinition, fromEnd_natCast, hnext] at h ⊢
  cases hs with
  | nil => simp at h
  | cons a hs => exact ⟨a, (hfinds.at? a (by simp)).2⟩

end Dialect

namespace Forest

variable {α : Type}

/-- A forest of roots without children. -/
def ofRoots : List α → Forest α
  | [] => nil
  | a :: as => node a nil (ofRoots as)

@[simp] theorem flatten_ofRoots (as : List α) : (ofRoots as).flatten = as := by
  induction as with
  | nil => rfl
  | cons a as ih => simp [ofRoots, flatten, ih]

end Forest

namespace Outline

/-- Entries that follow each other make an outline without nesting. -/
theorem within_ofRoots {lo hi : Int} {es : List FunctionEntry} (hlo : ∀ e ∈ es.head?, lo ≤ e.start)
    (hes : ∀ e ∈ es, e.start < e.stop ∧ e.stop ≤ hi)
    (hp : es.Pairwise fun a b => a.stop ≤ b.start) : Within lo hi (Forest.ofRoots es) := by
  induction es generalizing lo with
  | nil => trivial
  | cons e es ih =>
    obtain ⟨he, hes⟩ := List.forall_mem_cons.1 hes
    obtain ⟨hafter, hp⟩ := List.pairwise_cons.1 hp
    refine ⟨hlo e rfl, he.1, he.2, trivial, ih ?_ hes hp⟩
    exact fun a ha => hafter a (List.mem_of_head? ha)

end Outline

namespace FunctionEntry

/-- Without `end`s a function ends before the next one starts. -/
theorem ofHeaders_unclosed_pairwise (text : Text) :
    (ofHeaders text .unclosed).Pairwise fun a b => a.stop ≤ b.start := by
  have hfinds := Header.finds_all text
  rw [ofHeaders, List.pairwise_map]
  refine hfinds.pairwise.imp_of_mem fun {a b} ha hb hlt => ?_
  have hline := Header.endOfLine_le_lineEnd (hfinds.at? a ha).2
  have hle := Dialect.nextDefinition_le (p := a.start) (hfinds.at? b hb).2 (by omega)
  exact Int.ofNat_le.2 hle

/-- Every offset from one place up to another lies in the extent of an entry. -/
def Cover (es : List FunctionEntry) (lo hi : Nat) : Prop :=
  ∀ p : Nat, lo ≤ p → p < hi → ∃ e ∈ es, e.start ≤ p ∧ p < e.stop

/-- Whether a header fits within the logical line of an entry. -/
def HoldsHeader (text : Text) (e : FunctionEntry) : Prop :=
  ∃ p : Nat, e.start < p ∧ p ≤ Header.lineEndAt text e.start.toNat ∧ Header.FitsAt text p

section Unclosed

variable {text : Text} {a : Header}

theorem holdsHeader_ofHeader (ha : a ∈ Header.all text) :
    HoldsHeader text (ofHeader text .unclosed a) ↔
      ∃ p, a.start < p ∧ p ≤ a.lineEnd ∧ Header.FitsAt text p := by
  simp only [HoldsHeader, ofHeader, Int.toNat_natCast, Int.ofNat_lt,
    Header.lineEndAt_eq ((Header.finds_all text).at? a ha).2]

/-- If no logical line holds another header, each function ends where the next one starts, or with
the text. -/
theorem exists_start_eq_nextDefinition (hno : ∀ e ∈ ofHeaders text .unclosed, ¬ HoldsHeader text e)
    (h : Dialect.nextDefinition text a.start < text.length) :
    ∃ b ∈ Header.all text, b.start = Dialect.nextDefinition text a.start := by
  obtain ⟨b, hb⟩ := Dialect.exists_at?_nextDefinition h
  rcases (Header.finds_all text).complete hb (Nat.zero_le _) with hmem | ⟨c, hc, hlt, hle⟩
  · exact ⟨b, hmem, (Header.at?_bounds hb).1⟩
  · have hfits := Header.isSome_at?_iff.1 (Option.isSome_iff_exists.2 ⟨b, hb⟩)
    exact absurd ((holdsHeader_ofHeader hc).2 ⟨_, hlt, Nat.le_of_lt hle, hfits⟩)
      (hno _ (List.mem_map_of_mem hc))

/-- From a function on, the extents go on without a gap. -/
theorem exists_extent (hno : ∀ e ∈ ofHeaders text .unclosed, ¬ HoldsHeader text e) {p : Nat}
    (hp : p < text.length) (ha : a ∈ Header.all text) (hle : a.start ≤ p) :
    ∃ e ∈ ofHeaders text .unclosed, e.start ≤ p ∧ p < e.stop := by
  induction hn : p - a.start using Nat.strong_induction_on generalizing a with
  | h n ih =>
    by_cases hin : p < Dialect.nextDefinition text a.start
    · exact ⟨_, List.mem_map_of_mem ha, Int.ofNat_le.2 hle, Int.ofNat_lt.2 hin⟩
    · have hlt := (Dialect.nextDefinition_bounds ((Header.finds_all text).at? a ha).2).1
      obtain ⟨b, hb, hstart⟩ := exists_start_eq_nextDefinition (a := a) hno (by omega)
      exact ih (p - b.start) (by omega) hb (by omega) rfl

/-- A function whose logical line holds another header ends there, and leaves a gap. -/
theorem not_cover_of_holdsHeader {lo : Nat} (ha : a ∈ Header.all text) (hlo : lo ≤ a.start)
    (h : HoldsHeader text (ofHeader text .unclosed a)) :
    ¬ Cover (ofHeaders text .unclosed) lo text.length := by
  intro hcover
  have hfinds := Header.finds_all text
  obtain ⟨q, hlt, hle, hfits⟩ := (holdsHeader_ofHeader ha).1 h
  obtain ⟨c, hc⟩ := Option.isSome_iff_exists.1 (Header.isSome_at?_iff.2 hfits)
  have hend := Dialect.nextDefinition_le hc (Nat.le_of_lt (Header.endOfLine_lt_of_fitsAt hlt hfits))
  have hstart := (Dialect.nextDefinition_bounds (hfinds.at? a ha).2).1
  have hq := Header.at?_bounds hc
  obtain ⟨e, he, hes, hee⟩ := hcover (Dialect.nextDefinition text a.start) (by omega) (by omega)
  obtain ⟨b, hb, rfl⟩ := List.mem_map.1 he
  have hbs : b.start ≤ Dialect.nextDefinition text a.start := Int.ofNat_le.1 hes
  have hbe : Dialect.nextDefinition text a.start < Dialect.nextDefinition text b.start :=
    Int.ofNat_lt.1 hee
  rcases Nat.lt_trichotomy a.start b.start with hab | hab | hab
  · -- later functions start past the logical line
    have := hfinds.apart ha hb hab
    omega
  · rw [hab] at hbe
    omega
  · -- earlier functions end before this one starts
    have happart := hfinds.apart hb ha hab
    have hline := Header.endOfLine_le_lineEnd (hfinds.at? b hb).2
    have := Dialect.nextDefinition_le (p := b.start) (hfinds.at? a ha).2 (by omega)
    omega

theorem cover_iff {first : Header} (hfirst : (Header.all text).head? = some first) :
    Cover (ofHeaders text .unclosed) first.start text.length ↔
      ∀ e ∈ ofHeaders text .unclosed, ¬ HoldsHeader text e := by
  constructor
  · intro hcover e he hholds
    obtain ⟨b, hb, rfl⟩ := List.mem_map.1 he
    have hle : first.start ≤ b.start := by
      obtain ⟨c, hc, hle⟩ := (Header.finds_all text).exists_head_le
        ((Header.finds_all text).at? b hb).2 (Nat.zero_le _)
      obtain rfl : first = c := Option.some.inj (hfirst.symm.trans hc)
      exact hle
    exact not_cover_of_holdsHeader hb hle hholds hcover
  · exact fun hno p hle hp => exists_extent hno hp (List.mem_of_head? hfirst) hle

/-- Without gaps the last function runs to the end of the text. -/
theorem stop_getLast? (hno : ∀ e ∈ ofHeaders text .unclosed, ¬ HoldsHeader text e) :
    ∀ e ∈ (ofHeaders text .unclosed).getLast?, e.stop = text.length := by
  intro e he
  rw [ofHeaders, List.getLast?_map] at he
  obtain ⟨b, hb, rfl⟩ := Option.map_eq_some_iff.1 he
  obtain ⟨hs, hall⟩ := List.getLast?_eq_some_iff.1 hb
  have hfinds := Header.finds_all text
  have hmem := List.mem_of_getLast? hb
  have hbounds := Dialect.nextDefinition_bounds (hfinds.at? b hmem).2
  have hnot : ¬ Dialect.nextDefinition text b.start < text.length := by
    intro hlt
    obtain ⟨c, hc, hstart⟩ := exists_start_eq_nextDefinition (a := b) hno hlt
    have hline := hfinds.apart hmem hc (by omega)
    have hpair := hfinds.pairwise
    rw [hall, List.pairwise_append] at hpair
    rw [hall, List.mem_append, List.mem_singleton] at hc
    rcases hc with hc | rfl
    · have hlast := hpair.2.2 c hc b (by simp)
      have := Header.at?_bounds (hfinds.at? b hmem).2
      have := Header.at?_bounds (hfinds.at? c (by rw [hall]; simp [hc])).2
      omega
    · omega
  change ((Dialect.nextDefinition text b.start : Nat) : Int) = text.length
  omega

end Unclosed

end FunctionEntry

namespace Source

/-- The outline of functions without `end`s is flat, and no end is cut off. -/
theorem outline_of_unclosed (text : Text) (roots : List Text) :
    (outline ⟨text, none, roots, some .unclosed⟩).1 =
      Forest.ofRoots (entries ⟨text, none, roots, some .unclosed⟩).1 := by
  rw [outline, entries_of_no_path]
  change Outline.nest (FunctionEntry.ofHeaders text .unclosed) text.length =
    Forest.ofRoots (FunctionEntry.ofHeaders text .unclosed)
  have hbounds := @FunctionEntry.ofHeaders_bounds text .unclosed
  have hwithin : Outline.Within 0 text.length
      (Forest.ofRoots (FunctionEntry.ofHeaders text .unclosed)) := by
    apply Outline.within_ofRoots
    · exact fun e he => (hbounds e (List.mem_of_head? he)).1
    · exact fun e he => (hbounds e he).2
    · exact FunctionEntry.ofHeaders_unclosed_pairwise text
  have h : Outline.nest (_ ++ []) _ = _ := Outline.nest_flatten_append hwithin (by simp)
  rwa [Forest.flatten_ofRoots, List.append_nil] at h

/-- The extents of functions without `end`s leave no gap exactly if no header fits within the
logical line of another, and then the last of them runs to the end of the text. -/
theorem unclosed_extents_cover_iff (text : Text) (path : Option Text) (roots : List Text)
    (first : Header) (hfirst : Header.first? text = some first) :
    (FunctionEntry.Cover (entries ⟨text, path, roots, some .unclosed⟩).1 first.start text.length ↔
      ∀ e ∈ (entries ⟨text, path, roots, some .unclosed⟩).1, ¬ e.HoldsHeader text) ∧
    (FunctionEntry.Cover (entries ⟨text, path, roots, some .unclosed⟩).1 first.start text.length →
      ∀ e ∈ (entries ⟨text, path, roots, some .unclosed⟩).1.getLast?, e.stop = text.length) := by
  rw [Header.first?_eq_head?] at hfirst
  have hne : Header.all text ≠ [] := List.ne_nil_of_mem (List.mem_of_head? hfirst)
  have hentries : (entries ⟨text, path, roots, some .unclosed⟩).1 =
      FunctionEntry.ofHeaders text .unclosed := entries_of_headers hne
  rw [hentries]
  have hiff := FunctionEntry.cover_iff hfirst
  exact ⟨hiff, fun hcover => FunctionEntry.stop_getLast? (hiff.1 hcover)⟩

/-- A header that is continued on a second line, and a function after it. -/
def continuedHeader : Source :=
  ⟨"function f(a, ...\n b)\nx = 1;\nfunction g\n".toList, none, [], some .unclosed⟩

theorem continuedHeader_extents_cover :
    (Header.first? continuedHeader.text = some ⟨0, 10, 21, [], ['f'], "(a,   b)".toList⟩ ∧
      FunctionEntry.Cover continuedHeader.entries.1 0 continuedHeader.text.length) ∧
    (∀ e ∈ continuedHeader.entries.1, ¬ e.HoldsHeader continuedHeader.text) ∧
    ∀ e ∈ continuedHeader.entries.1.getLast?, e.stop = continuedHeader.text.length := by
  have hfirst : Header.first? continuedHeader.text =
      some ⟨0, 10, 21, [], ['f'], "(a,   b)".toList⟩ := by decide +kernel
  have hcover : FunctionEntry.Cover continuedHeader.entries.1 0 continuedHeader.text.length := by
    have hall : ∀ p < continuedHeader.text.length, ∃ e ∈ continuedHeader.entries.1,
        e.start ≤ p ∧ p < e.stop := by decide +kernel
    exact fun p _ hp => hall p hp
  have h := unclosed_extents_cover_iff continuedHeader.text none [] _ hfirst
  exact ⟨⟨hfirst, hcover⟩, h.1.1 hcover, h.2 hcover⟩

/-- A header that is continued on a line where another header fits. -/
def headerInHeader : Source :=
  ⟨"function f(a, ...\nfunction g\nx = 1;\n".toList, none, [], some .unclosed⟩

/-- The only function ends within its own header, and nothing covers the rest of the text. -/
theorem headerInHeader_leaves_gap :
    headerInHeader.text.length = 36 ∧
    (∃ first, Header.first? headerInHeader.text = some first ∧ first.start = 0) ∧
    ¬ FunctionEntry.Cover headerInHeader.entries.1 0 headerInHeader.text.length ∧
    ∃ e ∈ headerInHeader.entries.1.getLast?, e.stop = 18 := by
  refine ⟨by decide, ⟨_, rfl, by decide +kernel⟩, fun hcover => ?_, by decide +kernel⟩
  obtain ⟨e, he, -, hlt⟩ := hcover 18 (by decide) (by decide)
  have hall : ∀ e ∈ headerInHeader.entries.1, ¬ ((18 : Nat) : Int) < e.stop := by decide +kernel
  exact hall e he hlt

end Source
end MatlabOutline
