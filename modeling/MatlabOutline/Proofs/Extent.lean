import MatlabOutline.Source
import MatlabOutline.Proofs.Nesting
import MatlabOutline.Proofs.HeaderSearch
import MatlabOutline.Proofs.KeywordStream

/-! The extents of functions. However a function's end is found, it lies after the function's start
and not past the end of the text, so that the outline of any source is properly nested. -/
namespace MatlabOutline
open Text

namespace Block

/-- A block that is closed ends with one of the marks. -/
theorem exists_of_close_eq_ok {start depth e : Nat} {ms : List Mark}
    (h : close start depth ms = .ok e) : ∃ m ∈ ms, m.keyword = .close ∧ m.stop = e := by
  induction ms generalizing depth with
  | nil => cases h
  | cons m ms ih =>
    unfold close at h
    split at h
    · obtain ⟨a, ha, hk⟩ := ih h
      exact ⟨a, by simp [ha], hk⟩
    · cases h
    · rename_i hk
      exact ⟨m, by simp, hk, Except.ok.inj h⟩
    · obtain ⟨a, ha, hk⟩ := ih h
      exact ⟨a, by simp [ha], hk⟩

theorem stop_bounds {text : Text} {p e : Nat} (h : stop text p = .ok e) :
    p < e ∧ e ≤ text.length := by
  obtain ⟨m, hm, hk, rfl⟩ := exists_of_close_eq_ok h
  obtain ⟨h1, h2, -⟩ := Mark.spells_of_mem_scan hm
  have hlen : m.stop = m.start + 3 := by rw [Mark.stop, hk]; rfl
  omega

end Block

namespace Dialect

theorem lt_endOfLine {text : Text} {p : Nat} {h : Header} (hp : Header.at? text p = some h) :
    p < endOfLine text p := by
  have hb := Header.at?_bounds hp
  obtain ⟨c, t, hd, hc⟩ := Header.head_of_at? hp
  rw [endOfLine, if_pos (by omega), hd, restOfLine, List.takeWhile_cons_of_pos (by simpa using hc),
    List.length_cons]
  omega

/-- The next definition after a header lies past its line. -/
theorem nextDefinition_bounds {text : Text} {p : Nat} {h : Header}
    (hp : Header.at? text p = some h) :
    p < nextDefinition text p ∧ nextDefinition text p ≤ text.length := by
  have hb := Header.at?_bounds hp
  have heol := lt_endOfLine hp
  obtain ⟨hs, hfinds, hnext⟩ := Header.exists_finds_next? text (endOfLine text p)
  rw [nextDefinition, fromEnd_natCast, hnext]
  cases hs with
  | nil => simp only [List.head?_nil]; omega
  | cons a hs =>
    obtain ⟨hle, hat⟩ := hfinds.at? a (by simp)
    have := Header.at?_bounds hat
    simp only [List.head?_cons]
    omega

/-- In either dialect a function ends after its start, within the text. -/
theorem functionEnd_bounds {text : Text} {p : Nat} {h : Header} (dialect : Dialect)
    (hp : Header.at? text p = some h) :
    p < (functionEnd dialect text p).1 ∧ (functionEnd dialect text p).1 ≤ text.length := by
  cases dialect with
  | unclosed => exact nextDefinition_bounds hp
  | closed =>
    have hb := Header.at?_bounds hp
    rw [functionEnd]
    cases hstop : Block.stop text p with
    | ok e => exact Block.stop_bounds hstop
    | error e => simp only; omega

end Dialect

namespace FunctionEntry

/-- The entries for the headers of a text, in a given dialect. -/
def ofHeaders (text : Text) (dialect : Dialect) : List FunctionEntry :=
  (Header.all text).map (ofHeader text dialect)

theorem mem_ofHeaders {text : Text} {dialect : Dialect} {e : FunctionEntry}
    (h : e ∈ ofHeaders text dialect) :
    ∃ a, Header.at? text a.start = some a ∧ e = ofHeader text dialect a := by
  obtain ⟨a, ha, rfl⟩ := List.mem_map.1 h
  exact ⟨a, ((Header.finds_all text).at? a ha).2, rfl⟩

/-- The extent of an entry is a nonempty part of the text. -/
theorem ofHeaders_bounds {text : Text} {dialect : Dialect} :
    ∀ e ∈ ofHeaders text dialect, 0 ≤ e.start ∧ e.start < e.stop ∧ e.stop ≤ text.length := by
  intro e he
  obtain ⟨a, ha, rfl⟩ := mem_ofHeaders he
  obtain ⟨h1, h2⟩ := Dialect.functionEnd_bounds dialect ha
  simp only [ofHeader]
  omega

/-- The entries come in the order of their starts, and no two start together. -/
theorem ofHeaders_sorted (text : Text) (dialect : Dialect) :
    (ofHeaders text dialect).Pairwise fun a b => a.start < b.start := by
  have hfinds := Header.finds_all text
  rw [ofHeaders, List.pairwise_map]
  refine hfinds.pairwise.imp_of_mem fun {a b} ha _ hlt => ?_
  have hb := Header.at?_bounds (hfinds.at? a ha).2
  simp only [ofHeader]
  omega

end FunctionEntry

namespace Source

/-- The dialect in which a source is read. -/
def usedDialect (s : Source) : Dialect := s.dialect.getD (Dialect.detect s.text)

theorem entries_of_headers {s : Source} (h : Header.all s.text ≠ []) :
    s.entries.1 = FunctionEntry.ofHeaders s.text s.usedDialect := by
  rw [entries]
  split
  · contradiction
  · rfl

theorem entries_of_no_headers {s : Source} (h : Header.all s.text = []) :
    s.entries.1 = (s.builtin?.map fun b => FunctionEntry.ofBuiltin b.1 b.2).toList := by
  rw [entries, h]
  cases hb : s.builtin? with
  | none => rfl
  | some b => rfl

theorem builtin?_eq_none {s : Source} (h : Builtin.find? s.text = none) : s.builtin? = none := by
  unfold builtin?
  split
  · rfl
  · split
    · exact h
    · rfl

theorem text_ne_nil_of_builtin? {s : Source} {b : Text × Text} (h : s.builtin? = some b) :
    s.text ≠ [] := by
  intro ht
  rw [builtin?_eq_none (by rw [ht]; rfl)] at h
  cases h

end Source

namespace Outline

/-- An outline of a text of the given length is well placed if every extent is a nonempty part of
the text, a function begins inside the extent that holds it and does not end after it, and a
function ends before the next one on its level begins. -/
def WellPlaced (length : Nat) : Outline → Prop
  | .nil => True
  | .node e cs fs =>
    (0 ≤ e.start ∧ e.start < e.stop ∧ e.stop ≤ length) ∧
    (∀ c ∈ cs.roots, e.start < c.start ∧ c.stop ≤ e.stop) ∧
    (∀ n ∈ fs.roots.head?, e.stop ≤ n.start) ∧
    WellPlaced length cs ∧ WellPlaced length fs

theorem Within.wellPlaced {lo hi : Int} {length : Nat} {f : Outline} (h : Within lo hi f)
    (hlo : 0 ≤ lo) (hhi : hi ≤ length)
    (hs : f.flatten.Pairwise fun a b => a.start < b.start) : WellPlaced length f := by
  induction f generalizing lo hi with
  | nil => trivial
  | node e cs fs hc hf =>
    obtain ⟨h1, h2, h3, h4, h5⟩ := h
    rw [Forest.flatten, List.pairwise_cons, List.pairwise_append] at hs
    obtain ⟨hfirst, hcs, hfs, -⟩ := hs
    refine ⟨by omega, fun c hmem => ⟨?_, (h4.of_mem_roots c hmem).2⟩, fun n hn => ?_,
      hc h4 (by omega) (by omega) hcs, hf h5 (by omega) hhi hfs⟩
    · exact hfirst c (by simp [Forest.mem_flatten_of_mem_roots hmem])
    · exact (h5.of_mem_roots n (List.mem_of_head? hn)).1

end Outline

namespace Source

/-- Every header of a source is taken up in its outline, in order, and only ends may change. -/
theorem flatten_nest_ofHeaders (text : Text) (dialect : Dialect) :
    List.Forall₂ Outline.SameButStop
      (Outline.nest (FunctionEntry.ofHeaders text dialect) text.length).flatten
      (FunctionEntry.ofHeaders text dialect) := by
  have hin : ∀ e ∈ FunctionEntry.ofHeaders text dialect, e.start < text.length := by
    intro e he
    have := FunctionEntry.ofHeaders_bounds e he
    omega
  have h := (Outline.nests_nest (FunctionEntry.ofHeaders text dialect) text.length).flatten
  rwa [Outline.inside_eq_self hin] at h

theorem builtin_of_mem_flatten {text : Text} {dialect : Dialect} :
    ∀ e ∈ (Outline.nest (FunctionEntry.ofHeaders text dialect) text.length).flatten,
      e.builtin = false := by
  intro e he
  have hmap := Outline.map_eq_of_sameButStop (f := fun e => e.builtin) (fun _ _ => rfl)
    (flatten_nest_ofHeaders text dialect)
  have hmem := List.mem_map_of_mem (f := fun e : FunctionEntry => e.builtin) he
  rw [hmap] at hmem
  obtain ⟨a, ha, hab⟩ := List.mem_map.1 hmem
  obtain ⟨b, -, rfl⟩ := FunctionEntry.mem_ofHeaders ha
  exact hab.symm

theorem wellPlaced_nest_ofHeaders (text : Text) (dialect : Dialect) :
    Outline.WellPlaced text.length
      (Outline.nest (FunctionEntry.ofHeaders text dialect) text.length) := by
  have hbounds := @FunctionEntry.ofHeaders_bounds text dialect
  have hsorted := FunctionEntry.ofHeaders_sorted text dialect
  have hwithin : Outline.Within 0 text.length
      (Outline.nest (FunctionEntry.ofHeaders text dialect) text.length) := by
    apply (Outline.nests_nest _ _).within
    · exact fun e he => (hbounds e (List.mem_of_head? he)).1
    · exact fun e he => (hbounds e he).2.1
    · exact hsorted.imp fun h => Int.le_of_lt h
  apply hwithin.wellPlaced (Int.le_refl 0) (Int.le_refl _)
  rw [← List.pairwise_map (f := fun e : FunctionEntry => e.start)] at hsorted ⊢
  rwa [Outline.map_eq_of_sameButStop (fun _ _ => rfl) (flatten_nest_ofHeaders text dialect)]

theorem nest_ofBuiltin {name description : Text} {boundary : Int} (h : 0 < boundary) :
    Outline.nest [.ofBuiltin name description] boundary =
      .node (.ofBuiltin name description) .nil .nil := by
  rw [Outline.nest_cons_of_lt h, Outline.nest_nil, List.drop_nil, Outline.nest_nil]
  have hmin : min 0 boundary = 0 := by omega
  simp only [FunctionEntry.ofBuiltin, hmin]

/-- The outline of a source is a single documented builtin, or it is well placed in the text. -/
theorem outline_wellPlaced (s : Source) :
    (∃ name docstring, s.outline.1 = .node ⟨0, 0, [], name, [], docstring, true⟩ .nil .nil) ∨
      (∀ e ∈ s.outline.1.flatten, e.builtin = false) ∧
        Outline.WellPlaced s.text.length s.outline.1 := by
  by_cases hh : Header.all s.text = []
  · rw [outline, entries_of_no_headers hh]
    cases hb : s.builtin? with
    | none =>
      right
      simp [Outline.WellPlaced, Forest.flatten]
    | some b =>
      left
      have hpos := List.length_pos_iff.2 (text_ne_nil_of_builtin? hb)
      exact ⟨b.1, (FunctionEntry.ofBuiltin b.1 b.2).docstring, nest_ofBuiltin (by omega)⟩
  · right
    rw [outline, entries_of_headers hh]
    exact ⟨builtin_of_mem_flatten, wellPlaced_nest_ofHeaders _ _⟩

end Source
end MatlabOutline
