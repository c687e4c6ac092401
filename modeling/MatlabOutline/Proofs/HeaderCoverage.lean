import MatlabOutline.Proofs.Extent

/-! What the choice of a dialect leaves alone. The functions of a text are its headers, apart from
those within the logical line of another header, and each of them comes once into the outline. The
dialect decides where they end, and nothing else. -/
namespace MatlabOutline
open Text

namespace FunctionEntry

/-- Everything that an entry takes from its header: all but the end. -/
def heading (e : FunctionEntry) : Int × Text × List Text × List Text × Option Text :=
  (e.start, e.name, e.returns, e.args, e.docstring)

/-- A function starts where the pattern of a header fits outside the lines of other headers. -/
theorem exists_start_iff {text : Text} {dialect : Dialect} {p : Nat} :
    (∃ e ∈ ofHeaders text dialect, e.start = p) ↔
      Header.FitsAt text p ∧ ∀ e ∈ ofHeaders text dialect,
        ¬ (e.start < p ∧ p ≤ Header.lineEndAt text e.start.toNat) := by
  have hfinds := Header.finds_all text
  constructor
  · rintro ⟨e, he, hp⟩
    obtain ⟨a, ha, rfl⟩ := List.mem_map.1 he
    obtain rfl : a.start = p := Int.ofNat.inj hp
    have hat := (hfinds.at? a ha).2
    refine ⟨Header.isSome_at?_iff.1 (by rw [hat]; rfl), ?_⟩
    rintro e he ⟨hlt, hle⟩
    obtain ⟨b, hb, rfl⟩ := List.mem_map.1 he
    have hlt : b.start < a.start := Int.ofNat_lt.1 hlt
    have hend := hfinds.apart hb ha hlt
    rw [← Header.lineEndAt_eq (hfinds.at? b hb).2] at hend
    simp only [ofHeader, Int.toNat_natCast] at hle
    omega
  · rintro ⟨hfits, hout⟩
    obtain ⟨a, ha⟩ := Option.isSome_iff_exists.1 (Header.isSome_at?_iff.2 hfits)
    rcases hfinds.complete ha (Nat.zero_le p) with hmem | ⟨b, hb, hlt, hle⟩
    · exact ⟨_, List.mem_map_of_mem hmem, by simp [ofHeader, (Header.at?_bounds ha).1]⟩
    · refine absurd ?_ (hout _ (List.mem_map_of_mem hb))
      simp only [ofHeader, Int.toNat_natCast, Header.lineEndAt_eq (hfinds.at? b hb).2]
      omega

end FunctionEntry

namespace Source

theorem entries_of_no_path {text : Text} {roots : List Text} {dialect : Option Dialect} :
    (entries ⟨text, none, roots, dialect⟩).1 =
      FunctionEntry.ofHeaders text (dialect.getD (Dialect.detect text)) := by
  by_cases hh : Header.all text = []
  · rw [entries_of_no_headers hh, FunctionEntry.ofHeaders, hh]
    rfl
  · exact entries_of_headers hh

theorem map_heading_flatten (text : Text) (dialect : Dialect) :
    (Outline.nest (FunctionEntry.ofHeaders text dialect) text.length).flatten.map
        FunctionEntry.heading =
      (Header.all text).map fun a => ((a.start : Int), a.name, Header.clauseNames a.returnClause,
        Header.clauseNames a.argClause, Docstring.find? text a.lineEnd) := by
  rw [Outline.map_eq_of_sameButStop (fun _ _ => rfl) (flatten_nest_ofHeaders text dialect),
    FunctionEntry.ofHeaders, List.map_map]
  rfl

/-- No header is lost, and the dialect only moves the ends. -/
theorem headings_independent_of_dialect (text : Text) (roots : List Text)
    (dialect : Option Dialect) :
    (∀ p : Nat, (∃ e ∈ (entries ⟨text, none, roots, dialect⟩).1, e.start = p) ↔
      Header.FitsAt text p ∧ ∀ e ∈ (entries ⟨text, none, roots, dialect⟩).1,
        ¬ (e.start < p ∧ p ≤ Header.lineEndAt text e.start.toNat)) ∧
    List.Forall₂ Outline.SameButStop (outline ⟨text, none, roots, dialect⟩).1.flatten
      (entries ⟨text, none, roots, dialect⟩).1 ∧
    ∀ other : Option Dialect,
      (outline ⟨text, none, roots, dialect⟩).1.flatten.map FunctionEntry.heading =
        (outline ⟨text, none, roots, other⟩).1.flatten.map FunctionEntry.heading := by
  refine ⟨fun p => ?_, ?_, fun other => ?_⟩
  · rw [entries_of_no_path]
    exact FunctionEntry.exists_start_iff
  · rw [outline, entries_of_no_path]
    exact flatten_nest_ofHeaders _ _
  · rw [outline, outline, entries_of_no_path, entries_of_no_path]
    exact (map_heading_flatten _ _).trans (map_heading_flatten _ _).symm

end Source
end MatlabOutline
