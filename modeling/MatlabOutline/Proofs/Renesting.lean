import MatlabOutline.Proofs.ClampedEnds

/-! Nesting once more. The forests that are rebuilt from their own entries are the settled ones.
Among them are all forests of properly nested extents, and all that nesting itself gives, whatever
the entries were. -/
namespace MatlabOutline
namespace Outline

/-- A forest of extents below a boundary: each of them is not empty, holds the extents of its
children, and ends before the next one on its level begins. -/
def Nested (boundary : Int) : Outline → Prop
  | .nil => True
  | .node e cs fs =>
    (e.start < e.stop ∧ e.stop ≤ boundary) ∧
    (∀ c ∈ cs.roots, e.start ≤ c.start ∧ c.stop ≤ e.stop) ∧
    (∀ n ∈ fs.roots.head?, e.stop ≤ n.start) ∧
    Nested boundary cs ∧ Nested boundary fs

/-- Nested extents are settled below every offset that the roots do not reach past. -/
theorem Nested.settled {boundary hi : Int} {f : Outline} (h : Nested boundary f)
    (hroots : ∀ e ∈ f.roots, e.stop ≤ hi) : Settled hi f := by
  induction f generalizing hi with
  | nil => trivial
  | node e cs fs hc hf =>
    obtain ⟨⟨hlt, -⟩, hchildren, hnext, hcs, hfs⟩ := h
    obtain ⟨he, hothers⟩ := List.forall_mem_cons.1 hroots
    exact ⟨by omega, he, hc hcs fun c hmem => (hchildren c hmem).2, hnext, hf hfs hothers⟩

theorem Nested.stop_le {boundary : Int} {f : Outline} (h : Nested boundary f) :
    ∀ e ∈ f.roots, e.stop ≤ boundary := by
  induction f with
  | nil => simp [Forest.roots]
  | node e cs fs _ hf =>
    obtain ⟨⟨-, hle⟩, -, -, -, hfs⟩ := h
    exact List.forall_mem_cons.2 ⟨hle, hf hfs⟩

/-- The first root stands for the first entry. -/
theorem Nests.exists_head {es : List FunctionEntry} {b : Int} {f : Outline} (h : Nests es b f) :
    ∀ n ∈ f.roots.head?, ∃ e ∈ es.head?, n.start = e.start := by
  intro n hn
  cases h with
  | done => simp [Forest.roots] at hn
  | @node e es b cs fs lt _ _ =>
    obtain rfl : { e with stop := min e.stop b } = n := by simpa [Forest.roots] using hn
    exact ⟨e, rfl, rfl⟩

/-- What nesting gives is settled, for entries of any kind and in any order. -/
theorem Nests.settled {es : List FunctionEntry} {b : Int} {f : Outline} (h : Nests es b f) :
    Settled b f := by
  induction h with
  | done => trivial
  | @node e es b cs fs lt _ others hc hf =>
    refine ⟨lt, Int.min_le_right _ _, hc, fun n hn => ?_, hf⟩
    obtain ⟨a, ha, hstart⟩ := others.exists_head n hn
    rw [hstart]
    exact le_start_of_mem_head?_outside _ _ a ha

theorem nest_flatten_eq_iff {boundary : Int} {f : Outline} :
    nest f.flatten boundary = f ↔ Settled boundary f := by
  constructor
  · intro h
    have hsettled := (nests_nest f.flatten boundary).settled
    rwa [h] at hsettled
  · intro h
    rw [← List.append_nil f.flatten]
    exact h.nest_flatten_append (by simp)

/-- Nested extents are rebuilt from their list, and so is every forest that nesting has given. -/
theorem nestFrom_rebuilds (boundary : Int) :
    (∀ f, Nested boundary f → nestFrom f.flatten boundary 0 = (f, f.size)) ∧
    ∀ entries index, (nestFrom (nestFrom entries boundary index).1.flatten boundary 0).1 =
      (nestFrom entries boundary index).1 := by
  constructor
  · intro f h
    have hnest := nest_flatten_eq_iff.2 (h.settled h.stop_le)
    simp only [nestFrom, List.drop_zero, hnest, Nat.zero_add]
  · intro entries index
    exact nest_flatten_eq_iff.2 (nests_nest (entries.drop index) boundary).settled

/-- A function with two that fill it, and one that begins where it ends. -/
def touching : Outline :=
  .node (extent 0 10) (.node (extent 0 4) .nil (.node (extent 4 10) .nil .nil))
    (.node (extent 10 12) .nil .nil)

theorem touching_rebuilt :
    Nested 12 touching ∧ nestFrom touching.flatten 12 0 = (touching, 4) ∧
      (nestFrom (nestFrom overlapping 20 1).1.flatten 20 0).1 = (nestFrom overlapping 20 1).1 := by
  have hnested : Nested 12 touching := by simp [Nested, touching, Forest.roots, extent]
  exact ⟨hnested, (nestFrom_rebuilds 12).1 touching hnested,
    (nestFrom_rebuilds 20).2 overlapping 1⟩

end Outline
end MatlabOutline
