import MatlabOutline.Proofs.Nesting

/-! What nesting does to every list of entries, sorted or not. It stops at the first entry at or past
the boundary and takes up all before it; an end is cut off at the end of the nearest ancestor, or at
the boundary where there is none; and the ends that are left decide who is an ancestor of whom. -/
namespace MatlabOutline
namespace Forest

variable {α : Type}

/-- Whether one place in the pre-order is the nearest ancestor of another. -/
def IsParent (f : Forest α) (j i : Nat) : Prop :=
  f.IsAncestor j i ∧ ∀ m, f.IsAncestor m i → m ≤ j

/-- The ancestors of a place below the first root: that root, and those within its children. -/
theorem isAncestor_children_iff {a : α} {cs fs : Forest α} {m i : Nat} (hi : i < cs.size) :
    (node a cs fs).IsAncestor m (i + 1) ↔ m = 0 ∨ ∃ n, m = n + 1 ∧ cs.IsAncestor n i := by
  cases m with
  | zero =>
    rw [IsAncestor]
    exact ⟨fun _ => .inl rfl, fun _ => ⟨by omega, by omega⟩⟩
  | succ n =>
    rw [IsAncestor, Nat.add_sub_cancel]
    split_ifs with hn
    · simp
    · constructor
      · intro h
        have := h.lt
        omega
      · rintro (h | ⟨n', hn', h⟩)
        · cases h
        · have := h.lt
          omega

/-- The ancestors of a place below a later root all come after the first tree. -/
theorem isAncestor_others_iff {a : α} {cs fs : Forest α} {m i : Nat} :
    (node a cs fs).IsAncestor m (cs.size + 1 + i) ↔
      ∃ n, m = cs.size + 1 + n ∧ fs.IsAncestor n i := by
  cases m with
  | zero =>
    rw [IsAncestor]
    constructor
    · rintro ⟨-, h⟩
      omega
    · rintro ⟨n, hn, -⟩
      omega
  | succ n =>
    rw [IsAncestor]
    split_ifs with hn
    · constructor
      · intro h
        have := h.lt
        omega
      · rintro ⟨n', hn', -⟩
        omega
    · have hplace : cs.size + 1 + i - 1 - cs.size = i := by omega
      rw [hplace]
      constructor
      · exact fun h => ⟨n - cs.size, by omega, h⟩
      · rintro ⟨n', hn', h⟩
        have hn' : n - cs.size = n' := by omega
        rwa [hn']

theorem isParent_root {a : α} {cs fs : Forest α} {i : Nat} (hi : i < cs.size)
    (h : ∀ m, ¬ cs.IsAncestor m i) : (node a cs fs).IsParent 0 (i + 1) := by
  refine ⟨(isAncestor_children_iff hi).2 (.inl rfl), fun m hm => ?_⟩
  rcases (isAncestor_children_iff hi).1 hm with rfl | ⟨n, -, hn⟩
  · exact Nat.le_refl 0
  · exact absurd hn (h n)

theorem IsParent.children {a : α} {cs fs : Forest α} {j i : Nat} (h : cs.IsParent j i) :
    (node a cs fs).IsParent (j + 1) (i + 1) := by
  have hi := h.1.lt.2
  refine ⟨(isAncestor_children_iff hi).2 (.inr ⟨j, rfl, h.1⟩), fun m hm => ?_⟩
  rcases (isAncestor_children_iff hi).1 hm with rfl | ⟨n, rfl, hn⟩
  · exact Nat.zero_le _
  · exact Nat.succ_le_succ (h.2 n hn)

theorem IsParent.others {a : α} {cs fs : Forest α} {j i : Nat} (h : fs.IsParent j i) :
    (node a cs fs).IsParent (cs.size + 1 + j) (cs.size + 1 + i) := by
  refine ⟨isAncestor_others_iff.2 ⟨j, rfl, h.1⟩, fun m hm => ?_⟩
  obtain ⟨n, rfl, hn⟩ := isAncestor_others_iff.1 hm
  exact Nat.add_le_add_left (h.2 n hn) _

end Forest

namespace Outline

/-- The first place from an index on whose entry does not start before the boundary, or the end of
the list. -/
def IsFirstOutside (es : List FunctionEntry) (boundary : Int) (index k : Nat) : Prop :=
  index ≤ k ∧ k ≤ es.length ∧
  (∀ m e, index ≤ m → m < k → es[m]? = some e → e.start < boundary) ∧
  ∀ e, es[k]? = some e → boundary ≤ e.start

/-- Whether the entry at a place, whose end was at `stop`, ends there or where its parent ends,
whichever comes first. For an entry without a parent it is the boundary that counts. -/
def IsCutOff (f : Outline) (boundary : Int) (i : Nat) (stop : Int) (t : FunctionEntry) : Prop :=
  (∀ m, ¬ f.IsAncestor m i) ∧ t.stop = min stop boundary ∨
  ∃ j p, f.IsParent j i ∧ f.flatten[j]? = some p ∧ t.stop = min stop p.stop

theorem isFirstOutside_inside {es : List FunctionEntry} {boundary : Int} {index : Nat}
    (hindex : index ≤ es.length) :
    IsFirstOutside es boundary index (index + (inside boundary (es.drop index)).length) := by
  obtain ⟨hlen, hin⟩ := (@le_length_inside_iff boundary (es.drop index) _).1 (Nat.le_refl _)
  rw [List.length_drop] at hlen
  refine ⟨by omega, by omega, fun m e hm hk he => ?_, fun e he => ?_⟩
  · apply hin (m - index) e (by omega)
    rw [List.getElem?_drop, ← he]
    congr 1
    omega
  · apply le_start_of_mem_head?_outside boundary (es.drop index) e
    rw [← drop_length_inside, List.head?_drop, List.getElem?_drop]
    exact he

/-- Every end is cut off at the end of the parent, and at nothing else. -/
theorem Nests.isCutOff {es : List FunctionEntry} {b : Int} {f : Outline} (h : Nests es b f)
    {i : Nat} {r t : FunctionEntry} (hr : es[i]? = some r) (ht : f.flatten[i]? = some t) :
    f.IsCutOff b i r.stop t := by
  induction h generalizing i r t with
  | done => simp [Forest.flatten] at ht
  | @node e es b cs fs lt hcs hfs hc hf =>
    cases i with
    | zero =>
      obtain rfl : e = r := by simpa using hr
      obtain rfl : { e with stop := min e.stop b } = t := by simpa [Forest.flatten] using ht
      exact .inl ⟨fun m hm => absurd hm.lt.1 (Nat.not_lt_zero m), rfl⟩
    | succ i =>
      rw [List.getElem?_cons_succ] at hr
      rw [Forest.flatten, List.getElem?_cons_succ] at ht
      by_cases hi : i < cs.size
      · rw [List.getElem?_append_left (by simpa using hi)] at ht
        rcases hc hr ht with ⟨hroot, hstop⟩ | ⟨j, p, hparent, hp, hstop⟩
        · exact .inr ⟨0, _, Forest.isParent_root hi hroot, rfl, hstop⟩
        · refine .inr ⟨j + 1, p, hparent.children, ?_, hstop⟩
          rw [Forest.flatten, List.getElem?_cons_succ,
            List.getElem?_append_left (List.getElem?_eq_some_iff.1 hp).1]
          exact hp
      · obtain ⟨n, rfl⟩ := Nat.exists_eq_add_of_le (Nat.le_of_not_lt hi)
        have hplace : cs.size + n + 1 = cs.size + 1 + n := by omega
        have hrest : (outside (min e.stop b) es)[n]? = some r := by
          rw [← drop_length_inside, ← hcs.size, List.getElem?_drop]
          exact hr
        rw [List.getElem?_append_right (by simp), Forest.length_flatten,
          Nat.add_sub_cancel_left] at ht
        rw [hplace]
        rcases hf hrest ht with ⟨hroot, hstop⟩ | ⟨j, p, hparent, hp, hstop⟩
        · refine .inl ⟨fun m hm => ?_, hstop⟩
          obtain ⟨n', -, hn'⟩ := Forest.isAncestor_others_iff.1 hm
          exact hroot n' hn'
        · refine .inr ⟨cs.size + 1 + j, p, hparent.others, ?_, hstop⟩
          rw [Forest.flatten, Nat.add_right_comm, List.getElem?_cons_succ,
            List.getElem?_append_right (by simp), Forest.length_flatten, Nat.add_sub_cancel_left]
          exact hp

/-- Nesting from an index on, in full: where it stops, which entries it takes up, where each of them
ends, and which of them are ancestors of others. -/
theorem nestFrom_determined (entries : List FunctionEntry) (boundary : Int) (index : Nat)
    (hindex : index ≤ entries.length) (f : Outline) (k : Nat)
    (hnest : nestFrom entries boundary index = (f, k)) :
    IsFirstOutside entries boundary index k ∧
    List.Forall₂ SameButStop f.flatten ((entries.drop index).take (k - index)) ∧
    (∀ i r t, entries[index + i]? = some r → f.flatten[i]? = some t →
      f.IsCutOff boundary i r.stop t) ∧
    ∀ j i t, j < i → index + i < k → f.flatten[j]? = some t →
      (f.IsAncestor j i ↔ ∀ m r, index + j < m → m ≤ index + i → entries[m]? = some r →
        r.start < t.stop) := by
  obtain ⟨rfl, rfl⟩ := Prod.mk.inj hnest
  have hnests := nests_nest (entries.drop index) boundary
  have hsize := hnests.size
  refine ⟨?_, ?_, fun i r t hr ht => ?_, fun j i t hji hi ht => ?_⟩
  · rw [hsize]
    exact isFirstOutside_inside hindex
  · have hinside : (entries.drop index).take (inside boundary (entries.drop index)).length =
        inside boundary (entries.drop index) := by
      conv_lhs => rw [← inside_append_outside boundary (entries.drop index)]
      exact List.take_left' (by rw [inside_append_outside])
    rw [Nat.add_sub_cancel_left, hsize, hinside]
    exact hnests.flatten
  · exact hnests.isCutOff (by rw [List.getElem?_drop]; exact hr) ht
  · rw [hnests.isAncestor_iff (by omega) ht, startBefore_drop, and_iff_right hji]
    rfl

/-- A function of which only the extent counts. -/
def extent (start stop : Int) : FunctionEntry := ⟨start, stop, [], [], [], none, false⟩

/-- Extents that overlap, one that is turned round, and starts out of order. -/
def overlapping : List FunctionEntry :=
  [extent 9 9, extent 0 10, extent 4 30, extent 3 2, extent 8 9, extent 12 15, extent 40 50]

theorem overlapping_determined :
    (1 ≤ overlapping.length ∧
      nestFrom overlapping 20 1 = (nest (overlapping.drop 1) 20, 6)) ∧
    IsFirstOutside overlapping 20 1 6 ∧
    IsCutOff (nest (overlapping.drop 1) 20) 20 1 30 (extent 4 10) ∧
    (nest (overlapping.drop 1) 20).IsAncestor 1 3 := by
  have hnest : nestFrom overlapping 20 1 = (nest (overlapping.drop 1) 20, 6) := by decide +kernel
  obtain ⟨hfirst, -, hcut, hancestor⟩ :=
    nestFrom_determined overlapping 20 1 (by decide) (nest (overlapping.drop 1) 20) 6 hnest
  have hchild : (nest (overlapping.drop 1) 20).flatten[1]? = some (extent 4 10) := by decide +kernel
  refine ⟨⟨by decide, hnest⟩, hfirst, hcut 1 (extent 4 30) _ (by decide) hchild, ?_⟩
  rw [hancestor 1 3 _ (by decide) (by decide) hchild]
  intro m r h2 h4 hr
  obtain rfl | rfl : m = 3 ∨ m = 4 := by omega
  · obtain rfl : extent 3 2 = r := by simpa [overlapping] using hr
    decide
  · obtain rfl : extent 8 9 = r := by simpa [overlapping] using hr
    decide

end Outline
end MatlabOutline
