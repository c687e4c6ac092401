import Mathlib.Data.List.Forall2
import Mathlib.Data.List.TakeWhile
import MatlabOutline.Outline.Basic

/-! Nesting by containment. The entries inside a boundary are taken up in order, whatever their
extents are; ends are cut off at the end of the parent and nothing else is changed. Ancestry can be
read off the starts alone, and a forest whose extents are properly nested is rebuilt from its
entries. -/
namespace MatlabOutline
namespace Forest

variable {α : Type}

/-- The values at the top level. -/
def roots : Forest α → List α
  | nil => []
  | node a _ fs => a :: roots fs

theorem roots_map {β : Type} (g : α → β) (f : Forest α) : (f.map g).roots = f.roots.map g := by
  induction f with
  | nil => rfl
  | node a cs fs _ hf => simp [map, roots, hf]

/-- Whether one place in the pre-order is a proper ancestor of another. -/
def IsAncestor : Forest α → Nat → Nat → Prop
  | nil, _, _ => False
  | node _ cs _, 0, j => 0 < j ∧ j ≤ cs.size
  | node _ cs fs, i + 1, j =>
    if i < cs.size then IsAncestor cs i (j - 1)
    else IsAncestor fs (i - cs.size) (j - 1 - cs.size)

theorem IsAncestor.lt {f : Forest α} {i j : Nat} (h : f.IsAncestor i j) : i < j ∧ j < f.size := by
  induction f generalizing i j with
  | nil => exact h.elim
  | node a cs fs hc hf =>
    cases i with
    | zero =>
      obtain ⟨h1, h2⟩ := h
      simp only [size]
      omega
    | succ i =>
      rw [IsAncestor] at h
      simp only [size]
      split_ifs at h with hi
      · have := hc h
        omega
      · have := hf h
        omega

theorem mem_flatten_of_mem_roots {f : Forest α} {a : α} (h : a ∈ f.roots) : a ∈ f.flatten := by
  induction f with
  | nil => simp [roots] at h
  | node b cs fs hc hf =>
    rcases List.mem_cons.1 h with rfl | h
    · simp [flatten]
    · simp [flatten, hf h]

end Forest

namespace Outline

/-- Two entries that differ at most in their ends. -/
def SameButStop (a b : FunctionEntry) : Prop := a = { b with stop := a.stop }

/-- What does not depend on the ends is the same for entries that differ only there. -/
theorem map_eq_of_sameButStop {β : Type} {f : FunctionEntry → β}
    (hf : ∀ (e : FunctionEntry) (n : Int), f { e with stop := n } = f e)
    {xs ys : List FunctionEntry} (h : List.Forall₂ SameButStop xs ys) : xs.map f = ys.map f := by
  induction h with
  | nil => rfl
  | @cons a b xs ys hab _ ih =>
    have hab' : f a = f b := by rw [hab, hf]
    rw [List.map_cons, List.map_cons, hab', ih]

/-- The entries that start before a boundary, up to the first that does not. -/
def inside (boundary : Int) (es : List FunctionEntry) : List FunctionEntry :=
  es.takeWhile fun e => e.start < boundary

/-- The entries that are left over at a boundary. -/
def outside (boundary : Int) (es : List FunctionEntry) : List FunctionEntry :=
  es.dropWhile fun e => e.start < boundary

theorem inside_append_outside (b : Int) (es : List FunctionEntry) :
    inside b es ++ outside b es = es :=
  List.takeWhile_append_dropWhile

theorem drop_length_inside (b : Int) (es : List FunctionEntry) :
    es.drop (inside b es).length = outside b es := by
  conv_lhs => rw [← inside_append_outside b es]
  rw [List.drop_left' (by rw [inside_append_outside])]

theorem inside_eq_self {b : Int} {es : List FunctionEntry} (h : ∀ e ∈ es, e.start < b) :
    inside b es = es := by
  rw [inside, List.takeWhile_eq_self_iff]
  simpa using h

/-- A smaller boundary splits what lies inside a larger one. -/
theorem inside_eq_append {a b : Int} (h : a ≤ b) (es : List FunctionEntry) :
    inside b es = inside a es ++ inside b (outside a es) := by
  induction es with
  | nil => rfl
  | cons e es ih =>
    by_cases he : e.start < a
    · have hb : e.start < b := by omega
      simpa [inside, outside, he, hb] using ih
    · simp [inside, outside, he]

theorem le_start_of_mem_head?_outside (b : Int) (es : List FunctionEntry) :
    ∀ e ∈ (outside b es).head?, b ≤ e.start := by
  intro e he
  have h := List.head?_dropWhile_not (fun e : FunctionEntry => decide (e.start < b)) es
  rw [outside, Option.mem_def] at he
  rw [he] at h
  simpa using h

theorem le_length_inside_iff {b : Int} {es : List FunctionEntry} {n : Nat} :
    n ≤ (inside b es).length ↔
      n ≤ es.length ∧ ∀ m e, m < n → es[m]? = some e → e.start < b := by
  induction es generalizing n with
  | nil => simp [inside]
  | cons a es ih =>
    cases n with
    | zero => simp
    | succ n =>
      by_cases ha : a.start < b
      · have hc : inside b (a :: es) = a :: inside b es := by simp [inside, ha]
        rw [hc, List.length_cons, Nat.add_le_add_iff_right, ih, List.length_cons,
          Nat.add_le_add_iff_right]
        refine and_congr_right fun _ => ⟨fun h m e hm he => ?_, fun h m e hm he => ?_⟩
        · cases m with
          | zero => simp_all
          | succ m => exact h m e (by omega) (by simpa using he)
        · exact h (m + 1) e (by omega) (by simpa using he)
      · have hc : inside b (a :: es) = [] := by simp [inside, ha]
        refine ⟨fun h => by simp [hc] at h, fun h => ?_⟩
        exact absurd (h.2 0 a (by omega) rfl) ha

/-- How a forest comes from a list of entries inside a boundary. -/
inductive Nests : List FunctionEntry → Int → Outline → Prop
  | done {es : List FunctionEntry} {b : Int} (h : ∀ e ∈ es.head?, b ≤ e.start) : Nests es b .nil
  | node {e : FunctionEntry} {es : List FunctionEntry} {b : Int} {cs fs : Outline}
      (lt : e.start < b) (children : Nests es (min e.stop b) cs)
      (others : Nests (outside (min e.stop b) es) b fs) :
      Nests (e :: es) b (.node { e with stop := min e.stop b } cs fs)

/-- Every entry below the boundary is taken up in order, and only its end may change. -/
theorem Nests.flatten {es : List FunctionEntry} {b : Int} {f : Outline} (h : Nests es b f) :
    List.Forall₂ SameButStop f.flatten (inside b es) := by
  induction h with
  | @done es b h =>
    cases es with
    | nil => exact .nil
    | cons e es =>
      have : ¬ e.start < b := by have := h e rfl; omega
      simp [inside, this, Forest.flatten]
  | @node e es b cs fs lt _ _ hc hf =>
    have hb : inside b (e :: es) = e :: inside b es := by simp [inside, lt]
    rw [hb, inside_eq_append (Int.min_le_right e.stop b) es, Forest.flatten]
    exact .cons rfl (List.rel_append hc hf)

theorem Nests.size {es : List FunctionEntry} {b : Int} {f : Outline} (h : Nests es b f) :
    f.size = (inside b es).length := by
  rw [← Forest.length_flatten]
  exact h.flatten.length_eq

theorem Nests.size_le {es : List FunctionEntry} {b : Int} {f : Outline} (h : Nests es b f) :
    f.size ≤ es.length := by
  rw [h.size]
  exact (List.takeWhile_sublist _).length_le

theorem nests_nest (es : List FunctionEntry) (b : Int) : Nests es b (nest es b) := by
  induction es using (measure List.length).wf.induction generalizing b with
  | h es ih =>
    cases es with
    | nil => rw [nest_nil]; exact .done (by simp)
    | cons e es =>
      by_cases lt : e.start < b
      · have hc : Nests es (min e.stop b) (nest es (min e.stop b)) := by
          apply ih
          change es.length < (e :: es).length
          simp
        rw [nest_cons_of_lt lt, hc.size, drop_length_inside]
        refine .node lt hc (ih _ ?_ b)
        change (outside (min e.stop b) es).length < (e :: es).length
        rw [← drop_length_inside, List.length_drop, List.length_cons]
        omega
      · rw [nest_cons_of_le (by omega)]
        exact .done (by simp; omega)

theorem mem_inside {b : Int} {es : List FunctionEntry} {e : FunctionEntry} (h : e ∈ inside b es) :
    e ∈ es ∧ e.start < b :=
  ⟨(List.takeWhile_sublist _).mem h, by simpa using List.mem_takeWhile_imp h⟩

theorem outside_sublist (b : Int) (es : List FunctionEntry) : (outside b es).Sublist es :=
  List.dropWhile_sublist _

theorem Nests.stop_le {es : List FunctionEntry} {b : Int} {f : Outline} (h : Nests es b f) :
    ∀ e ∈ f.flatten, e.stop ≤ b := by
  induction h with
  | done => simp [Forest.flatten]
  | @node e es b cs fs _ _ _ hc hf =>
    intro a ha
    simp only [Forest.flatten, List.mem_cons, List.mem_append] at ha
    rcases ha with rfl | ha | ha
    · exact Int.min_le_right _ _
    · exact Int.le_trans (hc a ha) (Int.min_le_right _ _)
    · exact hf a ha

/-- Whether the entries after place `i`, up to place `j`, all start before an offset. -/
def StartBefore (es : List FunctionEntry) (i j : Nat) (offset : Int) : Prop :=
  ∀ m e, i < m → m ≤ j → es[m]? = some e → e.start < offset

theorem startBefore_drop {es : List FunctionEntry} {n i j : Nat} {offset : Int} :
    StartBefore (es.drop n) i j offset ↔ StartBefore es (n + i) (n + j) offset := by
  constructor
  · intro h m e hi hj he
    apply h (m - n) e (by omega) (by omega)
    rw [List.getElem?_drop, ← he]
    congr 1
    omega
  · intro h m e hi hj he
    rw [List.getElem?_drop] at he
    exact h (n + m) e (by omega) (by omega) he

/-- Among sorted entries the last of them decides. -/
theorem startBefore_iff_of_sorted {es : List FunctionEntry} {i j : Nat} {offset : Int}
    {e : FunctionEntry} (hs : es.Pairwise fun a c => a.start ≤ c.start) (hij : i < j)
    (he : es[j]? = some e) : StartBefore es i j offset ↔ e.start < offset := by
  refine ⟨fun h => h j e hij (Nat.le_refl j) he, fun h m a him hmj ha => ?_⟩
  obtain ⟨hm, rfl⟩ := List.getElem?_eq_some_iff.1 ha
  obtain ⟨hj, rfl⟩ := List.getElem?_eq_some_iff.1 he
  rcases Nat.lt_or_eq_of_le hmj with hlt | rfl
  · have := List.pairwise_iff_getElem.1 hs m j hm hj hlt
    omega
  · exact h

/-- One entry is an ancestor of a later one exactly if that one and all between them start before
its end. -/
theorem Nests.isAncestor_iff {es : List FunctionEntry} {b : Int} {f : Outline} (h : Nests es b f)
    {i j : Nat} (hj : j < f.size) {t : FunctionEntry} (ht : f.flatten[i]? = some t) :
    f.IsAncestor i j ↔ i < j ∧ StartBefore es i j t.stop := by
  induction h generalizing i j t with
  | done => simp [Forest.size] at hj
  | @node e es b cs fs lt hcs hfs hc hf =>
    have hlen := (Nests.node lt hcs hfs).size_le
    have hn := hcs.size
    simp only [Forest.size, List.length_cons] at hj hlen
    cases i with
    | zero =>
      simp only [Forest.flatten, List.getElem?_cons_zero, Option.some.injEq] at ht
      subst ht
      rw [Forest.IsAncestor, hn, le_length_inside_iff]
      refine and_congr_right fun _ => ⟨fun h => ?_, fun h => ⟨by omega, ?_⟩⟩
      · intro m a hm hmj ha
        cases m with
        | zero => omega
        | succ m => exact h.2 m a (by omega) (by simpa using ha)
      · intro m a hm ha
        exact h (m + 1) a (by omega) (by omega) (by simpa using ha)
    | succ i =>
      by_cases hij : i + 1 < j
      swap
      · exact iff_of_false (fun h => hij h.lt.1) (fun h => hij h.1)
      obtain ⟨j, rfl⟩ : ∃ k, j = k + 1 := ⟨j - 1, by omega⟩
      have htail : StartBefore es i j t.stop ↔ StartBefore (e :: es) (i + 1) (j + 1) t.stop := by
        rw [Nat.add_comm i, Nat.add_comm j, ← startBefore_drop]
        rfl
      simp only [Forest.flatten, List.getElem?_cons_succ] at ht
      rw [Forest.IsAncestor, Nat.add_sub_cancel, ← htail]
      split_ifs with hi
      · rw [List.getElem?_append_left (by simpa using hi)] at ht
        by_cases hjc : j < cs.size
        · rw [hc hjc ht]
          exact and_congr_left fun _ => by omega
        · -- the first entry after the children does not start before the end of any of them
          refine iff_of_false (fun h => hjc h.lt.2) fun h => ?_
          obtain ⟨a, ha⟩ : ∃ a, es[cs.size]? = some a :=
            ⟨_, List.getElem?_eq_getElem (by omega)⟩
          have hlt := h.2 cs.size a hi (by omega) ha
          have hstop := hcs.stop_le t (List.mem_of_getElem? ht)
          have hle := le_start_of_mem_head?_outside (min e.stop b) es a (by
            rw [← drop_length_inside, ← hn, List.head?_drop]
            exact ha)
          omega
      · rw [List.getElem?_append_right (by simpa using hi), Forest.length_flatten] at ht
        rw [hf (by omega) ht, ← drop_length_inside, ← hn, startBefore_drop]
        have h1 : cs.size + (i - cs.size) = i := by omega
        have h2 : cs.size + (j - cs.size) = j := by omega
        rw [h1, h2]
        exact and_congr_left fun _ => by omega

/-- Entries whose extents are nested or apart keep their ends. -/
theorem Nests.flatten_eq {es : List FunctionEntry} {b : Int} {f : Outline} (h : Nests es b f)
    (hb : ∀ e ∈ inside b es, e.stop ≤ b)
    (hp : es.Pairwise fun a c => c.stop ≤ a.stop ∨ a.stop ≤ c.start) :
    f.flatten = inside b es := by
  induction h with
  | @done es b h => exact (List.forall₂_nil_left_iff.1 (Nests.done h).flatten).symm
  | @node e es b cs fs lt _ _ hc hf =>
    have hin : inside b (e :: es) = e :: inside b es := by simp [inside, lt]
    have hstop : e.stop ≤ b := hb e (by simp [hin])
    rw [Int.min_eq_left hstop] at hc hf ⊢
    rw [hin, inside_eq_append hstop, List.forall_mem_cons, List.forall_mem_append] at hb
    obtain ⟨he, hes⟩ := List.pairwise_cons.1 hp
    have hchildren : ∀ a ∈ inside e.stop es, a.stop ≤ e.stop := by
      intro a ha
      obtain ⟨hmem, hlt⟩ := mem_inside ha
      rcases he a hmem with h | h <;> omega
    rw [hin, inside_eq_append hstop es, Forest.flatten, hc hchildren hes,
      hf hb.2.2 (hes.sublist (outside_sublist _ _))]

/-- An outline between two offsets: an extent is not empty, holds the extents below it, and ends
before the next one on its level begins. -/
def Within (lo hi : Int) : Outline → Prop
  | .nil => True
  | .node e cs fs =>
    lo ≤ e.start ∧ e.start < e.stop ∧ e.stop ≤ hi ∧ Within e.start e.stop cs ∧ Within e.stop hi fs

theorem Within.mono {lo hi a b : Int} {f : Outline} (h : Within lo hi f) (ha : a ≤ lo)
    (hb : hi ≤ b) : Within a b f := by
  induction f generalizing lo a with
  | nil => trivial
  | node e cs fs _ hf =>
    obtain ⟨h1, h2, h3, h4, h5⟩ := h
    exact ⟨by omega, h2, by omega, h4, hf h5 (Int.le_refl _)⟩

theorem Within.of_mem_roots {lo hi : Int} {f : Outline} (h : Within lo hi f) :
    ∀ e ∈ f.roots, lo ≤ e.start ∧ e.stop ≤ hi := by
  induction f generalizing lo with
  | nil => simp [Forest.roots]
  | node a cs fs _ hf =>
    obtain ⟨h1, h2, h3, -, h5⟩ := h
    intro e he
    rcases List.mem_cons.1 he with rfl | he
    · exact ⟨h1, h3⟩
    · have := hf h5 e he
      omega

theorem Nests.within {es : List FunctionEntry} {b lo : Int} {f : Outline} (h : Nests es b f)
    (hlo : ∀ e ∈ es.head?, lo ≤ e.start) (hlt : ∀ e ∈ es, e.start < e.stop)
    (hs : es.Pairwise fun a c => a.start ≤ c.start) : Within lo b f := by
  induction h generalizing lo with
  | done => trivial
  | @node e es b cs fs lt _ _ hc hf =>
    obtain ⟨he, hes⟩ := List.pairwise_cons.1 hs
    obtain ⟨hel, hlt⟩ := List.forall_mem_cons.1 hlt
    have hsub := outside_sublist (min e.stop b) es
    refine ⟨hlo e rfl, by simp only; omega, Int.min_le_right _ _, hc ?_ hlt hes, hf ?_ ?_ ?_⟩
    · exact fun a ha => he a (List.mem_of_head? ha)
    · exact le_start_of_mem_head?_outside _ _
    · exact fun a ha => hlt a (hsub.mem ha)
    · exact hes.sublist hsub

/-- A forest that nesting below a boundary leaves alone: each root starts before the boundary and
does not end after it, what stands below a root is left alone by the root's end, and the next root
does not start before that end. -/
def Settled (boundary : Int) : Outline → Prop
  | .nil => True
  | .node e cs fs =>
    e.start < boundary ∧ e.stop ≤ boundary ∧ Settled e.stop cs ∧
      (∀ n ∈ fs.roots.head?, e.stop ≤ n.start) ∧ Settled boundary fs

theorem Within.settled {lo hi : Int} {f : Outline} (h : Within lo hi f) : Settled hi f := by
  induction f generalizing lo hi with
  | nil => trivial
  | node e cs fs hc hf =>
    obtain ⟨-, hlt, hle, hcs, hfs⟩ := h
    refine ⟨by omega, hle, hc hcs, fun n hn => ?_, hf hfs⟩
    exact (hfs.of_mem_roots n (List.mem_of_head? hn)).1

/-- Nesting the entries of a settled forest gives the forest back. -/
theorem Settled.nest_flatten_append {boundary : Int} {f : Outline} {es : List FunctionEntry}
    (h : Settled boundary f) (hes : ∀ e ∈ es.head?, boundary ≤ e.start) :
    nest (f.flatten ++ es) boundary = f := by
  induction f generalizing boundary es with
  | nil =>
    cases es with
    | nil => exact nest_nil boundary
    | cons e es => exact nest_cons_of_le (hes e rfl)
  | node e cs fs hc hf =>
    obtain ⟨hlt, hle, hcs, hnext, hfs⟩ := h
    have hafter : ∀ n ∈ (fs.flatten ++ es).head?, e.stop ≤ n.start := by
      cases fs with
      | nil => exact fun n hn => Int.le_trans hle (hes n hn)
      | node a ds gs => exact hnext
    rw [Forest.flatten, List.cons_append, List.append_assoc, nest_cons_of_lt hlt,
      Int.min_eq_left hle, hc hcs hafter, List.drop_left' (Forest.length_flatten cs), hf hfs hes]

theorem nest_flatten_append {lo hi : Int} {f : Outline} {es : List FunctionEntry}
    (h : Within lo hi f) (hes : ∀ e ∈ es.head?, hi ≤ e.start) : nest (f.flatten ++ es) hi = f :=
  h.settled.nest_flatten_append hes

end Outline
end MatlabOutline
