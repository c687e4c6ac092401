import Mathlib.Data.List.Sort
import MatlabOutline.Proofs.PageNames
import MatlabOutline.Proofs.ReachablePlaces

/-! The search for source files. Paths are in a linear order, files are sorted by it, and no two of
them have one path. So a file that is left out of a tree is left out of what is found there, and the
others are found in the same order. -/
namespace MatlabOutline
open Text

namespace FileTree

section Order

theorem comesBefore_cons_iff {c d : Char} {s t : Text} :
    comesBefore (c :: s) (d :: t) = true ↔
      c.toNat < d.toNat ∨ c = d ∧ comesBefore s t = true := by
  rw [comesBefore, Bool.or_eq_true, Bool.and_eq_true, beq_iff_eq, decide_eq_true_iff]

theorem comesBefore_total (s t : Text) : comesBefore s t = true ∨ comesBefore t s = true := by
  induction s generalizing t with
  | nil => exact .inl rfl
  | cons c s ih =>
    cases t with
    | nil => exact .inr rfl
    | cons d t =>
      rw [comesBefore_cons_iff, comesBefore_cons_iff]
      rcases Nat.lt_trichotomy c.toNat d.toNat with hlt | heq | hgt
      · exact .inl (.inl hlt)
      · obtain rfl := Char.toNat_inj.1 heq
        exact (ih t).imp (fun h => .inr ⟨rfl, h⟩) (fun h => .inr ⟨rfl, h⟩)
      · exact .inr (.inl hgt)

theorem comesBefore_trans {s t u : Text} (hst : comesBefore s t = true)
    (htu : comesBefore t u = true) : comesBefore s u = true := by
  induction s generalizing t u with
  | nil => rfl
  | cons c s ih =>
    rcases t with _ | ⟨d, t⟩
    · cases hst
    rcases u with _ | ⟨e, u⟩
    · cases htu
    rw [comesBefore_cons_iff] at hst htu ⊢
    rcases hst with hlt | ⟨rfl, hst⟩
    · rcases htu with hlt' | ⟨rfl, -⟩
      · exact .inl (hlt.trans hlt')
      · exact .inl hlt
    · exact htu.imp_right (And.imp_right (ih hst))

theorem comesBefore_antisymm {s t : Text} (hst : comesBefore s t = true)
    (hts : comesBefore t s = true) : s = t := by
  induction s generalizing t with
  | nil =>
    cases t with
    | nil => rfl
    | cons d t => cases hts
  | cons c s ih =>
    rcases t with _ | ⟨d, t⟩
    · cases hst
    rw [comesBefore_cons_iff] at hst hts
    rcases hst with hlt | ⟨rfl, hst⟩
    · rcases hts with hgt | ⟨rfl, -⟩
      · exact absurd hgt hlt.asymm
      · exact absurd hlt (lt_irrefl _)
    · rw [ih hst (hts.resolve_left (lt_irrefl _)).2]

/-- One file stands before another, or has the same path. -/
def PathLE (f g : Text × List UInt8) : Prop := comesBefore f.1 g.1 = true

instance : DecidableRel PathLE := fun f g => decEq (comesBefore f.1 g.1) true

instance : Std.Total PathLE := ⟨fun f g => comesBefore_total f.1 g.1⟩

instance : IsTrans (Text × List UInt8) PathLE := ⟨fun _ _ _ => comesBefore_trans⟩

theorem insertByPath_eq_orderedInsert (f : Text × List UInt8) (fs : List (Text × List UInt8)) :
    insertByPath f fs = fs.orderedInsert PathLE f := by
  induction fs with
  | nil => rfl
  | cons g fs ih =>
    rw [insertByPath, ih, List.orderedInsert_cons]
    rfl

theorem sortByPath_eq_insertionSort (fs : List (Text × List UInt8)) :
    sortByPath fs = fs.insertionSort PathLE := by
  have hinsert : insertByPath = List.orderedInsert PathLE :=
    funext fun f => funext fun gs => insertByPath_eq_orderedInsert f gs
  rw [sortByPath, hinsert]
  rfl

theorem pairwise_sortByPath (fs : List (Text × List UInt8)) : (sortByPath fs).Pairwise PathLE := by
  rw [sortByPath_eq_insertionSort]
  exact List.pairwise_insertionSort PathLE fs

/-- Files that have different paths can be left out before they are sorted, or after it. -/
theorem filter_sortByPath {fs : List (Text × List UInt8)}
    (h : ∀ f ∈ sortByPath fs, ∀ g ∈ sortByPath fs, f.1 = g.1 → f = g)
    (p : Text × List UInt8 → Bool) :
    (sortByPath fs).filter p = sortByPath (fs.filter p) := by
  have hperm : ((sortByPath fs).filter p).Perm (sortByPath (fs.filter p)) :=
    ((sortByPath_perm fs).filter p).trans (sortByPath_perm _).symm
  refine hperm.eq_of_pairwise ?_ ((pairwise_sortByPath fs).filter p) (pairwise_sortByPath _)
  intro f g hf hg hfg hgf
  exact h f (List.mem_of_mem_filter hf) g (List.mem_of_mem_filter (hperm.mem_iff.2 hg))
    (comesBefore_antisymm hfg hgf)

end Order

/-- A source file that is found can be looked up. -/
theorem exists_node?_of_mem_sourceFiles {tree : FileTree} (htree : tree.WellFormed)
    {base : List Text} {ignored : List Path} {f : Text × List UInt8}
    (hf : f ∈ tree.sourceFiles base ignored) :
    ∃ place, f.1 = placeText place ∧ tree.node? place = some (.file f.2) := by
  obtain ⟨dirs, name, -, -, hpath, hnode⟩ := exists_of_mem_sourceFiles htree hf
  exact ⟨_, hpath, htree.node?_of_mem (by simp) hnode⟩

/-- A directory that is there is searched. -/
theorem Reachable.sources {tree : FileTree} (htree : tree.Reachable) {base : Path}
    (hnull : base.hasNull = false)
    (hbase : tree.node? (base.resolve tree.here) = some .directory) (ignored : List Path) :
    tree.sources base ignored =
      .ok ((tree.sourceFiles (base.resolve tree.here) ignored).map Prod.fst) := by
  rw [FileTree.sources, FileTree.resolve, if_neg (Bool.eq_false_iff.1 hnull)]
  simp only [htree.exists? hbase]
  rfl

section Erasing

/-- The tree without what stands at a place. -/
def erase (tree : FileTree) (place : List Text) : FileTree :=
  { tree with nodes := tree.nodes.filter fun n => n.1 ≠ place }

variable {tree : FileTree} {place other base : List Text} {ignored : List Path}

theorem lookup_filter_of_ne {nodes : List (List Text × Node)} (h : other ≠ place) :
    (nodes.filter fun n => n.1 ≠ place).lookup other = nodes.lookup other := by
  induction nodes with
  | nil => rfl
  | cons n nodes ih =>
    obtain ⟨key, value⟩ := n
    by_cases hkey : key = place
    · subst hkey
      rw [List.filter_cons_of_neg (by simp), List.lookup_cons, beq_eq_false_iff_ne.2 h]
      exact ih
    · rw [List.filter_cons_of_pos (by simpa using hkey), List.lookup_cons, List.lookup_cons, ih]

theorem node?_erase_of_ne (h : other ≠ place) :
    (tree.erase place).node? other = tree.node? other := by
  rw [node?, node?, erase, lookup_filter_of_ne h]

theorem keepsDirectories_erase (h : tree.node? place ≠ some .directory) :
    KeepsDirectories tree (tree.erase place) := by
  refine ⟨rfl, fun other hother => ?_⟩
  rwa [node?_erase_of_ne]
  rintro rfl
  exact h hother

/-- Without a file every other place can still be reached. -/
theorem Reachable.erase {tree : FileTree} (h : tree.Reachable) {place : List Text}
    (hplace : tree.node? place ≠ some .directory) : (tree.erase place).Reachable where
  here := h.here
  distinct := h.distinct.sublist (List.filter_sublist.map Prod.fst)
  names n hn := h.names n (List.mem_of_mem_filter hn)
  down := h.down
  usable n hn := h.usable n (List.mem_of_mem_filter hn)
  parent n hn := (keepsDirectories_erase hplace).node _ (h.parent n (List.mem_of_mem_filter hn))

theorem files_erase (tree : FileTree) (place : List Text) :
    (tree.erase place).files = tree.files.filter fun f => f.1 ≠ place := by
  rw [files, files, erase, List.filterMap_filter, List.filter_filterMap]
  refine List.filterMap_congr fun n _ => ?_
  obtain ⟨key, bytes | _⟩ := n
  · simp [Option.filter_some]
  · simp

/-- A file that is not there is not found, and the others are. -/
theorem sourceFiles_erase (htree : tree.WellFormed) (hplace : ∀ t ∈ place, IsName t) :
    (tree.erase place).sourceFiles base ignored =
      (tree.sourceFiles base ignored).filter fun f => f.1 ≠ placeText place := by
  have hunique : ∀ f ∈ tree.sourceFiles base ignored, ∀ g ∈ tree.sourceFiles base ignored,
      f.1 = g.1 → f = g := fun f hf g hg => eq_of_path_eq htree hf hg
  rw [sourceFiles, sourceFiles, filter_sortByPath hunique, files_erase, List.filter_map,
    List.filter_filter, List.filter_filter]
  congr 2
  refine List.filter_congr fun f hf => ?_
  have hnames : ∀ t ∈ f.1, IsName t := htree.names _ (mem_files_iff.1 hf)
  rw [Function.comp_apply, Bool.and_comm]
  simp only [ne_eq, placeText_inj hnames hplace]

end Erasing

end FileTree
end MatlabOutline
