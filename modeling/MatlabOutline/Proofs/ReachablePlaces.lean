import Mathlib.Data.List.Induction
import MatlabOutline.Proofs.FileTrees

/-! Places that can be reached. In a tree whose names can all be used and in which everything stands
in a directory, the names of a place lead to it from the root. A path that leads anywhere leads to
the place that its text names: a step back up on the way undoes the step before it. -/
namespace MatlabOutline
open Text

namespace Path

theorem descend_of_ne_up {part : Text} (h : part ≠ up) (absolute : Bool) (passed : List Text) :
    descend absolute passed part = part :: passed := by
  unfold descend
  exact if_neg h

/-- Names that are no steps back up are passed one after another. -/
theorem foldl_descend_of_up_not_mem (absolute : Bool) {names : List Text} (h : up ∉ names)
    (passed : List Text) : names.foldl (descend absolute) passed = names.reverse ++ passed := by
  induction names generalizing passed with
  | nil => rfl
  | cons name names ih =>
    rw [List.mem_cons, not_or] at h
    rw [List.foldl_cons, descend_of_ne_up (Ne.symm h.1), ih h.2, List.reverse_cons,
      List.append_assoc]
    rfl

/-- A step back up takes away the last name, if it is no such step itself. -/
theorem descend_up {names : List Text} (h : up ∉ names) :
    descend true names.reverse up = names.dropLast.reverse := by
  unfold descend
  rw [if_pos rfl]
  rcases List.eq_nil_or_concat' names with rfl | ⟨above, name, rfl⟩
  · rfl
  · rw [List.mem_append, List.mem_singleton, not_or] at h
    rw [List.reverse_concat, List.dropLast_concat]
    exact if_neg (Ne.symm h.2)

end Path

namespace FileTree

/-- The place where names lead is the one that is left when every step back up is taken out. -/
theorem eq_foldl_descend_of_follow {tree : FileTree} {place names d : List Text}
    (hplace : Path.up ∉ place) (h : tree.follow place names = .ok d) :
    d = (names.foldl (Path.descend true) place.reverse).reverse := by
  induction names generalizing place with
  | nil =>
    obtain rfl := Except.ok.inj h
    exact (List.reverse_reverse place).symm
  | cons name names ih =>
    rw [List.foldl_cons]
    rcases follow_cons_eq_ok_iff.1 h with ⟨rfl, hnext⟩ | ⟨hup, -, hnext⟩
    · rw [Path.descend_up hplace]
      exact ih (fun hmem => hplace (List.dropLast_subset place hmem)) hnext
    · have hdown : Path.descend true place.reverse name = (place ++ [name]).reverse := by
        rw [Path.descend_of_ne_up hup, List.reverse_concat]
      have hplace' : Path.up ∉ place ++ [name] := by
        rw [List.mem_append, List.mem_singleton, not_or]
        exact ⟨hplace, Ne.symm hup⟩
      rw [hdown]
      rcases hnext with ⟨-, hnext⟩ | ⟨rfl, rfl⟩
      · exact ih hplace' hnext
      · exact (List.reverse_reverse _).symm

/-- A path that leads somewhere leads to the place that its text names. -/
theorem eq_resolve_of_locate {tree : FileTree} {path : Path} {d : List Text}
    (hhere : Path.up ∉ tree.here) (h : tree.locate path = .ok d) : d = path.resolve tree.here := by
  rw [locate] at h
  split_ifs at h with hnull habsolute
  · rw [eq_foldl_descend_of_follow List.not_mem_nil h, Path.resolve, Path.join, if_pos habsolute,
      Path.normal, habsolute]
    rfl
  · rw [eq_foldl_descend_of_follow hhere h, Path.resolve, Path.join, if_neg habsolute, Path.normal,
      List.foldl_append, Path.foldl_descend_of_up_not_mem _ hhere, List.append_nil]
    rfl

/-- A path that leads somewhere leads to the directory that its text names, if there is one. -/
theorem leadsTo_of_exists? {tree : FileTree} {path : Path} (hhere : Path.up ∉ tree.here)
    (hexists : tree.exists? path = .ok true)
    (hnode : tree.node? (path.resolve tree.here) = some .directory) :
    tree.LeadsTo path (path.resolve tree.here) := by
  rw [exists?] at hexists
  split at hexists
  · rename_i d hd
    obtain rfl := eq_resolve_of_locate hhere hd
    exact ⟨hd, hnode⟩
  · cases hexists
  · cases hexists

theorem LeadsTo.exists? {tree : FileTree} {path : Path} {d : List Text} (h : tree.LeadsTo path d) :
    tree.exists? path = .ok true := by
  simp only [FileTree.exists?, h.locate, h.node, Option.isSome_some]

/-- A name that can be used on a way down. -/
def Usable (t : Text) : Prop :=
  t ≠ Path.up ∧ t.contains '\x00' = false ∧ (encode t).length ≤ 255

instance (t : Text) : Decidable (Usable t) :=
  inferInstanceAs (Decidable (t ≠ Path.up ∧ t.contains '\x00' = false ∧ (encode t).length ≤ 255))

/-- A tree in which every place can be reached from the root: the names can be used, and everything
stands in a directory. -/
structure Reachable (tree : FileTree) : Prop extends WellFormed tree where
  down : Path.up ∉ tree.here
  usable : ∀ n ∈ tree.nodes, ∀ t ∈ n.1, Usable t
  parent : ∀ n ∈ tree.nodes, tree.node? n.1.dropLast = some .directory

theorem mem_nodes_of_node? {tree : FileTree} {place : List Text} {node : Node} (hne : place ≠ [])
    (h : tree.node? place = some node) : (place, node) ∈ tree.nodes := by
  rw [node?_of_ne_nil hne] at h
  obtain ⟨before, after, hnodes, -⟩ := List.lookup_eq_some_iff.1 h
  rw [hnodes]
  simp

theorem WellFormed.isName_of_node? {tree : FileTree} (h : tree.WellFormed) {place : List Text}
    {node : Node} (hnode : tree.node? place = some node) : ∀ t ∈ place, IsName t := by
  cases place with
  | nil => simp
  | cons name names => exact h.names _ (mem_nodes_of_node? (List.cons_ne_nil name names) hnode)

theorem WellFormed.node?_of_mem {tree : FileTree} (h : tree.WellFormed) {place : List Text}
    {node : Node} (hne : place ≠ []) (hn : (place, node) ∈ tree.nodes) :
    tree.node? place = some node := by
  cases hfound : tree.node? place with
  | none =>
    rw [node?_of_ne_nil hne, List.lookup_eq_none_iff] at hfound
    exact absurd rfl (bne_iff_ne.1 (hfound _ hn))
  | some found =>
    have hsame := List.inj_on_of_nodup_map h.distinct (mem_nodes_of_node? hne hfound) hn rfl
    rw [(Prod.mk.inj hsame).2]

namespace Reachable

variable {tree : FileTree} {place : List Text} {node : Node}

/-- The names of a place where something stands lead there. -/
theorem locate (h : tree.Reachable) (hnode : tree.node? place = some node) :
    tree.locate ⟨"/".toList, place⟩ = .ok place := by
  induction place using List.reverseRecOn generalizing node with
  | nil => rfl
  | append_singleton above name ih =>
    have hmem := mem_nodes_of_node? (List.concat_ne_nil name above) hnode
    have hparent := h.parent _ hmem
    rw [List.dropLast_concat] at hparent
    obtain ⟨hup, hnull, hlength⟩ := h.usable _ hmem name (by simp)
    have hleads : tree.LeadsTo ⟨"/".toList, above⟩ above := ⟨ih hparent, hparent⟩
    exact (hleads.locate_concat_iff hup).2 ⟨⟨hnull, hlength⟩, rfl⟩

theorem exists? (h : tree.Reachable) (hnode : tree.node? place = some node) :
    tree.exists? ⟨"/".toList, place⟩ = .ok true := by
  simp only [FileTree.exists?, h.locate hnode, hnode, Option.isSome_some]

theorem resolve (h : tree.Reachable) (hnode : tree.node? place = some node) :
    Path.resolve ⟨"/".toList, place⟩ tree.here = place :=
  (eq_resolve_of_locate h.down (h.locate hnode)).symm

end Reachable

end FileTree
end MatlabOutline
