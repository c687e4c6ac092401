import MatlabOutline.Proofs.NormalPaths
import MatlabOutline.Proofs.SourceSearch

/-! What the search for source files finds. The paths are strictly increasing, and they are those of
the source files that stand in no skipped directory and that no path to ignore leads to or above. -/
namespace MatlabOutline
open Text

namespace FileTree

/-- Of two different paths the one that comes before the other is the lesser one. -/
theorem lt_of_comesBefore {s t : Text} (h : comesBefore s t = true) (hne : s ≠ t) : s < t := by
  induction s generalizing t with
  | nil =>
    cases t with
    | nil => exact absurd rfl hne
    | cons d t => exact List.nil_lt_cons d t
  | cons c s ih =>
    cases t with
    | nil => cases h
    | cons d t =>
      rw [List.cons_lt_cons_iff]
      rcases comesBefore_cons_iff.1 h with hlt | ⟨rfl, hst⟩
      · exact .inl hlt
      · exact .inr ⟨rfl, ih hst fun heq => hne (congrArg _ heq)⟩

section Order

variable {tree : FileTree} {base : List Text}

theorem files_sublist (tree : FileTree) :
    (tree.files.map Prod.fst).Sublist (tree.nodes.map Prod.fst) := by
  rw [files]
  induction tree.nodes with
  | nil => exact .slnil
  | cons n nodes ih =>
    obtain ⟨place, bytes | _⟩ := n
    · exact ih.cons_cons place
    · exact ih.cons place

theorem nodup_sourceFiles (htree : tree.WellFormed) (ignored : List Path) :
    ((tree.sourceFiles base ignored).map Prod.fst).Nodup := by
  let wanted := (tree.files.filter fun f => (below? base f.1).any (isWanted ignored)).map Prod.fst
  have hplaces : wanted.Nodup :=
    htree.distinct.sublist ((List.filter_sublist.map Prod.fst).trans tree.files_sublist)
  have hnames : ∀ place ∈ wanted, ∀ t ∈ place, IsName t := by
    rw [List.forall_mem_map]
    intro f hf
    exact htree.names _ (mem_files_iff.1 (List.mem_of_mem_filter hf))
  have hpaths : ((tree.sourceFiles base ignored).map Prod.fst).Perm (wanted.map placeText) := by
    rw [sourceFiles, List.map_map]
    refine ((sortByPath_perm _).map Prod.fst).trans ?_
    rw [List.map_map]
    rfl
  rw [hpaths.nodup_iff]
  refine hplaces.map_on fun place hplace other hother heq => ?_
  exact (placeText_inj (hnames place hplace) (hnames other hother)).1 heq

theorem pairwise_lt_sourceFiles (htree : tree.WellFormed) (ignored : List Path) :
    ((tree.sourceFiles base ignored).map Prod.fst).Pairwise (· < ·) := by
  have hle : ((tree.sourceFiles base ignored).map Prod.fst).Pairwise
      fun p q => comesBefore p q = true := by
    rw [List.pairwise_map]
    exact pairwise_sortByPath _
  exact (hle.and (nodup_sourceFiles htree ignored)).imp fun h => lt_of_comesBefore h.1 h.2

end Order

section Wanted

variable {ignore dirs : List Text} {name : Text}

/-- A path is ignored exactly if the components of one to ignore lead to it or to a directory above
it. The root of an absolute path is a component, but no name. -/
theorem isIgnored_iff {relative : List Text} (h : ∀ t ∈ relative, IsName t) :
    isIgnored (ignore.map Path.ofText) relative = true ↔
      ∃ i ∈ ignore, (Path.ofText i).components <+: relative := by
  have hone : ∀ i, (!(Path.ofText i).isAbsolute && (Path.ofText i).parts.isPrefixOf relative) =
      true ↔ (Path.ofText i).components <+: relative := by
    intro i
    rw [Path.components]
    cases habsolute : (Path.ofText i).isAbsolute with
    | false => simp
    | true =>
      constructor
      · intro hrelative
        simp at hrelative
      · intro habove
        have hroot := h _ (habove.subset List.mem_cons_self)
        exact absurd (Path.slash_mem_root habsolute) hroot.2.1
  rw [isIgnored, List.any_map, List.any_eq_true]
  exact exists_congr fun i => and_congr_right fun _ => hone i

theorem isWanted_iff (h : ∀ t ∈ dirs ++ [name], IsName t) :
    isWanted (ignore.map Path.ofText) (dirs ++ [name]) = true ↔
      ".m".toList <:+ name ∧ (∀ d ∈ dirs, d ∉ skippedNames) ∧
        ∀ i ∈ ignore, ¬ (Path.ofText i).components <+: dirs ++ [name] := by
  rw [isWanted, List.getLast?_concat, List.dropLast_concat, Bool.and_eq_true, Bool.and_eq_true,
    Bool.not_eq_true', ← Bool.not_eq_true, Bool.not_eq_true', ← Bool.not_eq_true,
    isIgnored_iff h]
  simp [isSourceName, and_assoc]

end Wanted

/-- The search below a directory finds, strictly increasing by code points, the absolute paths of
exactly those files that have the name of a source file, that stand in no skipped directory, and
that no path to ignore leads to or above. -/
theorem sources_exact (tree : FileTree) (base : Text) (ignore : List Text) (htree : tree.Reachable)
    (hnull : (Path.ofText base).hasNull = false)
    (hbase : tree.node? ((Path.ofText base).resolve tree.here) = some .directory) :
    ∃ paths, tree.sources (.ofText base) (ignore.map .ofText) = .ok paths ∧
      paths.Pairwise (· < ·) ∧
      ∀ path, path ∈ paths ↔ ∃ dirs name bytes,
        path = placeText ((Path.ofText base).resolve tree.here ++ (dirs ++ [name])) ∧
        tree.node? ((Path.ofText base).resolve tree.here ++ (dirs ++ [name])) =
          some (.file bytes) ∧
        ".m".toList <:+ name ∧
        (∀ d ∈ dirs, d ∉ [".git".toList, ".svn".toList, "slprj".toList]) ∧
        ∀ i ∈ ignore, ¬ (Path.ofText i).components <+: dirs ++ [name] := by
  refine ⟨_, htree.sources hnull hbase _, pairwise_lt_sourceFiles htree.toWellFormed _, ?_⟩
  intro path
  rw [List.mem_map]
  constructor
  · rintro ⟨f, hf, rfl⟩
    obtain ⟨dirs, name, hwanted, hpath, hmem⟩ := mem_sourceFiles_iff.1 hf
    have hnames : ∀ t ∈ dirs ++ [name], IsName t :=
      fun t ht => htree.names _ hmem t (List.mem_append_right _ ht)
    have hnode := htree.node?_of_mem (by simp) hmem
    exact ⟨dirs, name, f.2, hpath, hnode, (isWanted_iff hnames).1 hwanted⟩
  · rintro ⟨dirs, name, bytes, hpath, hnode, hwanted⟩
    have hnames : ∀ t ∈ dirs ++ [name], IsName t :=
      fun t ht => htree.isName_of_node? hnode t (List.mem_append_right _ ht)
    have hmem := mem_nodes_of_node? (by simp) hnode
    exact ⟨(path, bytes), mem_sourceFiles_iff.2
      ⟨dirs, name, (isWanted_iff hnames).2 hwanted, hpath, hmem⟩, rfl⟩

/-- A working directory with a package, a directory that is named like a source file, a build cache,
a directory to ignore and a file that is no source. -/
def mixedTree : FileTree :=
  (((((empty ["work".toList]).add "+pkg/f.m".toList (.file [])).add
    "lib.m/g.m".toList (.file [0x25])).add "slprj/h.m".toList (.file [])).add
    "old/k.m".toList (.file [])).add "slprj.txt".toList (.file [])

theorem mixedTree_sources :
    (mixedTree.Reachable ∧ (Path.ofText "old/..".toList).hasNull = false ∧
      mixedTree.node? ((Path.ofText "old/..".toList).resolve mixedTree.here) =
        some .directory) ∧
    ∃ paths, mixedTree.sources (.ofText "old/..".toList)
        (["./old/".toList, "/work/+pkg".toList].map .ofText) = .ok paths ∧
      paths.Pairwise (· < ·) ∧ "/work/+pkg/f.m".toList ∈ paths ∧
      "/work/lib.m/g.m".toList ∈ paths := by
  have hformed : mixedTree.WellFormed :=
    (((((WellFormed.empty (by decide)).add _ _).add _ _).add _ _).add _ _).add _ _
  have htree : mixedTree.Reachable := by
    refine ⟨hformed, ?_, ?_, ?_⟩
    · decide +kernel
    · decide +kernel
    · decide +kernel
  have hnull : (Path.ofText "old/..".toList).hasNull = false := by decide
  have hbase : mixedTree.node? ((Path.ofText "old/..".toList).resolve mixedTree.here) =
      some .directory := by
    decide +kernel
  obtain ⟨paths, hpaths, hsorted, hmem⟩ := sources_exact mixedTree "old/..".toList
    ["./old/".toList, "/work/+pkg".toList] htree hnull hbase
  refine ⟨⟨htree, hnull, hbase⟩, paths, hpaths, hsorted, (hmem _).2 ?_, (hmem _).2 ?_⟩
  · exact ⟨["+pkg".toList], "f.m".toList, [], by decide +kernel⟩
  · exact ⟨["lib.m".toList], "g.m".toList, [0x25], by decide +kernel⟩

end FileTree
end MatlabOutline
