import Mathlib.Data.List.Nodup
import MatlabOutline.FileTree
import MatlabOutline.Proofs.Lines

/-! What file operations keep. Putting a node at one place leaves every other place alone, and a path
that leads somewhere leads there as long as no directory is lost. A directory that was made is found
again, and making it a second time changes nothing. -/
namespace MatlabOutline
open Text

namespace FileTree

section Nodes

variable {tree : FileTree} {place other : List Text} {node : Node}

theorem node?_of_ne_nil (h : place ≠ []) : tree.node? place = tree.nodes.lookup place := by
  rw [node?, if_neg (by simpa using h)]

theorem lookup_map_self {nodes : List (List Text × Node)} (h : (nodes.lookup place).isSome) :
    (nodes.map fun n => if n.1 = place then (place, node) else n).lookup place = some node := by
  induction nodes with
  | nil => cases h
  | cons n nodes ih =>
    obtain ⟨key, value⟩ := n
    by_cases hkey : key = place
    · subst hkey
      simp
    · rw [List.lookup_cons, beq_eq_false_iff_ne.2 (Ne.symm hkey)] at h
      rw [List.map_cons, if_neg hkey, List.lookup_cons, beq_eq_false_iff_ne.2 (Ne.symm hkey)]
      exact ih h

theorem lookup_map_of_ne {nodes : List (List Text × Node)} (h : other ≠ place) :
    (nodes.map fun n => if n.1 = place then (place, node) else n).lookup other =
      nodes.lookup other := by
  induction nodes with
  | nil => rfl
  | cons n nodes ih =>
    obtain ⟨key, value⟩ := n
    rw [List.map_cons, List.lookup_cons]
    by_cases hkey : key = place
    · subst hkey
      rw [if_pos rfl, List.lookup_cons, beq_eq_false_iff_ne.2 h]
      exact ih
    · rw [if_neg hkey, List.lookup_cons, ih]

theorem nodes_insert : (tree.insert place node).nodes =
    if (tree.nodes.lookup place).isSome then
      tree.nodes.map fun n => if n.1 = place then (place, node) else n
    else tree.nodes ++ [(place, node)] := rfl

theorem node?_insert_self (h : place ≠ []) : (tree.insert place node).node? place = some node := by
  rw [node?_of_ne_nil h, nodes_insert]
  split_ifs with hsome
  · exact lookup_map_self hsome
  · rw [List.lookup_append, Option.not_isSome_iff_eq_none.1 hsome]
    simp

theorem node?_insert_of_ne (h : other ≠ place) :
    (tree.insert place node).node? other = tree.node? other := by
  rw [node?, node?, nodes_insert]
  congr 1
  split_ifs
  · exact lookup_map_of_ne h
  · rw [List.lookup_append, List.lookup_cons, beq_eq_false_iff_ne.2 h]
    exact Option.or_none

end Nodes

@[simp] theorem follow_nil (tree : FileTree) (place : List Text) :
    tree.follow place [] = .ok place := rfl

/-- One name on the way. A directory is entered; anything else ends the way. -/
theorem follow_cons_eq_ok_iff {tree : FileTree} {place names d : List Text} {name : Text} :
    tree.follow place (name :: names) = .ok d ↔
      name = Path.up ∧ tree.follow place.dropLast names = .ok d ∨
      name ≠ Path.up ∧ (encode name).length ≤ 255 ∧
        (tree.node? (place ++ [name]) = some .directory ∧
            tree.follow (place ++ [name]) names = .ok d ∨
          names = [] ∧ d = place ++ [name]) := by
  rw [follow]
  by_cases hup : name = Path.up
  · simp [hup]
  rw [if_neg hup]
  by_cases hlong : (encode name).length > 255
  · rw [if_pos hlong]
    refine ⟨nofun, ?_⟩
    rintro (⟨h, -⟩ | ⟨-, h, -⟩)
    · exact absurd h hup
    · omega
  rw [if_neg hlong]
  have hlength : (encode name).length ≤ 255 := by omega
  cases hnode : tree.node? (place ++ [name]) with
  | none => cases names <;> simp [hnode, hup, hlength, eq_comm]
  | some n =>
    cases n with
    | file bytes => cases names <;> simp [hnode, hup, hlength, eq_comm]
    | directory =>
      cases names with
      | nil => simp [hnode, hup, hlength, eq_comm]
      | cons => simp [hnode, hup, hlength]

/-- Every directory of one tree is a directory of the other, and both have one working directory. -/
structure KeepsDirectories (tree later : FileTree) : Prop where
  here : later.here = tree.here
  node : ∀ place, tree.node? place = some .directory → later.node? place = some .directory

theorem keepsDirectories_insert {tree : FileTree} {place : List Text} {node : Node}
    (h : tree.node? place ≠ some .directory) : KeepsDirectories tree (tree.insert place node) := by
  refine ⟨rfl, fun other hother => ?_⟩
  rwa [node?_insert_of_ne]
  rintro rfl
  exact h hother

namespace KeepsDirectories

variable {tree later : FileTree}

/-- Names lead to the same place. -/
theorem follow (h : KeepsDirectories tree later) {place names d : List Text}
    (hd : tree.follow place names = .ok d) : later.follow place names = .ok d := by
  induction names generalizing place with
  | nil => exact hd
  | cons name names ih =>
    rw [follow_cons_eq_ok_iff] at hd ⊢
    refine hd.imp (And.imp_right ih) (And.imp_right (And.imp_right (Or.imp_left ?_)))
    exact fun hin => ⟨h.node _ hin.1, ih hin.2⟩

theorem locate (h : KeepsDirectories tree later) {path : Path} {d : List Text}
    (hd : tree.locate path = .ok d) : later.locate path = .ok d := by
  rw [FileTree.locate] at hd ⊢
  split_ifs at hd ⊢ with hnull habs
  · exact h.follow hd
  · rw [h.here]
    exact h.follow hd

end KeepsDirectories

/-- The path leads to a directory at the place. -/
structure LeadsTo (tree : FileTree) (path : Path) (d : List Text) : Prop where
  locate : tree.locate path = .ok d
  node : tree.node? d = some .directory

theorem LeadsTo.keep {tree later : FileTree} {path : Path} {d : List Text}
    (h : tree.LeadsTo path d) (hkeep : KeepsDirectories tree later) : later.LeadsTo path d :=
  ⟨hkeep.locate h.locate, hkeep.node d h.node⟩

theorem find?_eq_directory_iff {tree : FileTree} {path : Path} :
    tree.find? path = some .directory ↔ ∃ d, tree.LeadsTo path d := by
  rw [find?]
  constructor
  · intro h
    split at h
    · rename_i d hd
      exact ⟨d, hd, h⟩
    · cases h
  · rintro ⟨d, hd⟩
    rw [hd.locate]
    exact hd.node

/-- Names after a way to a directory are followed from there. -/
theorem follow_append {tree : FileTree} {place names d : List Text}
    (hd : tree.follow place names = .ok d) (hnode : tree.node? d = some .directory)
    (rest : List Text) : tree.follow place (names ++ rest) = tree.follow d rest := by
  induction names generalizing place with
  | nil =>
    obtain rfl := Except.ok.inj hd
    rfl
  | cons name names ih =>
    rcases follow_cons_eq_ok_iff.1 hd with ⟨hup, hnext⟩ | ⟨hup, hlength, hin⟩
    · rw [List.cons_append, follow, if_pos hup, ih hnext]
    · have hnext : tree.node? (place ++ [name]) = some .directory ∧
          tree.follow (place ++ [name]) names = .ok d := by
        rcases hin with hin | ⟨rfl, rfl⟩
        · exact hin
        · exact ⟨hnode, rfl⟩
      rw [List.cons_append, follow, if_neg hup, if_neg (by omega)]
      simp only [hnext.1, ih hnext.2]

/-- A name after a path to a directory leads to its place there, if the name can be used. -/
theorem LeadsTo.locate_concat_iff {tree : FileTree} {path : Path} {d place : List Text}
    {name : Text}
    (h : tree.LeadsTo path d) (hup : name ≠ Path.up) :
    tree.locate ⟨path.root, path.parts ++ [name]⟩ = .ok place ↔
      (name.contains '\x00' = false ∧ (encode name).length ≤ 255) ∧ place = d ++ [name] := by
  obtain ⟨hlocate, hnode⟩ := h
  rw [FileTree.locate] at hlocate
  by_cases hpath : path.hasNull
  · rw [if_pos hpath] at hlocate
    cases hlocate
  rw [if_neg hpath] at hlocate
  have hnull : Path.hasNull ⟨path.root, path.parts ++ [name]⟩ = name.contains '\x00' := by
    rw [Path.hasNull] at hpath ⊢
    rw [List.any_append, Bool.eq_false_iff.2 hpath, List.any_cons, List.any_nil, Bool.false_or,
      Bool.or_false]
  have hfollow : tree.follow (if path.isAbsolute then [] else tree.here) (path.parts ++ [name]) =
      tree.follow d [name] := follow_append hlocate hnode [name]
  rw [FileTree.locate, hnull]
  cases hname : name.contains '\x00' with
  | true => simp
  | false =>
    change tree.follow (if path.isAbsolute then [] else tree.here) (path.parts ++ [name]) = _ ↔ _
    rw [hfollow, follow_cons_eq_ok_iff]
    simp [hup, eq_comm]

section Making

variable {tree t : FileTree} {path : Path}

theorem makeDirectory_eq_ok_iff : tree.makeDirectory path = .ok t ↔
    ∃ d, tree.locate path = .ok d ∧ tree.node? d = none ∧ t = tree.insert d .directory := by
  cases hd : tree.locate path with
  | error e => simp [makeDirectory, hd, bind, Except.bind]
  | ok d =>
    cases hnode : tree.node? d <;>
      simp [makeDirectory, hd, hnode, bind, Except.bind, eq_comm]

/-- A directory that was made is there. -/
theorem leadsTo_of_makeDirectory (h : tree.makeDirectory path = .ok t) :
    ∃ d, t.LeadsTo path d := by
  obtain ⟨d, hd, hnode, rfl⟩ := makeDirectory_eq_ok_iff.1 h
  have hne : d ≠ [] := by
    rintro rfl
    cases hnode
  exact ⟨d, (keepsDirectories_insert (by rw [hnode]; nofun)).locate hd, node?_insert_self hne⟩

theorem leadsTo_of_orExisting {e : FileError} (h : tree.orExisting path e = (t, none)) :
    ∃ d, t.LeadsTo path d := by
  obtain ⟨rfl, hfound⟩ := Prod.mk.inj h
  rw [← find?_eq_directory_iff]
  split_ifs at hfound with hdir
  exact hdir

/-- Directories that were made on the way to a path lead there. -/
theorem leadsTo_of_makeDirectoriesFrom {root : Text} {parts : List Text}
    (h : makeDirectoriesFrom root tree parts = (t, none)) :
    ∃ d, t.LeadsTo ⟨root, parts.reverse⟩ d := by
  induction parts generalizing tree t with
  | nil => exact leadsTo_of_orExisting h
  | cons part above ih =>
    rw [makeDirectoriesFrom] at h
    split at h
    · rename_i u hmake
      obtain rfl := (Prod.mk.inj h).1
      exact leadsTo_of_makeDirectory hmake
    · split at h
      · cases (Prod.mk.inj h).2
      · split at h
        · rename_i u hmake
          obtain rfl := (Prod.mk.inj h).1
          exact leadsTo_of_makeDirectory hmake
        · exact leadsTo_of_orExisting h
    · exact leadsTo_of_orExisting h

theorem leadsTo_of_makeDirectories (h : tree.makeDirectories path = (t, none)) :
    ∃ d, t.LeadsTo path d := by
  obtain ⟨d, hd⟩ := leadsTo_of_makeDirectoriesFrom h
  rw [List.reverse_reverse] at hd
  exact ⟨d, hd⟩

/-- A directory that is there stays as it is. -/
theorem LeadsTo.makeDirectories {d : List Text} (h : tree.LeadsTo path d) :
    tree.makeDirectories path = (tree, none) := by
  have hfound := find?_eq_directory_iff.2 ⟨d, h⟩
  have hexisting : ∀ e, tree.orExisting path e = (tree, none) := by
    intro e
    rw [orExisting, if_pos hfound]
  have hmake : tree.makeDirectory path = .error .alreadyExists := by
    simp [makeDirectory, h.locate, h.node, bind, Except.bind]
  rw [FileTree.makeDirectories]
  cases hparts : path.parts.reverse with
  | nil =>
    have hpath : (⟨path.root, []⟩ : Path) = path := by
      rw [← List.reverse_eq_nil_iff.1 hparts]
    rw [makeDirectoriesFrom, hpath, hexisting]
  | cons part above =>
    have hpath : (⟨path.root, (part :: above).reverse⟩ : Path) = path := by
      rw [← hparts, List.reverse_reverse]
    simp only [makeDirectoriesFrom, hpath, hmake, hexisting]

end Making

section Contents

variable {tree t : FileTree} {path : Path} {bytes : List UInt8}

theorem read_eq_ok_iff : tree.read path = .ok bytes ↔
    ∃ d, tree.locate path = .ok d ∧ tree.node? d = some (.file bytes) := by
  cases hd : tree.locate path with
  | error e => simp [read, hd, bind, Except.bind]
  | ok d =>
    rcases hnode : tree.node? d with _ | (bytes | _) <;> simp [read, hd, hnode, bind, Except.bind]

theorem write_eq_ok_iff : tree.write path bytes = .ok t ↔
    ∃ d, tree.locate path = .ok d ∧ tree.node? d ≠ some .directory ∧
      t = tree.insert d (.file bytes) := by
  cases hd : tree.locate path with
  | error e => simp [write, hd, bind, Except.bind]
  | ok d =>
    rcases hnode : tree.node? d with _ | (bytes | _) <;>
      simp [write, hd, hnode, bind, Except.bind, eq_comm]

/-- A file that has been written can be read. -/
theorem read_written (h : tree.write path bytes = .ok t) : t.read path = .ok bytes := by
  obtain ⟨place, hplace, hnode, rfl⟩ := write_eq_ok_iff.1 h
  have hne : place ≠ [] := by
    rintro rfl
    exact hnode rfl
  rw [read_eq_ok_iff]
  exact ⟨place, (keepsDirectories_insert hnode).locate hplace, node?_insert_self hne⟩

end Contents

/-- A text that names one component of a path. -/
def IsName (t : Text) : Prop := t ≠ [] ∧ '/' ∉ t ∧ t ≠ ['.']

instance (t : Text) : Decidable (IsName t) :=
  inferInstanceAs (Decidable (t ≠ [] ∧ '/' ∉ t ∧ t ≠ ['.']))

theorem isName_of_mem_ofText {t u : Text} (h : u ∈ (Path.ofText t).parts) : IsName u := by
  obtain ⟨hmem, hkeep⟩ := List.mem_filter.1 h
  rw [Bool.and_eq_true, Bool.not_eq_true', bne_iff_ne] at hkeep
  refine ⟨fun hnil => ?_, fun hslash => ?_, hkeep.2⟩
  · rw [hnil] at hkeep
    cases hkeep.1
  · exact absurd (ne_of_mem_splitWhere u hmem '/' hslash) (by decide)

theorem isName_of_mem_descend {absolute : Bool} {passed : List Text} {part : Text}
    (hpassed : ∀ t ∈ passed, IsName t) (hpart : IsName part) :
    ∀ t ∈ Path.descend absolute passed part, IsName t := by
  unfold Path.descend
  by_cases hup : part = Path.up
  · rw [if_pos hup, ← hup]
    cases passed with
    | nil => cases absolute <;> simp [hpart]
    | cons p ps =>
      change ∀ t ∈ if p = part then part :: p :: ps else ps, IsName t
      split_ifs
      · exact List.forall_mem_cons.2 ⟨hpart, hpassed⟩
      · exact (List.forall_mem_cons.1 hpassed).2
  · rw [if_neg hup]
    exact List.forall_mem_cons.2 ⟨hpart, hpassed⟩

theorem isName_of_mem_foldl_descend {absolute : Bool} {parts passed : List Text}
    (hparts : ∀ t ∈ parts, IsName t) (hpassed : ∀ t ∈ passed, IsName t) :
    ∀ t ∈ parts.foldl (Path.descend absolute) passed, IsName t := by
  induction parts generalizing passed with
  | nil => exact hpassed
  | cons part parts ih =>
    obtain ⟨hpart, hparts⟩ := List.forall_mem_cons.1 hparts
    exact ih hparts (isName_of_mem_descend hpassed hpart)

/-- A path that is written with names leads through names. -/
theorem isName_of_mem_resolve {path : Path} {here : List Text} (hpath : ∀ t ∈ path.parts, IsName t)
    (hhere : ∀ t ∈ here, IsName t) : ∀ t ∈ path.resolve here, IsName t := by
  have hjoin : ∀ t ∈ (Path.join ⟨"/".toList, here⟩ path).parts, IsName t := by
    rw [Path.join]
    split_ifs
    · exact hpath
    · intro t ht
      exact (List.mem_append.1 ht).elim (hhere t) (hpath t)
  intro t ht
  exact isName_of_mem_foldl_descend hjoin (by simp) t (List.mem_reverse.1 ht)

/-- A tree that file operations can make: its places are different from each other, and names lead
to them. -/
structure WellFormed (tree : FileTree) : Prop where
  here : ∀ t ∈ tree.here, IsName t
  distinct : (tree.nodes.map Prod.fst).Nodup
  names : ∀ n ∈ tree.nodes, ∀ t ∈ n.1, IsName t

namespace WellFormed

variable {tree : FileTree}

theorem insert (h : tree.WellFormed) {place : List Text} (hplace : ∀ t ∈ place, IsName t)
    (node : Node) : (tree.insert place node).WellFormed := by
  refine ⟨h.here, ?_, ?_⟩
  · rw [nodes_insert]
    split_ifs with hsome
    · have hkeys : (tree.nodes.map fun n => if n.1 = place then (place, node) else n).map Prod.fst =
          tree.nodes.map Prod.fst := by
        rw [List.map_map]
        refine List.map_congr_left fun n _ => ?_
        by_cases hn : n.1 = place
        · simp [hn]
        · simp [hn]
      rw [hkeys]
      exact h.distinct
    · have hnew : place ∉ tree.nodes.map Prod.fst := by
        intro hmem
        obtain ⟨n, hn, rfl⟩ := List.mem_map.1 hmem
        have hne := List.lookup_eq_none_iff.1 (Option.not_isSome_iff_eq_none.1 hsome) n hn
        exact absurd rfl (bne_iff_ne.1 hne)
      rw [List.map_append, List.map_singleton, ← List.concat_eq_append]
      exact List.Nodup.concat hnew h.distinct
  · intro n hn
    rw [nodes_insert] at hn
    split_ifs at hn
    · obtain ⟨m, hm, rfl⟩ := List.mem_map.1 hn
      split_ifs
      · exact hplace
      · exact h.names m hm
    · rcases List.mem_append.1 hn with hn | hn
      · exact h.names n hn
      · rw [List.mem_singleton.1 hn]
        exact hplace

/-- Directories on the way to a place are put there one by one. -/
theorem insertDirectories (h : tree.WellFormed) {place : List Text}
    (hplace : ∀ t ∈ place, IsName t) : (tree.insertDirectories place).WellFormed := by
  rw [FileTree.insertDirectories]
  generalize List.range place.length = ns
  induction ns generalizing tree with
  | nil => exact h
  | cons n ns ih =>
    rw [List.foldl_cons]
    apply ih
    dsimp only
    split_ifs
    · exact h
    · exact h.insert (fun t ht => hplace t (List.mem_of_mem_take ht)) _

theorem empty {here : List Text} (hhere : ∀ t ∈ here, IsName t) :
    (FileTree.empty here).WellFormed := by
  have hbare : WellFormed ⟨here, []⟩ := ⟨hhere, List.nodup_nil, by simp⟩
  exact hbare.insertDirectories hhere

theorem add (h : tree.WellFormed) (path : Text) (node : Node) :
    (tree.add path node).WellFormed := by
  have hplace := isName_of_mem_resolve (fun t => isName_of_mem_ofText (t := path) (u := t)) h.here
  cases node with
  | directory => exact h.insertDirectories hplace
  | file bytes =>
    exact (h.insertDirectories fun t ht => hplace t (List.dropLast_subset _ ht)).insert hplace _

end WellFormed

end FileTree
end MatlabOutline
