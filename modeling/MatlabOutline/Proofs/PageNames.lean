import MatlabOutline.FileTree.Search
import MatlabOutline.Proofs.FileTrees

/-! The names of pages. A place in a well-formed tree can be read off its absolute path, and the page
name of a file is made of the components below a base directory, joined by dots. Two names are the
same exactly if their components fall into the same words at the dots, so files whose components hold
no dots have different names. -/
namespace MatlabOutline
open Text

namespace Text

variable {sep : Char}

/-- Joined pieces are cut again at every separator, those within a piece too. -/
theorem splitOn_joinWith {ps : List Text} (hps : ps ≠ []) :
    splitOn sep (joinWith [sep] ps) = ps.flatMap (splitOn sep) := by
  induction ps with
  | nil => exact absurd rfl hps
  | cons p ps ih =>
    cases ps with
    | nil => exact (List.append_nil _).symm
    | cons q ps =>
      have hcut : splitOn sep (p ++ sep :: joinWith [sep] (q :: ps)) =
          splitOn sep p ++ splitOn sep (joinWith [sep] (q :: ps)) :=
        @splitWhere_append_cons (· == sep) sep (beq_self_eq_true sep) p _
      rw [joinWith_cons_cons, List.append_assoc, List.singleton_append, hcut,
        ih (List.cons_ne_nil q ps)]
      rfl

theorem joinWith_eq_iff {ps qs : List Text} (hps : ps ≠ []) (hqs : qs ≠ []) :
    joinWith [sep] ps = joinWith [sep] qs ↔
      ps.flatMap (splitOn sep) = qs.flatMap (splitOn sep) := by
  rw [← splitOn_joinWith hps, ← splitOn_joinWith hqs]
  refine ⟨congrArg _, fun h => ?_⟩
  have hjoin := congrArg (joinWith [sep]) h
  rwa [joinWith_splitOn, joinWith_splitOn] at hjoin

theorem flatMap_splitOn_of_forall {ps : List Text} (hps : ∀ p ∈ ps, sep ∉ p) :
    ps.flatMap (splitOn sep) = ps := by
  induction ps with
  | nil => rfl
  | cons p ps ih =>
    obtain ⟨hp, hps⟩ := List.forall_mem_cons.1 hps
    have hone : splitOn sep p = [p] := by
      apply splitWhere_of_forall
      intro c hc
      rw [beq_eq_false_iff_ne]
      rintro rfl
      exact hp hc
    rw [List.flatMap_cons, hone, ih hps]
    rfl

theorem not_mem_joinWith {c : Char} {ps : List Text} (hc : c ≠ sep) (hps : ∀ p ∈ ps, c ∉ p) :
    c ∉ joinWith [sep] ps := by
  intro h
  rcases mem_joinWith h with hsep | ⟨p, hp, hcp⟩
  · exact hc (List.mem_singleton.1 hsep)
  · exact hps p hp hcp

end Text

namespace Path

/-- The components of a file below a directory, the last one without its suffix. -/
def pageParts (path base : Path) : List Text :=
  match (relativeTo? path base).map List.reverse with
  | some (name :: above) => (stem name :: above).reverse
  | _ => []

/-- The words that the components fall into at their dots. -/
def pageWords (path base : Path) : List Text := (pageParts path base).flatMap (splitOn '.')

theorem pageName?_eq {path base : Path} (h : pageParts path base ≠ []) :
    pageName? path base = some (joinWith ['.'] (pageParts path base)) := by
  rw [pageParts] at h
  rw [pageName?, pageParts]
  generalize (relativeTo? path base).map List.reverse = r at h ⊢
  rcases r with _ | (_ | ⟨name, above⟩)
  · exact absurd rfl h
  · exact absurd rfl h
  · rfl

/-- A source file has its suffix taken off, unless its name is nothing else. -/
theorem stem_of_isSourceName {name : Text} (h : FileTree.isSourceName name = true) :
    name = stem name ++ ".m".toList ∨ name = ".m".toList ∧ stem name = name := by
  obtain ⟨body, rfl⟩ := List.isSuffixOf_iff_suffix.1 h
  have hstem : stem (body ++ ".m".toList) = if body.isEmpty then body ++ ".m".toList else body := by
    rw [stem, List.reverse_append]
    change (if (false || body.reverse.reverse.isEmpty) then _ else body.reverse.reverse) = _
    rw [List.reverse_reverse, Bool.false_or]
  rw [hstem]
  split_ifs with hempty
  · rw [List.isEmpty_iff.1 hempty]
    exact .inr ⟨rfl, rfl⟩
  · exact .inl rfl

end Path

namespace FileTree

/-- A name by itself is a path of one component. -/
theorem ofText_of_isName {t : Text} (h : IsName t) : Path.ofText t = ⟨[], [t]⟩ := by
  obtain ⟨hne, hslash, hdot⟩ := h
  have hroot : Path.rootOf t = [] := by
    obtain ⟨c, u, rfl⟩ := List.exists_cons_of_ne_nil hne
    have hc : c ≠ '/' := by
      rintro rfl
      exact hslash List.mem_cons_self
    unfold Path.rootOf
    split <;> simp_all
  have hsplit : splitOn '/' t = [t] := by
    have hone := @flatMap_splitOn_of_forall '/' [t] (by simpa using hslash)
    rwa [List.flatMap_singleton] at hone
  rw [Path.ofText, hroot, hsplit, List.filter_cons_of_pos]
  · rfl
  · simp [hne, hdot]

/-- The absolute path of a place leads back to the place. -/
theorem ofText_placeText {place : List Text} (h : ∀ t ∈ place, IsName t) :
    Path.ofText (placeText place) = ⟨"/".toList, place⟩ := by
  have htext : placeText place = '/' :: joinWith ['/'] place := rfl
  have hroot : Path.rootOf ('/' :: joinWith ['/'] place) = "/".toList := by
    cases place with
    | nil => rfl
    | cons t ts =>
      obtain ⟨⟨hne, hslash, -⟩, -⟩ := List.forall_mem_cons.1 h
      obtain ⟨c, u, rfl⟩ := List.exists_cons_of_ne_nil hne
      obtain ⟨v, hv⟩ : ∃ v, joinWith ['/'] ((c :: u) :: ts) = c :: v := by
        cases ts <;> exact ⟨_, rfl⟩
      rw [hv]
      have hc : c ≠ '/' := by
        rintro rfl
        exact hslash List.mem_cons_self
      unfold Path.rootOf
      split <;> simp_all
  have hparts : (splitOn '/' ('/' :: joinWith ['/'] place)).filter
      (fun p => !p.isEmpty && p != ".".toList) = place := by
    have hcut : splitOn '/' ('/' :: joinWith ['/'] place) =
        [] :: splitOn '/' (joinWith ['/'] place) := rfl
    have hnames : place.filter (fun p => !p.isEmpty && p != ".".toList) = place := by
      rw [List.filter_eq_self]
      intro t ht
      obtain ⟨hne, -, hdot⟩ := h t ht
      simp [hne, hdot]
    rw [hcut, List.filter_cons_of_neg (by simp)]
    cases place with
    | nil => rfl
    | cons t ts =>
      rw [splitOn_joinWith (List.cons_ne_nil t ts),
        flatMap_splitOn_of_forall fun u hu => (h u hu).2.1, hnames]
  rw [Path.ofText, htext, hroot, hparts]

theorem placeText_inj {place place' : List Text} (h : ∀ t ∈ place, IsName t)
    (h' : ∀ t ∈ place', IsName t) : placeText place = placeText place' ↔ place = place' := by
  refine ⟨fun heq => ?_, congrArg placeText⟩
  have hpath := congrArg Path.ofText heq
  rw [ofText_placeText h, ofText_placeText h'] at hpath
  exact (Path.mk.inj hpath).2

theorem pageParts_placeText {base dirs : List Text} {name : Text}
    (h : ∀ t ∈ base ++ (dirs ++ [name]), IsName t) :
    Path.pageParts (Path.ofText (placeText (base ++ (dirs ++ [name])))) ⟨"/".toList, base⟩ =
      dirs ++ [Path.stem name] := by
  have hcomponents : ∀ ps : List Text, Path.components ⟨"/".toList, ps⟩ = "/".toList :: ps :=
    fun _ => rfl
  have hrelative : Path.relativeTo? ⟨"/".toList, base ++ (dirs ++ [name])⟩ ⟨"/".toList, base⟩ =
      some (dirs ++ [name]) := by
    rw [Path.relativeTo?, hcomponents, hcomponents, if_pos, if_neg (by simp)]
    · simp
    · rw [List.isPrefixOf_iff_prefix, List.cons_prefix_cons]
      exact ⟨rfl, List.prefix_append _ _⟩
  rw [Path.pageParts, ofText_placeText h, hrelative]
  simp

theorem below?_eq_some_iff {base place r : List Text} :
    below? base place = some r ↔ place = base ++ r ∧ r ≠ [] := by
  unfold below?
  split_ifs with h
  · rw [Bool.and_eq_true, List.isPrefixOf_iff_prefix, decide_eq_true_eq] at h
    obtain ⟨⟨u, rfl⟩, hlen⟩ := h
    rw [List.drop_left, Option.some.injEq, List.append_cancel_left_eq]
    refine ⟨?_, fun hr => hr.1⟩
    rintro rfl
    refine ⟨rfl, ?_⟩
    rintro rfl
    simp at hlen
  · refine ⟨nofun, ?_⟩
    rintro ⟨rfl, hr⟩
    refine absurd ?_ h
    rw [Bool.and_eq_true, List.isPrefixOf_iff_prefix, decide_eq_true_eq, List.length_append]
    have hpos := List.length_pos_iff.2 hr
    exact ⟨List.prefix_append _ _, by omega⟩

theorem mem_files_iff {tree : FileTree} {f : List Text × List UInt8} :
    f ∈ tree.files ↔ (f.1, Node.file f.2) ∈ tree.nodes := by
  rw [files, List.mem_filterMap]
  constructor
  · rintro ⟨⟨key, bytes | _⟩, hn, heq⟩
    · obtain rfl := Option.some.inj heq
      exact hn
    · cases heq
  · exact fun h => ⟨_, h, rfl⟩

section Sources

variable {tree : FileTree} {base : List Text} {ignored : List Path} {f g : Text × List UInt8}

/-- The files that are found are those to be outlined below the base. -/
theorem mem_sourceFiles_iff :
    f ∈ tree.sourceFiles base ignored ↔ ∃ dirs name, isWanted ignored (dirs ++ [name]) = true ∧
      f.1 = placeText (base ++ (dirs ++ [name])) ∧
      (base ++ (dirs ++ [name]), .file f.2) ∈ tree.nodes := by
  rw [sourceFiles, (sortByPath_perm _).mem_iff, List.mem_map]
  constructor
  · rintro ⟨⟨place, bytes⟩, hmem, rfl⟩
    obtain ⟨hfile, hany⟩ := List.mem_filter.1 hmem
    obtain ⟨r, hbelow, hwanted⟩ := (Option.any_eq_true _ _).1 hany
    obtain ⟨rfl, hne⟩ := below?_eq_some_iff.1 hbelow
    obtain ⟨dirs, name, rfl⟩ := (List.eq_nil_or_concat' r).resolve_left hne
    exact ⟨dirs, name, hwanted, rfl, mem_files_iff.1 hfile⟩
  · rintro ⟨dirs, name, hwanted, hpath, hnode⟩
    refine ⟨(base ++ (dirs ++ [name]), f.2), List.mem_filter.2 ⟨mem_files_iff.2 hnode, ?_⟩,
      Prod.ext hpath.symm rfl⟩
    rw [Option.any_eq_true]
    exact ⟨dirs ++ [name], below?_eq_some_iff.2 ⟨rfl, by simp⟩, hwanted⟩

/-- Where a source file stands. -/
theorem exists_of_mem_sourceFiles (htree : tree.WellFormed)
    (hf : f ∈ tree.sourceFiles base ignored) :
    ∃ dirs name, isSourceName name = true ∧ (∀ t ∈ base ++ (dirs ++ [name]), IsName t) ∧
      f.1 = placeText (base ++ (dirs ++ [name])) ∧
      (base ++ (dirs ++ [name]), .file f.2) ∈ tree.nodes := by
  obtain ⟨dirs, name, hwanted, hpath, hnode⟩ := mem_sourceFiles_iff.1 hf
  have hname : isSourceName name = true := by
    rw [isWanted, List.getLast?_concat, Bool.and_eq_true, Bool.and_eq_true] at hwanted
    exact hwanted.1.1
  exact ⟨dirs, name, hname, htree.names _ hnode, hpath, hnode⟩

/-- No two source files have one path. -/
theorem eq_of_path_eq (htree : tree.WellFormed) (hf : f ∈ tree.sourceFiles base ignored)
    (hg : g ∈ tree.sourceFiles base ignored) (h : f.1 = g.1) : f = g := by
  obtain ⟨dirs, name, -, hnames, hpath, hnode⟩ := exists_of_mem_sourceFiles htree hf
  obtain ⟨dirs', name', -, hnames', hpath', hnode'⟩ := exists_of_mem_sourceFiles htree hg
  have hplace := (placeText_inj hnames hnames').1 (by rw [← hpath, ← hpath', h])
  have heq := List.inj_on_of_nodup_map htree.distinct hnode hnode' hplace
  exact Prod.ext h (Node.file.inj (Prod.mk.inj heq).2)

/-- The page of a source file has a name, which its components spell. -/
theorem pageName?_of_mem_sourceFiles (htree : tree.WellFormed)
    (hf : f ∈ tree.sourceFiles base ignored) :
    Path.pageParts (Path.ofText f.1) ⟨"/".toList, base⟩ ≠ [] ∧
      Path.pageName? (Path.ofText f.1) ⟨"/".toList, base⟩ =
        some (joinWith ['.'] (Path.pageParts (Path.ofText f.1) ⟨"/".toList, base⟩)) := by
  obtain ⟨dirs, name, -, hnames, hpath, -⟩ := exists_of_mem_sourceFiles htree hf
  have hne : Path.pageParts (Path.ofText f.1) ⟨"/".toList, base⟩ ≠ [] := by
    rw [hpath, pageParts_placeText hnames]
    simp
  exact ⟨hne, Path.pageName?_eq hne⟩

theorem slash_not_mem_pageName (htree : tree.WellFormed) (hf : f ∈ tree.sourceFiles base ignored) :
    '/' ∉ joinWith ['.'] (Path.pageParts (Path.ofText f.1) ⟨"/".toList, base⟩) := by
  obtain ⟨dirs, name, hname, hnames, hpath, -⟩ := exists_of_mem_sourceFiles htree hf
  rw [hpath, pageParts_placeText hnames]
  apply not_mem_joinWith (by decide)
  intro t ht
  rcases List.mem_append.1 ht with ht | ht
  · exact (hnames t (by simp [ht])).2.1
  · rw [List.mem_singleton.1 ht]
    have hslash : '/' ∉ name := (hnames name (by simp)).2.1
    rcases Path.stem_of_isSourceName hname with hsuffix | ⟨-, hself⟩
    · rw [hsuffix] at hslash
      exact fun hmem => hslash (List.mem_append_left _ hmem)
    · rwa [hself]

/-- Two page names are the same exactly if they fall into the same words at the dots. -/
theorem pageName?_eq_iff (htree : tree.WellFormed) (hf : f ∈ tree.sourceFiles base ignored)
    (hg : g ∈ tree.sourceFiles base ignored) :
    Path.pageName? (Path.ofText f.1) ⟨"/".toList, base⟩ =
        Path.pageName? (Path.ofText g.1) ⟨"/".toList, base⟩ ↔
      Path.pageWords (Path.ofText f.1) ⟨"/".toList, base⟩ =
        Path.pageWords (Path.ofText g.1) ⟨"/".toList, base⟩ := by
  obtain ⟨hfne, hfname⟩ := pageName?_of_mem_sourceFiles htree hf
  obtain ⟨hgne, hgname⟩ := pageName?_of_mem_sourceFiles htree hg
  rw [hfname, hgname, Option.some.injEq, joinWith_eq_iff hfne hgne]
  rfl

/-- Components without dots tell the files apart. -/
theorem eq_of_pageWords_eq (htree : tree.WellFormed) (hf : f ∈ tree.sourceFiles base ignored)
    (hg : g ∈ tree.sourceFiles base ignored)
    (hplain : ∀ t ∈ Path.pageParts (Path.ofText f.1) ⟨"/".toList, base⟩, '.' ∉ t)
    (hplain' : ∀ t ∈ Path.pageParts (Path.ofText g.1) ⟨"/".toList, base⟩, '.' ∉ t)
    (heq : Path.pageWords (Path.ofText f.1) ⟨"/".toList, base⟩ =
      Path.pageWords (Path.ofText g.1) ⟨"/".toList, base⟩) : f.1 = g.1 := by
  rw [Path.pageWords, Path.pageWords, flatMap_splitOn_of_forall hplain,
    flatMap_splitOn_of_forall hplain'] at heq
  obtain ⟨dirs, name, hname, hnames, hpath, -⟩ := exists_of_mem_sourceFiles htree hf
  obtain ⟨dirs', name', hname', hnames', hpath', -⟩ := exists_of_mem_sourceFiles htree hg
  rw [hpath, pageParts_placeText hnames] at hplain heq
  rw [hpath', pageParts_placeText hnames'] at heq
  obtain ⟨rfl, hstem⟩ := List.append_inj' heq rfl
  obtain hstem : Path.stem name = Path.stem name' := by simpa using hstem
  have hdot : '.' ∉ Path.stem name := hplain _ (by simp)
  rw [hpath, hpath']
  rcases Path.stem_of_isSourceName hname with hsuffix | ⟨hm, hself⟩
  · rcases Path.stem_of_isSourceName hname' with hsuffix' | ⟨hm', hself'⟩
    · rw [hsuffix, hsuffix', hstem]
    · rw [hstem, hself', hm'] at hdot
      exact absurd (by decide) hdot
  · rw [hself, hm] at hdot
    exact absurd (by decide) hdot

/-- The name of the index is left to one file. -/
theorem pageName?_eq_index_iff (htree : tree.WellFormed) (hf : f ∈ tree.sourceFiles base ignored) :
    Path.pageName? (Path.ofText f.1) ⟨"/".toList, base⟩ = some "index".toList ↔
      f.1 = placeText (base ++ ["index.m".toList]) := by
  obtain ⟨dirs, name, hname, hnames, hpath, -⟩ := exists_of_mem_sourceFiles htree hf
  obtain ⟨hne, hpage⟩ := pageName?_of_mem_sourceFiles htree hf
  rw [hpage, hpath, pageParts_placeText hnames, Option.some.injEq]
  constructor
  · intro hindex
    cases dirs with
    | nil =>
      have hstem : Path.stem name = "index".toList := hindex
      rcases Path.stem_of_isSourceName hname with hsuffix | ⟨hm, hself⟩
      · rw [hsuffix, hstem]
        rfl
      · rw [hself, hm] at hstem
        exact absurd hstem (by decide)
    | cons dir dirs =>
      -- a file in a directory has a dot in its page name
      obtain ⟨part, parts, hparts⟩ := List.exists_cons_of_ne_nil
        (List.append_ne_nil_of_right_ne_nil dirs (List.cons_ne_nil (Path.stem name) []))
      have hdot : '.' ∈ "index".toList := by
        rw [← hindex, List.cons_append, hparts, joinWith_cons_cons]
        simp
      exact absurd hdot (by decide)
  · intro hplace
    have hbase : ∀ t ∈ base ++ ["index.m".toList], IsName t := by
      intro t ht
      rcases List.mem_append.1 ht with ht | ht
      · exact hnames t (List.mem_append_left _ ht)
      · rw [List.mem_singleton.1 ht]
        decide
    have hparts : dirs ++ [Path.stem name] = [] ++ [Path.stem "index.m".toList] := by
      rw [← pageParts_placeText hnames, hplace]
      exact @pageParts_placeText base [] "index.m".toList hbase
    rw [hparts]
    decide

end Sources

end FileTree
end MatlabOutline
