import MatlabOutline.Proofs.WrittenPages

/-! A run that is repeated. A run writes pages and makes directories for them; it never touches a
file that is named like a source file, wherever the pages go. So a second run finds the same
sources, and as it writes the same pages in the same order, it leaves everything as it was. -/
namespace MatlabOutline
open Text

namespace FileTree

/-- Whether a place is named like a source file. -/
def isSourcePlace (place : List Text) : Bool := place.getLast?.any isSourceName

/-- The file at a node that is named like a source file. -/
def sourceNode? (n : List Text × Node) : Option (List Text × List UInt8) :=
  match n.2 with
  | .file bytes => if isSourcePlace n.1 then some (n.1, bytes) else none
  | .directory => none

theorem sourceNode?_of_not_isSourcePlace {place : List Text} (h : isSourcePlace place = false)
    (node : Node) : sourceNode? (place, node) = none := by
  cases node with
  | file bytes => simp [sourceNode?, h]
  | directory => rfl

/-- What is wanted below a directory is named like a source file. -/
theorem isSourcePlace_of_wanted {base place : List Text} {ignored : List Path}
    (h : (below? base place).any (isWanted ignored) = true) : isSourcePlace place = true := by
  obtain ⟨r, hbelow, hwanted⟩ := (Option.any_eq_true _ _).1 h
  obtain ⟨rfl, hne⟩ := below?_eq_some_iff.1 hbelow
  rw [isWanted, Bool.and_eq_true, Bool.and_eq_true] at hwanted
  obtain ⟨dirs, name, rfl⟩ := (List.eq_nil_or_concat' r).resolve_left hne
  rw [List.getLast?_concat] at hwanted
  rw [isSourcePlace, ← List.append_assoc, List.getLast?_concat]
  exact hwanted.1.1

/-- The source files can be told from the nodes that are named like source files. -/
theorem sourceFiles_eq (tree : FileTree) (base : List Text) (ignored : List Path) :
    tree.sourceFiles base ignored =
      sortByPath (((tree.nodes.filterMap sourceNode?).filter
        fun f => (below? base f.1).any (isWanted ignored)).map fun f => (placeText f.1, f.2)) := by
  have hfilter : tree.files.filter (fun f => (below? base f.1).any (isWanted ignored)) =
      (tree.nodes.filterMap sourceNode?).filter
        fun f => (below? base f.1).any (isWanted ignored) := by
    rw [files, List.filter_filterMap, List.filter_filterMap]
    refine List.filterMap_congr fun n _ => ?_
    obtain ⟨place, bytes | _⟩ := n
    · cases hplace : isSourcePlace place with
      | true => simp [sourceNode?, hplace]
      | false =>
        have hwanted : (below? base place).any (isWanted ignored) = false := by
          rw [Bool.eq_false_iff]
          intro h
          rw [isSourcePlace_of_wanted h] at hplace
          cases hplace
        simp [sourceNode?, hplace, hwanted]
    · rfl
  rw [sourceFiles, hfilter]

/-- Directories stay, what is there stays there, and nothing happens to source files. -/
structure KeepsSources (tree later : FileTree) : Prop extends KeepsDirectories tree later where
  present : ∀ place, (tree.node? place).isSome → (later.node? place).isSome
  source : ∀ place bytes, isSourcePlace place = true →
    (later.node? place = some (.file bytes) ↔ tree.node? place = some (.file bytes))
  nodes : later.nodes.filterMap sourceNode? = tree.nodes.filterMap sourceNode?

namespace KeepsSources

variable {tree later latest : FileTree} {place : List Text} {node : Node}

theorem refl (tree : FileTree) : KeepsSources tree tree :=
  ⟨⟨rfl, fun _ h => h⟩, fun _ h => h, fun _ _ _ => Iff.rfl, rfl⟩

theorem trans (h : KeepsSources tree later) (h' : KeepsSources later latest) :
    KeepsSources tree latest where
  here := h'.here.trans h.here
  node place hplace := h'.node place (h.node place hplace)
  present place hplace := h'.present place (h.present place hplace)
  source place bytes hplace := (h'.source place bytes hplace).trans (h.source place bytes hplace)
  nodes := h'.nodes.trans h.nodes

theorem present_insert (hne : place ≠ []) (other : List Text) (h : (tree.node? other).isSome) :
    ((tree.insert place node).node? other).isSome := by
  by_cases heq : other = place
  · rw [heq, node?_insert_self hne]
    rfl
  · rwa [node?_insert_of_ne heq]

/-- A file with another name may be written, but not over a directory. -/
theorem insert (hnode : tree.node? place ≠ some .directory) (hplace : isSourcePlace place = false) :
    KeepsSources tree (tree.insert place node) := by
  have hne : place ≠ [] := by
    rintro rfl
    exact hnode rfl
  refine ⟨keepsDirectories_insert hnode, present_insert hne, fun other bytes hother => ?_, ?_⟩
  · rw [node?_insert_of_ne]
    rintro rfl
    rw [hplace] at hother
    cases hother
  · rw [nodes_insert]
    split_ifs
    · rw [List.filterMap_map]
      refine List.filterMap_congr fun n _ => ?_
      rw [Function.comp_apply]
      split_ifs with hn
      · obtain ⟨key, value⟩ := n
        obtain rfl : key = place := hn
        rw [sourceNode?_of_not_isSourcePlace hplace, sourceNode?_of_not_isSourcePlace hplace]
      · rfl
    · rw [List.filterMap_append, List.filterMap_cons, sourceNode?_of_not_isSourcePlace hplace]
      simp

/-- A directory may be made where there is nothing, whatever its name. -/
theorem insert_directory (hnode : tree.node? place = none) :
    KeepsSources tree (tree.insert place .directory) := by
  have hne : place ≠ [] := by
    rintro rfl
    cases hnode
  refine ⟨keepsDirectories_insert (by rw [hnode]; nofun), present_insert hne,
    fun other bytes _ => ?_, ?_⟩
  · by_cases heq : other = place
    · rw [heq, node?_insert_self hne, hnode]
      simp
    · rw [node?_insert_of_ne heq]
  · rw [node?_of_ne_nil hne] at hnode
    rw [nodes_insert, hnode, if_neg (by simp), List.filterMap_append]
    simp [sourceNode?]

theorem makeDirectory {path : Path} (h : tree.makeDirectory path = .ok later) :
    KeepsSources tree later := by
  obtain ⟨d, -, hnode, rfl⟩ := makeDirectory_eq_ok_iff.1 h
  exact insert_directory hnode

theorem makeDirectoriesFrom {root : Text} {parts : List Text} {e : Option FileError}
    (h : makeDirectoriesFrom root tree parts = (later, e)) : KeepsSources tree later := by
  have hexisting : ∀ {t u : FileTree} {path : Path} {e : FileError} {e' : Option FileError},
      t.orExisting path e = (u, e') → KeepsSources t u := by
    intro t u path e e' ht
    rw [← (Prod.mk.inj ht).1]
    exact refl t
  induction parts generalizing later e with
  | nil => exact hexisting h
  | cons part above ih =>
    rw [FileTree.makeDirectoriesFrom] at h
    split at h
    · rename_i hmake
      obtain rfl := (Prod.mk.inj h).1
      exact makeDirectory hmake
    · split at h
      · rename_i hmake
        obtain rfl := (Prod.mk.inj h).1
        exact ih hmake
      · rename_i u hmake
        refine (ih hmake).trans ?_
        split at h
        · rename_i hlast
          obtain rfl := (Prod.mk.inj h).1
          exact makeDirectory hlast
        · exact hexisting h
    · exact hexisting h

theorem sourceFiles (h : KeepsSources tree later) (base : List Text) (ignored : List Path) :
    later.sourceFiles base ignored = tree.sourceFiles base ignored := by
  rw [sourceFiles_eq, sourceFiles_eq, h.nodes]

theorem exists? (h : KeepsSources tree later) {path : Path} (hpath : tree.exists? path = .ok true) :
    later.exists? path = .ok true := by
  rw [FileTree.exists?] at hpath ⊢
  split at hpath
  · rename_i d hd
    rw [h.locate hd]
    exact congrArg _ (h.present d (Except.ok.inj hpath))
  · cases hpath
  · cases hpath

end KeepsSources

end FileTree

namespace Site

/-- Write pages one after another, each under its name, up to the first that cannot be written. -/
def writeEach (tree : FileTree) (dir : Path) :
    List (Text × Html.Markup) → FileTree × Option FileError
  | [] => (tree, none)
  | x :: xs =>
    match writePage tree dir x.1 x.2 with
    | (t, none) => writeEach t dir xs
    | failed => failed

/-- The pages of a site in the order in which they are written. -/
def namedPages (pages : List Page.Contents) (highlight : Text → Text) :
    List (Text × Html.Markup) :=
  ("index".toList, Page.index (linksOf pages)) ::
    pages.map fun c => (c.name, Page.file c (linksOf pages) highlight)

theorem writeAll_eq_writeEach (tree : FileTree) (dir : Path) (links : List Page.Link)
    (pages : List Page.Contents) (highlight : Text → Text) :
    writeAll tree dir links pages highlight =
      writeEach tree dir (pages.map fun c => (c.name, Page.file c links highlight)) := by
  induction pages generalizing tree with
  | nil => rfl
  | cons c pages ih =>
    rw [writeAll, writeFile, List.map_cons, writeEach]
    rcases writePage tree dir c.name (Page.file c links highlight) with ⟨t, _ | e⟩
    · exact ih t
    · rfl

theorem write_eq_writeEach (tree : FileTree) (dir : Path) (pages : List Page.Contents)
    (highlight : Text → Text) :
    write tree dir pages highlight = writeEach tree dir (namedPages pages highlight) := by
  rw [write, namedPages, writeEach, writeIndex, ← linksOf]
  rcases writePage tree dir "index".toList (Page.index (linksOf pages)) with ⟨t, _ | e⟩
  · exact writeAll_eq_writeEach t dir (linksOf pages) pages highlight
  · rfl

/-- Put a page into a directory at a place. -/
def put (d : List Text) (tree : FileTree) (x : Text × Html.Markup) : FileTree :=
  tree.insert (d ++ [pageFile x.1]) (.file (encode (Html.render x.2)))

section Writing

variable {tree t : FileTree} {dir : Path} {d : List Text} {x : Text × Html.Markup}
  {xs : List (Text × Html.Markup)} {highlight : Text → Text}

theorem isSourcePlace_pageFile (d : List Text) (name : Text) :
    FileTree.isSourcePlace (d ++ [pageFile name]) = false := by
  rw [FileTree.isSourcePlace, List.getLast?_concat, Option.any_some, Bool.eq_false_iff]
  intro h
  obtain ⟨u, hu⟩ := List.isSuffixOf_iff_suffix.1 h
  have hlast : some 'm' = some 'l' := by
    have hends := congrArg List.getLast? hu
    rwa [pageFile, List.getLast?_append, List.getLast?_append] at hends
  exact absurd hlast (by decide)

theorem node?_put_self (d : List Text) (tree : FileTree) (x : Text × Html.Markup) :
    (put d tree x).node? (d ++ [pageFile x.1]) = some (.file (encode (Html.render x.2))) :=
  FileTree.node?_insert_self (by simp)

theorem node?_put_of_ne {place : List Text} (h : place ≠ d ++ [pageFile x.1]) :
    (put d tree x).node? place = tree.node? place :=
  FileTree.node?_insert_of_ne h

/-- A page takes the place of no directory, and none takes its place. -/
theorem node?_put_ne_directory_iff (h : tree.node? (d ++ [pageFile x.1]) ≠ some .directory)
    {place : List Text} :
    (put d tree x).node? place ≠ some .directory ↔ tree.node? place ≠ some .directory := by
  by_cases heq : place = d ++ [pageFile x.1]
  · rw [heq, node?_put_self]
    exact iff_of_true (by simp) h
  · rw [node?_put_of_ne heq]

/-- Pages can be written one after another if each of them can be written by itself. -/
theorem writeEach_eq_iff (hd : tree.LeadsTo dir d) (hnames : ∀ x ∈ xs, '/' ∉ x.1) :
    writeEach tree dir xs = (t, none) ↔
      (∀ x ∈ xs, CanName x.1 ∧ tree.node? (d ++ [pageFile x.1]) ≠ some .directory) ∧
        t = xs.foldl (put d) tree := by
  induction xs generalizing tree with
  | nil => simp [writeEach, eq_comm]
  | cons x xs ih =>
    obtain ⟨hname, hnames⟩ := List.forall_mem_cons.1 hnames
    have hwrite : writePage tree dir x.1 x.2 = putPage tree dir x.1 x.2 := by
      rw [writePage, hd.makeDirectories]
    rw [writeEach, hwrite, List.forall_mem_cons]
    rcases hput : putPage tree dir x.1 x.2 with ⟨u, _ | e⟩
    · obtain ⟨hcan, hnode, rfl⟩ := (putPage_eq_iff hd hname).1 hput
      change writeEach (put d tree x) dir xs = (t, none) ↔ _
      have hkept : (put d tree x).LeadsTo dir d :=
        hd.keep (FileTree.keepsDirectories_insert hnode)
      rw [ih hkept hnames, List.foldl_cons]
      simp only [node?_put_ne_directory_iff hnode, hcan, hnode, ne_eq, not_false_eq_true, true_and,
        and_self]
    · refine iff_of_false (by simp) ?_
      rintro ⟨⟨⟨hcan, hnode⟩, -⟩, -⟩
      rw [(putPage_eq_iff hd hname).2 ⟨hcan, hnode, rfl⟩] at hput
      cases hput

/-- At every place the pages put the same file into all trees, or leave all trees alone. -/
theorem node?_foldl_put (d : List Text) (xs : List (Text × Html.Markup)) (place : List Text) :
    (∃ bytes, ∀ tree, (xs.foldl (put d) tree).node? place = some (.file bytes)) ∨
      ∀ tree, (xs.foldl (put d) tree).node? place = tree.node? place := by
  induction xs with
  | nil => exact .inr fun _ => rfl
  | cons x xs ih =>
    simp only [List.foldl_cons]
    rcases ih with ⟨bytes, h⟩ | h
    · exact .inl ⟨bytes, fun tree => h _⟩
    · by_cases heq : place = d ++ [pageFile x.1]
      · subst heq
        exact .inl ⟨_, fun tree => (h _).trans (node?_put_self d tree x)⟩
      · exact .inr fun tree => (h _).trans (node?_put_of_ne heq)

theorem keepsSources_foldl_put
    (h : ∀ x ∈ xs, tree.node? (d ++ [pageFile x.1]) ≠ some .directory) :
    FileTree.KeepsSources tree (xs.foldl (put d) tree) := by
  induction xs generalizing tree with
  | nil => exact .refl tree
  | cons x xs ih =>
    obtain ⟨hx, hxs⟩ := List.forall_mem_cons.1 h
    have hput : FileTree.KeepsSources tree (put d tree x) :=
      .insert hx (isSourcePlace_pageFile d x.1)
    exact hput.trans (ih fun y hy => (node?_put_ne_directory_iff hx).2 (hxs y hy))

theorem slash_not_mem_namedPages {pages : List Page.Contents} (h : ∀ c ∈ pages, '/' ∉ c.name) :
    ∀ x ∈ namedPages pages highlight, '/' ∉ x.1 := by
  have hindex : '/' ∉ "index".toList := by decide
  rw [namedPages, List.forall_mem_cons, List.forall_mem_map]
  exact ⟨hindex, h⟩

/-- A site that is written has its directory made and its pages put there. -/
theorem exists_of_write {pages : List Page.Contents} (hnames : ∀ c ∈ pages, '/' ∉ c.name)
    (h : write tree dir pages highlight = (t, none)) :
    ∃ u d, FileTree.KeepsSources tree u ∧ u.LeadsTo dir d ∧
      (∀ x ∈ namedPages pages highlight,
        CanName x.1 ∧ u.node? (d ++ [pageFile x.1]) ≠ some .directory) ∧
      t = (namedPages pages highlight).foldl (put d) u := by
  rcases hmake : tree.makeDirectories dir with ⟨u, _ | e⟩
  · obtain ⟨d, hd⟩ := FileTree.leadsTo_of_makeDirectories hmake
    have hsame : write tree dir pages highlight = writeEach u dir (namedPages pages highlight) := by
      rw [write_eq_writeEach, namedPages, writeEach, writeEach, writePage, writePage, hmake,
        hd.makeDirectories]
    obtain ⟨hcan, ht⟩ := (writeEach_eq_iff hd (slash_not_mem_namedPages hnames)).1 (hsame ▸ h)
    exact ⟨u, d, .makeDirectoriesFrom hmake, hd, hcan, ht⟩
  · rw [write, writeIndex, writePage, hmake] at h
    cases h

theorem keepsSources_of_write {pages : List Page.Contents} (hnames : ∀ c ∈ pages, '/' ∉ c.name)
    (h : write tree dir pages highlight = (t, none)) : FileTree.KeepsSources tree t := by
  obtain ⟨u, d, hmade, -, hcan, rfl⟩ := exists_of_write hnames h
  exact hmade.trans (keepsSources_foldl_put fun x hx => (hcan x hx).2)

/-- Writing a site a second time changes nothing. -/
theorem exists_write_again {pages : List Page.Contents} (hnames : ∀ c ∈ pages, '/' ∉ c.name)
    (h : write tree dir pages highlight = (t, none)) :
    ∃ t', write t dir pages highlight = (t', none) ∧ ∀ place, t'.node? place = t.node? place := by
  obtain ⟨u, d, -, hd, hcan, rfl⟩ := exists_of_write hnames h
  have hkept := keepsSources_foldl_put fun x hx => (hcan x hx).2
  have hcan' : ∀ x ∈ namedPages pages highlight, CanName x.1 ∧
      ((namedPages pages highlight).foldl (put d) u).node? (d ++ [pageFile x.1]) ≠
        some .directory := by
    intro x hx
    refine ⟨(hcan x hx).1, ?_⟩
    rcases node?_foldl_put d (namedPages pages highlight) (d ++ [pageFile x.1]) with
      ⟨bytes, hput⟩ | hput
    · rw [hput]
      simp
    · rw [hput]
      exact (hcan x hx).2
  refine ⟨(namedPages pages highlight).foldl (put d)
    ((namedPages pages highlight).foldl (put d) u), ?_, ?_⟩
  · rw [write_eq_writeEach]
    exact (writeEach_eq_iff (hd.keep hkept.toKeepsDirectories)
      (slash_not_mem_namedPages hnames)).2 ⟨hcan', rfl⟩
  · intro place
    rcases node?_foldl_put d (namedPages pages highlight) place with ⟨bytes, hput⟩ | hput
    · rw [hput, hput]
    · rw [hput]

end Writing

end Site

namespace Command

section Repeated

variable {tree later : FileTree} {o : Options} {highlight : Text → Text}

theorem absoluteRoots_of_here (h : later.here = tree.here) (roots : List (Option Text)) :
    absoluteRoots later roots = absoluteRoots tree roots := by
  induction roots with
  | nil => rfl
  | cons root roots ih =>
    cases root with
    | none => rfl
    | some r => rw [absoluteRoots, absoluteRoots, FileTree.resolve, FileTree.resolve, h, ih]

/-- A directory has the same source files as long as these are kept. -/
theorem input_of_keepsSources (h : FileTree.KeepsSources tree later)
    (hsource : tree.node? (sourcePlace tree o) = some .directory) :
    input later o = input tree o := by
  have hplace : sourcePlace later o = sourcePlace tree o := by
    rw [sourcePlace, sourcePlace, h.here]
  have hlater : later.node? (sourcePlace later o) = some .directory := by
    rw [hplace]
    exact h.node _ hsource
  simp only [input_of_directory hlater, input_of_directory hsource, hplace, h.sourceFiles]

/-- The modules depend on nothing but the roots and the input. -/
theorem outlined_eq {roots : List Text} {i : Input}
    (hroots : absoluteRoots tree o.roots = .ok roots) (hinput : input tree o = .ok i) :
    outlined tree o = (i.files.map (outlineFile o roots i.base)).filterMap Outlined.module? := by
  rw [outlined, hroots, hinput]

theorem stdout_outlineAll (tree : FileTree) (o : Options) (roots : List Text) (i : Input)
    (highlight : Text → Text) :
    (outlineAll tree o roots i highlight).stdout =
      printed o ((i.files.map (outlineFile o roots i.base)).filterMap Outlined.module?) := by
  rw [outlineAll]
  split
  · rfl
  · split <;> rfl

/-- A second run over the sources that a run has kept finds the same files and says the same. -/
theorem exists_outlineAll_of_keepsSources (h : FileTree.KeepsSources tree later)
    (hsource : tree.node? (sourcePlace tree o) = some .directory)
    (hok : (run tree o highlight).outcome = .ok 0) :
    ∃ roots i, run tree o highlight = outlineAll tree o roots i highlight ∧
      run later o highlight = outlineAll later o roots i highlight ∧
      outlined tree o = (i.files.map (outlineFile o roots i.base)).filterMap Outlined.module? := by
  obtain ⟨roots, i, hroots, hexists, hinput, hrun⟩ := exists_of_run hok
  have hroots' : absoluteRoots later o.roots = .ok roots := by
    rw [absoluteRoots_of_here h.here, hroots]
  have hinput' : input later o = .ok i := by rw [input_of_keepsSources h hsource, hinput]
  exact ⟨roots, i, hrun, run_eq_outlineAll hroots' (h.exists? hexists) hinput',
    outlined_eq hroots hinput⟩

end Repeated

/-- A run over a directory leaves every source file as it was, and a second run with the same
options succeeds, prints the same and leaves every file and directory as the first one left it. -/
theorem second_run_changes_nothing (tree : FileTree) (o : Options) (highlight : Text → Text)
    (htree : tree.WellFormed) (hsource : tree.node? (sourcePlace tree o) = some .directory)
    (hok : (run tree o highlight).outcome = .ok 0) :
    (∀ place bytes, FileTree.isSourcePlace place = true →
      ((run tree o highlight).tree.node? place = some (.file bytes) ↔
        tree.node? place = some (.file bytes))) ∧
    (run (run tree o highlight).tree o highlight).outcome = .ok 0 ∧
    (run (run tree o highlight).tree o highlight).stdout = (run tree o highlight).stdout ∧
    ∀ place, (run (run tree o highlight).tree o highlight).tree.node? place =
      (run tree o highlight).tree.node? place := by
  cases hhtml : o.html with
  | none =>
    obtain ⟨roots, i, -, -, -, hrun⟩ := exists_of_run hok
    have htree' : (run tree o highlight).tree = tree := by rw [hrun, outlineAll, hhtml]
    rw [htree']
    exact ⟨fun _ _ _ => Iff.rfl, hok, rfl, fun _ => by rw [htree']⟩
  | some dir =>
    have hwrite := write_of_run hhtml hok
    obtain ⟨ignored, hmodules⟩ := module_of_mem_outlined htree hsource
    have hnames : ∀ c ∈ (outlined tree o).map Module.contents, '/' ∉ c.name := by
      rw [List.forall_mem_map]
      exact fun m hm => (hmodules m hm).2.1
    have hkept := Site.keepsSources_of_write hnames hwrite
    obtain ⟨t, hagain, hsame⟩ := Site.exists_write_again hnames hwrite
    obtain ⟨roots, i, hrun, hrun', houtlined⟩ := exists_outlineAll_of_keepsSources hkept hsource hok
    have hreport : run (run tree o highlight).tree o highlight =
        ⟨(outlineAll (run tree o highlight).tree o roots i highlight).stdout,
          (outlineAll (run tree o highlight).tree o roots i highlight).stderr, t, .ok 0⟩ := by
      rw [hrun', outlineAll, hhtml]
      dsimp only
      rw [← houtlined, hagain]
    refine ⟨hkept.source, ?_, ?_, fun place => ?_⟩
    · rw [hreport]
    · rw [hrun', stdout_outlineAll, hrun, stdout_outlineAll]
    · rw [hreport]
      exact hsame place

/-- Pages for the working directory, in a directory within it that is named like a source file. -/
def pagesInSource : Options :=
  ⟨".".toList, [], [], none, some "a/out.m".toList, false, false, false⟩

theorem dottedModules_run_twice :
    (dottedModules.WellFormed ∧
      dottedModules.node? (sourcePlace dottedModules pagesInSource) = some .directory ∧
      (run dottedModules pagesInSource Page.plainCode).outcome = .ok 0) ∧
    (run (run dottedModules pagesInSource Page.plainCode).tree pagesInSource
      Page.plainCode).outcome = .ok 0 ∧
    (run (run dottedModules pagesInSource Page.plainCode).tree pagesInSource
        Page.plainCode).stdout =
      (run dottedModules pagesInSource Page.plainCode).stdout ∧
    ∀ place, (run (run dottedModules pagesInSource Page.plainCode).tree pagesInSource
        Page.plainCode).tree.node? place =
      (run dottedModules pagesInSource Page.plainCode).tree.node? place := by
  have htree : dottedModules.WellFormed := ((FileTree.WellFormed.empty (by decide)).add _ _).add _ _
  have hsource : dottedModules.node? (sourcePlace dottedModules pagesInSource) =
      some .directory := by
    decide +kernel
  have hok : (run dottedModules pagesInSource Page.plainCode).outcome = .ok 0 := by
    decide +kernel
  exact ⟨⟨htree, hsource, hok⟩,
    (second_run_changes_nothing dottedModules pagesInSource _ htree hsource hok).2⟩

end Command
end MatlabOutline
