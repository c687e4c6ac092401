import MatlabOutline.Command.Run
import MatlabOutline.Proofs.PageNames

/-! The pages of a run. The index is written first and the page of every file after it, each under a
name of its own in one directory; a page that comes later takes the place of an earlier one with the
same name. So the index is lost to the page of a file with its name, and the page of a file is lost
only to another one whose name has the same words. -/
namespace MatlabOutline
open Text

namespace Site

/-- The file that holds the page with a name. -/
def pageFile (name : Text) : Text := name ++ ".html".toList

/-- Where the page with a name is written. -/
def pagePath (dir : Path) (name : Text) : Path := dir.join (Path.ofText (pageFile name))

/-- Whether a file can be named for a page. -/
def CanName (name : Text) : Prop :=
  (pageFile name).contains '\x00' = false ∧ (encode (pageFile name)).length ≤ 255

section Places

variable {tree t : FileTree} {dir : Path} {d : List Text} {name : Text} {page : Html.Markup}

theorem isName_pageFile (hname : '/' ∉ name) : FileTree.IsName (pageFile name) := by
  have hlength : (pageFile name).length = name.length + 5 := List.length_append
  refine ⟨?_, ?_, ?_⟩
  · intro h
    rw [h] at hlength
    cases hlength
  · rw [pageFile, List.mem_append, not_or]
    exact ⟨hname, by decide⟩
  · intro h
    rw [h, List.length_singleton] at hlength
    omega

/-- A page stands in the directory, under its name. -/
theorem locate_pagePath_iff (hd : tree.LeadsTo dir d) (hname : '/' ∉ name) {place : List Text} :
    tree.locate (pagePath dir name) = .ok place ↔ CanName name ∧ place = d ++ [pageFile name] := by
  have hpath : pagePath dir name = ⟨dir.root, dir.parts ++ [pageFile name]⟩ := by
    rw [pagePath, FileTree.ofText_of_isName (isName_pageFile hname)]
    rfl
  have hup : pageFile name ≠ Path.up := by
    intro h
    have hlength : (pageFile name).length = name.length + 5 := List.length_append
    rw [h] at hlength
    change 2 = name.length + 5 at hlength
    omega
  rw [hpath, hd.locate_concat_iff hup]
  rfl

theorem read_pagePath_iff (hd : tree.LeadsTo dir d) (hname : '/' ∉ name) (hcan : CanName name)
    {bytes : List UInt8} : tree.read (pagePath dir name) = .ok bytes ↔
      tree.node? (d ++ [pageFile name]) = some (.file bytes) := by
  rw [FileTree.read_eq_ok_iff]
  constructor
  · rintro ⟨place, hplace, hnode⟩
    rwa [((locate_pagePath_iff hd hname).1 hplace).2] at hnode
  · exact fun hnode => ⟨_, (locate_pagePath_iff hd hname).2 ⟨hcan, rfl⟩, hnode⟩

/-- What one page does: it stands under its name, and the other pages stay. -/
structure PagePut (tree t : FileTree) (dir : Path) (d : List Text) (name : Text)
    (page : Html.Markup) : Prop where
  leads : t.LeadsTo dir d
  can : CanName name
  page : t.node? (d ++ [pageFile name]) = some (.file (encode (Html.render page)))
  others : ∀ other, other ≠ name →
    t.node? (d ++ [pageFile other]) = tree.node? (d ++ [pageFile other])

theorem putPage_eq_iff_write : putPage tree dir name page = (t, none) ↔
    tree.write (pagePath dir name) (encode (Html.render page)) = .ok t := by
  rw [putPage, ← pageFile, ← pagePath]
  cases tree.write (pagePath dir name) (encode (Html.render page)) <;> simp

/-- A page is written if a file can be named for it and no directory stands under that name. -/
theorem putPage_eq_iff (hd : tree.LeadsTo dir d) (hname : '/' ∉ name) :
    putPage tree dir name page = (t, none) ↔
      CanName name ∧ tree.node? (d ++ [pageFile name]) ≠ some .directory ∧
        t = tree.insert (d ++ [pageFile name]) (.file (encode (Html.render page))) := by
  rw [putPage_eq_iff_write, FileTree.write_eq_ok_iff]
  constructor
  · rintro ⟨place, hplace, hnode, rfl⟩
    obtain ⟨hcan, rfl⟩ := (locate_pagePath_iff hd hname).1 hplace
    exact ⟨hcan, hnode, rfl⟩
  · rintro ⟨hcan, hnode, rfl⟩
    exact ⟨_, (locate_pagePath_iff hd hname).2 ⟨hcan, rfl⟩, hnode, rfl⟩

theorem pagePut_of_putPage (hd : tree.LeadsTo dir d) (hname : '/' ∉ name)
    (h : putPage tree dir name page = (t, none)) : PagePut tree t dir d name page := by
  obtain ⟨hcan, hnode, rfl⟩ := (putPage_eq_iff hd hname).1 h
  refine ⟨hd.keep (FileTree.keepsDirectories_insert hnode), hcan,
    FileTree.node?_insert_self (by simp), ?_⟩
  intro other hother
  apply FileTree.node?_insert_of_ne
  intro heq
  have hfile := (List.cons.inj (List.append_cancel_left heq)).1
  exact hother (List.append_cancel_right hfile)

theorem pagePut_of_writePage (hd : tree.LeadsTo dir d) (hname : '/' ∉ name)
    (h : writePage tree dir name page = (t, none)) : PagePut tree t dir d name page := by
  rw [writePage, hd.makeDirectories] at h
  exact pagePut_of_putPage hd hname h

end Places

section Pages

variable {tree t : FileTree} {dir : Path} {d : List Text} {links : List Page.Link}
  {pages : List Page.Contents} {highlight : Text → Text}

/-- The file with the page for some contents. -/
def bytesOf (links : List Page.Link) (c : Page.Contents) (highlight : Text → Text) : List UInt8 :=
  encode (Html.render (Page.file c links highlight))

/-- What a run over the pages does: under every name stands what was there before, or one of the
pages with that name. -/
theorem node?_of_writeAll (hd : tree.LeadsTo dir d) (hnames : ∀ c ∈ pages, '/' ∉ c.name)
    (h : writeAll tree dir links pages highlight = (t, none)) :
    t.LeadsTo dir d ∧ (∀ c ∈ pages, CanName c.name) ∧
    ∀ name, (∀ c ∈ pages, c.name ≠ name) ∧
        t.node? (d ++ [pageFile name]) = tree.node? (d ++ [pageFile name]) ∨
      ∃ c ∈ pages, c.name = name ∧
        t.node? (d ++ [pageFile name]) = some (.file (bytesOf links c highlight)) := by
  induction pages generalizing tree with
  | nil =>
    obtain ⟨rfl, -⟩ := Prod.mk.inj h
    exact ⟨hd, by simp, fun name => .inl ⟨by simp, rfl⟩⟩
  | cons c pages ih =>
    obtain ⟨hname, hnames⟩ := List.forall_mem_cons.1 hnames
    rw [writeAll] at h
    split at h
    · rename_i u hwrite
      have hput := pagePut_of_writePage hd hname hwrite
      obtain ⟨hleads, hcan, hpages⟩ := ih hput.leads hnames h
      refine ⟨hleads, List.forall_mem_cons.2 ⟨hput.can, hcan⟩, fun name => ?_⟩
      rcases hpages name with ⟨hno, hkeep⟩ | ⟨c', hc', hname', hpage⟩
      · by_cases heq : c.name = name
        · subst heq
          exact .inr ⟨c, List.mem_cons_self, rfl, hkeep.trans hput.page⟩
        · exact .inl ⟨List.forall_mem_cons.2 ⟨heq, hno⟩,
            hkeep.trans (hput.others name (Ne.symm heq))⟩
      · exact .inr ⟨c', List.mem_cons_of_mem c hc', hname', hpage⟩
    · rename_i hfailed
      exact absurd h (fun h => hfailed t h)

/-- The links of an index. -/
def linksOf (pages : List Page.Contents) : List Page.Link := pages.map fun c => link c.name

/-- What can be read under the name of the index and under the names of the pages. -/
theorem read_of_write (hnames : ∀ c ∈ pages, '/' ∉ c.name)
    (h : write tree dir pages highlight = (t, none)) :
    ((∀ c ∈ pages, c.name ≠ "index".toList) →
      t.read (pagePath dir "index".toList) =
        .ok (encode (Html.render (Page.index (linksOf pages))))) ∧
    ∀ c ∈ pages, ∃ c' ∈ pages, c'.name = c.name ∧
      t.read (pagePath dir c.name) = .ok (bytesOf (linksOf pages) c' highlight) := by
  have hslash : '/' ∉ "index".toList := by decide
  rw [write] at h
  split at h
  · rename_i u hindex
    obtain ⟨d, hput⟩ : ∃ d, ∃ v, PagePut v u dir d "index".toList (Page.index (linksOf pages)) := by
      rw [writeIndex, writePage] at hindex
      split at hindex
      · rename_i v hmake
        obtain ⟨d, hd⟩ := FileTree.leadsTo_of_makeDirectories hmake
        exact ⟨d, v, pagePut_of_putPage hd hslash hindex⟩
      · rename_i hfailed
        exact absurd hindex (hfailed u)
    obtain ⟨v, hput⟩ := hput
    obtain ⟨hleads, hcan, hpages⟩ := node?_of_writeAll hput.leads hnames h
    constructor
    · intro hno
      rw [read_pagePath_iff hleads hslash hput.can]
      rcases hpages "index".toList with ⟨-, hkeep⟩ | ⟨c, hc, hname, -⟩
      · exact hkeep.trans hput.page
      · exact absurd hname (hno c hc)
    · intro c hc
      rcases hpages c.name with ⟨hno, -⟩ | ⟨c', hc', hname, hpage⟩
      · exact absurd rfl (hno c hc)
      · exact ⟨c', hc', hname, (read_pagePath_iff hleads (hnames c hc) (hcan c hc)).2 hpage⟩
  · rename_i hfailed
    exact absurd h (hfailed t)

/-- Every page begins in the same way, up to its title. -/
theorem exists_render_frame (title : Text) (nav body : Html.Markup) :
    ∃ rest, Html.render (Page.frame title nav body) =
      "<!DOCTYPE html>\n<html>\n<head>\n<meta charset=\"utf-8\">\n<title>".toList ++
        (Html.escape title ++ rest) := ⟨_, rfl⟩

/-- The page of a file is not taken for the index, as its title is another one. -/
theorem bytesOf_ne_index {c : Page.Contents} (hc : c.name = "index".toList)
    (links links' : List Page.Link) :
    bytesOf links c highlight ≠ encode (Html.render (Page.index links')) := by
  intro h
  rw [bytesOf, Page.file, Page.index, hc] at h
  obtain ⟨rest, hfile⟩ := exists_render_frame "index".toList (Page.navigation links)
    (Html.joinLines (Page.bodyLines c highlight))
  obtain ⟨rest', hindex⟩ := exists_render_frame "MATLAB Outline".toList (Page.navigation links')
    (Html.joinLines [Html.element "h2" "Files".toList, Html.tag "ul", Page.navigation links',
      Html.endTag "ul"])
  rw [hfile] at h
  simp only [hindex, encode, List.flatMap_append] at h
  have htitle := List.append_cancel_left h
  have hfirst : some (105 : UInt8) = some 77 := congrArg List.head? htitle
  exact absurd hfirst (by decide)

end Pages

end Site

namespace Command

/-- The modules that a run outlines. -/
def outlined (tree : FileTree) (o : Options) : List Module :=
  match absoluteRoots tree o.roots, input tree o with
  | .ok roots, .ok i => (i.files.map (outlineFile o roots i.base)).filterMap Outlined.module?
  | _, _ => []

section Runs

variable {tree : FileTree} {o : Options} {highlight : Text → Text}

theorem run_eq_outlineAll {roots : List Text} {i : Input}
    (hroots : absoluteRoots tree o.roots = .ok roots)
    (hexists : tree.exists? (Path.ofText o.source) = .ok true) (hinput : input tree o = .ok i) :
    run tree o highlight = outlineAll tree o roots i highlight := by
  simp only [run, hroots, hexists, hinput]

/-- A run that succeeds has found its roots, its source and its files. -/
theorem exists_of_run (hok : (run tree o highlight).outcome = .ok 0) :
    ∃ roots i, absoluteRoots tree o.roots = .ok roots ∧
      tree.exists? (Path.ofText o.source) = .ok true ∧ input tree o = .ok i ∧
      run tree o highlight = outlineAll tree o roots i highlight := by
  cases hroots : absoluteRoots tree o.roots with
  | error e =>
    simp only [run, hroots] at hok
    cases hok
  | ok roots =>
    cases hexists : tree.exists? (Path.ofText o.source) with
    | error e =>
      simp only [run, hroots, hexists] at hok
      cases hok
    | ok found =>
      cases found with
      | false =>
        simp only [run, hroots, hexists] at hok
        cases hok
      | true =>
        cases hinput : input tree o with
        | error e =>
          simp only [run, hroots, hexists, hinput] at hok
          cases hok
        | ok i => exact ⟨roots, i, rfl, rfl, rfl, run_eq_outlineAll hroots hexists hinput⟩

/-- A run that succeeds has written the pages of its modules. -/
theorem write_of_run {dir : Text} (hhtml : o.html = some dir)
    (hok : (run tree o highlight).outcome = .ok 0) :
    Site.write tree (Path.ofText dir) ((outlined tree o).map Module.contents) highlight =
      ((run tree o highlight).tree, none) := by
  obtain ⟨roots, i, hroots, -, hinput, hrun⟩ := exists_of_run hok
  rw [hrun, outlineAll, hhtml] at hok ⊢
  rw [outlined, hroots, hinput]
  dsimp only at hok ⊢
  generalize Site.write tree (Path.ofText dir) _ _ = written at hok ⊢
  obtain ⟨t, _ | e⟩ := written
  · rfl
  · cases hok

/-- The place that the source of a run names. -/
def sourcePlace (tree : FileTree) (o : Options) : List Text :=
  (Path.ofText o.source).resolve tree.here

theorem module?_outlineFile {roots : List Text} {base : List Text} {f : Text × List UInt8}
    {m : Module} (h : (outlineFile o roots base f).module? = some m) :
    m.path = f.1 ∧ m.name = (Path.pageName? (Path.ofText f.1) ⟨"/".toList, base⟩).getD [] := by
  rw [outlineFile, Module.ofBytes] at h
  cases hdecode : decode f.2 with
  | error e =>
    rw [hdecode] at h
    cases h
  | ok t =>
    rw [hdecode] at h
    obtain rfl := Option.some.inj h
    exact ⟨rfl, rfl⟩

/-- The input of a run over a directory is the source files below it. -/
theorem input_of_directory (hsource : tree.node? (sourcePlace tree o) = some .directory) :
    input tree o = (values o.ignore).map fun ignore =>
      ⟨sourcePlace tree o, tree.sourceFiles (sourcePlace tree o) (ignore.map Path.ofText)⟩ := by
  rw [sourcePlace] at hsource
  simp only [input, hsource]
  rfl

/-- The modules of a directory come from its source files. -/
theorem exists_file_of_mem_outlined (hsource : tree.node? (sourcePlace tree o) = some .directory) :
    ∃ roots ignored, ∀ m ∈ outlined tree o,
      ∃ f ∈ tree.sourceFiles (sourcePlace tree o) ignored,
        (outlineFile o roots (sourcePlace tree o) f).module? = some m := by
  have hinput := input_of_directory hsource
  cases hroots : absoluteRoots tree o.roots with
  | error e => exact ⟨[], [], by simp [outlined, hroots]⟩
  | ok roots =>
    cases hvalues : values o.ignore with
    | error e =>
      rw [hvalues] at hinput
      exact ⟨[], [], by simp [outlined, hroots, hinput, Except.map]⟩
    | ok ignore =>
      rw [hvalues] at hinput
      refine ⟨roots, ignore.map Path.ofText, fun m hm => ?_⟩
      rw [outlined, hroots, hinput] at hm
      obtain ⟨u, hu, hmodule⟩ := List.mem_filterMap.1 hm
      obtain ⟨f, hf, rfl⟩ := List.mem_map.1 hu
      exact ⟨f, hf, hmodule⟩

/-- What is known of a module of a directory. -/
theorem module_of_mem_outlined (htree : tree.WellFormed)
    (hsource : tree.node? (sourcePlace tree o) = some .directory) :
    ∃ ignored, ∀ m ∈ outlined tree o,
      (∃ f ∈ tree.sourceFiles (sourcePlace tree o) ignored, m.path = f.1 ∧
        Path.pageName? (Path.ofText m.path) ⟨"/".toList, sourcePlace tree o⟩ = some m.name) ∧
      '/' ∉ m.name ∧ ∀ m' ∈ outlined tree o, m'.path = m.path → m' = m := by
  obtain ⟨roots, ignored, hfiles⟩ := exists_file_of_mem_outlined hsource
  refine ⟨ignored, fun m hm => ?_⟩
  obtain ⟨f, hf, hmodule⟩ := hfiles m hm
  obtain ⟨hpath, hname⟩ := module?_outlineFile hmodule
  obtain ⟨-, hpage⟩ := FileTree.pageName?_of_mem_sourceFiles htree hf
  rw [hpage, Option.getD_some] at hname
  refine ⟨⟨f, hf, hpath, by rw [hpath, hpage, hname]⟩, ?_, ?_⟩
  · rw [hname]
    exact FileTree.slash_not_mem_pageName htree hf
  · intro m' hm' heq
    obtain ⟨g, hg, hmodule'⟩ := hfiles m' hm'
    have hpath' := (module?_outlineFile hmodule').1
    have hfile : g = f := FileTree.eq_of_path_eq htree hg hf (by rw [← hpath', heq, hpath])
    rw [hfile, hmodule] at hmodule'
    exact (Option.some.inj hmodule').symm

/-- The index of a run. -/
def indexPage (modules : List Module) : List UInt8 :=
  encode (Html.render (Page.index (modules.map fun m => Site.link m.name)))

/-- The page of a module in a run. -/
def modulePage (modules : List Module) (m : Module) (highlight : Text → Text) : List UInt8 :=
  Site.bytesOf (modules.map fun m => Site.link m.name) m.contents highlight

/-- What can be read under the name of the index and under the names of the modules after a run. -/
theorem read_of_run {dir : Text} (hnames : ∀ m ∈ outlined tree o, '/' ∉ m.name)
    (hhtml : o.html = some dir) (hok : (run tree o highlight).outcome = .ok 0) :
    ((∀ m ∈ outlined tree o, m.name ≠ "index".toList) →
      (run tree o highlight).tree.read (Site.pagePath (Path.ofText dir) "index".toList) =
        .ok (indexPage (outlined tree o))) ∧
    ∀ m ∈ outlined tree o, ∃ m' ∈ outlined tree o, m'.name = m.name ∧
      (run tree o highlight).tree.read (Site.pagePath (Path.ofText dir) m.name) =
        .ok (modulePage (outlined tree o) m' highlight) := by
  have hlinks : Site.linksOf ((outlined tree o).map Module.contents) =
      (outlined tree o).map fun m => Site.link m.name := List.map_map
  have hcontents : ∀ c ∈ (outlined tree o).map Module.contents, '/' ∉ c.name := by
    simpa [Module.contents] using hnames
  obtain ⟨hindex, hpages⟩ := Site.read_of_write hcontents (write_of_run hhtml hok)
  rw [hlinks] at hindex hpages
  constructor
  · intro hno
    exact hindex (by simpa [Module.contents] using hno)
  · intro m hm
    obtain ⟨c, hc, hname, hread⟩ := hpages m.contents (List.mem_map_of_mem hm)
    obtain ⟨m', hm', rfl⟩ := List.mem_map.1 hc
    exact ⟨m', hm', hname, hread⟩

theorem mem_sources_iff {base : Path} {ignored : List Path} {paths : List Text}
    (h : tree.sources base ignored = .ok paths) {p : Text} :
    p ∈ paths ↔ ∃ f ∈ tree.sourceFiles (base.resolve tree.here) ignored, f.1 = p := by
  have hpaths : paths = (tree.sourceFiles (base.resolve tree.here) ignored).map Prod.fst := by
    rw [FileTree.sources, FileTree.resolve] at h
    split_ifs at h
    cases hexists : tree.exists? ⟨"/".toList, base.resolve tree.here⟩ with
    | error e =>
      simp only [hexists] at h
      cases h
    | ok found =>
      simp only [hexists] at h
      exact (Except.ok.inj h).symm
  rw [hpaths, List.mem_map]

end Runs

/-- After a run over a directory the index is there, unless the directory itself holds a module
whose page has the name of the index. -/
theorem index_survives_iff (tree : FileTree) (o : Options) (dir : Text) (highlight : Text → Text)
    (htree : tree.WellFormed) (hsource : tree.node? (sourcePlace tree o) = some .directory)
    (hhtml : o.html = some dir) (hok : (run tree o highlight).outcome = .ok 0) :
    (run tree o highlight).tree.read (Site.pagePath (Path.ofText dir) "index".toList) =
        .ok (indexPage (outlined tree o)) ↔
      ∀ m ∈ outlined tree o,
        m.path ≠ FileTree.placeText (sourcePlace tree o ++ ["index.m".toList]) := by
  obtain ⟨ignored, hmodules⟩ := module_of_mem_outlined htree hsource
  obtain ⟨hindex, hpages⟩ := read_of_run (fun m hm => (hmodules m hm).2.1) hhtml hok
  have hname : ∀ m ∈ outlined tree o, m.name = "index".toList ↔
      m.path = FileTree.placeText (sourcePlace tree o ++ ["index.m".toList]) := by
    intro m hm
    obtain ⟨⟨f, hf, hpath, hpage⟩, -⟩ := hmodules m hm
    rw [hpath] at hpage ⊢
    rw [← FileTree.pageName?_eq_index_iff htree hf, hpage, Option.some.injEq]
  constructor
  · intro hread m hm hpath
    obtain ⟨m', hm', hname', hpage⟩ := hpages m hm
    rw [(hname m hm).2 hpath] at hname' hpage
    rw [hread] at hpage
    exact Site.bytesOf_ne_index hname' _ _ (Except.ok.inj hpage).symm
  · intro hno
    exact hindex fun m hm heq => hno m hm ((hname m hm).1 heq)

/-- A working directory with two modules, one of them in a directory. -/
def twoModules : FileTree :=
  ((FileTree.empty ["work".toList]).add "pkg/index.m".toList
    (.file (encode "function f\nend\n".toList))).add
    "g.m".toList (.file (encode "x = 1;\n".toList))

/-- Pages for the working directory. -/
def pagesHere : Options := ⟨".".toList, [], [], none, some "out".toList, false, false, false⟩

theorem wellFormed_twoModules : twoModules.WellFormed :=
  ((FileTree.WellFormed.empty (by decide)).add _ _).add _ _

theorem twoModules_index_survives :
    (twoModules.WellFormed ∧
      twoModules.node? (sourcePlace twoModules pagesHere) = some .directory ∧
      (run twoModules pagesHere Page.plainCode).outcome = .ok 0) ∧
    (run twoModules pagesHere Page.plainCode).tree.read
        (Site.pagePath (Path.ofText "out".toList) "index".toList) =
      .ok (indexPage (outlined twoModules pagesHere)) := by
  have hsource : twoModules.node? (sourcePlace twoModules pagesHere) = some .directory := by
    decide +kernel
  have hok : (run twoModules pagesHere Page.plainCode).outcome = .ok 0 := by
    decide +kernel
  have hno : ∀ m ∈ outlined twoModules pagesHere, m.path ≠
      FileTree.placeText (sourcePlace twoModules pagesHere ++ ["index.m".toList]) := by
    decide +kernel
  exact ⟨⟨wellFormed_twoModules, hsource, hok⟩,
    (index_survives_iff twoModules pagesHere _ _ wellFormed_twoModules hsource rfl hok).2 hno⟩

/-- A working directory with one module, which has the name of the index. -/
def indexModule : FileTree :=
  (FileTree.empty ["work".toList]).add "index.m".toList (.file (encode "x = 1;\n".toList))

/-- The page of the module takes the place of the index. -/
theorem indexModule_replaces_index :
    indexModule.node? (sourcePlace indexModule pagesHere) = some .directory ∧
    (run indexModule pagesHere Page.plainCode).outcome = .ok 0 ∧
    (run indexModule pagesHere Page.plainCode).tree.read
        (Site.pagePath (Path.ofText "out".toList) "index".toList) ≠
      .ok (indexPage (outlined indexModule pagesHere)) := by
  refine ⟨?_, ?_, ?_⟩ <;> decide +kernel

/-- Two source files have one page name exactly if the components below the base fall into the same
words at the dots; components without dots keep the names apart. After a run the page of a module is
there if no other module has the same words. -/
theorem pages_kept_apart (tree : FileTree) (base : Path) (ignored : List Path) (paths : List Text)
    (htree : tree.WellFormed) (hpaths : tree.sources base ignored = .ok paths) :
    (∀ p ∈ paths, ∀ q ∈ paths, p ≠ q →
      (Path.pageName? (.ofText p) ⟨"/".toList, base.resolve tree.here⟩ =
          Path.pageName? (.ofText q) ⟨"/".toList, base.resolve tree.here⟩ ↔
        Path.pageWords (.ofText p) ⟨"/".toList, base.resolve tree.here⟩ =
          Path.pageWords (.ofText q) ⟨"/".toList, base.resolve tree.here⟩) ∧
      ((∀ t ∈ Path.pageParts (.ofText p) ⟨"/".toList, base.resolve tree.here⟩ ++
          Path.pageParts (.ofText q) ⟨"/".toList, base.resolve tree.here⟩, '.' ∉ t) →
        Path.pageName? (.ofText p) ⟨"/".toList, base.resolve tree.here⟩ ≠
          Path.pageName? (.ofText q) ⟨"/".toList, base.resolve tree.here⟩)) ∧
    ∀ (o : Options) (dir : Text) (highlight : Text → Text),
      tree.node? (sourcePlace tree o) = some .directory → o.html = some dir →
      (run tree o highlight).outcome = .ok 0 →
      ∀ m ∈ outlined tree o,
        (∀ m' ∈ outlined tree o, m'.path ≠ m.path →
          Path.pageWords (.ofText m'.path) ⟨"/".toList, sourcePlace tree o⟩ ≠
            Path.pageWords (.ofText m.path) ⟨"/".toList, sourcePlace tree o⟩) →
        (run tree o highlight).tree.read (Site.pagePath (Path.ofText dir) m.name) =
          .ok (modulePage (outlined tree o) m highlight) := by
  constructor
  · intro p hp q hq hne
    obtain ⟨f, hf, rfl⟩ := (mem_sources_iff hpaths).1 hp
    obtain ⟨g, hg, rfl⟩ := (mem_sources_iff hpaths).1 hq
    have hiff := FileTree.pageName?_eq_iff htree hf hg
    refine ⟨hiff, fun hplain heq => hne ?_⟩
    obtain ⟨hplain, hplain'⟩ := List.forall_mem_append.1 hplain
    exact FileTree.eq_of_pageWords_eq htree hf hg hplain hplain' (hiff.1 heq)
  · intro o dir highlight hsource hhtml hok m hm hwords
    obtain ⟨ignored, hmodules⟩ := module_of_mem_outlined htree hsource
    obtain ⟨-, hpages⟩ := read_of_run (fun m hm => (hmodules m hm).2.1) hhtml hok
    obtain ⟨m', hm', hname, hread⟩ := hpages m hm
    obtain ⟨⟨f, hf, hpath, hpage⟩, -, hunique⟩ := hmodules m hm
    obtain ⟨⟨g, hg, hpath', hpage'⟩, -⟩ := hmodules m' hm'
    have hsame : m' = m := by
      apply hunique m' hm'
      by_contra hne
      apply hwords m' hm' hne
      rw [hpath] at hpage ⊢
      rw [hpath'] at hpage' ⊢
      rw [← FileTree.pageName?_eq_iff htree hg hf, hpage, hpage', hname]
    rwa [hsame] at hread

theorem twoModules_kept_apart :
    (twoModules.WellFormed ∧ twoModules.sources (.ofText ".".toList) [] =
      .ok ["/work/g.m".toList, "/work/pkg/index.m".toList]) ∧
    Path.pageName? (.ofText "/work/g.m".toList) ⟨"/".toList, ["work".toList]⟩ ≠
      Path.pageName? (.ofText "/work/pkg/index.m".toList) ⟨"/".toList, ["work".toList]⟩ ∧
    ∀ m ∈ outlined twoModules pagesHere,
      (run twoModules pagesHere Page.plainCode).tree.read
          (Site.pagePath (Path.ofText "out".toList) m.name) =
        .ok (modulePage (outlined twoModules pagesHere) m Page.plainCode) := by
  have hpaths : twoModules.sources (.ofText ".".toList) [] =
      .ok ["/work/g.m".toList, "/work/pkg/index.m".toList] := by decide +kernel
  obtain ⟨hnames, hpages⟩ := pages_kept_apart twoModules (.ofText ".".toList) [] _
    wellFormed_twoModules hpaths
  refine ⟨⟨wellFormed_twoModules, hpaths⟩, ?_, fun m hm => ?_⟩
  · exact (hnames _ (by decide) _ (by decide) (by decide)).2 (by decide +kernel)
  · have hwords : ∀ m ∈ outlined twoModules pagesHere, ∀ m' ∈ outlined twoModules pagesHere,
        m'.path ≠ m.path →
          Path.pageWords (.ofText m'.path) ⟨"/".toList, sourcePlace twoModules pagesHere⟩ ≠
            Path.pageWords (.ofText m.path) ⟨"/".toList, sourcePlace twoModules pagesHere⟩ := by
      decide +kernel
    exact hpages pagesHere _ _ (by decide +kernel) rfl (by decide +kernel) m hm (hwords m hm)

/-- A file in a directory, and one that has the name of the directory in its own. -/
def dottedModules : FileTree :=
  ((FileTree.empty ["work".toList]).add "a/b.m".toList (.file (encode "x = 1;\n".toList))).add
    "a.b.m".toList (.file (encode "function f\nend\n".toList))

/-- Both pages have one name, and the page of the first module is lost. -/
theorem dottedModules_share_page :
    dottedModules.sources (.ofText ".".toList) [] =
      .ok ["/work/a.b.m".toList, "/work/a/b.m".toList] ∧
    Path.pageName? (.ofText "/work/a.b.m".toList) ⟨"/".toList, ["work".toList]⟩ =
      Path.pageName? (.ofText "/work/a/b.m".toList) ⟨"/".toList, ["work".toList]⟩ ∧
    (run dottedModules pagesHere Page.plainCode).outcome = .ok 0 ∧
    ∃ m ∈ outlined dottedModules pagesHere,
      (run dottedModules pagesHere Page.plainCode).tree.read
          (Site.pagePath (Path.ofText "out".toList) m.name) ≠
        .ok (modulePage (outlined dottedModules pagesHere) m Page.plainCode) := by
  refine ⟨?_, ?_, ?_, ?_⟩ <;> decide +kernel

end Command
end MatlabOutline
