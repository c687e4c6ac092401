import MatlabOutline.Proofs.RepeatedRuns
import MatlabOutline.Proofs.SourceSearch

/-! A run over a directory. It prints what the runs over its source files print, one after another
in the order of their paths: what is printed about a file depends on its contents, and not on the
directory that the run starts from. A file that cannot be decoded adds nothing, and without it the
same is printed. -/
namespace MatlabOutline
open Text

namespace Command

section Modules

variable {o o' : Options} {roots : List Text} {base base' : List Text} {f : Text × List UInt8}

/-- The name of a module is the only thing that depends on where the run starts. -/
theorem module?_outlineFile_of_dialect (h : o'.dialect = o.dialect) (f : Text × List UInt8) :
    (outlineFile o' roots base' f).module? =
      (outlineFile o roots base f).module?.map fun m =>
        { m with name := (Path.pageName? (Path.ofText f.1) ⟨"/".toList, base'⟩).getD [] } := by
  rw [outlineFile, outlineFile, Module.ofBytes, Module.ofBytes, h]
  cases decode f.2 <;> rfl

theorem module?_outlineFile_of_error {e : DecodeError} (h : decode f.2 = .error e) :
    (outlineFile o roots base f).module? = none := by
  rw [outlineFile, Module.ofBytes, h]
  rfl

/-- What is told about a module without its name. -/
def IgnoresName {β : Type} (g : Module → List β) : Prop := ∀ m name, g { m with name } = g m

theorem IgnoresName.flatMap_module? {β : Type} {g : Module → List β} (hg : IgnoresName g)
    (h : o'.dialect = o.dialect) (f : Text × List UInt8) :
    (outlineFile o' roots base' f).module?.toList.flatMap g =
      (outlineFile o roots base f).module?.toList.flatMap g := by
  rw [@module?_outlineFile_of_dialect o o' roots base base' h f]
  cases (outlineFile o roots base f).module? with
  | none => rfl
  | some m => simp [hg m]

end Modules

section Inputs

variable {tree : FileTree} {o : Options} {highlight : Text → Text} {roots : List Text} {i : Input}

theorem stdout_of_input (hroots : absoluteRoots tree o.roots = .ok roots)
    (hexists : tree.exists? (Path.ofText o.source) = .ok true) (hinput : input tree o = .ok i) :
    (run tree o highlight).stdout = printed o (outlined tree o) := by
  rw [run_eq_outlineAll hroots hexists hinput, stdout_outlineAll, outlined_eq hroots hinput]

theorem outcome_of_input (hroots : absoluteRoots tree o.roots = .ok roots)
    (hexists : tree.exists? (Path.ofText o.source) = .ok true) (hinput : input tree o = .ok i)
    (hhtml : o.html = none) : (run tree o highlight).outcome = .ok 0 := by
  rw [run_eq_outlineAll hroots hexists hinput, outlineAll, hhtml]

end Inputs

/-- The same options with another source. -/
def Options.over (o : Options) (path : Text) : Options := { o with source := path }

section Files

variable {tree : FileTree} {o : Options} {highlight : Text → Text} {roots : List Text}
  {place : List Text} {bytes : List UInt8}

/-- A run whose source is a file reads that file. -/
theorem input_of_file (htree : tree.Reachable) (hnode : tree.node? place = some (.file bytes)) :
    tree.exists? (Path.ofText (FileTree.placeText place)) = .ok true ∧
      input tree (o.over (FileTree.placeText place)) =
        .ok ⟨place.dropLast, [(FileTree.placeText place, bytes)]⟩ := by
  have hpath := FileTree.ofText_placeText (htree.isName_of_node? hnode)
  constructor
  · rw [hpath, htree.exists? hnode]
  · simp only [input, Options.over, hpath, htree.resolve hnode, hnode]

/-- A run over a file outlines its module, if there is one. -/
theorem outlined_of_file (htree : tree.Reachable) (hnode : tree.node? place = some (.file bytes))
    (hroots : absoluteRoots tree o.roots = .ok roots) :
    outlined tree (o.over (FileTree.placeText place)) =
      (outlineFile (o.over (FileTree.placeText place)) roots place.dropLast
        (FileTree.placeText place, bytes)).module?.toList := by
  have hroots' : absoluteRoots tree (o.over (FileTree.placeText place)).roots = .ok roots := hroots
  rw [outlined_eq hroots' (input_of_file htree hnode).2, List.map_singleton,
    List.filterMap_eq_flatMap_toList, List.flatMap_singleton]

theorem stdout_of_file (htree : tree.Reachable) (hnode : tree.node? place = some (.file bytes))
    (hroots : absoluteRoots tree o.roots = .ok roots) :
    (run tree (o.over (FileTree.placeText place)) highlight).stdout =
      printed o (outlined tree (o.over (FileTree.placeText place))) := by
  obtain ⟨hexists, hinput⟩ := @input_of_file tree o place bytes htree hnode
  exact stdout_of_input hroots hexists hinput

theorem outcome_of_file (htree : tree.Reachable) (hnode : tree.node? place = some (.file bytes))
    (hroots : absoluteRoots tree o.roots = .ok roots) (hhtml : o.html = none) :
    (run tree (o.over (FileTree.placeText place)) highlight).outcome = .ok 0 := by
  obtain ⟨hexists, hinput⟩ := @input_of_file tree o place bytes htree hnode
  exact outcome_of_input hroots hexists hinput hhtml

/-- A file that cannot be decoded has no module, so that nothing is printed about it. -/
theorem outlined_of_error {e : DecodeError} (htree : tree.Reachable)
    (hnode : tree.node? place = some (.file bytes)) (hdecode : decode bytes = .error e)
    (hroots : absoluteRoots tree o.roots = .ok roots) :
    outlined tree (o.over (FileTree.placeText place)) = [] := by
  rw [outlined_of_file htree hnode hroots, module?_outlineFile_of_error hdecode]
  rfl

end Files

/-- A run that searches a directory: its roots and its source are found, and the paths to ignore are
known. -/
structure Searches (tree : FileTree) (o : Options) (roots ignore : List Text) : Prop where
  roots : absoluteRoots tree o.roots = .ok roots
  found : tree.exists? (Path.ofText o.source) = .ok true
  directory : tree.node? (sourcePlace tree o) = some .directory
  ignore : values o.ignore = .ok ignore

/-- The files that a search finds. -/
def searched (tree : FileTree) (o : Options) (ignore : List Text) : List (Text × List UInt8) :=
  tree.sourceFiles (sourcePlace tree o) (ignore.map Path.ofText)

theorem exists_searches {tree : FileTree} {o : Options} {highlight : Text → Text}
    (hsource : tree.node? (sourcePlace tree o) = some .directory)
    (hok : (run tree o highlight).outcome = .ok 0) :
    ∃ roots ignore, Searches tree o roots ignore := by
  obtain ⟨roots, i, hroots, hexists, hinput, -⟩ := exists_of_run hok
  rw [input_of_directory hsource] at hinput
  cases hvalues : values o.ignore with
  | error e =>
    rw [hvalues] at hinput
    cases hinput
  | ok ignore => exact ⟨roots, ignore, hroots, hexists, hsource, hvalues⟩

namespace Searches

variable {tree : FileTree} {o : Options} {highlight : Text → Text} {roots ignore : List Text}

theorem input (h : Searches tree o roots ignore) :
    input tree o = .ok ⟨sourcePlace tree o, searched tree o ignore⟩ := by
  rw [input_of_directory h.directory, h.ignore]
  rfl

theorem stdout (h : Searches tree o roots ignore) :
    (run tree o highlight).stdout = printed o (outlined tree o) :=
  stdout_of_input h.roots h.found h.input

theorem outlined (h : Searches tree o roots ignore) :
    outlined tree o = (searched tree o ignore).filterMap fun f =>
      (outlineFile o roots (sourcePlace tree o) f).module? := by
  rw [outlined_eq h.roots h.input, List.filterMap_map]
  rfl

theorem sources (h : Searches tree o roots ignore) (htree : tree.Reachable) :
    tree.sources (.ofText o.source) (ignore.map .ofText) =
      .ok ((searched tree o ignore).map Prod.fst) := by
  have hnull : (Path.ofText o.source).hasNull = false := by
    rw [Bool.eq_false_iff]
    intro hnull
    have hfound := h.found
    rw [FileTree.exists?, FileTree.locate, if_pos hnull] at hfound
    cases hfound
  exact htree.sources hnull h.directory _

/-- What is told about the modules of a directory is told about its files one by one. -/
theorem flatMap_outlined (h : Searches tree o roots ignore) (htree : tree.Reachable) {β : Type}
    {g : Module → List β} (hg : IgnoresName g) :
    (Command.outlined tree o).flatMap g =
      ((searched tree o ignore).map Prod.fst).flatMap fun p =>
        (Command.outlined tree (o.over p)).flatMap g := by
  rw [h.outlined, List.filterMap_eq_flatMap_toList, List.flatMap_assoc, List.flatMap_map]
  refine List.flatMap_congr fun f hf => ?_
  obtain ⟨place, hpath, hnode⟩ := FileTree.exists_node?_of_mem_sourceFiles htree.toWellFormed hf
  rw [hpath, outlined_of_file htree hnode h.roots, ← hpath]
  exact (hg.flatMap_module? rfl f).symm

section Erasing

variable {place : List Text} {bytes : List UInt8}

/-- Without a file the directory is still searched. -/
theorem erase (h : Searches tree o roots ignore) (htree : tree.Reachable)
    (hnode : tree.node? place = some (.file bytes)) :
    Searches (tree.erase place) o roots ignore := by
  have hkeep : FileTree.KeepsDirectories tree (tree.erase place) :=
    FileTree.keepsDirectories_erase (by simp [hnode])
  have hleads := (FileTree.leadsTo_of_exists? htree.down h.found h.directory).keep hkeep
  have hroots : absoluteRoots (tree.erase place) o.roots = absoluteRoots tree o.roots :=
    absoluteRoots_of_here hkeep.here o.roots
  exact ⟨hroots.trans h.roots, hleads.exists?, hleads.node, h.ignore⟩

theorem searched_erase (htree : tree.Reachable) (hnode : tree.node? place = some (.file bytes)) :
    searched (tree.erase place) o ignore =
      (searched tree o ignore).filter fun f => f.1 ≠ FileTree.placeText place :=
  FileTree.sourceFiles_erase htree.toWellFormed (htree.isName_of_node? hnode)

/-- Without a file that cannot be decoded the modules of a directory are the same. -/
theorem outlined_erase (h : Searches tree o roots ignore) (htree : tree.Reachable)
    (hnode : tree.node? place = some (.file bytes)) {e : DecodeError}
    (hdecode : decode bytes = .error e) :
    Command.outlined (tree.erase place) o = Command.outlined tree o := by
  rw [h.outlined, (h.erase htree hnode).outlined, searched_erase htree hnode,
    List.filterMap_filter]
  refine List.filterMap_congr fun f hf => ?_
  split_ifs with hne
  · rfl
  -- the file that is missing is the one that has no module
  · obtain ⟨place', hpath, hnode'⟩ := FileTree.exists_node?_of_mem_sourceFiles htree.toWellFormed hf
    have hmissing : f.1 = FileTree.placeText place := by simpa using hne
    obtain rfl : place' = place := by
      rwa [← FileTree.placeText_inj (htree.isName_of_node? hnode') (htree.isName_of_node? hnode),
        ← hpath]
    rw [hnode] at hnode'
    obtain rfl := Node.file.inj (Option.some.inj hnode')
    exact (module?_outlineFile_of_error hdecode).symm

theorem sources_erase (h : Searches tree o roots ignore) (htree : tree.Reachable)
    (hnode : tree.node? place = some (.file bytes)) :
    (tree.erase place).sources (.ofText o.source) (ignore.map .ofText) =
      .ok (((searched tree o ignore).map Prod.fst).filter
        fun p => p ≠ FileTree.placeText place) := by
  rw [(h.erase htree hnode).sources (htree.erase (by simp [hnode])), searched_erase htree hnode,
    List.filter_map]
  rfl

/-- A run over a file prints the same whatever else there is. -/
theorem stdout_over_erase (h : Searches tree o roots ignore) (htree : tree.Reachable)
    (hnode : tree.node? place = some (.file bytes)) {other : List Text} {bytes' : List UInt8}
    (hother : tree.node? other = some (.file bytes')) (hne : other ≠ place) :
    (run (tree.erase place) (o.over (FileTree.placeText other)) highlight).stdout =
      (run tree (o.over (FileTree.placeText other)) highlight).stdout := by
  have htree' : (tree.erase place).Reachable := htree.erase (by simp [hnode])
  have hother' : (tree.erase place).node? other = some (.file bytes') := by
    rw [FileTree.node?_erase_of_ne hne, hother]
  have hroots' := (h.erase htree hnode).roots
  rw [stdout_of_file htree hother h.roots, stdout_of_file htree' hother' hroots',
    outlined_of_file htree hother h.roots, outlined_of_file htree' hother' hroots']

end Erasing

end Searches

/-- An array as it is printed. -/
def arrayText (items : List Json) : Text := (Json.array items).render 0 ++ "\n".toList

/-- The elements of the array that a run prints. -/
def elements (tree : FileTree) (o : Options) : List Json := (outlined tree o).map moduleJson

theorem printed_of_json {o : Options} (h : o.json = true) (tree : FileTree) (o' : Options) :
    printed o (outlined tree o') = arrayText (elements tree o') := by
  rw [printed, if_pos h]
  rfl

theorem printed_of_text {o : Options} (h : o.json = false) (modules : List Module) :
    printed o modules = modules.flatMap listing := by
  rw [printed, if_neg (by simp [h])]

/-- A run over a directory prints what the runs over its source files print, in the order of their
paths; arrays are put together element by element. A file that cannot be decoded adds nothing, and
without it the other files are found and the same is printed. -/
theorem directory_run_eq_file_runs (tree : FileTree) (o : Options) (highlight : Text → Text)
    (htree : tree.Reachable) (hsource : tree.node? (sourcePlace tree o) = some .directory)
    (hok : (run tree o highlight).outcome = .ok 0) :
    ∃ ignore paths, values o.ignore = .ok ignore ∧
      tree.sources (.ofText o.source) (ignore.map .ofText) = .ok paths ∧
      (o.html = none → ∀ p ∈ paths, (run tree (o.over p) highlight).outcome = .ok 0) ∧
      (o.json = false →
        (run tree o highlight).stdout =
          paths.flatMap fun p => (run tree (o.over p) highlight).stdout) ∧
      (o.json = true →
        (run tree o highlight).stdout =
          arrayText (paths.flatMap fun p => elements tree (o.over p)) ∧
        ∀ p ∈ paths,
          (run tree (o.over p) highlight).stdout = arrayText (elements tree (o.over p))) ∧
      ∀ place bytes e, tree.node? place = some (.file bytes) → decode bytes = .error e →
        (run tree (o.over (FileTree.placeText place)) highlight).stdout =
          (if o.json then "[]\n".toList else []) ∧
        (tree.erase place).sources (.ofText o.source) (ignore.map .ofText) =
          .ok (paths.filter fun p => p ≠ FileTree.placeText place) ∧
        (o.html = none → (run (tree.erase place) o highlight).outcome = .ok 0) ∧
        (run (tree.erase place) o highlight).stdout = (run tree o highlight).stdout ∧
        ∀ p ∈ paths, p ≠ FileTree.placeText place →
          (run (tree.erase place) (o.over p) highlight).stdout =
            (run tree (o.over p) highlight).stdout := by
  obtain ⟨roots, ignore, h⟩ := exists_searches hsource hok
  have hfile : ∀ p ∈ (searched tree o ignore).map Prod.fst,
      ∃ place bytes, p = FileTree.placeText place ∧ tree.node? place = some (.file bytes) := by
    rw [List.forall_mem_map]
    intro f hf
    obtain ⟨place, hpath, hnode⟩ := FileTree.exists_node?_of_mem_sourceFiles htree.toWellFormed hf
    exact ⟨place, f.2, hpath, hnode⟩
  refine ⟨ignore, _, h.ignore, h.sources htree, ?_, ?_, ?_, ?_⟩
  · intro hhtml p hp
    obtain ⟨place, bytes, rfl, hnode⟩ := hfile p hp
    exact outcome_of_file htree hnode h.roots hhtml
  · intro hjson
    have hlisting : IgnoresName listing := fun _ _ => rfl
    rw [h.stdout, printed_of_text hjson, h.flatMap_outlined htree hlisting]
    refine List.flatMap_congr fun p hp => ?_
    obtain ⟨place, bytes, rfl, hnode⟩ := hfile p hp
    rw [stdout_of_file htree hnode h.roots, printed_of_text hjson]
  · intro hjson
    have hmodule : IgnoresName fun m => [moduleJson m] := fun _ _ => rfl
    constructor
    · rw [h.stdout, printed_of_json hjson, elements, List.map_eq_flatMap,
        h.flatMap_outlined htree hmodule]
      simp only [elements, List.map_eq_flatMap]
    · intro p hp
      obtain ⟨place, bytes, rfl, hnode⟩ := hfile p hp
      rw [stdout_of_file htree hnode h.roots, printed_of_json hjson]
  · intro place bytes e hnode hdecode
    have h' := h.erase htree hnode
    refine ⟨?_, h.sources_erase htree hnode, outcome_of_input h'.roots h'.found h'.input, ?_, ?_⟩
    · rw [stdout_of_file htree hnode h.roots, outlined_of_error htree hnode hdecode h.roots]
      rfl
    · rw [h'.stdout, h.stdout, h.outlined_erase htree hnode hdecode]
    · intro p hp hne
      obtain ⟨other, bytes', rfl, hother⟩ := hfile p hp
      exact h.stdout_over_erase htree hnode hother fun heq => hne (congrArg _ heq)

/-- A working directory with a file that cannot be decoded between two others, and one to ignore. -/
def mixedModules : FileTree :=
  ((((FileTree.empty ["work".toList]).add "b.m".toList (.file [0x66, 0xFF])).add
    "old/d.m".toList (.file (encode "function h\nend\n".toList))).add
    "a/c.m".toList (.file (encode "function f\nend\n".toList))).add
    "e.m".toList (.file (encode "function y = g(x)\nend\n".toList))

/-- The listing of the working directory, without the directory to ignore. -/
def listingHere : Options :=
  ⟨".".toList, [some "lib".toList], [some "old".toList], none, none, false, false, false⟩

theorem mixedModules_listed_one_by_one :
    (mixedModules.Reachable ∧
      mixedModules.node? (sourcePlace mixedModules listingHere) = some .directory ∧
      (run mixedModules listingHere Page.plainCode).outcome = .ok 0) ∧
    (run mixedModules listingHere Page.plainCode).stdout =
      (run mixedModules (listingHere.over "/work/a/c.m".toList) Page.plainCode).stdout ++
        (run mixedModules (listingHere.over "/work/e.m".toList) Page.plainCode).stdout ∧
    (run (mixedModules.erase ["work".toList, "b.m".toList]) listingHere Page.plainCode).stdout =
      (run mixedModules listingHere Page.plainCode).stdout := by
  have hformed : mixedModules.WellFormed :=
    ((((FileTree.WellFormed.empty (by decide)).add _ _).add _ _).add _ _).add _ _
  have htree : mixedModules.Reachable := by
    refine ⟨hformed, ?_, ?_, ?_⟩
    · decide +kernel
    · decide +kernel
    · decide +kernel
  have hsource : mixedModules.node? (sourcePlace mixedModules listingHere) = some .directory := by
    decide +kernel
  have hok : (run mixedModules listingHere Page.plainCode).outcome = .ok 0 := by
    decide +kernel
  have hsources : mixedModules.sources (.ofText ".".toList) [.ofText "old".toList] =
      .ok ["/work/a/c.m".toList, "/work/b.m".toList, "/work/e.m".toList] := by
    decide +kernel
  have hnode : mixedModules.node? ["work".toList, "b.m".toList] = some (.file [0x66, 0xFF]) := by
    decide +kernel
  have hdecode : decode [0x66, 0xFF] = .error ⟨0xFF, 1, 1, .invalidStart⟩ := by
    decide +kernel
  obtain ⟨ignore, paths, hignore, hpaths, -, htext, -, herror⟩ :=
    directory_run_eq_file_runs mixedModules listingHere Page.plainCode htree hsource hok
  obtain rfl : ["old".toList] = ignore := Except.ok.inj hignore
  obtain rfl := Except.ok.inj (hsources.symm.trans hpaths)
  obtain ⟨hnothing, -, -, hsame, -⟩ := herror _ _ _ hnode hdecode
  have hskipped :
      (run mixedModules (listingHere.over "/work/b.m".toList) Page.plainCode).stdout = [] :=
    hnothing
  refine ⟨⟨htree, hsource, hok⟩, ?_, hsame⟩
  rw [htext rfl, List.flatMap_cons, List.flatMap_cons, List.flatMap_singleton, hskipped,
    List.nil_append]

end Command
end MatlabOutline
