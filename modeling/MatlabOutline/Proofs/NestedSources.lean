import MatlabOutline.Module
import MatlabOutline.Proofs.Extent
import MatlabOutline.Proofs.Trimming

/-! The sources of nested functions. The extent of a function holds the extents of the functions
nested in it, and trimming keeps parts, so the source of a function holds theirs. -/
namespace MatlabOutline
open Text

namespace Forest

variable {α β : Type}

/-- A relation holds between every value and the values right below it. -/
def EveryChild (r : α → α → Prop) : Forest α → Prop
  | nil => True
  | node a cs fs => (∀ c ∈ cs.roots, r a c) ∧ EveryChild r cs ∧ EveryChild r fs

theorem EveryChild.imp {r s : α → α → Prop} (hrs : ∀ a b, r a b → s a b) {f : Forest α}
    (h : f.EveryChild r) : f.EveryChild s := by
  induction f with
  | nil => trivial
  | node a cs fs hc hf =>
    obtain ⟨hroots, hchildren, hothers⟩ := h
    exact ⟨fun c hmem => hrs a c (hroots c hmem), hc hchildren, hf hothers⟩

theorem everyChild_map_iff {r : β → β → Prop} (g : α → β) (f : Forest α) :
    (f.map g).EveryChild r ↔ f.EveryChild fun a b => r (g a) (g b) := by
  induction f with
  | nil => rfl
  | node a cs fs hc hf =>
    simp only [map, EveryChild, roots_map, List.forall_mem_map, hc, hf]

end Forest

/-- A part of a range is a part of the text there. -/
theorem Text.slice_isInfix_slice {t : Text} {a b c d : Nat} (hac : a ≤ c) (hdb : d ≤ b) :
    slice t c d <:+: slice t a b := by
  have hprefix : slice t a d <+: slice t a b := by
    rw [slice, slice, List.drop_take, List.drop_take]
    exact List.take_prefix_take_left (Nat.sub_le_sub_right hdb a)
  have hsuffix : slice t c d <:+ slice t a d := List.drop_suffix_drop_left _ hac
  exact hsuffix.isInfix.trans hprefix.isInfix

/-- The extent of a function in the text holds the extent of another. -/
structure FunctionEntry.Holds (e c : FunctionEntry) : Prop where
  builtin : e.builtin = false
  start : e.start ≤ c.start
  stop : c.stop ≤ e.stop

theorem Outline.WellPlaced.everyChild {length : Nat} {f : Outline} (h : WellPlaced length f)
    (hf : ∀ e ∈ f.flatten, e.builtin = false) : f.EveryChild FunctionEntry.Holds := by
  induction f with
  | nil => trivial
  | node e cs fs hc ho =>
    obtain ⟨-, hroots, -, hchildren, hothers⟩ := h
    obtain ⟨he, hrest⟩ := List.forall_mem_cons.1 hf
    obtain ⟨hcs, hfs⟩ := List.forall_mem_append.1 hrest
    refine ⟨fun c hmem => ⟨he, ?_, (hroots c hmem).2⟩, hc hchildren hcs, ho hothers hfs⟩
    exact Int.le_of_lt (hroots c hmem).1

/-- In the outline of any source, the extent of a function holds those of the functions nested in
it. -/
theorem Source.everyChild_outline (s : Source) : s.outline.1.EveryChild FunctionEntry.Holds := by
  rw [outline]
  by_cases hh : Header.all s.text = []
  · rw [entries_of_no_headers hh]
    cases hb : s.builtin? with
    | none => simp [Forest.EveryChild]
    | some b =>
      have hpos := List.length_pos_iff.2 (text_ne_nil_of_builtin? hb)
      rw [Option.map_some, Option.toList_some, nest_ofBuiltin (by omega)]
      exact ⟨fun c hmem => absurd hmem List.not_mem_nil, trivial, trivial⟩
  · rw [entries_of_headers hh]
    exact (wellPlaced_nest_ofHeaders _ _).everyChild builtin_of_mem_flatten

namespace Module

theorem sourceOf_isInfix {text : Text} {e c : FunctionEntry} (h : e.Holds c) :
    sourceOf text c <:+: sourceOf text e := by
  rw [sourceOf, sourceOf, h.builtin, if_neg Bool.false_ne_true]
  split_ifs
  · exact List.nil_infix
  · exact trim_isInfix_trim (slice_isInfix_slice (Int.toNat_le_toNat h.start)
      (Int.toNat_le_toNat h.stop))

/-- What is read from a file that can be decoded. -/
theorem read_of_decode {tree : FileTree} {path t : Text} {roots : List Text}
    {dialect : Option Dialect} {bytes : List UInt8}
    (hfile : tree.read (Path.ofText path) = .ok bytes) (hdecode : decode bytes = .ok t) :
    read tree path roots dialect = .ok (ofSource (Path.stem ((Path.ofText path).name?.getD [])) path
      ⟨unixLines t, some path, roots, dialect⟩) := by
  simp only [read, hfile, ofBytes, hdecode, Except.map, Except.mapError]

/-- The functions of a file are those of its outline, and the source of a nested function is a part
of the source of the function that it is nested in. -/
theorem nested_sources_inside (tree : FileTree) (path t : Text) (roots : List Text)
    (dialect : Option Dialect) (bytes : List UInt8)
    (hfile : tree.read (Path.ofText path) = .ok bytes) (hdecode : decode bytes = .ok t) :
    ∃ m log, read tree path roots dialect = .ok (m, log) ∧
      m.outline = (Source.outline ⟨unixLines t, some path, roots, dialect⟩).1 ∧
      m.functions.map Prod.fst = m.outline ∧
      m.functions.EveryChild fun p c => c.2 <:+: p.2 := by
  refine ⟨_, _, read_of_decode hfile hdecode, rfl, ?_, ?_⟩
  · exact (Forest.map_map _ _ _).trans (Forest.map_id _)
  · apply (Forest.everyChild_map_iff _ _).2
    exact (Source.everyChild_outline _).imp fun e c => sourceOf_isInfix

/-- A function nested in another, with line ends of both kinds and blanks after its `end`. -/
def nestedText : Text := "function f\n  function g\r\n  end  \nend\n".toList

/-- A working directory with one module. -/
def nestedModule : FileTree :=
  (FileTree.empty ["work".toList]).add "f.m".toList (.file (encode nestedText))

theorem nestedModule_sources :
    ∃ m log, read nestedModule "f.m".toList [] none = .ok (m, log) ∧
      m.functions.map Prod.fst = m.outline ∧
      (m.functions.EveryChild fun p c => c.2 <:+: p.2) ∧
      m.functions.map Prod.snd = .node "function f\n  function g\n  end  \nend".toList
        (.node "function g\n  end".toList .nil .nil) .nil := by
  have hfile : nestedModule.read (Path.ofText "f.m".toList) = .ok (encode nestedText) := by
    decide +kernel
  have hdecode : decode (encode nestedText) = .ok nestedText := by decide +kernel
  obtain ⟨m, log, hread, -, hshape, hsources⟩ :=
    nested_sources_inside nestedModule "f.m".toList nestedText [] none _ hfile hdecode
  have htexts : (read nestedModule "f.m".toList [] none).map (fun r => r.1.functions.map Prod.snd) =
      .ok (.node "function f\n  function g\n  end  \nend".toList
        (.node "function g\n  end".toList .nil .nil) .nil) := by decide +kernel
  rw [hread] at htexts
  exact ⟨m, log, hread, hshape, hsources, Except.ok.inj htexts⟩

end Module
end MatlabOutline
