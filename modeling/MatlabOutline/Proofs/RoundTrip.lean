import MatlabOutline.Proofs.PrintedBlocks

/-! Printing and reading. The outline of printed declarations has the shape of the declarations,
their names and descriptions, and each extent holds just what was printed for its function. -/
namespace MatlabOutline
open Text

namespace Declarations

/-- A printed function is read as its declaration, at the extent it was printed to. -/
theorem exists_header {text rest : Text} {depth p : Nat} {d : Declaration} {cs fs : Declarations}
    (hline : Header.startsLine text p = true)
    (hd : text.drop p = print depth (.node d cs fs) ++ rest) :
    ∃ a, Header.at? text p = some a ∧ a.lineEnd = p + (indent depth ++ d.headerLine).length ∧
      FunctionEntry.ofHeader text .closed a = d.entry p (p + (extent depth d cs).length) := by
  have hheader := drop_header hd
  obtain ⟨a, ha, hstart, hend, hreturns, hname, hargs⟩ := Header.at?_headerLine hline hheader
  refine ⟨a, ha, hend, ?_⟩
  have hdoc : Docstring.find? text a.lineEnd = d.doc := by
    have hafter := drop_add_length hheader
    obtain ⟨blanks, c, u, hword, hb, hc⟩ := exists_word_ahead (depth + 1) depth cs
      ('\n' :: (print depth fs ++ rest))
    rw [hword, ← hend] at hafter
    exact Docstring.find?_docLine hafter hb hc
  have hstop : (Dialect.closed.functionEnd text p).1 = p + (extent depth d cs).length := by
    rw [Dialect.functionEnd, stop_print hline hd]
  rw [FunctionEntry.ofHeader, hstart, hstop, hreturns, hname, hargs, hdoc]
  rfl

/-- A search over printed declarations finds their layout. -/
theorem map_ofHeader_print {text rest : Text} {depth p : Nat} {hs : List Header}
    (f : Declarations) (hline : Header.startsLine text p = true)
    (hd : text.drop p = print depth f ++ rest) (h : Header.Finds text p hs) :
    ∃ gs, Header.Finds text (p + (print depth f).length) gs ∧
      hs.map (FunctionEntry.ofHeader text .closed) =
        (layout depth p f).flatten ++ gs.map (FunctionEntry.ofHeader text .closed) := by
  induction f generalizing depth p rest hs with
  | nil => exact ⟨hs, h, rfl⟩
  | node d cs fs hc hf =>
    obtain ⟨a, ha, hend, hentry⟩ := exists_header hline hd
    obtain ⟨gs, rfl, hgs⟩ := h.of_some ha
    have hnewline := drop_add_length (drop_header hd)
    -- no header stands between the header's line and the children, nor on the line of the `end`
    have hopening : Header.Finds text (p + (d.opening depth).length) gs := by
      have hdoc := hgs.of_none (Header.at?_lineEnd ha)
      rw [hend] at hdoc
      rw [Declaration.length_opening, ← Nat.add_assoc, ← Nat.add_assoc]
      exact hdoc.skip_docLine (drop_add_length (u := ['\n']) hnewline)
    obtain ⟨ks, hks, hchildren⟩ := hc (startsLine_children hline hd) (drop_children hd) hopening
    have hothers : Header.Finds text (p + (extent depth d cs).length + 1) ks := by
      have h := hks.skip_end (drop_end hd)
      simpa [extent, Nat.add_assoc] using h
    obtain ⟨ls, hls, hrest⟩ := hf (startsLine_others hd) (drop_others hd) hothers
    refine ⟨ls, ?_, ?_⟩
    · rw [length_print_node]
      simpa [Nat.add_assoc] using hls
    · rw [List.map_cons, hentry, hchildren, hrest]
      simp [layout, Forest.flatten]

theorem ofHeaders_print (f : Declarations) :
    FunctionEntry.ofHeaders (print 0 f) .closed = (layout 0 0 f).flatten := by
  have hd : (print 0 f).drop 0 = print 0 f ++ [] := by simp
  obtain ⟨gs, hgs, hmap⟩ := map_ofHeader_print f rfl hd (Header.finds_all (print 0 f))
  obtain rfl := hgs.eq_nil (by omega)
  rw [FunctionEntry.ofHeaders, hmap, List.map_nil, List.append_nil]

/-- Printed declarations are in the closed dialect. -/
theorem detect_print (d : Declaration) (cs fs : Declarations) :
    Dialect.detect (print 0 (.node d cs fs)) = .closed := by
  have hd : (print 0 (.node d cs fs)).drop 0 = print 0 (.node d cs fs) ++ [] := by simp
  obtain ⟨a, ha, -⟩ := exists_header rfl hd
  obtain ⟨gs, hall, -⟩ := (Header.finds_all (print 0 (.node d cs fs))).of_some ha
  rw [Dialect.detect, Header.first?_eq_head?, hall, List.head?_cons]
  simp only [(Header.at?_bounds ha).1, stop_print rfl hd]

end Declarations

namespace Source

/-- The outline of printed declarations is their layout. -/
theorem outline_eq_layout {s : Source} {f : Declarations} (ht : s.text = Declarations.print 0 f)
    (hd : s.dialect ≠ some .unclosed) : s.outline.1 = Declarations.layout 0 0 f := by
  have hnest : Outline.nest (Declarations.layout 0 0 f).flatten s.text.length =
      Declarations.layout 0 0 f := by
    have hwithin := Declarations.within_layout 0 0 f
    rw [← ht, Nat.zero_add] at hwithin
    rw [← List.append_nil (Declarations.layout 0 0 f).flatten]
    exact Outline.nest_flatten_append hwithin (by simp)
  cases f with
  | nil =>
    have hnil : s.text = [] := ht
    have hentries : s.entries.1 = [] := by
      rw [entries_of_no_headers (by rw [hnil]; rfl)]
      cases hb : s.builtin? with
      | none => rfl
      | some b => exact absurd hnil (text_ne_nil_of_builtin? hb)
    rw [outline, hentries]
    exact Outline.nest_nil _
  | node d cs fs =>
    have hused : s.usedDialect = .closed := by
      rw [usedDialect, ht, Declarations.detect_print]
      cases hs : s.dialect with
      | none => rfl
      | some k =>
        cases k with
        | closed => rfl
        | unclosed => exact absurd hs hd
    have hentries : FunctionEntry.ofHeaders s.text s.usedDialect =
        (Declarations.layout 0 0 (.node d cs fs)).flatten := by
      rw [hused, ht, Declarations.ofHeaders_print]
    have hne : Header.all s.text ≠ [] := by
      intro h
      rw [FunctionEntry.ofHeaders, h] at hentries
      cases hentries
    rw [outline, entries_of_headers hne, hentries, hnest]

/-- Declarations that are printed and read are the same again, and the extent of each function is
what was printed for it. -/
theorem outline_reads_back (f : Declarations) (s : Source) (ht : s.text = Declarations.print 0 f)
    (hd : s.dialect ≠ some .unclosed) :
    s.outline.1.map (fun e => (e.name, e.returns, e.args, e.docstring)) =
        f.map (fun d => (d.name, d.returns, d.args, d.doc)) ∧
      s.outline.1.map (fun e => slice s.text e.start.toNat e.stop.toNat ++ "\n".toList) =
        Declarations.blocks 0 f := by
  rw [outline_eq_layout ht hd]
  have hdrop : s.text.drop 0 = Declarations.print 0 f ++ [] := by
    rw [ht, List.drop_zero, List.append_nil]
  exact ⟨Declarations.map_layout 0 0 f, Declarations.map_slice_layout f hdrop⟩

/-- A function with names and a description that look like keywords and brackets, around one
without. -/
def nestedDeclarations : Declarations :=
  .node
    { name := "arguments".toList
      returns := ["end".toList]
      args := ["if".toList, "Input".toList]
      doc := some "% it's [ end".toList
      name_identifier := by decide
      name_free := by decide
      returns_identifier := by decide
      args_identifier := by decide
      doc_description := by decide }
    (.node
      { name := "g".toList
        returns := []
        args := []
        doc := none
        name_identifier := by decide
        name_free := by decide
        returns_identifier := by decide
        args_identifier := by decide
        doc_description := by decide }
      .nil .nil)
    .nil

theorem nestedDeclarations_read_back :
    Declarations.print 0 nestedDeclarations =
        ("function [end] = arguments(if, Input)\n% % it's [ end\n" ++
          "  function [] = g()\n  end\nend\n").toList ∧
      (outline ⟨Declarations.print 0 nestedDeclarations, none, [], none⟩).1.map
          (fun e => (e.name, e.returns, e.args, e.docstring)) =
        nestedDeclarations.map (fun d => (d.name, d.returns, d.args, d.doc)) ∧
      (outline ⟨Declarations.print 0 nestedDeclarations, none, [], none⟩).1.map (fun e =>
          slice (Declarations.print 0 nestedDeclarations) e.start.toNat e.stop.toNat ++
            "\n".toList) =
        Declarations.blocks 0 nestedDeclarations :=
  ⟨by decide +kernel, outline_reads_back nestedDeclarations
    ⟨Declarations.print 0 nestedDeclarations, none, [], none⟩ rfl (by decide)⟩

end Source
end MatlabOutline
