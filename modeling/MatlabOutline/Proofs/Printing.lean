import MatlabOutline.Keyword
import MatlabOutline.Proofs.Nesting
import MatlabOutline.Proofs.Characters

/-! Function declarations as data, and the source text that is printed for them: one line for the
header, one for the description, the functions inside, and an `end`. The layout gives each function
the extent that its printed text has. -/
namespace MatlabOutline
open Text

namespace Text

/-- A description that fills one comment line: no newline, no blank before it and no white space
after it. -/
structure IsDescription (t : Text) : Prop where
  nonempty : t ≠ []
  single : ∀ c ∈ t, c ≠ '\n'
  flush : ∀ c ∈ t.head?, isBlank c = false
  trimmed : ∀ c ∈ t.getLast?, isSpace c = false

instance (t : Text) : Decidable (IsDescription t) :=
  decidable_of_iff (t ≠ [] ∧ t.all (· != '\n') = true ∧ t.head?.all (!isBlank ·) = true ∧
      t.getLast?.all (!isSpace ·) = true) <| by
    simp only [List.all_eq_true, Option.all_eq_true, bne_iff_ne, Bool.not_eq_true']
    exact ⟨fun ⟨h1, h2, h3, h4⟩ => ⟨h1, h2, h3, h4⟩, fun ⟨h1, h2, h3, h4⟩ => ⟨h1, h2, h3, h4⟩⟩

end Text

/-- A function as it is declared. Its name is no block keyword but may be `arguments`, which is one
only on a line of its own. -/
structure Declaration where
  name : Text
  returns : List Text
  args : List Text
  doc : Option Text
  name_identifier : IsIdentifier name
  name_free : ∀ k ∈ Keyword.all, k.word = name → k = .opener .arguments
  returns_identifier : ∀ r ∈ returns, IsIdentifier r
  args_identifier : ∀ a ∈ args, IsIdentifier a
  doc_description : ∀ t ∈ doc, IsDescription t

abbrev Declarations := Forest Declaration

/-- The blanks before a line at a depth. -/
def indent (depth : Nat) : Text := List.replicate (2 * depth) ' '

theorem isBlank_of_mem_indent {depth : Nat} : ∀ c ∈ indent depth, isBlank c = true := by
  intro c hc
  rw [List.eq_of_mem_replicate hc]
  rfl

namespace Declaration

/-- The line of a header, without blanks and newline. -/
def headerLine (d : Declaration) : Text :=
  "function [".toList ++ joinWith ", ".toList d.returns ++ "] = ".toList ++ d.name ++
    "(".toList ++ joinWith ", ".toList d.args ++ ")".toList

/-- The clause of the returned names, with its equals sign. -/
def returnClause (d : Declaration) : Text :=
  '[' :: joinWith ", ".toList d.returns ++ [']'] ++ [' '] ++ ['=']

/-- The clause of the parameters. -/
def argClause (d : Declaration) : Text := '(' :: joinWith ", ".toList d.args ++ [')']

theorem headerLine_eq (d : Declaration) :
    d.headerLine =
      "function".toList ++ ([' '] ++ (d.returnClause ++ ([' '] ++ d.name ++ d.argClause))) := by
  unfold headerLine returnClause argClause
  simp

/-- The line of a description, if there is one. -/
def docLine (depth : Nat) (d : Declaration) : Text :=
  match d.doc with
  | none => []
  | some t => indent depth ++ "% ".toList ++ t ++ "\n".toList

/-- The lines of a function before those of its children. -/
def opening (depth : Nat) (d : Declaration) : Text :=
  indent depth ++ d.headerLine ++ "\n".toList ++ d.docLine depth

theorem length_opening (depth : Nat) (d : Declaration) :
    (d.opening depth).length =
      (indent depth ++ d.headerLine).length + 1 + (d.docLine depth).length := by
  rw [opening, List.length_append, List.length_append]
  rfl

theorem getLast?_opening (depth : Nat) (d : Declaration) :
    (d.opening depth).getLast? = some '\n' := by
  cases hdoc : d.doc with
  | none =>
    rw [opening, docLine, hdoc, List.append_nil, List.getLast?_append]
    rfl
  | some t =>
    rw [opening, docLine, hdoc, List.getLast?_append, List.getLast?_append]
    rfl

/-- The entry that stands for a declaration at an extent. -/
def entry (d : Declaration) (start stop : Nat) : FunctionEntry :=
  ⟨start, stop, d.returns, d.name, d.args, d.doc, false⟩

end Declaration

namespace Declarations

/-- The text of the functions at a depth. -/
def print (depth : Nat) : Declarations → Text
  | .nil => []
  | .node d cs fs =>
    d.opening depth ++ print (depth + 1) cs ++ indent depth ++ "end\n".toList ++ print depth fs

/-- The text of one function with its children, up to its `end`. -/
def extent (depth : Nat) (d : Declaration) (cs : Declarations) : Text :=
  d.opening depth ++ print (depth + 1) cs ++ indent depth ++ "end".toList

/-- Each function with the text printed for it. -/
def blocks (depth : Nat) : Declarations → Forest Text
  | .nil => .nil
  | .node d cs fs =>
    .node (d.opening depth ++ print (depth + 1) cs ++ indent depth ++ "end\n".toList)
      (blocks (depth + 1) cs) (blocks depth fs)

/-- The outline of the text printed at an offset. -/
def layout (depth start : Nat) : Declarations → Outline
  | .nil => .nil
  | .node d cs fs =>
    .node (d.entry start (start + (extent depth d cs).length))
      (layout (depth + 1) (start + (d.opening depth).length) cs)
      (layout depth (start + (extent depth d cs).length + 1) fs)

theorem print_node (depth : Nat) (d : Declaration) (cs fs : Declarations) :
    print depth (.node d cs fs) = extent depth d cs ++ '\n' :: print depth fs := by
  simp [print, extent]

theorem length_print_node (depth : Nat) (d : Declaration) (cs fs : Declarations) :
    (print depth (.node d cs fs)).length =
      (extent depth d cs).length + 1 + (print depth fs).length := by
  rw [print_node, List.length_append, List.length_cons]
  omega

theorem length_extent (depth : Nat) (d : Declaration) (cs : Declarations) :
    (extent depth d cs).length =
      (d.opening depth).length + (print (depth + 1) cs).length + (indent depth).length + 3 := by
  simp only [extent, List.length_append]
  rfl

/-- What is printed ends with a newline. -/
theorem getLast?_print (depth : Nat) (f : Declarations) :
    ∀ c ∈ (print depth f).getLast?, c = '\n' := by
  induction f generalizing depth with
  | nil => simp [print]
  | node d cs fs _ hf =>
    intro c hc
    rw [print_node, List.getLast?_append, List.getLast?_cons, Option.some_or,
      Option.mem_some_iff] at hc
    cases hl : (print depth fs).getLast? with
    | none => rw [← hc, hl]; rfl
    | some x =>
      rw [hl, Option.getD_some] at hc
      exact hc ▸ hf depth x hl

/-- After the lines that open a function comes a line that opens with a word. -/
theorem exists_word_ahead (depth k : Nat) (f : Declarations) (v : Text) :
    ∃ blanks c u, print depth f ++ (indent k ++ "end".toList ++ v) = blanks ++ c :: u ∧
      (∀ x ∈ blanks, isBlank x = true) ∧ isWordStart c = true := by
  cases f with
  | nil => exact ⟨indent k, 'e', 'n' :: 'd' :: v, by simp [print], isBlank_of_mem_indent, by decide⟩
  | node d cs fs =>
    obtain ⟨u, hu⟩ : ∃ u, print depth (.node d cs fs) = indent depth ++ 'f' :: u := by
      rw [print, Declaration.opening, d.headerLine_eq]
      simp only [List.append_assoc]
      exact ⟨_, rfl⟩
    refine ⟨indent depth, 'f', u ++ (indent k ++ "end".toList ++ v), ?_, isBlank_of_mem_indent,
      by decide⟩
    rw [hu, List.append_assoc, List.cons_append]

section Pieces

variable {text rest : Text} {depth p : Nat} {d : Declaration} {cs fs : Declarations}

/-- The lines printed for a function and what follows it. -/
theorem drop_header (hd : text.drop p = print depth (.node d cs fs) ++ rest) :
    text.drop p = indent depth ++ d.headerLine ++ '\n' :: (d.docLine depth ++
      (print (depth + 1) cs ++ (indent depth ++ "end".toList ++
        '\n' :: (print depth fs ++ rest)))) := by
  rw [hd]
  simp [print, Declaration.opening]

theorem drop_opening (hd : text.drop p = print depth (.node d cs fs) ++ rest) :
    text.drop p = d.opening depth ++ (print (depth + 1) cs ++
      (indent depth ++ "end".toList ++ '\n' :: (print depth fs ++ rest))) := by
  rw [hd]
  simp [print]

theorem drop_children (hd : text.drop p = print depth (.node d cs fs) ++ rest) :
    text.drop (p + (d.opening depth).length) = print (depth + 1) cs ++
      (indent depth ++ "end".toList ++ '\n' :: (print depth fs ++ rest)) :=
  drop_add_length (drop_opening hd)

theorem drop_end (hd : text.drop p = print depth (.node d cs fs) ++ rest) :
    text.drop (p + (d.opening depth).length + (print (depth + 1) cs).length) =
      indent depth ++ "end".toList ++ '\n' :: (print depth fs ++ rest) :=
  drop_add_length (drop_children hd)

theorem drop_extent (hd : text.drop p = print depth (.node d cs fs) ++ rest) :
    text.drop p = extent depth d cs ++ '\n' :: (print depth fs ++ rest) := by
  rw [hd, print_node, List.append_assoc, List.cons_append]

theorem drop_others (hd : text.drop p = print depth (.node d cs fs) ++ rest) :
    text.drop (p + (extent depth d cs).length + 1) = print depth fs ++ rest :=
  drop_add_length (u := ['\n']) (drop_add_length (drop_extent hd))

end Pieces

/-- The extents of a layout are nested as the declarations are. -/
theorem within_layout (depth start : Nat) (f : Declarations) :
    Outline.Within start (start + (print depth f).length : Nat) (layout depth start f) := by
  induction f generalizing depth start with
  | nil => trivial
  | node d cs fs hc hf =>
    have hlen := length_extent depth d cs
    have hcs := hc (depth + 1) (start + (d.opening depth).length)
    have hfs := hf depth (start + (extent depth d cs).length + 1)
    rw [length_print_node]
    simp only [layout, Outline.Within, Declaration.entry]
    refine ⟨by omega, by omega, by omega, hcs.mono (by omega) (by omega), ?_⟩
    exact hfs.mono (by omega) (by omega)

/-- A layout shows the declarations. -/
theorem map_layout (depth start : Nat) (f : Declarations) :
    (layout depth start f).map (fun e => (e.name, e.returns, e.args, e.docstring)) =
      f.map fun d => (d.name, d.returns, d.args, d.doc) := by
  induction f generalizing depth start with
  | nil => rfl
  | node d cs fs hc hf => simp only [layout, Forest.map, hc, hf, Declaration.entry]

/-- The extents of a layout cut out what was printed. -/
theorem map_slice_layout {text rest : Text} {depth p : Nat} (f : Declarations)
    (hd : text.drop p = print depth f ++ rest) :
    (layout depth p f).map
        (fun e => slice text e.start.toNat e.stop.toNat ++ "\n".toList) = blocks depth f := by
  induction f generalizing depth p rest with
  | nil => rfl
  | node d cs fs hc hf =>
    rw [layout, Forest.map, blocks, hc (drop_children hd), hf (drop_others hd)]
    simp only [Declaration.entry, Int.toNat_natCast, slice_of_drop (drop_extent hd)]
    simp [extent]

end Declarations
end MatlabOutline
