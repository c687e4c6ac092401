import MatlabOutline.Proofs.BlockNesting
import MatlabOutline.Proofs.PrintedHeaders

/-! The block keywords of printed declarations. Between the keyword that opens a function and those
of its children nothing is reported, whatever the names and the description are, so that the `end`
printed for a function is the one that closes it. -/
namespace MatlabOutline
open Text

theorem Keyword.here?_of_free {before word rest : Text}
    (hfree : ∀ k ∈ all, k.word = word → k = .opener .arguments)
    (hb : onlyBlanksBefore before = false) : here? before word rest = none := by
  unfold here?
  split
  · rfl
  · split
    · simp [hb]
    · rename_i hne
      cases hk : ofWord? word with
      | none => rfl
      | some k =>
        rw [hfree k (List.mem_of_find?_eq_some hk) (word_of_ofWord? hk)] at hk
        exact absurd hk hne

namespace Mark

/-- Reading a text reports no keyword, wherever it stands, and turns one stack of open brackets
into another. -/
def Silent (stack : List Bracket) (u : Text) (stack' : List Bracket) : Prop :=
  ∀ text p v, text.drop p = u ++ v →
    scan text false stack p = scan text false stack' (p + u.length)

namespace Silent

variable {stack stack' : List Bracket} {c : Char} {u : Text}

theorem nil : Silent stack [] stack := fun _ _ _ _ => rfl

/-- One lexeme that is no keyword in sight. -/
theorem lexeme {l : Text} {k : Lexeme.Kind} (hk : visible? stack k = none)
    (hat : ∀ text p v, text.drop p = l ++ (u ++ v) →
      Lexeme.at? text false p = some (k, p + l.length))
    (h : Silent (brackets stack k) u stack') : Silent stack (l ++ u) stack' := by
  intro text p v hd
  rw [List.append_assoc] at hd
  rw [scan_step (hat text p v hd), hk, List.length_append, ← Nat.add_assoc]
  exact h text (p + l.length) v (drop_add_length hd)

theorem char {k : Lexeme.Kind} (hread : ∀ before rest, Lexeme.read false before c rest = (k, 0))
    (hk : visible? stack k = none) (h : Silent (brackets stack k) u stack') :
    Silent stack (c :: u) stack' := by
  apply lexeme (l := [c]) hk _ h
  intro text p v hd
  rw [Lexeme.at?, hd, List.singleton_append]
  simp only [hread, List.take_zero, List.length_nil, List.length_singleton, Nat.add_zero]

theorem blanks {b : Text} (hb : ∀ x ∈ b, isBlank x = true) (h : Silent stack u stack') :
    Silent stack (b ++ u) stack' := by
  intro text p v hd
  rw [List.append_assoc] at hd
  rw [scan_blanks hd hb, List.length_append, ← Nat.add_assoc]
  exact h text (p + b.length) v (drop_add_length hd)

/-- A line comment, which is no block comment. -/
theorem comment {t : Text} (ht : ∀ x ∈ t, x ≠ '\n') (h : Silent stack ('\n' :: u) stack') :
    Silent stack ('%' :: ' ' :: t ++ '\n' :: u) stack' := by
  apply lexeme (k := .lineComment) rfl _ h
  intro text p v hd
  have hline : restOfLine (' ' :: t ++ ('\n' :: u ++ v)) = ' ' :: t := by
    apply takeWhile_run
    · simpa using ht
    · exact notAhead_cons rfl
  have hread : Lexeme.read false (text.take p).reverse '%' (' ' :: t ++ ('\n' :: u ++ v)) =
      (.lineComment, (restOfLine (' ' :: t ++ ('\n' :: u ++ v))).length) := rfl
  rw [Lexeme.at?, hd, List.cons_append]
  simp only [hread, hline, List.take_left]
  rw [Nat.add_assoc, Nat.add_comm 1]
  rfl

/-- A word behind a bracket. -/
theorem word {b : Bracket} {w : Text} (hw : IsIdentifier w) (hc : isWord c = false)
    (h : Silent (b :: stack) (c :: u) stack') : Silent (b :: stack) (w ++ c :: u) stack' := by
  intro text p v hd
  rw [List.append_assoc] at hd
  have hat : Lexeme.at? text false p = _ :=
    Lexeme.at?_word hd hw (notAhead_cons hc)
  rw [scan_step hat, List.length_append, ← Nat.add_assoc]
  exact h text (p + w.length) v (drop_add_length hd)

/-- Names in brackets. -/
theorem names {b : Bracket} {ns : List Text} (hns : ∀ n ∈ ns, IsIdentifier n)
    (hc : isWord c = false) (h : Silent (b :: stack) (c :: u) stack') :
    Silent (b :: stack) (joinWith ", ".toList ns ++ c :: u) stack' := by
  induction ns with
  | nil => exact h
  | cons n ns ih =>
    obtain ⟨hn, hns⟩ := List.forall_mem_cons.1 hns
    cases ns with
    | nil => exact word hn hc h
    | cons m ns =>
      have hcut : joinWith ", ".toList (n :: m :: ns) ++ c :: u =
          n ++ ',' :: (' ' :: (joinWith ", ".toList (m :: ns) ++ c :: u)) := by simp
      rw [hcut]
      apply word hn rfl
      apply char (fun _ _ => rfl) rfl
      exact char (fun _ _ => rfl) rfl (ih hns)

/-- The name of a function, which is no keyword after an equals sign. -/
theorem name (d : Declaration) (hc : isWord c = false) (h : Silent [] (c :: u) stack') :
    Silent [] ('=' :: ' ' :: (d.name ++ c :: u)) stack' := by
  intro text p v hd
  have hcut : text.drop p = ['=', ' '] ++ (d.name ++ (c :: u ++ v)) := by
    rw [hd]
    simp
  have hbefore : (text.take (p + 2)).reverse = ' ' :: '=' :: (text.take p).reverse := by
    have htake := take_add_length hcut
    rw [List.length_cons, List.length_singleton] at htake
    rw [htake, List.reverse_append]
    rfl
  have hnone : Keyword.here? (text.take (p + 2)).reverse d.name (c :: u ++ v) = none := by
    apply Keyword.here?_of_free d.name_free
    rw [hbefore]
    rfl
  have hat : Lexeme.at? text false (p + 2) = some (.word none, p + 2 + d.name.length) := by
    rw [← hnone]
    exact Lexeme.at?_word (drop_add_length hcut) d.name_identifier (notAhead_cons hc)
  have hequals : scan text false [] p = scan text false [] (p + 2) :=
    char (fun _ _ => rfl) rfl (char (fun _ _ => rfl) rfl nil) text p _ hcut
  rw [hequals, scan_step hat]
  have hlen : p + ('=' :: ' ' :: (d.name ++ c :: u)).length =
      p + 2 + d.name.length + (c :: u).length := by
    simp only [List.length_cons, List.length_append]
    omega
  rw [hlen]
  exact h text (p + 2 + d.name.length) v (drop_add_length (drop_add_length hcut))

theorem docLine (depth : Nat) (d : Declaration) : Silent [] (d.docLine depth) [] := by
  cases hdoc : d.doc with
  | none =>
    rw [Declaration.docLine, hdoc]
    exact nil
  | some t =>
    have hcut : d.docLine depth = indent depth ++ ('%' :: ' ' :: t ++ '\n' :: []) := by
      simp [Declaration.docLine, hdoc]
    rw [hcut]
    apply blanks isBlank_of_mem_indent
    apply comment (d.doc_description t hdoc).single
    exact char (fun _ _ => rfl) rfl nil

/-- After its keyword, the lines that open a function report nothing. -/
theorem opening (depth : Nat) (d : Declaration) :
    Silent [] ([' '] ++ (d.returnClause ++ ([' '] ++ d.name ++ d.argClause)) ++
      '\n' :: d.docLine depth) [] := by
  have hcut : [' '] ++ (d.returnClause ++ ([' '] ++ d.name ++ d.argClause)) ++
      '\n' :: d.docLine depth = ' ' :: '[' :: (joinWith ", ".toList d.returns ++
        ']' :: ' ' :: '=' :: ' ' :: (d.name ++ '(' :: (joinWith ", ".toList d.args ++
          ')' :: '\n' :: d.docLine depth))) := by
    simp [Declaration.returnClause, Declaration.argClause]
  rw [hcut]
  apply char (fun _ _ => rfl) rfl
  apply char (k := .opening .square) (fun _ _ => rfl) rfl
  apply names d.returns_identifier rfl
  apply char (k := .closing) (fun _ _ => rfl) rfl
  apply char (fun _ _ => rfl) rfl
  apply name d rfl
  apply char (k := .opening .round) (fun _ _ => rfl) rfl
  apply names d.args_identifier rfl
  apply char (k := .closing) (fun _ _ => rfl) rfl
  apply char (k := .newline) (fun _ _ => rfl) rfl
  exact docLine depth d

end Silent
end Mark

namespace Declarations

section Pieces

variable {text rest : Text} {depth p : Nat} {d : Declaration} {cs fs : Declarations}

theorem startsLine_children (hline : Header.startsLine text p = true)
    (hd : text.drop p = print depth (.node d cs fs) ++ rest) :
    Header.startsLine text (p + (d.opening depth).length) = true := by
  apply Header.startsLine_add_length hline (drop_opening hd)
  rw [Declaration.getLast?_opening]
  simp

theorem startsLine_end (hline : Header.startsLine text p = true)
    (hd : text.drop p = print depth (.node d cs fs) ++ rest) :
    Header.startsLine text (p + (d.opening depth).length + (print (depth + 1) cs).length) = true :=
  Header.startsLine_add_length (startsLine_children hline hd) (drop_children hd)
    (getLast?_print _ _)

theorem startsLine_others (hd : text.drop p = print depth (.node d cs fs) ++ rest) :
    Header.startsLine text (p + (extent depth d cs).length + 1) = true := by
  rw [Header.startsLine_succ (drop_add_length (drop_extent hd))]
  rfl

/-- The lines that open a function report its keyword and nothing else. -/
theorem scan_opening (hline : Header.startsLine text p = true)
    (hd : text.drop p = print depth (.node d cs fs) ++ rest) (fresh : Bool) :
    Mark.scan text fresh [] p = ⟨.opener .function, p + (indent depth).length⟩ ::
      Mark.scan text false [] (p + (d.opening depth).length) := by
  have hsilent := Mark.Silent.opening depth d
  generalize hafter : [' '] ++ (d.returnClause ++ ([' '] ++ d.name ++ d.argClause)) ++
    '\n' :: d.docLine depth = after at hsilent
  have hopening : d.opening depth = indent depth ++ ("function".toList ++ after) := by
    rw [Declaration.opening, d.headerLine_eq, ← hafter]
    simp
  have hcut : text.drop p = indent depth ++ ("function".toList ++ (after ++ (print (depth + 1) cs ++
      (indent depth ++ "end".toList ++ '\n' :: (print depth fs ++ rest))))) := by
    rw [drop_opening hd, hopening]
    simp only [List.append_assoc]
  have hopen : Mark.scan text fresh [] p = ⟨.opener .function, p + (indent depth).length⟩ ::
      Mark.scan text false [] (p + (indent depth).length + "function".toList.length) :=
    Mark.scan_indented (k := .opener .function) (by simp) hline hcut isBlank_of_mem_indent
      (hafter ▸ notAhead_cons rfl) fresh
  rw [hopen, hsilent text _ _ (drop_add_length (drop_add_length hcut)), hopening,
    List.length_append, List.length_append, Nat.add_assoc, Nat.add_assoc]

/-- The line that closes a function reports its `end`. -/
theorem scan_end (hline : Header.startsLine text p = true)
    (hd : text.drop p = print depth (.node d cs fs) ++ rest) :
    ∃ t, t + 3 = p + (extent depth d cs).length ∧
      Mark.scan text false [] (p + (d.opening depth).length + (print (depth + 1) cs).length) =
        ⟨.close, t⟩ :: Mark.scan text false [] (p + (extent depth d cs).length) := by
  have hend := drop_end hd
  rw [List.append_assoc] at hend
  have hclose := Mark.scan_indented (k := .close) (by simp) (startsLine_end hline hd) hend
    isBlank_of_mem_indent (notAhead_cons rfl) false
  have hstop : p + (d.opening depth).length + (print (depth + 1) cs).length +
      (indent depth).length + 3 = p + (extent depth d cs).length := by
    rw [length_extent]
    omega
  refine ⟨_, hstop, ?_⟩
  rw [hclose, ← hstop]
  rfl

end Pieces

/-- The marks of printed declarations are balanced. -/
theorem scan_print {text rest : Text} {depth p : Nat} (f : Declarations)
    (hline : Header.startsLine text p = true) (hd : text.drop p = print depth f ++ rest) :
    ∃ ms, Block.Balanced ms ∧ Mark.scan text false [] p =
      ms ++ Mark.scan text false [] (p + (print depth f).length) := by
  induction f generalizing depth p rest with
  | nil => exact ⟨[], .nil, rfl⟩
  | node d cs fs hc hf =>
    obtain ⟨ms, hms, hscan⟩ := hc (startsLine_children hline hd) (drop_children hd)
    obtain ⟨ns, hns, hrest⟩ := hf (startsLine_others hd) (drop_others hd)
    obtain ⟨t, -, hend⟩ := scan_end hline hd
    have hnewline : Mark.scan text false [] (p + (extent depth d cs).length) =
        Mark.scan text false [] (p + (extent depth d cs).length + 1) :=
      Mark.Silent.char (u := []) (k := .newline) (fun _ _ => rfl) rfl .nil text _ _
        (drop_add_length (drop_extent hd))
    have hbalanced : Block.Balanced
        (⟨.opener .function, p + (indent depth).length⟩ :: ms ++ ⟨.close, t⟩ :: ns) :=
      .block hms hns
    refine ⟨_, hbalanced, ?_⟩
    rw [scan_opening hline hd, hscan, hend, hnewline, hrest, length_print_node]
    simp [Nat.add_assoc]

/-- A printed function ends with the `end` printed for it. -/
theorem stop_print {text rest : Text} {depth p : Nat} {d : Declaration} {cs fs : Declarations}
    (hline : Header.startsLine text p = true)
    (hd : text.drop p = print depth (.node d cs fs) ++ rest) :
    Block.stop text p = .ok (p + (extent depth d cs).length) := by
  obtain ⟨ms, hms, hscan⟩ := scan_print cs (startsLine_children hline hd) (drop_children hd)
  obtain ⟨t, hstop, hend⟩ := scan_end hline hd
  rw [Block.stop, Mark.all_eq_scan, scan_opening hline hd, hscan, hend, Block.close_opener,
    hms.close_append, ← hstop]
  rfl

end Declarations
end MatlabOutline
