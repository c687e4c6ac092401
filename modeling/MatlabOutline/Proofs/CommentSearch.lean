import MatlabOutline.Proofs.Trimming
import MatlabOutline.Proofs.DescribedFunctions

/-! The three ways of finding the comment that describes a function. Each of them finds a comment
wherever the one before it does, and the last two find the same, so the search could do without the
second. Whichever way counts, the description stands in a comment that nothing but white space parts
from the end of the line. -/
namespace MatlabOutline.Docstring
open Text

/-- The description among the comments found: the first counts, and an empty one is none. -/
def choose (found : List (Option Text)) : Option Text :=
  match found.findSome? id with
  | none => none
  | some s => if (trimRight s).isEmpty then none else some (trimRight s)

/-- The first newline of a text at or after an offset. -/
structure IsFirstNewline (text : Text) (pos n : Nat) : Prop where
  le : pos ≤ n
  newline : text[n]? = some '\n'
  first : ∀ q, pos ≤ q → q < n → text[q]? ≠ some '\n'

/-- A comment sign at `c`, with nothing but white space between it and the newline at `n`. -/
structure IsCommentAfter (text : Text) (n c : Nat) : Prop where
  lt : n < c
  sign : text[c]? = some '%'
  space : ∀ q, n < q → q < c → ∃ x ∈ text[q]?, isSpace x = true

/-- A description in the line of a comment, after its sign. -/
structure IsDescriptionAfter (text : Text) (c : Nat) (d : Text) : Prop where
  ne_nil : d ≠ []
  newline_not_mem : '\n' ∉ d
  endsInk : EndsInk d
  inLine : d <:+: restOfLine (text.drop (c + 1))

section Ways

variable {t s : Text}

theorem candidates_natCast (text : Text) (pos : Nat) :
    candidates text pos =
      [tagged? (text.drop pos), plain? (text.drop pos), first? (text.drop pos)] := by
  rw [candidates, Int.toNat_natCast, fromEnd_natCast]

/-- A tag word stands in a comment on the next line. -/
theorem isSome_plain?_of_tagged? (h : tagged? t = some s) : (plain? t).isSome = true := by
  unfold tagged? at h
  split at h
  · rename_i v hv
    obtain ⟨u, hu, hline⟩ := Option.map_eq_some_iff.1 hv
    rw [plain?, hu, Option.bind_some, hline]
    rfl
  · cases h

/-- The blanks before a comment on the next line are all the white space before it. -/
theorem first?_of_plain? (h : plain? t = some s) : first? t = some s := by
  obtain ⟨u, hu, hcomment⟩ := Option.bind_eq_some_iff.1 h
  obtain ⟨v, hv, -⟩ := suffix_of_comment? hcomment
  have hspaces : ∀ c ∈ u.takeWhile isBlank, isSpace c = true :=
    fun c hc => isSpace_of_isBlank (List.mem_takeWhile_imp hc)
  have hcut : u = u.takeWhile isBlank ++ '%' :: v := by
    rw [← hv, List.takeWhile_append_dropWhile]
  have hdrop : u.dropWhile isSpace = '%' :: v := by
    rw [hcut]
    exact dropWhile_run hspaces (notAhead_cons (by decide))
  rw [first?, hu, Option.bind_some, hdrop, ← hv, hcomment]

/-- A way that finds nothing new may be left out. -/
theorem choose_of_imp {a b c : Option Text} (h : ∀ s, b = some s → c = some s) :
    choose [a, b, c] = choose [a, c] := by
  cases b with
  | none => cases a <;> rfl
  | some s =>
    rw [h s rfl]
    cases a <;> rfl

end Ways

/-- A text below which there is a comment goes on after the offset. -/
theorem CommentBelow.le_length {text s : Text} {pos : Nat} (h : CommentBelow (text.drop pos) s) :
    pos ≤ text.length := by
  obtain ⟨spaces, v, hcut, -, -⟩ := h
  by_contra hlt
  rw [List.drop_of_length_le (by omega)] at hcut
  simp at hcut

/-- Where a description stands. -/
theorem exists_isDescriptionAfter {text d : Text} {pos : Nat} (h : find? text pos = some d) :
    ∃ n c, IsFirstNewline text pos n ∧ IsCommentAfter text n c ∧ IsDescriptionAfter text c d := by
  obtain ⟨s, hs, rfl, hne⟩ := exists_of_find? h
  have hbelow := commentBelow_of_mem_candidates hs
  have hpos := hbelow.le_length
  obtain ⟨hnewline, c, v, hlt, hcomment, hspaces, hsuffix⟩ := hbelow.exists_place hpos
  have hline : text.drop (c + 1) = v := by
    rw [← List.drop_drop, hcomment]
    rfl
  refine ⟨endOfLine text pos, c, ⟨le_endOfLine hpos, hnewline, ?_⟩, ⟨hlt, ?_, ?_⟩, hne, ?_,
    endsInk_trimRight s, ?_⟩
  · exact fun q hle hq hget => ne_newline_of_lt_endOfLine hle hq hget rfl
  · rw [← List.head?_drop, hcomment]
    rfl
  · exact fun q hq hqc => hspaces q (Nat.le_of_lt hq) hqc
  · exact fun hmem => newline_not_mem_of_mem_candidates hs ((trimRight_isPrefix s).subset hmem)
  · rw [hline]
    exact (trimRight_isPrefix s).isInfix.trans hsuffix.isInfix

/-- The ways of finding a description form a chain, of which the second may be left out, and a
description always stands in the comment below the line. -/
theorem candidates_chain (text : Text) (pos : Nat) :
    candidates text pos =
      [tagged? (text.drop pos), plain? (text.drop pos), first? (text.drop pos)] ∧
    ((tagged? (text.drop pos)).isSome = true → (plain? (text.drop pos)).isSome = true) ∧
    (∀ s, plain? (text.drop pos) = some s → first? (text.drop pos) = some s) ∧
    find? text pos = choose [tagged? (text.drop pos), first? (text.drop pos)] ∧
    ∀ d, find? text pos = some d →
      ∃ n c, IsFirstNewline text pos n ∧ IsCommentAfter text n c ∧ IsDescriptionAfter text c d := by
  have hcandidates := candidates_natCast text pos
  have hfind : find? text pos = choose (candidates text pos) := rfl
  refine ⟨hcandidates, fun htag => ?_, fun s => first?_of_plain?, ?_,
    fun d => exists_isDescriptionAfter⟩
  · obtain ⟨s, hs⟩ := Option.isSome_iff_exists.1 htag
    exact isSome_plain?_of_tagged? hs
  · rw [hfind, hcandidates]
    exact choose_of_imp fun s => first?_of_plain?

end MatlabOutline.Docstring
