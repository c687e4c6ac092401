import MatlabOutline.Command.Run
import MatlabOutline.Proofs.Extent
import MatlabOutline.Proofs.Trimming
import MatlabOutline.Proofs.LineBreaks

/-! The listing of an outline, read line by line. The name and the arguments of a function never hold
a line break, but its description is cut only at a newline and may hold any other. So a function is
listed on one line exactly if its description holds no line break. -/
namespace MatlabOutline
open Text

namespace Text

variable {t : Text}

/-- What is left after trimming ends in a character that is no white space. -/
theorem endsUnbroken_trimRight (h : trimRight t ≠ []) : EndsUnbroken (trimRight t) := by
  have hlast := List.getLast?_eq_some_getLast h
  exact ⟨_, hlast, isLineBreak_of_not_isSpace (endsInk_trimRight t _ hlast)⟩

theorem unbroken_joinWith {sep : Text} {ts : List Text} (hsep : Unbroken sep)
    (h : ∀ t ∈ ts, Unbroken t) : Unbroken (joinWith sep ts) := by
  intro c hc
  rcases mem_joinWith hc with hc | ⟨t, ht, hc⟩
  · exact hsep c hc
  · exact h t ht c hc

theorem unbroken_times {n : Nat} (h : Unbroken t) : Unbroken (times n t) :=
  fun c hc => h c (mem_times hc)

/-- Lines that are printed with an indent are counted by their newlines. -/
theorem count_newline_flatMap {ls : List Text} (h : ∀ l ∈ ls, '\n' ∉ l) :
    (ls.flatMap fun l => "  ".toList ++ l ++ "\n".toList).count '\n' = ls.length := by
  induction ls with
  | nil => rfl
  | cons l ls ih =>
    obtain ⟨hl, hls⟩ := List.forall_mem_cons.1 h
    have hone : ("  ".toList ++ l ++ "\n".toList).count '\n' = 1 := by
      rw [List.count_append, List.count_append, List.count_eq_zero_of_not_mem hl]
      rfl
    rw [List.flatMap_cons, List.count_append, ih hls, hone, List.length_cons, Nat.add_comm]

theorem Unbroken.newline_not_mem (h : Unbroken t) : '\n' ∉ t :=
  fun hmem => absurd (h _ hmem) (by decide)

theorem Unbroken.sublist {u : Text} (h : Unbroken t) (hu : u.Sublist t) : Unbroken u :=
  fun c hc => h c (hu.mem hc)

end Text

namespace Docstring

theorem newline_not_mem_comment? {t s : Text} (h : comment? t = some s) : '\n' ∉ s := by
  unfold comment? at h
  split at h
  · rw [← Option.some.inj h]
    exact fun hmem => ne_newline_of_mem_restOfLine _ hmem rfl
  · cases h

theorem newline_not_mem_tagged? {t s : Text} (h : tagged? t = some s) : '\n' ∉ s := by
  unfold tagged? at h
  split at h
  · split_ifs at h
    rw [← Option.some.inj h]
    exact fun hmem => ne_newline_of_mem_restOfLine _ hmem rfl
  · cases h

theorem newline_not_mem_of_mem_candidates {text s : Text} {pos : Int}
    (h : some s ∈ candidates text pos) : '\n' ∉ s := by
  simp only [candidates, List.mem_cons, List.not_mem_nil, or_false] at h
  rcases h with h | h | h
  · exact newline_not_mem_tagged? h.symm
  · obtain ⟨u, -, hu⟩ := Option.bind_eq_some_iff.1 h.symm
    exact newline_not_mem_comment? hu
  · obtain ⟨u, -, hu⟩ := Option.bind_eq_some_iff.1 h.symm
    exact newline_not_mem_comment? hu

/-- A description is taken from one line, without the white space at its end. -/
theorem exists_of_find? {text d : Text} {pos : Int} (h : find? text pos = some d) :
    ∃ s, some s ∈ candidates text pos ∧ d = trimRight s ∧ d ≠ [] := by
  rw [find?] at h
  split at h
  · cases h
  · rename_i s hs
    split_ifs at h with hempty
    obtain rfl := Option.some.inj h
    obtain ⟨o, ho, rfl⟩ := List.exists_of_findSome?_eq_some hs
    exact ⟨s, ho, rfl, fun hnil => hempty (by rw [hnil]; rfl)⟩

/-- A tag word is on one line, in lower case too. -/
theorem isLineBreak_toLower_of_isTagChar {c : Char} (h : isTagChar c = true) :
    isLineBreak c.toLower = false := by
  have hascii : ∀ n < 0x80, isTagChar (Char.ofNat n) = true →
      isLineBreak (Char.ofNat n).toLower = false := by
    decide +kernel
  have hlt : c.toNat < 0x80 := by
    simp only [isTagChar, Bool.or_eq_true, beq_iff_eq] at h
    rcases h with (hupper | hdigit) | rfl
    · exact toNat_lt_of_isAlpha (Bool.or_eq_true_iff.2 (.inl hupper))
    · have hle : c.val ≤ '9'.val := (of_decide_eq_true (Bool.and_eq_true_iff.1 hdigit).2)
      exact Nat.lt_of_le_of_lt (UInt32.le_iff_toNat_le.1 hle) (by decide)
    · decide
  have hc := hascii c.toNat hlt
  rw [Char.ofNat_toNat] at hc
  exact hc h

end Docstring

namespace Builtin

theorem unbroken_of_ofLine? {line name description : Text} (hline : Unbroken line)
    (h : ofLine? line = some (name, description)) : Unbroken name ∧ Unbroken description := by
  rw [ofLine?] at h
  split at h
  · rename_i t ht
    dsimp only at h
    split_ifs at h with hfits
    obtain ⟨rfl, rfl⟩ := Prod.mk.inj (Option.some.inj h)
    have hrest : Unbroken t := by
      have hdrop := hline.sublist (List.dropWhile_sublist isBlank)
      rw [ht] at hdrop
      exact (unbroken_cons_iff.1 hdrop).2
    constructor
    · intro c hc
      obtain ⟨a, ha, rfl⟩ := List.mem_map.1 hc
      exact Docstring.isLineBreak_toLower_of_isTagChar (List.mem_takeWhile_imp ha)
    · apply hrest.sublist
      have hdrop := (List.dropWhile_sublist isBlank (l := t.dropWhile Docstring.isTagChar)).trans
        (List.dropWhile_sublist _)
      have htrim := (List.dropWhile_sublist isTrailingBlank
        (l := ((t.dropWhile Docstring.isTagChar).dropWhile isBlank).reverse)).reverse
      rw [List.reverse_reverse] at htrim
      exact htrim.trans hdrop
  · cases h

end Builtin

namespace FunctionEntry

/-- What holds of every function that is found in a text. Its description does not end at a line
break, but may hold one that is no newline. -/
structure Legible (e : FunctionEntry) : Prop where
  name : Unbroken e.name
  args : ∀ a ∈ e.args, Unbroken a
  docstring : ∀ d ∈ e.docstring, EndsUnbroken d ∧ '\n' ∉ d

/-- The description, if there is one, is a single line. -/
def DescribedOnOneLine (e : FunctionEntry) : Prop := ∀ d ∈ e.docstring, Unbroken d

section Summary

variable {e : FunctionEntry}

theorem Legible.unbroken_prototype (h : e.Legible) : Unbroken e.prototype := by
  have hlist : Unbroken (if e.args.isEmpty then "arguments unavailable".toList
      else joinWith ", ".toList e.args) := by
    split_ifs
    · decide
    · exact unbroken_joinWith (by decide) h.args
  have hmark : Unbroken (if e.builtin then " [builtin]".toList else []) := by
    split_ifs <;> decide
  simp only [FunctionEntry.prototype, MatlabOutline.prototype, unbroken_append_iff]
  exact ⟨⟨⟨⟨h.name, hmark⟩, by decide⟩, hlist⟩, by decide⟩

theorem Legible.endsUnbroken_summary (h : e.Legible) : EndsUnbroken e.summary := by
  have hproto : EndsUnbroken e.prototype := EndsUnbroken.append ⟨')', rfl, by decide⟩ _
  unfold summary
  split
  · rename_i c d hd
    exact (h.docstring _ hd).1.append _
  · exact hproto

theorem Legible.newline_not_mem_summary (h : e.Legible) : '\n' ∉ e.summary := by
  have hproto := h.unbroken_prototype.newline_not_mem
  unfold summary
  split
  · rename_i c d hd
    have hdash : '\n' ∉ "  -- ".toList := by decide
    simp only [List.mem_append, not_or]
    exact ⟨⟨hproto, hdash⟩, (h.docstring _ hd).2⟩
  · exact hproto

theorem Legible.unbroken_summary_iff (h : e.Legible) :
    Unbroken e.summary ↔ e.DescribedOnOneLine := by
  unfold summary DescribedOnOneLine
  split
  · rename_i c d hd
    have hdash : Unbroken "  -- ".toList := by decide
    rw [unbroken_append_iff, unbroken_append_iff, hd]
    simp only [h.unbroken_prototype, hdash, Option.mem_some_iff, forall_eq', true_and]
  · rename_i hnone
    refine iff_of_true h.unbroken_prototype fun d hd => ?_
    obtain ⟨c, u, rfl⟩ := List.exists_cons_of_ne_nil (h.docstring d hd).1.ne_nil
    exact absurd hd (hnone c u)

/-- The end of an entry has no part in its listing. -/
theorem Legible.of_sameButStop {a : FunctionEntry} (h : e.Legible)
    (ha : Outline.SameButStop a e) : a.Legible := by
  rw [ha]
  exact ⟨h.name, h.args, h.docstring⟩

theorem legible_ofHeader {text : Text} {dialect : Dialect} {h : Header}
    (hp : Header.at? text h.start = some h) : (ofHeader text dialect h).Legible := by
  obtain ⟨s, hs, hread⟩ := Option.map_eq_some_iff.1 (Header.at?_eq_some_iff.1 hp).2
  obtain ⟨-, -, hname, -⟩ := Header.signature?_pieces hs
  refine ⟨?_, ?_, ?_⟩
  · intro c hc
    rw [ofHeader, ← hread] at hc
    exact isLineBreak_of_isWord (hname.2 c hc)
  · intro a ha c hc
    have hsep := ne_of_mem_splitWhere a (List.mem_filter.1 ha).1 c hc
    exact isLineBreak_of_not_isSpace (Bool.or_eq_false_iff.1 hsep).2
  · intro d hd
    obtain ⟨s, hs, rfl, hne⟩ := Docstring.exists_of_find? hd
    have hsub : (trimRight s).Sublist s := by
      have hrev := (List.dropWhile_sublist isSpace (l := s.reverse)).reverse
      rwa [List.reverse_reverse] at hrev
    exact ⟨endsUnbroken_trimRight hne,
      fun hmem => Docstring.newline_not_mem_of_mem_candidates hs (hsub.mem hmem)⟩

theorem legible_ofBuiltin {text name description : Text}
    (h : Builtin.find? text = some (name, description)) : (ofBuiltin name description).Legible := by
  obtain ⟨l, hl, hline⟩ := Option.bind_eq_some_iff.1 h
  obtain ⟨hname, hdescription⟩ :=
    Builtin.unbroken_of_ofLine? (unbroken_of_mem_splitLines l (List.mem_of_find?_eq_some hl)) hline
  refine ⟨hname, by simp [ofBuiltin], fun d hd => ?_⟩
  simp only [ofBuiltin] at hd
  split_ifs at hd with hempty
  · cases hd
  · obtain rfl := Option.some.inj hd
    exact ⟨hdescription.endsUnbroken fun hnil => hempty (by rw [hnil]; rfl),
      hdescription.newline_not_mem⟩

end Summary

end FunctionEntry

namespace Outline

/-- Every entry of a nested forest comes from one of the entries, and only its end may differ. -/
theorem exists_of_mem_nest {es : List FunctionEntry} {b : Int} {a : FunctionEntry}
    (h : a ∈ (nest es b).flatten) : ∃ e ∈ es, SameButStop a e := by
  have hpairs := (nests_nest es b).flatten
  obtain ⟨i, hi, rfl⟩ := List.mem_iff_getElem.1 h
  have hlen := hpairs.length_eq
  refine ⟨(inside b es).get ⟨i, by omega⟩, (mem_inside (List.get_mem _ _)).1, ?_⟩
  exact hpairs.get hi (by omega)

section Listing

variable {indent : Text} {outline : Outline}

theorem exists_of_mem_listingLines {l : Text} (h : l ∈ listingLines indent outline) :
    ∃ depth, ∃ e ∈ outline.flatten, l = times depth indent ++ e.summary := by
  obtain ⟨⟨depth, e⟩, he, rfl⟩ := List.mem_map.1 h
  refine ⟨depth, e, ?_, rfl⟩
  rw [← Forest.map_snd_withDepths 0]
  exact List.mem_map_of_mem he

theorem endsUnbroken_of_mem_listingLines (h : ∀ e ∈ outline.flatten, e.Legible) :
    ∀ l ∈ listingLines indent outline, EndsUnbroken l := by
  intro l hl
  obtain ⟨depth, e, he, rfl⟩ := exists_of_mem_listingLines hl
  exact (h e he).endsUnbroken_summary.append _

theorem newline_not_mem_of_mem_listingLines (h : ∀ e ∈ outline.flatten, e.Legible)
    (hindent : Unbroken indent) : ∀ l ∈ listingLines indent outline, '\n' ∉ l := by
  intro l hl
  obtain ⟨depth, e, he, rfl⟩ := exists_of_mem_listingLines hl
  rw [List.mem_append, not_or]
  exact ⟨(unbroken_times hindent).newline_not_mem, (h e he).newline_not_mem_summary⟩

theorem unbroken_listingLines_iff (h : ∀ e ∈ outline.flatten, e.Legible)
    (hindent : Unbroken indent) :
    (∀ l ∈ listingLines indent outline, Unbroken l) ↔
      ∀ e ∈ outline.flatten, e.DescribedOnOneLine := by
  rw [← Forest.map_snd_withDepths 0] at h ⊢
  rw [listingLines, List.forall_mem_map, List.forall_mem_map] at *
  refine forall₂_congr fun e he => ?_
  rw [unbroken_append_iff, and_iff_right (unbroken_times hindent), (h e he).unbroken_summary_iff]

end Listing

end Outline

namespace Source

theorem legible_of_mem_entries (s : Source) : ∀ e ∈ s.entries.1, e.Legible := by
  intro e he
  by_cases hh : Header.all s.text = []
  · rw [entries_of_no_headers hh, Option.mem_toList] at he
    obtain ⟨⟨name, description⟩, hb, rfl⟩ := Option.map_eq_some_iff.1 he
    refine @FunctionEntry.legible_ofBuiltin s.text name description ?_
    unfold builtin? at hb
    split at hb
    · cases hb
    · split_ifs at hb
      exact hb
  · rw [entries_of_headers hh] at he
    obtain ⟨h, hp, rfl⟩ := FunctionEntry.mem_ofHeaders he
    exact FunctionEntry.legible_ofHeader hp

theorem legible_of_mem_outline (s : Source) : ∀ e ∈ s.outline.1.flatten, e.Legible := by
  intro e he
  obtain ⟨a, ha, hsame⟩ := Outline.exists_of_mem_nest he
  exact (s.legible_of_mem_entries a ha).of_sameButStop hsame

/-- The outline of a source, line by line. In the listing every function takes up the lines that its
summary falls into. Each function has one line of its own, with its indent and its summary, exactly
if no description holds a line break; the number of lines tells the same, and so does what the
command prints below the path. -/
theorem one_line_each_iff (s : Source) (name path : Text) :
    splitLines (s.outline.1.listing "  ".toList) =
      (s.outline.1.withDepths 0).flatMap
        (fun e => splitLines (times e.1 "  ".toList ++ e.2.summary)) ∧
    (splitLines (s.outline.1.listing "  ".toList) =
        (s.outline.1.withDepths 0).map (fun e => times e.1 "  ".toList ++ e.2.summary) ↔
      ∀ e ∈ s.outline.1.flatten, e.DescribedOnOneLine) ∧
    ((splitLines (s.outline.1.listing "  ".toList)).length = s.outline.1.flatten.length ↔
      ∀ e ∈ s.outline.1.flatten, e.DescribedOnOneLine) ∧
    (Command.listing (Module.ofSource name path s).1 =
        path ++ ":\n".toList ++ (s.outline.1.withDepths 0).flatMap
          (fun e => "  ".toList ++ (times e.1 "  ".toList ++ e.2.summary) ++ "\n".toList) ↔
      ∀ e ∈ s.outline.1.flatten, e.DescribedOnOneLine) := by
  have hlegible := s.legible_of_mem_outline
  have hindent : Unbroken "  ".toList := by decide
  have hends := @Outline.endsUnbroken_of_mem_listingLines "  ".toList _ hlegible
  have hlines : ∀ l ∈ Outline.listingLines "  ".toList s.outline.1, '\n' ∉ l :=
    Outline.newline_not_mem_of_mem_listingLines hlegible hindent
  have hsplit : splitLines (s.outline.1.listing "  ".toList) =
      (Outline.listingLines "  ".toList s.outline.1).flatMap splitLines :=
    splitLines_joinWith hends
  have hlength : s.outline.1.flatten.length =
      (Outline.listingLines "  ".toList s.outline.1).length := by
    rw [Outline.length_listingLines, Forest.length_flatten]
  have hequal := hsplit ▸ flatMap_splitLines_eq_iff hends
  have hcount := hsplit ▸ length_flatMap_splitLines_eq_iff hends
  rw [Outline.unbroken_listingLines_iff hlegible hindent] at hequal hcount
  refine ⟨?_, hequal, hlength ▸ hcount, ?_⟩
  · rw [hsplit, Outline.listingLines, List.flatMap_map]
  · have hprinted : (s.outline.1.withDepths 0).flatMap
          (fun e => "  ".toList ++ (times e.1 "  ".toList ++ e.2.summary) ++ "\n".toList) =
        (Outline.listingLines "  ".toList s.outline.1).flatMap
          fun l => "  ".toList ++ l ++ "\n".toList := by
      rw [Outline.listingLines, List.flatMap_map]
    have hlisting : Command.listing (Module.ofSource name path s).1 = path ++ ":\n".toList ++
        (splitLines (s.outline.1.listing "  ".toList)).flatMap
          fun l => "  ".toList ++ l ++ "\n".toList := rfl
    rw [hlisting, hprinted, List.append_right_inj]
    constructor
    · intro htext
      have hnewlines := congrArg (List.count '\n') htext
      rw [count_newline_flatMap hlines, count_newline_flatMap fun l hl =>
        (unbroken_of_mem_splitLines l hl).newline_not_mem] at hnewlines
      exact hcount.1 hnewlines
    · intro hall
      rw [hequal.2 hall]

/-- A function whose description holds a form feed. -/
def pagedDescription : Source :=
  ⟨"function f\n% a\x0cg (x)\nend\n".toList, none, [], none⟩

/-- One function, but two lines of the listing, the second of which looks like a function. -/
theorem pagedDescription_on_two_lines :
    pagedDescription.outline.1.flatten.length = 1 ∧
    splitLines (pagedDescription.outline.1.listing "  ".toList) =
      ["f (arguments unavailable)  -- a".toList, "g (x)".toList] := by
  constructor <;> decide +kernel

end Source
end MatlabOutline
