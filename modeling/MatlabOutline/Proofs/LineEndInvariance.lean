import MatlabOutline.Proofs.CommentedFunctions
import MatlabOutline.Proofs.UnclosedFunctions
import MatlabOutline.Proofs.LineEndHeaders
import MatlabOutline.Proofs.LineEndScan

/-! The outline of a text with line ends of two characters. It has the shape of the outline of the
text with newlines, and every function has the same name, clauses and description, unless a header
is divided between its keyword and its clause or name: such a header is lost. -/
namespace MatlabOutline
open Text

namespace Text

/-- Under every kind of line break the two characters are one break. -/
theorem splitLines_crlf {t : Text} (ht : '\r' ∉ t) : splitLines (crlf t) = splitLines t := by
  induction t with
  | nil => rfl
  | cons c t ih =>
    rw [List.mem_cons, not_or] at ht
    by_cases hn : c = '\n'
    · subst hn
      rw [splitLines_break (by decide) (fun h => absurd h (by decide)), ← ih ht.2]
      rfl
    · rw [crlf_cons hn]
      cases hc : isLineBreak c with
      | true =>
        have hr : c ≠ '\r' := Ne.symm ht.1
        rw [splitLines_break hc (fun h => absurd h hr), splitLines_break hc (fun h => absurd h hr),
          ih ht.2]
      | false => rw [splitLines_cons hc, splitLines_cons hc, ih ht.2]

/-- Offsets of any sign, carried in the same order. -/
def crlfPlace (text : Text) (x : Int) : Int := x + ((text.take x.toNat).count '\n' : Nat)

theorem crlfPlace_natCast (text : Text) (p : Nat) : crlfPlace text p = crlfOffset text p := by
  rw [crlfPlace, crlfOffset, Int.toNat_natCast, Int.natCast_add]

theorem crlfPlace_lt (text : Text) (x y : Int) (hxy : x < y) :
    crlfPlace text x < crlfPlace text y := by
  have hle : (text.take x.toNat).count '\n' ≤ (text.take y.toNat).count '\n' :=
    (List.take_sublist_take_left (by omega)).count_le '\n'
  rw [crlfPlace, crlfPlace]
  omega

end Text

namespace Forest

variable {α β : Type}

theorem map_ofRoots (f : α → β) (as : List α) : (ofRoots as).map f = ofRoots (as.map f) := by
  induction as with
  | nil => rfl
  | cons a as ih => rw [ofRoots, map, ih]; rfl

end Forest

/-- Entries that follow each other do not nest. -/
theorem Outline.nest_of_pairwise {es : List FunctionEntry} {boundary : Int}
    (hes : ∀ e ∈ es, e.start < e.stop ∧ e.stop ≤ boundary)
    (hp : es.Pairwise fun a b => a.stop ≤ b.start) : nest es boundary = Forest.ofRoots es := by
  induction es with
  | nil => rw [nest_nil]; rfl
  | cons e es ih =>
    obtain ⟨he, hes⟩ := List.forall_mem_cons.1 hes
    obtain ⟨hafter, hp⟩ := List.pairwise_cons.1 hp
    have hchildren : nest es e.stop = .nil := by
      cases es with
      | nil => rw [nest_nil]
      | cons a es => exact nest_cons_of_le (hafter a List.mem_cons_self)
    rw [nest_cons_of_lt (by omega), Int.min_eq_left he.2, hchildren]
    change Forest.node e .nil (nest es boundary) = _
    rw [ih hes hp]
    rfl

/-- A function ends where its end is carried to. -/
theorem Dialect.functionEnd_closed_crlf (text : Text) (p : Nat) :
    (functionEnd closed (crlf text) (crlfOffset text p)).1 =
      crlfOffset text (functionEnd closed text p).1 := by
  rw [functionEnd_closed_eq, functionEnd_closed_eq, Block.stop_crlf]
  cases (Block.stop text p).toOption with
  | none => exact length_crlf_eq_crlfOffset text
  | some e => rfl

namespace FunctionEntry

/-- The entry without its extent. -/
def unplaced (e : FunctionEntry) : FunctionEntry := { e with start := 0, stop := 0 }

section Headers

variable {text : Text} {h h' : Header}

/-- The description of a header that is carried along is the same. -/
theorem docstring_crlf (hp : Header.at? text h.start = some h) (hc : Header.CarriedTo text h h') :
    Docstring.find? (crlf text) h'.lineEnd = Docstring.find? text h.lineEnd := by
  apply Docstring.find?_crlf
  rw [hc.lineEnd]
  cases hd : text.drop h.lineEnd with
  | nil =>
    left
    refine ⟨rfl, ?_⟩
    change (crlf text).drop (crlfOffset text h.lineEnd) = []
    rw [drop_crlfOffset, hd]
    rfl
  | cons c u =>
    right
    obtain rfl : c = '\n' := Header.atLineEnd_drop_lineEnd hp c (by rw [hd]; rfl)
    exact ⟨u, rfl, drop_add_length (u := ['\r']) (Lexeme.drop_crlf_newline hd)⟩

theorem ofHeader_crlf_unplaced (hp : Header.at? text h.start = some h)
    (hc : Header.CarriedTo text h h') (dialect : Dialect) :
    (ofHeader (crlf text) dialect h').unplaced = (ofHeader text dialect h).unplaced := by
  simp only [ofHeader, unplaced, hc.name, hc.returns, hc.args, docstring_crlf hp hc]

theorem ofHeader_crlf_closed (hp : Header.at? text h.start = some h)
    (hc : Header.CarriedTo text h h') :
    ofHeader (crlf text) .closed h' = (ofHeader text .closed h).moved (crlfPlace text) := by
  simp only [ofHeader, moved, hc.name, hc.returns, hc.args, docstring_crlf hp hc, hc.start,
    Dialect.functionEnd_closed_crlf, crlfPlace_natCast]

end Headers

/-- Whatever the headers that are carried along have in common, the entries have in common. -/
theorem map_ofHeaders_crlf {β : Type} {text : Text} {dialect : Dialect}
    (hopen : ∀ h ∈ Header.all text, h.OpensOnOneLine text) {f g : FunctionEntry → β}
    (hfg : ∀ h h', Header.at? text h.start = some h → Header.CarriedTo text h h' →
      f (ofHeader (crlf text) dialect h') = g (ofHeader text dialect h)) :
    (ofHeaders (crlf text) dialect).map f = (ofHeaders text dialect).map g := by
  have hat := fun h hh => ((Header.finds_all text).at? h hh).2
  have hcarried := Header.all_crlf hopen
  rw [ofHeaders, ofHeaders, List.map_map, List.map_map]
  generalize Header.all text = hs, Header.all (crlf text) = hs' at hat hcarried
  induction hcarried with
  | nil => rfl
  | @cons h h' hs hs' hh _ ih =>
    obtain ⟨hp, hat⟩ := List.forall_mem_cons.1 hat
    rw [List.map_cons, List.map_cons, ih hat]
    exact congrArg (· :: _) (hfg h h' hp hh)

end FunctionEntry

section Outlines

variable {text : Text}

/-- The first function is a complete block with both kinds of line ends or with none. -/
theorem Dialect.detect_crlf (hopen : ∀ h ∈ Header.all text, h.OpensOnOneLine text) :
    detect (crlf text) = detect text := by
  have hcarried := Header.all_crlf hopen
  rw [detect_eq, detect_eq]
  generalize Header.all text = hs, Header.all (crlf text) = hs' at hcarried
  cases hcarried with
  | nil => rfl
  | @cons h h' _ _ hh _ =>
    simp only [List.head?_cons, Option.bind_some, hh.start, Block.stop_crlf]
    cases (Block.stop text h.start).toOption <;> rfl

/-- Functions with `end`s nest in the same way. -/
theorem Outline.nest_crlf_closed (hopen : ∀ h ∈ Header.all text, h.OpensOnOneLine text) :
    nest (FunctionEntry.ofHeaders (crlf text) .closed) (crlf text).length =
      (nest (FunctionEntry.ofHeaders text .closed) text.length).map (.moved (crlfPlace text)) := by
  have hentries : (FunctionEntry.ofHeaders (crlf text) .closed).map id =
      (FunctionEntry.ofHeaders text .closed).map (.moved (crlfPlace text)) :=
    FunctionEntry.map_ofHeaders_crlf hopen fun _ _ hp hc => FunctionEntry.ofHeader_crlf_closed hp hc
  rw [List.map_id] at hentries
  rw [hentries, length_crlf_eq_crlfOffset, ← crlfPlace_natCast, nest_moved (crlfPlace_lt text)]

theorem Outline.nest_unclosed (text : Text) :
    nest (FunctionEntry.ofHeaders text .unclosed) text.length =
      Forest.ofRoots (FunctionEntry.ofHeaders text .unclosed) :=
  nest_of_pairwise (fun e he => (FunctionEntry.ofHeaders_bounds e he).2)
    (FunctionEntry.ofHeaders_unclosed_pairwise text)

/-- In both dialects nothing but the extents of the functions changes. -/
theorem Outline.map_unplaced_crlf (hopen : ∀ h ∈ Header.all text, h.OpensOnOneLine text)
    (dialect : Dialect) :
    (nest (FunctionEntry.ofHeaders (crlf text) dialect) (crlf text).length).map
        FunctionEntry.unplaced =
      (nest (FunctionEntry.ofHeaders text dialect) text.length).map FunctionEntry.unplaced := by
  cases dialect with
  | closed => rw [nest_crlf_closed hopen, Forest.map_map]; rfl
  | unclosed =>
    rw [nest_unclosed, nest_unclosed, Forest.map_ofRoots, Forest.map_ofRoots]
    exact congrArg _ (FunctionEntry.map_ofHeaders_crlf hopen
      fun _ _ hp hc => FunctionEntry.ofHeader_crlf_unplaced hp hc .unclosed)

end Outlines

namespace Source

/-- The source with line ends of two characters. -/
def crlf (s : Source) : Source := { s with text := Text.crlf s.text }

theorem builtin?_crlf {s : Source} (hs : '\r' ∉ s.text) : s.crlf.builtin? = s.builtin? := by
  have hfind : Builtin.find? (Text.crlf s.text) = Builtin.find? s.text := by
    rw [Builtin.find?, Builtin.find?, splitLines_crlf hs]
  simp only [builtin?, crlf, hfind]

/-- A header is found again with line ends of two characters exactly if its keyword and its clause
or name stand on one line. If this holds of every header, the outline changes in nothing but the
extents of the functions. -/
theorem outline_crlf (s : Source) (hs : '\r' ∉ s.text) :
    (∀ h ∈ Header.all s.text,
      Header.FitsAt s.crlf.text (crlfOffset s.text h.start) ↔ h.OpensOnOneLine s.text) ∧
    ((∀ h ∈ Header.all s.text, h.OpensOnOneLine s.text) →
      s.crlf.outline.1.map FunctionEntry.unplaced = s.outline.1.map FunctionEntry.unplaced) := by
  refine ⟨fun h hh => Header.fitsAt_crlf_iff ((Header.finds_all s.text).at? h hh).2,
    fun hopen => ?_⟩
  have hcarried := Header.all_crlf hopen
  by_cases hnone : Header.all s.text = []
  · rw [hnone, List.forall₂_nil_left_iff] at hcarried
    have hentries : s.crlf.entries.1 = s.entries.1 := by
      rw [entries_of_no_headers hnone, entries_of_no_headers (s := s.crlf) hcarried,
        builtin?_crlf hs]
    rw [outline, outline, hentries, entries_of_no_headers hnone]
    cases hb : s.builtin? with
    | none => simp
    | some b =>
      have hpos := List.length_pos_iff.2 (text_ne_nil_of_builtin? hb)
      have hpos' : 0 < (Text.crlf s.text).length := by
        rw [length_crlf]
        omega
      change (Outline.nest [.ofBuiltin b.1 b.2] ((Text.crlf s.text).length : Nat)).map _ =
        (Outline.nest [.ofBuiltin b.1 b.2] (s.text.length : Nat)).map _
      rw [nest_ofBuiltin (by omega), nest_ofBuiltin (by omega)]
  · have hne : Header.all s.crlf.text ≠ [] := by
      intro hnil
      change List.Forall₂ _ _ (Header.all s.crlf.text) at hcarried
      rw [hnil, List.forall₂_nil_right_iff] at hcarried
      exact hnone hcarried
    have hdialect : s.crlf.usedDialect = s.usedDialect :=
      congrArg s.dialect.getD (Dialect.detect_crlf hopen)
    rw [outline, outline, entries_of_headers hnone, entries_of_headers hne, hdialect]
    exact Outline.map_unplaced_crlf hopen _

/-- A function with a continued parameter list and a block comment, and one nested in it. -/
def continuedSource : Source :=
  ⟨"function [a, ...\n  b] = f(x, ... c\n  y)\n%F doc\n%\x7b\nend\n%\x7d\nfunction g\nend\nend\n".toList,
    none, [], none⟩

theorem continuedSource_crlf :
    ('\r' ∉ continuedSource.text ∧
      ∀ h ∈ Header.all continuedSource.text, h.OpensOnOneLine continuedSource.text) ∧
    continuedSource.crlf.outline.1.map FunctionEntry.unplaced =
      continuedSource.outline.1.map FunctionEntry.unplaced := by
  have hreturn : '\r' ∉ continuedSource.text := by decide
  have hopen : ∀ h ∈ Header.all continuedSource.text, h.OpensOnOneLine continuedSource.text := by
    have hall : ∀ h ∈ Header.all continuedSource.text,
        (Header.signature? (continuedSource.text.drop h.start)).all
          Header.Signature.onOneLine = true := by
      decide +kernel
    intro h hh t ht
    have hone := hall h hh
    rwa [ht] at hone
  exact ⟨⟨hreturn, hopen⟩, (outline_crlf continuedSource hreturn).2 hopen⟩

/-- A header that is continued right after its keyword. -/
def dividedHeader : Source := ⟨"function ...\n y = f(x)\nend\n".toList, none, [], none⟩

/-- The function is listed, but not with line ends of two characters. -/
theorem dividedHeader_lost :
    '\r' ∉ dividedHeader.text ∧
    dividedHeader.outline.1 =
      .node ⟨0, 26, [['y']], ['f'], [['x']], none, false⟩ .nil .nil ∧
    dividedHeader.crlf.outline.1 = .nil := by
  refine ⟨by decide, ?_, ?_⟩ <;> decide +kernel

end Source
end MatlabOutline
