import MatlabOutline.Proofs.HeaderLayouts

/-! Headers that are continued before their name. A continuation may be put between the keyword and
the return clause, or between two names of the clause, but the text after its dots is read as a part
of the header, so that it must not hold anything that could be a name. Beside the equals sign a
header cannot be continued at all. -/
namespace MatlabOutline
open Text

/-- Names with a comma and a space between them. -/
def listed (ns : List Identifier) : Text := joinWith ", ".toList (ns.map (·.1))

theorem isIdentifier_of_mem_map {ns : List Identifier} : ∀ n ∈ ns.map (·.1), IsIdentifier n := by
  intro n hn
  obtain ⟨m, -, rfl⟩ := List.mem_map.1 hn
  exact m.2

theorem mem_listed {ns : List Identifier} {c : Char} (hc : c ∈ listed ns) :
    isWord c = true ∨ c = ',' ∨ c = ' ' :=
  mem_joinWith_names isIdentifier_of_mem_map hc

theorem not_mem_listed {ns : List Identifier} {d : Char}
    (hd : isWord d = false ∧ d ≠ ',' ∧ d ≠ ' ') : d ∉ listed ns :=
  fun hmem => ne_of_mem_joinWith isIdentifier_of_mem_map hmem hd rfl

/-- A header on one line, with its return values in brackets. -/
structure SimpleHeader where
  returns : List Identifier
  name : Identifier
  args : List Identifier

namespace SimpleHeader

/-- The parameters with their parentheses. -/
def parameters (h : SimpleHeader) : Text := ['('] ++ listed h.args ++ [')']

/-- The header from its equals sign on. -/
def assigned (h : SimpleHeader) : Text := ['=', ' '] ++ h.name.1 ++ h.parameters

def print (h : SimpleHeader) : Text :=
  "function".toList ++ [' ', '['] ++ listed h.returns ++ [']', ' '] ++ h.assigned

/-- The gaps between the tokens of a header before its name. -/
inductive Place where
  | keyword | names | equals
  deriving DecidableEq, Repr

/-- The ways to cut a header between two of its tokens. -/
inductive Cut (h : SimpleHeader) : Place → Text → Text → Prop
  | keyword {s s' : Text} (space : s ++ s' = [' ']) :
      Cut h .keyword ("function".toList ++ s)
        (s' ++ ['['] ++ listed h.returns ++ [']', ' '] ++ h.assigned)
  | names {x y : Text} (list : x ++ y = listed h.returns)
      (between : ¬ (x.getLast?.any isWord = true ∧ y.head?.any isWord = true)) :
      Cut h .names ("function".toList ++ [' ', '['] ++ x) (y ++ [']', ' '] ++ h.assigned)
  | beforeEquals {s s' : Text} (space : s ++ s' = [' ']) :
      Cut h .equals ("function".toList ++ [' ', '['] ++ listed h.returns ++ [']'] ++ s)
        (s' ++ h.assigned)
  | afterEquals {s s' : Text} (space : s ++ s' = [' ']) :
      Cut h .equals ("function".toList ++ [' ', '['] ++ listed h.returns ++ [']', ' ', '='] ++ s)
        (s' ++ h.name.1 ++ h.parameters)

theorem Cut.append {h : SimpleHeader} {place : Place} {u v : Text} (hcut : h.Cut place u v) :
    u ++ v = h.print := by
  unfold print
  cases hcut with
  | keyword space =>
    rcases List.append_eq_singleton_iff.1 space with ⟨rfl, rfl⟩ | ⟨rfl, rfl⟩ <;> simp
  | names list => simp [← list]
  | beforeEquals space =>
    rcases List.append_eq_singleton_iff.1 space with ⟨rfl, rfl⟩ | ⟨rfl, rfl⟩ <;> simp
  | afterEquals space =>
    rcases List.append_eq_singleton_iff.1 space with ⟨rfl, rfl⟩ | ⟨rfl, rfl⟩ <;> simp [assigned]

theorem ne_newline_of_mem_print {h : SimpleHeader} : ∀ c ∈ h.print, c ≠ '\n' := by
  have hname : '\n' ∉ h.name.1 := fun hmem => absurd (h.name.2.2 _ hmem) (by decide)
  have hlist : ∀ ns, '\n' ∉ listed ns := fun ns => not_mem_listed (by decide)
  rintro c hc rfl
  unfold print at hc
  simp [assigned, parameters, hname, hlist] at hc

end SimpleHeader

namespace Header
open SimpleHeader

/-- What the first header of a text says: its name, its return values and its parameters. -/
def contents (text : Text) : Option (Text × List Text × List Text) :=
  (first? text).map fun a => (a.name, clauseNames a.returnClause, clauseNames a.argClause)

theorem clauseNames_listed (ns : List Identifier) : clauseNames (listed ns) = ns.map (·.1) :=
  clauseNames_joinWith isIdentifier_of_mem_map

theorem clauseNames_parameterClause (h : SimpleHeader) (rest : Text) :
    clauseNames (parameterClause (logicalLine (h.parameters ++ rest)).1) = h.args.map (·.1) := by
  have hplain : ∀ c ∈ h.parameters, isPlain c = true := by
    intro c hc
    simp only [SimpleHeader.parameters, List.mem_append, List.mem_singleton] at hc
    rcases hc with (rfl | hc) | rfl
    · rfl
    · rcases mem_listed hc with hw | rfl | rfl
      · exact isPlain_of_isWord hw
      · rfl
      · rfl
    · rfl
  have hround : ∀ c ∈ listed h.args, c ≠ '(' ∧ c ≠ ')' := by
    intro c hc
    exact ⟨fun hcc => not_mem_listed (by decide) (hcc ▸ hc),
      fun hcc => not_mem_listed (by decide) (hcc ▸ hc)⟩
  have hcut : h.parameters ++ (logicalLine rest).1 =
      [] ++ '(' :: (listed h.args ++ ')' :: (logicalLine rest).1) := by
    simp [SimpleHeader.parameters]
  rw [Joins.plain hplain, hcut, parameterClause_append (by simp) hround,
    clauseNames_append_separators (List.all_eq_true.1 rfl)]
  exact (clauseNames_separators (s := ['(']) (List.all_eq_true.1 rfl) _).trans
    (clauseNames_listed h.args)

/-- A header is read if its keyword is followed by fillers and its return values stand in brackets,
whatever else is in them. -/
theorem signature?_bracketed {filler inner : Text} (hf : ∀ c ∈ filler, isFiller c = true)
    (hi : ']' ∉ inner) (h : SimpleHeader) (rest : Text) :
    signature? ("function".toList ++ filler ++ ['['] ++ inner ++ [']', ' '] ++ h.assigned ++ rest) =
      some ⟨"function".toList ++ filler, '[' :: inner ++ [']'] ++ [' '] ++ ['='], [' '], h.name.1,
        h.parameters ++ rest⟩ := by
  have hblank : ∀ c ∈ [' '], isBlank c = true := List.all_eq_true.1 rfl
  have hclose : ∀ c ∈ inner, c ≠ ']' := fun c hc hcc => hi (hcc ▸ hc)
  have hend : NotAhead isWord (h.parameters ++ rest) := notAhead_cons (c := '(') rfl
  have hcut : "function".toList ++ filler ++ ['['] ++ inner ++ [']', ' '] ++ h.assigned ++ rest =
      [] ++ "function".toList ++ (filler ++ ('[' :: inner ++ [']'] ++ [' '] ++ ['='] ++
        ([' '] ++ h.name.1 ++ (h.parameters ++ rest)))) := by
    simp [assigned]
  have hopen : ∀ {p : Char → Bool}, p '[' = false → NotAhead p ('[' :: inner ++ [']'] ++ [' '] ++
      ['='] ++ ([' '] ++ h.name.1 ++ (h.parameters ++ rest))) := notAhead_cons
  rw [hcut, signature?_of_keyword (by simp) hf (hopen rfl)
      (notAhead_isWord_append hf fun _ => hopen rfl),
    returnClause?_bracketed hclose hblank, Option.bind_some, named?_eq_some hblank h.name.2 hend,
    Option.some_or, List.nil_append]

theorem contents_bracketed {filler inner : Text} (hf : ∀ c ∈ filler, isFiller c = true)
    (hi : ']' ∉ inner) (h : SimpleHeader) (rest : Text) :
    contents ("function".toList ++ filler ++ ['['] ++ inner ++ [']', ' '] ++ h.assigned ++ rest) =
      some (h.name.1, clauseNames inner, h.args.map (·.1)) := by
  have hsignature := signature?_bracketed hf hi h rest
  generalize "function".toList ++ filler ++ ['['] ++ inner ++ [']', ' '] ++ h.assigned ++ rest =
    text at hsignature ⊢
  obtain ⟨a, hread, hname, hreturns, hargs⟩ : ∃ a, read? 0 text = some a ∧ a.name = h.name.1 ∧
      a.returnClause = '[' :: inner ++ [']'] ++ [' '] ++ ['='] ∧
      a.argClause = parameterClause (logicalLine (h.parameters ++ rest)).1 := by
    rw [read?, hsignature, Option.map_some]
    exact ⟨_, rfl, rfl, rfl, rfl⟩
  have hat : at? text 0 = some a := at?_eq_some_iff.2 ⟨rfl, hread⟩
  rw [contents, first?, next?_of_at? hat, Option.map_some, hname, hreturns, hargs,
    clauseNames_parameterClause, clauseNames_append_separators (List.all_eq_true.1 rfl),
    clauseNames_append_separators (List.all_eq_true.1 rfl),
    clauseNames_append_separators (List.all_eq_true.1 rfl)]
  exact congrArg (fun names => some (h.name.1, names, _))
    (clauseNames_separators (s := ['[']) (List.all_eq_true.1 rfl) inner)

theorem contents_print (h : SimpleHeader) (rest : Text) :
    contents (h.print ++ rest) = some (h.name.1, h.returns.map (·.1), h.args.map (·.1)) := by
  have hspace : ∀ c ∈ [' '], isFiller c = true := List.all_eq_true.1 rfl
  have hclose : ']' ∉ listed h.returns := not_mem_listed (by decide)
  have hread := contents_bracketed hspace hclose h rest
  rw [clauseNames_listed] at hread
  rw [← hread]
  unfold print
  simp

/-- A text without names is made of separators. -/
theorem clauseNames_eq_nil_iff {t : Text} :
    clauseNames t = [] ↔ ∀ c ∈ t, isClauseSeparator c = true := by
  constructor
  · intro h
    induction t with
    | nil => simp
    | cons c t ih =>
      cases hc : isClauseSeparator c with
      | true =>
        have hnames : clauseNames (c :: t) = clauseNames t := clauseNames_append_cons hc [] t
        exact List.forall_mem_cons.2 ⟨hc, ih (hnames ▸ h)⟩
      | false =>
        obtain ⟨n, ns, hn⟩ := List.exists_cons_of_ne_nil (splitWhere_ne_nil isClauseSeparator t)
        simp [clauseNames, splitWhere, hc, hn] at h
  · exact fun h => clauseNames_append_separators h []

/-- A list that is not cut within a word falls into the names of its parts. -/
theorem clauseNames_of_cut {x y : Text}
    (hchars : ∀ c ∈ x ++ y, isWord c = true ∨ isClauseSeparator c = true)
    (hcut : ¬ (x.getLast?.any isWord = true ∧ y.head?.any isWord = true)) :
    clauseNames (x ++ y) = clauseNames x ++ clauseNames y := by
  rcases x.eq_nil_or_concat' with rfl | ⟨x, c, rfl⟩
  · rfl
  · rcases hchars c (by simp) with hw | hc
    · cases y with
      | nil => exact (congrArg clauseNames (List.append_nil _)).trans (List.append_nil _).symm
      | cons d y =>
        have hd : isClauseSeparator d = true :=
          (hchars d (by simp)).resolve_left fun hd => hcut (by simp [hw, hd])
        rw [clauseNames_append_cons hd]
        exact congrArg _ (clauseNames_separators (s := [d]) (by simpa using hd) y).symm
    · rw [clauseNames_append_separators (s := [c]) (by simpa using hc) x, List.append_assoc,
        List.singleton_append, clauseNames_append_cons hc]

/-- A header that is cut in two, with a continuation in the cut. -/
def continued (u : Text) (tail : Line) (v : Text) : Text :=
  u ++ " ...".toList ++ tail.1 ++ "\n".toList ++ v

theorem continued_eq_cons (u : Text) (tail : Line) (v : Text) :
    continued u tail v = u ++ " ...".toList ++ tail.1 ++ '\n' :: v := by
  simp [continued]

/-- A continued header is divided into two lines. -/
theorem ne_newline_of_cut {h : SimpleHeader} {place : Place} {u v : Text} (hcut : h.Cut place u v)
    (tail : Line) : (∀ c ∈ u ++ " ...".toList ++ tail.1, c ≠ '\n') ∧ ∀ c ∈ v, c ≠ '\n' := by
  have hprint : ∀ c ∈ u ++ v, c ≠ '\n' := hcut.append ▸ ne_newline_of_mem_print
  obtain ⟨hu, hv⟩ := List.forall_mem_append.1 hprint
  simp only [List.forall_mem_append]
  exact ⟨⟨⟨hu, by simp⟩, tail.2⟩, hv⟩

/-- A continuation with this tail changes nothing in any header that is cut at such a place. -/
def Transparent (place : Place) (tail : Line) : Prop :=
  ∀ (h : SimpleHeader) (u v rest : Text), h.Cut place u v →
    contents (continued u tail v ++ rest) = contents (h.print ++ rest)

/-- The texts in which a header reader at a place finds nothing. Before a return clause an opening
bracket may come early, since the clause may hold another one. -/
inductive Silent : Place → Text → Prop
  | filler {t : Text} (filled : ∀ c ∈ t, isFiller c = true) : Silent .keyword t
  | bracket {filler r : Text} (filled : ∀ c ∈ filler, isFiller c = true)
      (separated : ∀ c ∈ r, isClauseSeparator c = true ∧ c ≠ ']') :
      Silent .keyword (filler ++ '[' :: r)
  | names {t : Text} (separated : ∀ c ∈ t, isClauseSeparator c = true ∧ c ≠ ']') : Silent .names t

section Readable

variable {s s' : Text} (hspace : s ++ s' = [' ']) (h : SimpleHeader) (tail : Line) (rest : Text)
include hspace

theorem isBlank_of_space : (∀ c ∈ s, isBlank c = true) ∧ ∀ c ∈ s', isBlank c = true := by
  rw [← List.forall_mem_append, hspace]
  exact List.all_eq_true.1 rfl

/-- Fillers after the keyword and its continuation are passed over. -/
theorem contents_continued_filler (hf : ∀ c ∈ tail.1, isFiller c = true) :
    contents (continued ("function".toList ++ s) tail
      (s' ++ ['['] ++ listed h.returns ++ [']', ' '] ++ h.assigned) ++ rest) =
      some (h.name.1, h.returns.map (·.1), h.args.map (·.1)) := by
  obtain ⟨hs, hs'⟩ := isBlank_of_space hspace
  have hfill : ∀ c ∈ s ++ " ...".toList ++ tail.1 ++ "\n".toList ++ s', isFiller c = true := by
    simp only [List.forall_mem_append]
    exact ⟨⟨⟨⟨fun c hc => isFiller_of_isBlank (hs c hc), List.all_eq_true.1 rfl⟩, hf⟩,
      List.all_eq_true.1 rfl⟩, fun c hc => isFiller_of_isBlank (hs' c hc)⟩
  have hclose : ']' ∉ listed h.returns := not_mem_listed (by decide)
  have hread := contents_bracketed hfill hclose h rest
  rw [clauseNames_listed] at hread
  rw [← hread]
  simp [continued]

/-- A bracket after the fillers is read as the one of the return clause. -/
theorem contents_continued_bracket {filler r : Text} (htail : tail.1 = filler ++ '[' :: r)
    (hf : ∀ c ∈ filler, isFiller c = true) (hr : ']' ∉ r) :
    contents (continued ("function".toList ++ s) tail
      (s' ++ ['['] ++ listed h.returns ++ [']', ' '] ++ h.assigned) ++ rest) =
      some (h.name.1, clauseNames r ++ h.returns.map (·.1), h.args.map (·.1)) := by
  obtain ⟨hs, hs'⟩ := isBlank_of_space hspace
  have hfill : ∀ c ∈ s ++ " ...".toList ++ filler, isFiller c = true := by
    simp only [List.forall_mem_append]
    exact ⟨⟨fun c hc => isFiller_of_isBlank (hs c hc), List.all_eq_true.1 rfl⟩, hf⟩
  have hopen : ∀ c ∈ s' ++ ['['], isClauseSeparator c = true := by
    rw [List.forall_mem_append]
    exact ⟨fun c hc => isClauseSeparator_of_isBlank (hs' c hc), List.all_eq_true.1 rfl⟩
  have hclose : ']' ∉ r ++ '\n' :: (s' ++ ['['] ++ listed h.returns) := by
    have hlist : ']' ∉ listed h.returns := not_mem_listed (by decide)
    have hblank : ']' ∉ s' := fun hmem => absurd (hs' _ hmem) (by decide)
    simp [hr, hblank, hlist]
  have hread := contents_bracketed hfill hclose h rest
  rw [clauseNames_append_cons rfl, clauseNames_separators hopen, clauseNames_listed] at hread
  rw [← hread]
  simp [continued, htail]

end Readable

/-- The words of a tail without a closing bracket are read as return values. -/
theorem contents_continued_names {h : SimpleHeader} {x y : Text} (hlist : x ++ y = listed h.returns)
    {tail : Line} (htail : ']' ∉ tail.1) (rest : Text) :
    contents (continued ("function".toList ++ [' ', '['] ++ x) tail
      (y ++ [']', ' '] ++ h.assigned) ++ rest) =
      some (h.name.1, clauseNames x ++ (clauseNames tail.1 ++ clauseNames y),
        h.args.map (·.1)) := by
  have hxy : ']' ∉ x ++ y := hlist ▸ not_mem_listed (by decide)
  have hclose : ']' ∉ x ++ ' ' :: ("...".toList ++ (tail.1 ++ '\n' :: y)) := by
    rw [List.mem_append, not_or] at hxy
    simp [hxy, htail]
  have hspace : ∀ c ∈ [' '], isFiller c = true := List.all_eq_true.1 rfl
  have hread := contents_bracketed hspace hclose h rest
  rw [clauseNames_append_cons rfl, clauseNames_separators (List.all_eq_true.1 rfl),
    clauseNames_append_cons rfl] at hread
  rw [← hread]
  simp [continued]

/-- A text of two lines has a header only where one of them begins. -/
theorem first?_eq_none {l m : Text} (hl : ∀ c ∈ l, c ≠ '\n') (hm : ∀ c ∈ m, c ≠ '\n')
    (hfirst : at? (l ++ '\n' :: m) 0 = none)
    (hsecond : at? (l ++ '\n' :: m) (l.length + 1) = none) :
    first? (l ++ '\n' :: m) = none := by
  obtain ⟨hs, hfinds, hnext⟩ := exists_finds_next? (l ++ '\n' :: m) 0
  have hfinds := hfinds.skip_line (v := m) rfl hl hfirst
  rw [Nat.zero_add] at hfinds
  have hfinds := hfinds.of_none hsecond
  cases hs with
  | nil => exact hnext
  | cons a hs =>
    obtain ⟨hle, hat⟩ := hfinds.at? a List.mem_cons_self
    -- a later header would stand after another newline
    obtain ⟨k, hk⟩ : ∃ k, a.start = l.length + 1 + k + 1 := ⟨a.start - (l.length + 2), by omega⟩
    have hline := (isSome_at?_iff.1 (Option.isSome_iff_exists.2 ⟨a, hat⟩)).1 _ hk
    rw [List.append_cons, List.getElem?_append_right (by simp)] at hline
    exact absurd rfl (hm _ (List.mem_of_getElem? hline))

/-- What stands before the newline of a text and has none is part of its first line. -/
theorem length_le_of_append {l p q v : Text} (h : p ++ q = l ++ '\n' :: v) (hp : '\n' ∉ p) :
    p.length ≤ l.length := by
  rcases List.append_eq_append_iff.1 h with ⟨w, rfl, -⟩ | ⟨w, rfl, hw⟩
  · simp
  · cases w with
    | nil => simp
    | cons c w =>
      obtain ⟨rfl, -⟩ := List.cons.inj hw
      exact absurd (by simp) hp

/-- The return clause of a header lies on the line where it begins, if its bracket is closed
there. -/
theorem newline_not_mem_clause {line v clause r : Text} (hclause : ReturnClause clause)
    (h : clause ++ r = line ++ '\n' :: v) (hline : '\n' ∉ line)
    (hclose : ∀ t, line = '[' :: t → ']' ∈ t) : '\n' ∉ clause := by
  have hblanks : ∀ {blanks : Text}, (∀ c ∈ blanks, isBlank c = true) → '\n' ∉ blanks :=
    fun hb hmem => absurd (hb _ hmem) (by decide)
  cases hclause with
  | @bracketed inner blanks inside blank =>
    cases line with
    | nil => simp at h
    | cons c t =>
      obtain ⟨rfl, hcut⟩ : '[' = c ∧ inner ++ ']' :: (blanks ++ '=' :: r) = t ++ '\n' :: v := by
        simpa using h
      have hinner : '\n' ∉ inner := by
        rcases List.append_eq_append_iff.1 hcut with ⟨w, rfl, -⟩ | ⟨w, rfl, -⟩
        · exact fun hmem => hline (by simp [hmem])
        · exact absurd rfl (inside ']' (List.mem_append_left _ (hclose t rfl)))
      simp [hinner, hblanks blank]
  | @single name blanks identifier blank =>
    have hname : '\n' ∉ name := fun hmem => absurd (identifier.2 _ hmem) (by decide)
    simp [hname, hblanks blank]
  | absent => simp

section FirstLine

variable {filler t v : Text} {c : Char} (hf : ∀ x ∈ filler, isFiller x = true) (hne : filler ≠ [])
  (hc : isFiller c = false) (hline : ∀ x ∈ c :: t, x ≠ '\n') (hclose : c = '[' → ']' ∈ t)
include hf hne hc hline hclose

/-- The name of a header stands on the line where its clause begins. -/
theorem length_name_le {s : Signature}
    (hs : signature? ("function".toList ++ (filler ++ (c :: t ++ '\n' :: v))) = some s) :
    s.name.length ≤ t.length + 1 := by
  have hkey : NotAhead isWord (filler ++ (c :: t ++ '\n' :: v)) :=
    notAhead_isWord_append hf fun h => absurd h hne
  have hfill : NotAhead isFiller (c :: t ++ '\n' :: v) := notAhead_cons hc
  have hnewline : '\n' ∉ c :: t := fun hmem => hline _ hmem rfl
  have hread : ∀ lead clause r, c :: t ++ '\n' :: v = clause ++ r → ReturnClause clause →
      named? lead clause r = some s → s.name.length ≤ t.length + 1 := by
    intro lead clause r hbody hclause hnamed
    obtain ⟨hgap, hname, -⟩ := named?_pieces hnamed
    obtain ⟨-, -, rfl⟩ := named?_append hnamed
    have hcut : (clause ++ s.gap ++ s.name) ++ s.rest = c :: t ++ '\n' :: v := by simp [hbody]
    have hfree : '\n' ∉ clause ++ s.gap ++ s.name := by
      have h1 := newline_not_mem_clause hclause hbody.symm hnewline fun u hu => by
        obtain ⟨rfl, rfl⟩ := List.cons.inj hu
        exact hclose rfl
      have h2 : '\n' ∉ s.gap := fun hmem => absurd (hgap _ hmem) (by decide)
      have h3 : '\n' ∉ s.name := fun hmem => absurd (hname.2 _ hmem) (by decide)
      simp [h1, h2, h3]
    have hle := length_le_of_append hcut hfree
    simp only [List.length_append, List.length_cons] at hle
    omega
  have hsignature := signature?_of_keyword (List.forall_mem_nil _) hf hfill hkey
  rw [List.nil_append] at hsignature
  rw [hsignature] at hs
  rcases Option.or_eq_some_iff.1 hs with hs | ⟨-, hs⟩
  · obtain ⟨⟨clause, r⟩, hclause, hnamed⟩ := Option.bind_eq_some_iff.1 hs
    exact hread _ clause r (returnClause?_append hclause) (returnClause_of_returnClause? hclause)
      hnamed
  · exact hread _ [] _ rfl .absent hs

/-- If no header begins on the second line, the name that is read is no longer than the part of the
first line after the fillers. -/
theorem length_le_of_contents {d : Char} {name : Text} {returns args : List Text}
    (hfiller : ∀ x ∈ filler, x ≠ '\n') (hv : ∀ x ∈ d :: v, x ≠ '\n')
    (hd : isBlank d = false ∧ d ≠ 'f')
    (hcontents : contents ("function".toList ++ filler ++ c :: t ++ '\n' :: d :: v) =
      some (name, returns, args)) : name.length ≤ t.length + 1 := by
  obtain ⟨a, hfirst, ha⟩ := Option.map_eq_some_iff.1 hcontents
  have hlines : ∀ x ∈ "function".toList ++ filler ++ c :: t, x ≠ '\n' := by
    simp only [List.forall_mem_append]
    exact ⟨⟨by simp, hfiller⟩, hline⟩
  generalize hl : "function".toList ++ filler ++ c :: t = l at hfirst hlines
  have hsecond : at? (l ++ '\n' :: d :: v) (l.length + 1) = none := by
    have hdrop : (l ++ '\n' :: d :: v).drop (l.length + 1) = [] ++ d :: v := by simp
    exact at?_eq_none_of_ne hdrop (List.forall_mem_nil _) hd
  cases hat : at? (l ++ '\n' :: d :: v) 0 with
  | none =>
    rw [first?_eq_none hlines hv hat hsecond] at hfirst
    cases hfirst
  | some b =>
    obtain rfl : b = a := Option.some.inj ((next?_of_at? hat).symm.trans hfirst)
    obtain ⟨s, hs, rfl⟩ := Option.map_eq_some_iff.1 (at?_eq_some_iff.1 hat).2
    obtain ⟨rfl, -⟩ := Prod.mk.inj ha
    rw [List.drop_zero, ← hl, List.append_assoc, List.append_assoc] at hs
    exact length_name_le hf hne hc hline hclose hs

end FirstLine

theorem named?_eq_none {lead clause blanks t : Text} {c : Char}
    (hb : ∀ c ∈ blanks, isBlank c = true) (hc : isBlank c = false ∧ isWordStart c = false) :
    named? lead clause (blanks ++ c :: t) = none := by
  rw [named?, dropWhile_run hb (notAhead_cons hc.1), identifier?, hc.2]
  rfl

/-- A bracketed list without an equals sign after it is no return clause. -/
theorem returnClause?_unassigned {inner blanks v : Text} {c : Char} (hi : ']' ∉ inner)
    (hb : ∀ c ∈ blanks, isBlank c = true) (hc : isBlank c = false ∧ c ≠ '=') :
    returnClause? ('[' :: inner ++ [']'] ++ (blanks ++ c :: v)) = none := by
  have hbracket : bracketed? ('[' :: inner ++ [']'] ++ (blanks ++ c :: v)) =
      some ('[' :: inner ++ [']'], blanks ++ c :: v) :=
    bracketed?_eq_some_iff.2 ⟨rfl, inner, rfl, fun c hc hcc => hi (hcc ▸ hc)⟩
  rw [returnClause?, hbracket, Option.some_or]
  simp only [dropWhile_run hb (notAhead_cons hc.1)]
  split
  · rename_i heq
    exact absurd (List.cons.inj heq).1 hc.2
  · rfl

/-- A name with parameters after it opens no header, even if it is spelled like the keyword. -/
theorem at?_eq_none_of_call {text blanks v : Text} {p : Nat} {name : Identifier}
    (hd : text.drop p = blanks ++ (name.1 ++ '(' :: v)) (hb : ∀ c ∈ blanks, isBlank c = true) :
    at? text p = none := by
  cases ha : at? text p with
  | none => rfl
  | some a =>
    have hread := (at?_eq_some_iff.1 ha).2
    obtain ⟨u, hu, hword⟩ := keyword_of_read? hread
    have hparen : ∀ {q : Char → Bool}, q '(' = false → NotAhead q ('(' :: v) := notAhead_cons
    have hhead : NotAhead isBlank (name.1 ++ '(' :: v) :=
      notAhead_isBlank (notAhead_isFiller (name.2.head?_append _))
    rw [hd, dropWhile_run hb hhead] at hu
    have hname : name.1 = "function".toList := by
      have hrun := congrArg (List.takeWhile isWord) hu
      rwa [takeWhile_run name.2.2 (hparen rfl),
        takeWhile_run (List.all_eq_true.1 rfl) hword] at hrun
    have hnone : signature? (blanks ++ "function".toList ++ '(' :: v) = none :=
      (signature?_of_keyword hb (List.forall_mem_nil _) (hparen rfl) (hparen rfl)).trans rfl
    rw [hd, hname, ← List.append_assoc, read?, hnone] at hread
    cases hread

/-- No header is read if no name follows the return clause. -/
theorem at?_eq_none_of_clause {t : Text} (hopen : t.head? = some '[')
    (h : ∀ lead, ((returnClause? t).bind fun c => named? lead c.1 c.2) = none) :
    at? ("function".toList ++ ([' '] ++ t)) 0 = none := by
  obtain ⟨body, rfl⟩ := List.head?_eq_some_iff.1 hopen
  have hspace : ∀ c ∈ [' '], isFiller c = true := List.all_eq_true.1 rfl
  have hfill : NotAhead isFiller ('[' :: body) := notAhead_cons rfl
  have hsignature := signature?_of_keyword (List.forall_mem_nil _) hspace hfill
    (notAhead_cons (c := ' ') rfl)
  have hname : ∀ lead, named? lead [] ([] ++ '[' :: body) = none :=
    fun lead => named?_eq_none (List.forall_mem_nil _) ⟨rfl, rfl⟩
  rw [List.nil_append] at hname
  rw [h, hname, List.nil_append] at hsignature
  rw [at?, List.drop_zero, read?, hsignature]
  exact ite_self none

/-- A continuation beside the equals sign hides the whole header. -/
theorem contents_continued_equals {h : SimpleHeader} {u v : Text} (hcut : h.Cut .equals u v)
    (tail : Line) : contents (continued u tail v) = none := by
  obtain ⟨hlines, hv⟩ := ne_newline_of_cut hcut tail
  have hdrop : (continued u tail v).drop ((u ++ " ...".toList ++ tail.1).length + 1) = v := by
    rw [continued_eq_cons, ← List.drop_drop, List.drop_left, List.drop_one, List.tail_cons]
  have hclose : ']' ∉ listed h.returns := not_mem_listed (by decide)
  suffices hnone : at? (continued u tail v) 0 = none ∧
      at? (continued u tail v) ((u ++ " ...".toList ++ tail.1).length + 1) = none by
    rw [continued_eq_cons] at hnone ⊢
    rw [contents, first?_eq_none hlines hv hnone.1 hnone.2, Option.map_none]
  have hspaced : ∀ {s s' : Text}, s ++ s' = [' '] → (∀ c ∈ s ++ [' '], isBlank c = true) ∧
      ∀ c ∈ s', isBlank c = true := by
    intro s s' space
    obtain ⟨hs, hs'⟩ := isBlank_of_space space
    exact ⟨List.forall_mem_append.2 ⟨hs, List.all_eq_true.1 rfl⟩, hs'⟩
  cases hcut with
  | @beforeEquals s s' space =>
    obtain ⟨hs, hs'⟩ := hspaced space
    constructor
    · have hclause : returnClause? ('[' :: listed h.returns ++ [']'] ++ (s ++ [' '] ++
          '.' :: ('.' :: '.' :: tail.1 ++ '\n' :: (s' ++ h.assigned)))) = none :=
        returnClause?_unassigned hclose hs ⟨rfl, by decide⟩
      have hnone := at?_eq_none_of_clause rfl fun lead => by rw [hclause, Option.bind_none]
      simpa [continued] using hnone
    · exact at?_eq_none_of_ne (c := '=') hdrop hs' ⟨rfl, by decide⟩
  | @afterEquals s s' space =>
    obtain ⟨hs, hs'⟩ := hspaced space
    constructor
    · have hspace : ∀ c ∈ [' '], isBlank c = true := List.all_eq_true.1 rfl
      have hclause := returnClause?_bracketed (v := s ++ [' '] ++ '.' :: ('.' :: '.' :: tail.1 ++
        '\n' :: (s' ++ h.name.1 ++ h.parameters))) (fun c hc hcc => hclose (hcc ▸ hc)) hspace
      have hnone := at?_eq_none_of_clause rfl fun lead => by
        rw [hclause, Option.bind_some, named?_eq_none hs ⟨rfl, rfl⟩]
      simpa [continued] using hnone
    · exact at?_eq_none_of_call (hdrop.trans (List.append_assoc _ _ _)) hs'

/-- A name of any length. -/
def longName (n : Nat) : Identifier :=
  ⟨List.replicate (n + 1) 'a', rfl, fun c hc => by rw [List.eq_of_mem_replicate hc]; decide⟩

/-- If the clause of every header is closed or given up before the line ends, the name that is read
is never longer than the line. -/
theorem not_transparent {place : Place} {tail : Line} {filler t : Text} {c d : Char}
    (hcut : ∀ name, ∃ u v, Cut ⟨[], name, []⟩ place u (d :: v) ∧
      u ++ " ...".toList ++ tail.1 = "function".toList ++ filler ++ c :: t)
    (hf : ∀ x ∈ filler, isFiller x = true) (hne : filler ≠ []) (hc : isFiller c = false)
    (hclose : c = '[' → ']' ∈ t) (hd : isBlank d = false ∧ d ≠ 'f') :
    ¬ Transparent place tail := by
  intro h
  obtain ⟨u, v, hcut, htext⟩ := hcut (longName (t.length + 1))
  obtain ⟨hline, hv⟩ := ne_newline_of_cut hcut tail
  simp only [htext, List.forall_mem_append] at hline
  have hread := (h _ _ _ [] hcut).trans (contents_print _ _)
  rw [List.append_nil, continued_eq_cons, htext] at hread
  have hlength := length_le_of_contents hf hne hc hline.2 hclose hline.1.2 hv hd hread
  simp only [longName, List.length_replicate] at hlength
  omega

theorem silent_keyword_of_transparent {tail : Line} (h : Transparent .keyword tail) :
    Silent .keyword tail.1 := by
  have htail := List.takeWhile_append_dropWhile (p := isFiller) (l := tail.1)
  have hf : ∀ c ∈ tail.1.takeWhile isFiller, isFiller c = true :=
    fun c hc => List.mem_takeWhile_imp hc
  cases hd : tail.1.dropWhile isFiller with
  | nil =>
    rw [hd, List.append_nil] at htail
    exact htail ▸ .filler hf
  | cons c t =>
    rw [hd] at htail
    have hc : isFiller c = false := notAhead_dropWhile isFiller tail.1 c (by rw [hd]; rfl)
    generalize tail.1.takeWhile isFiller = filler at hf htail
    by_cases hopen : c = '[' ∧ ']' ∉ t
    · obtain ⟨rfl, ht⟩ := hopen
      have hspace : [' '] ++ [] = [' '] := rfl
      have hread := contents_continued_bracket hspace ⟨[], longName 0, []⟩ tail [] htail.symm hf ht
      rw [h _ _ _ [] (.keyword hspace), contents_print] at hread
      have hseparators : clauseNames t = [] := by simpa using hread
      rw [clauseNames_eq_nil_iff] at hseparators
      rw [← htail]
      exact .bracket hf fun c hc => ⟨hseparators c hc, fun hcc => ht (hcc ▸ hc)⟩
    · have hfill : ∀ x ∈ [' '] ++ " ...".toList ++ filler, isFiller x = true := by
        simp only [List.forall_mem_append]
        exact ⟨⟨List.all_eq_true.1 rfl, List.all_eq_true.1 rfl⟩, hf⟩
      have hclose : c = '[' → ']' ∈ t := fun hcc => by_contra fun ht => hopen ⟨hcc, ht⟩
      refine absurd h (not_transparent (d := '[') (fun name => ?_) hfill (by simp) hc hclose
        ⟨rfl, by decide⟩)
      have hspace : [' '] ++ [] = [' '] := rfl
      refine ⟨_, _, .keyword hspace, ?_⟩
      rw [← htail]
      simp

theorem silent_names_of_transparent {tail : Line} (h : Transparent .names tail) :
    Silent .names tail.1 := by
  by_cases htail : ']' ∈ tail.1
  · have hspace : ∀ c ∈ [' '], isFiller c = true := List.all_eq_true.1 rfl
    have hclose : '[' = '[' → ']' ∈ " ...".toList ++ tail.1 :=
      fun _ => List.mem_append_right _ htail
    refine absurd h (not_transparent (d := ']') (fun name => ?_) hspace (by simp) rfl hclose
      ⟨rfl, by decide⟩)
    exact ⟨_, _, .names (x := []) (y := []) rfl (by simp), by simp⟩
  · have hread := contents_continued_names (h := ⟨[], longName 0, []⟩) (x := []) (y := []) rfl htail
      []
    rw [h _ _ _ [] (.names rfl (by simp)), contents_print] at hread
    have hnil : clauseNames [] = [] := rfl
    have hseparators : clauseNames tail.1 = [] := by simpa [hnil] using hread
    rw [clauseNames_eq_nil_iff] at hseparators
    exact .names fun c hc => ⟨hseparators c hc, fun hcc => htail (hcc ▸ hc)⟩

theorem transparent_of_silent {place : Place} {tail : Line} (hsilent : Silent place tail.1) :
    Transparent place tail := by
  have hnone : ∀ {t : Text}, (∀ c ∈ t, isClauseSeparator c = true ∧ c ≠ ']') →
      clauseNames t = [] ∧ ']' ∉ t := fun ht =>
    ⟨clauseNames_eq_nil_iff.2 fun c hc => (ht c hc).1, fun hmem => (ht _ hmem).2 rfl⟩
  intro h u v rest hcut
  rw [contents_print]
  generalize htail : tail.1 = t at hsilent
  cases hsilent with
  | filler filled =>
    cases hcut with
    | keyword space => exact contents_continued_filler space h tail rest (htail ▸ filled)
  | bracket filled separated =>
    obtain ⟨hnames, hclose⟩ := hnone separated
    cases hcut with
    | keyword space =>
      rw [contents_continued_bracket space h tail rest htail filled hclose, hnames]
      rfl
  | names separated =>
    subst htail
    obtain ⟨hnames, hclose⟩ := hnone separated
    cases hcut with
    | @names x y list between =>
      have hchars : ∀ c ∈ x ++ y, isWord c = true ∨ isClauseSeparator c = true := by
        intro c hc
        rcases mem_listed (list ▸ hc) with hw | rfl | rfl
        · exact .inl hw
        · exact .inr rfl
        · exact .inr rfl
      rw [contents_continued_names list hclose, hnames, List.nil_append,
        ← clauseNames_of_cut hchars between, list, clauseNames_listed]

/-- A continuation before the name changes nothing in a header exactly if the text after its dots
says nothing to the reader at that place. Beside the equals sign no continuation is possible: the
header is lost, whatever stands after the dots. -/
theorem continuation_transparent_iff (tail : Line) :
    (∀ place, Transparent place tail ↔ Silent place tail.1) ∧
    ∀ (h : SimpleHeader) (u v : Text), h.Cut .equals u v →
      contents h.print = some (h.name.1, h.returns.map (·.1), h.args.map (·.1)) ∧
        contents (continued u tail v) = none := by
  have hequals : ∀ (h : SimpleHeader) (u v : Text), h.Cut .equals u v →
      contents h.print = some (h.name.1, h.returns.map (·.1), h.args.map (·.1)) ∧
        contents (continued u tail v) = none := by
    intro h u v hcut
    have hprint := contents_print h []
    rw [List.append_nil] at hprint
    exact ⟨hprint, contents_continued_equals hcut tail⟩
  refine ⟨fun place => ⟨fun h => ?_, transparent_of_silent⟩, hequals⟩
  cases place with
  | keyword => exact silent_keyword_of_transparent h
  | names => exact silent_names_of_transparent h
  | equals =>
    obtain ⟨u, v, hcut⟩ : ∃ u v, Cut ⟨[], longName 0, []⟩ .equals u v :=
      ⟨_, _, .beforeEquals (s := []) rfl⟩
    have hread := h _ u v [] hcut
    rw [contents_print, List.append_nil, (hequals _ u v hcut).2] at hread
    cases hread

/-- A header with two return values. -/
def boundsHeader : SimpleHeader where
  returns := [⟨"lo".toList, by decide⟩, ⟨"hi".toList, by decide⟩]
  name := ⟨"bounds".toList, by decide⟩
  args := [⟨"list".toList, by decide⟩]

example : boundsHeader.print = "function [lo, hi] = bounds(list)".toList := by decide

/-- A tail of a dot, a bracket and a comma says nothing after the keyword, and hides the header
beside the equals sign. -/
theorem boundsHeader_bracketTail :
    contents (continued "function".toList (.of ".[,".toList rfl)
      " [lo, hi] = bounds(list)".toList) =
      some ("bounds".toList, ["lo".toList, "hi".toList], ["list".toList]) ∧
    contents (continued "function [lo, hi] =".toList (.of ".[,".toList rfl)
      " bounds(list)".toList) = none := by
  obtain ⟨hiff, hlost⟩ := continuation_transparent_iff (.of ".[,".toList rfl)
  have hsilent : Silent .keyword ".[,".toList := by
    have htail : ".[,".toList = ['.'] ++ '[' :: [','] := by decide
    rw [htail]
    exact .bracket (List.all_eq_true.1 rfl) fun c hc => List.mem_singleton.1 hc ▸ ⟨rfl, by decide⟩
  have hread := (hiff .keyword).2 hsilent boundsHeader _ _ [] (.keyword (s := []) rfl)
  rw [contents_print, List.append_nil] at hread
  exact ⟨hread, (hlost boundsHeader _ _ (.afterEquals (s := []) rfl)).2⟩

/-- A word after the dots is taken for the name of the function. -/
theorem boundsHeader_noteTail :
    boundsHeader.Cut .keyword "function".toList " [lo, hi] = bounds(list)".toList ∧
    contents boundsHeader.print =
      some ("bounds".toList, ["lo".toList, "hi".toList], ["list".toList]) ∧
    contents (continued "function".toList (.of " note".toList rfl)
      " [lo, hi] = bounds(list)".toList) =
      some ("note".toList, [], []) :=
  ⟨.keyword (s := []) rfl, by decide, by decide⟩

end Header
end MatlabOutline
