import MatlabOutline.Proofs.Statements
import MatlabOutline.Proofs.PrintedHeaders
import MatlabOutline.Proofs.Translation

/-! Headers in every layout. Blanks stand anywhere between the tokens of a header, and inside the
parameter list a line may be continued any number of times, with any text after the continuation
mark. The reader finds the same names in all of these layouts. -/
namespace MatlabOutline
open Text

/-- A line break inside a list: what stands after the continuation mark, and the blanks that the
next line begins with. -/
structure Continuation where
  tail : Line
  lead : Blanks

namespace Continuation

def print (k : Continuation) : Text := "...".toList ++ k.tail.1 ++ "\n".toList ++ k.lead.1

end Continuation

/-- What stands between two tokens of a parameter list. -/
structure Gap where
  blanks : Blanks
  continuations : List Continuation

namespace Gap

def print (g : Gap) : Text := g.blanks.1 ++ g.continuations.flatMap Continuation.print

/-- What is left of a gap when its lines are joined. -/
def joined (g : Gap) : Text := g.blanks.1 ++ g.continuations.flatMap fun k => ' ' :: k.lead.1

end Gap

/-- A name in a list, with what stands before and after it. -/
structure ListedName (γ : Type) where
  before : γ
  name : Identifier
  after : γ

namespace ListedName
variable {γ : Type}

def print (gap : γ → Text) (n : ListedName γ) : Text := gap n.before ++ n.name.1 ++ gap n.after

end ListedName

/-- The inside of a bracketed list of names. -/
inductive NameList (γ : Type) where
  | empty (between : γ)
  | names (first : ListedName γ) (others : List (ListedName γ))

namespace NameList
variable {γ : Type}

def print (gap : γ → Text) : NameList γ → Text
  | empty between => gap between
  | names first others => first.print gap ++ others.flatMap fun n => ',' :: n.print gap

/-- The names of a list in order. -/
def toList : NameList γ → List Text
  | empty _ => []
  | names first others => (first :: others).map (·.name.1)

end NameList

/-- The ways to write what a function returns. -/
inductive ReturnLayout where
  | bracketed (inside : NameList Blanks) (before after : Blanks)
  | single (name : Identifier) (before after : Blanks)
  | absent

namespace ReturnLayout

/-- The clause up to its equals sign. -/
def clause : ReturnLayout → Text
  | bracketed inside before _ =>
    "[".toList ++ inside.print (·.1) ++ "]".toList ++ before.1 ++ "=".toList
  | single name before _ => name.1 ++ before.1 ++ "=".toList
  | absent => []

/-- The blanks after the equals sign. -/
def space : ReturnLayout → Text
  | bracketed _ _ after => after.1
  | single _ _ after => after.1
  | absent => []

def toList : ReturnLayout → List Text
  | bracketed inside _ _ => inside.toList
  | single name _ _ => [name.1]
  | absent => []

end ReturnLayout

/-- A header in one of its layouts. -/
structure HeaderLayout where
  lead : Blanks
  space : Blanks
  returns : ReturnLayout
  name : Identifier
  gap : Gap
  args : NameList Gap
  spaced : space.1 ≠ []

namespace HeaderLayout

/-- The parameter list and the gap before it. -/
def parameters (l : HeaderLayout) : Text :=
  l.gap.print ++ "(".toList ++ l.args.print Gap.print ++ ")".toList

def print (l : HeaderLayout) : Text :=
  l.lead.1 ++ "function".toList ++ l.space.1 ++ l.returns.clause ++ l.returns.space ++ l.name.1 ++
    l.parameters

end HeaderLayout

namespace Header

/-- A run of separators holds no name. -/
theorem clauseNames_separators {s : Text} (h : ∀ c ∈ s, isClauseSeparator c = true) (x : Text) :
    clauseNames (s ++ x) = clauseNames x := by
  induction s with
  | nil => rfl
  | cons c s ih =>
    obtain ⟨hc, hs⟩ := List.forall_mem_cons.1 h
    exact (clauseNames_append_cons hc [] (s ++ x)).trans (ih hs)

theorem clauseNames_append_separators {s : Text} (h : ∀ c ∈ s, isClauseSeparator c = true)
    (x : Text) : clauseNames (x ++ s) = clauseNames x := by
  cases s with
  | nil => rw [List.append_nil]
  | cons c s =>
    obtain ⟨hc, hs⟩ := List.forall_mem_cons.1 h
    have hnone := clauseNames_separators hs []
    rw [List.append_nil] at hnone
    rw [clauseNames_append_cons hc, hnone]
    exact List.append_nil _

theorem isClauseSeparator_of_isBlank {c : Char} (h : isBlank c = true) :
    isClauseSeparator c = true := by
  rw [isClauseSeparator, isSpace_of_isBlank h, Bool.or_true]

section Lists

variable {γ : Type} {gap : γ → Text}

theorem clauseNames_listedName (hgap : ∀ g, ∀ c ∈ gap g, isBlank c = true) (n : ListedName γ) :
    clauseNames (n.print gap) = [n.name.1] := by
  have hsep : ∀ g, ∀ c ∈ gap g, isClauseSeparator c = true :=
    fun g c hc => isClauseSeparator_of_isBlank (hgap g c hc)
  rw [ListedName.print, clauseNames_append_separators (hsep _), clauseNames_separators (hsep _),
    clauseNames_of_identifier n.name.2]

/-- A list is split into its names, whatever blanks stand around them. -/
theorem clauseNames_nameList (hgap : ∀ g, ∀ c ∈ gap g, isBlank c = true) (l : NameList γ) :
    clauseNames (l.print gap) = l.toList := by
  cases l with
  | empty between =>
    have hsep : ∀ c ∈ gap between, isClauseSeparator c = true :=
      fun c hc => isClauseSeparator_of_isBlank (hgap between c hc)
    exact (clauseNames_append_separators hsep []).trans rfl
  | names first others =>
    rw [NameList.print, NameList.toList, List.map_cons]
    induction others generalizing first with
    | nil => rw [List.flatMap_nil, List.append_nil, clauseNames_listedName hgap]; rfl
    | cons n ns ih =>
      rw [List.flatMap_cons, List.cons_append, clauseNames_append_cons rfl,
        clauseNames_listedName hgap, ih, List.singleton_append, List.map_cons]

/-- The characters of a list belong to its names or stand between them. -/
theorem mem_nameList {l : NameList γ} {c : Char} (h : c ∈ l.print gap) :
    isWord c = true ∨ c = ',' ∨ ∃ g, c ∈ gap g := by
  have hname : ∀ n : ListedName γ, c ∈ n.print gap → isWord c = true ∨ ∃ g, c ∈ gap g := by
    intro n hc
    rw [ListedName.print, List.mem_append, List.mem_append] at hc
    rcases hc with (hc | hc) | hc
    · exact .inr ⟨_, hc⟩
    · exact .inl (n.name.2.2 c hc)
    · exact .inr ⟨_, hc⟩
  cases l with
  | empty between => exact .inr (.inr ⟨between, h⟩)
  | names first others =>
    rw [NameList.print, List.mem_append, List.mem_flatMap] at h
    rcases h with h | ⟨n, -, h⟩
    · exact (hname first h).imp_right .inr
    · rcases List.mem_cons.1 h with rfl | h
      · exact .inr (.inl rfl)
      · exact (hname n h).imp_right .inr

/-- No bracket stands inside a list. -/
theorem ne_of_mem_nameList (hgap : ∀ g, ∀ c ∈ gap g, isBlank c = true) {l : NameList γ}
    {c d : Char} (h : c ∈ l.print gap) (hd : isWord d = false ∧ d ≠ ',' ∧ isBlank d = false) :
    c ≠ d := by
  rintro rfl
  rcases mem_nameList h with hw | hw | ⟨g, hg⟩
  · rw [hd.1] at hw
    cases hw
  · exact hd.2.1 hw
  · rw [hgap g c hg] at hd
    cases hd.2.2

end Lists

theorem isBlank_of_mem_joined (g : Gap) : ∀ c ∈ g.joined, isBlank c = true := by
  intro c hc
  rw [Gap.joined, List.mem_append, List.mem_flatMap] at hc
  rcases hc with hc | ⟨k, -, hc⟩
  · exact g.blanks.2 c hc
  · rcases List.mem_cons.1 hc with rfl | hc
    · rfl
    · exact k.lead.2 c hc

/-- A character that neither opens a comment or a string nor continues or ends a line. -/
def isPlain (c : Char) : Bool := !"%'\".\n".toList.contains c

theorem ne_of_isPlain {c d : Char} (hc : isPlain c = true) (hd : isPlain d = false) : c ≠ d := by
  rintro rfl
  rw [hc] at hd
  cases hd

theorem isPlain_of_isWord {c : Char} (h : isWord c = true) : isPlain c = true := by
  rw [isPlain, contains_eq_false_of_isWord rfl h, Bool.not_false]

theorem isPlain_of_isBlank {c : Char} (h : isBlank c = true) : isPlain c = true := by
  simp only [isBlank, Bool.or_eq_true, beq_iff_eq] at h
  rcases h with rfl | rfl <;> rfl

/-- Plain text at the start of a line stays there when lines are joined. -/
theorem joinContinued_append {u : Text} (hu : ∀ c ∈ u, isPlain c = true) (l : Text)
    (ls : List Text) : (joinContinued ((u ++ l) :: ls)).1 = u ++ (joinContinued (l :: ls)).1 := by
  have hcomment : dropComment (u ++ l) = u ++ dropComment l := dropComment_append
    (fun c hc => ⟨ne_of_isPlain (hu c hc) rfl, ne_of_isPlain (hu c hc) rfl,
      ne_of_isPlain (hu c hc) rfl⟩) l
  have hdots : beforeDots? (u ++ dropComment l) = (beforeDots? (dropComment l)).map (u ++ ·) :=
    beforeDots?_append (fun c hc => ne_of_isPlain (hu c hc) rfl) _
  cases ls with
  | nil =>
    rw [joinContinued, joinContinued, hcomment, hdots]
    cases beforeDots? (dropComment l) <;> rfl
  | cons m ls =>
    rw [joinContinued, joinContinued, hcomment, hdots]
    cases beforeDots? (dropComment l) with
    | none => rfl
    | some code => simp

/-- The text `u` is joined to `s`, whatever follows it. -/
def Joins (u s : Text) : Prop := ∀ v, (logicalLine (u ++ v)).1 = s ++ (logicalLine v).1

namespace Joins

theorem nil : Joins [] [] := fun _ => rfl

theorem append {u u' s s' : Text} (h : Joins u s) (h' : Joins u' s') :
    Joins (u ++ u') (s ++ s') := by
  intro v
  rw [List.append_assoc, h, h', List.append_assoc]

theorem flatMap {α : Type} {f g : α → Text} (h : ∀ a, Joins (f a) (g a)) (l : List α) :
    Joins (l.flatMap f) (l.flatMap g) := by
  induction l with
  | nil => exact nil
  | cons a l ih => exact (h a).append ih

theorem plain {u : Text} (hu : ∀ c ∈ u, isPlain c = true) : Joins u u := by
  intro v
  have hline : lines u = [] ++ [u] :=
    splitWhere_of_forall (by simpa using fun c hc => ne_of_isPlain (hu c hc) rfl)
  have hlines : lines (u ++ v) = (u ++ restOfLine v) :: (lines v).tail := lines_append_last hline v
  rw [logicalLine, hlines, joinContinued_append hu, ← lines_eq_cons, ← logicalLine]

/-- A continuation is joined to a space, whatever stands after its mark. -/
theorem continued (tail : Line) : Joins ("...".toList ++ tail.1 ++ "\n".toList) [' '] := by
  intro v
  have hlines : lines ("...".toList ++ tail.1 ++ "\n".toList ++ v) =
      ("...".toList ++ tail.1) :: restOfLine v :: (lines v).tail := by
    have hmark : lines ("...".toList ++ tail.1) = ["...".toList ++ tail.1] :=
      splitWhere_of_forall (by simpa using tail.2)
    have hcut : lines ("...".toList ++ tail.1 ++ '\n' :: v) =
        lines ("...".toList ++ tail.1) ++ lines v := splitWhere_append_cons rfl _ _
    rw [List.append_assoc _ "\n".toList, ← lines_eq_cons]
    exact hcut.trans (by rw [hmark, List.singleton_append])
  have hdots : beforeDots? (dropComment ("...".toList ++ tail.1)) = some [] := by
    rw [dropComment_append (by simp)]
    rfl
  rw [logicalLine, hlines, joinContinued, hdots, ← lines_eq_cons, ← logicalLine]
  rfl

theorem gap (g : Gap) : Joins g.print g.joined := by
  apply (plain fun c hc => isPlain_of_isBlank (g.blanks.2 c hc)).append
  apply flatMap
  intro k
  exact (continued k.tail).append (plain fun c hc => isPlain_of_isBlank (k.lead.2 c hc))

theorem listedName (n : ListedName Gap) : Joins (n.print Gap.print) (n.print Gap.joined) :=
  ((gap n.before).append (plain fun c hc => isPlain_of_isWord (n.name.2.2 c hc))).append
    (gap n.after)

theorem nameList (l : NameList Gap) : Joins (l.print Gap.print) (l.print Gap.joined) := by
  cases l with
  | empty between => exact gap between
  | names first others =>
    apply (listedName first).append
    apply flatMap
    intro n
    exact (plain (u := [',']) (List.all_eq_true.1 rfl)).append (listedName n)

/-- The parameters of a header on one line. -/
theorem parameters (l : HeaderLayout) :
    Joins l.parameters (l.gap.joined ++ "(".toList ++ l.args.print Gap.joined ++ ")".toList) :=
  (((gap l.gap).append (plain (List.all_eq_true.1 rfl))).append (nameList l.args)).append
    (plain (List.all_eq_true.1 rfl))

end Joins

/-- The parameter clause of a layout holds its parameters. -/
theorem clauseNames_parameters (l : HeaderLayout) (rest : Text) :
    clauseNames (parameterClause (logicalLine (l.parameters ++ rest)).1) = l.args.toList := by
  have hblank : ∀ c ∈ l.gap.joined, isSpace c = true :=
    fun c hc => isSpace_of_isBlank (isBlank_of_mem_joined l.gap c hc)
  have hround : ∀ c ∈ l.args.print Gap.joined, c ≠ '(' ∧ c ≠ ')' := fun c hc =>
    ⟨ne_of_mem_nameList isBlank_of_mem_joined hc (by decide),
      ne_of_mem_nameList isBlank_of_mem_joined hc (by decide)⟩
  have hcut : l.gap.joined ++ "(".toList ++ l.args.print Gap.joined ++ ")".toList ++
      (logicalLine rest).1 =
      l.gap.joined ++ '(' :: (l.args.print Gap.joined ++ ')' :: (logicalLine rest).1) := by simp
  rw [Joins.parameters, hcut, parameterClause_append hblank hround,
    clauseNames_append_separators (List.all_eq_true.1 rfl)]
  exact (clauseNames_separators (s := ['(']) (List.all_eq_true.1 rfl) _).trans
    (clauseNames_nameList isBlank_of_mem_joined l.args)

/-- The return clause of a layout holds its return values. -/
theorem clauseNames_returns (r : ReturnLayout) : clauseNames r.clause = r.toList := by
  have hsep : ∀ b : Blanks, ∀ c ∈ b.1, isClauseSeparator c = true :=
    fun b c hc => isClauseSeparator_of_isBlank (b.2 c hc)
  cases r with
  | bracketed inside before after =>
    rw [ReturnLayout.clause, clauseNames_append_separators (List.all_eq_true.1 rfl),
      clauseNames_append_separators (hsep before),
      clauseNames_append_separators (List.all_eq_true.1 rfl),
      clauseNames_separators (List.all_eq_true.1 rfl)]
    exact clauseNames_nameList (fun b => b.2) inside
  | single name before after =>
    rw [ReturnLayout.clause, clauseNames_append_separators (List.all_eq_true.1 rfl),
      clauseNames_append_separators (hsep before)]
    exact clauseNames_of_identifier name.2
  | absent => rfl

/-- The name of a layout is followed by blanks, and then by a dot or a parenthesis. -/
theorem exists_parameters_append (l : HeaderLayout) (rest : Text) :
    ∃ v, l.parameters ++ rest = l.gap.blanks.1 ++ v ∧ ∀ c ∈ v.head?, c = '.' ∨ c = '(' := by
  refine ⟨l.gap.continuations.flatMap Continuation.print ++ "(".toList ++
    l.args.print Gap.print ++ ")".toList ++ rest, ?_, ?_⟩
  · simp only [HeaderLayout.parameters, Gap.print, List.append_assoc]
  · cases l.gap.continuations <;> simp [Continuation.print]

/-- A return clause is read back in every layout. -/
theorem returnClause?_layout {r : ReturnLayout} (h : r ≠ .absent) (t : Text) :
    returnClause? (r.clause ++ t) = some (r.clause, t) := by
  cases r with
  | bracketed inside before after =>
    apply returnClause?_bracketed _ before.2
    exact fun c hc => ne_of_mem_nameList (fun b => b.2) hc (by decide)
  | single name before after => exact returnClause?_single name.2 before.2
  | absent => exact absurd rfl h

theorem notAhead_isFiller_layout (r : ReturnLayout) (name : Identifier) (t : Text) :
    NotAhead isFiller (r.clause ++ (r.space ++ name.1 ++ t)) := by
  cases r with
  | bracketed inside before after => exact notAhead_cons (c := '[') rfl
  | single name before after =>
    rw [ReturnLayout.clause, List.append_assoc, List.append_assoc]
    exact notAhead_isFiller (name.2.head?_append _)
  | absent => exact notAhead_isFiller (name.2.head?_append t)

/-- The opening part of a layout is read back piece by piece. -/
theorem signature?_layout (l : HeaderLayout) (rest : Text) :
    signature? (l.print ++ rest) = some ⟨l.lead.1 ++ "function".toList ++ l.space.1,
      l.returns.clause, l.returns.space, l.name.1, l.parameters ++ rest⟩ := by
  have hcut : l.print ++ rest = l.lead.1 ++ "function".toList ++ (l.space.1 ++
      (l.returns.clause ++ (l.returns.space ++ l.name.1 ++ (l.parameters ++ rest)))) := by
    simp only [HeaderLayout.print, List.append_assoc]
  have hfiller : ∀ b : Blanks, ∀ c ∈ b.1, isFiller c = true :=
    fun b c hc => isFiller_of_isBlank (b.2 c hc)
  have hkey : ∀ t, NotAhead isWord (l.space.1 ++ t) :=
    fun t => notAhead_isWord_append (hfiller _) fun h => absurd h l.spaced
  obtain ⟨v, hv, hhead⟩ := exists_parameters_append l rest
  have hend : NotAhead isWord (l.parameters ++ rest) := by
    rw [hv]
    apply notAhead_isWord_append (hfiller _)
    exact fun _ c hc => by rcases hhead c hc with rfl | rfl <;> decide
  rw [hcut, signature?_of_keyword l.lead.2 (hfiller _) (notAhead_isFiller_layout _ _ _) (hkey _)]
  by_cases hr : l.returns = .absent
  · -- the name could be a return value itself, but no equals sign follows it
    have hclause : returnClause? (l.name.1 ++ (l.parameters ++ rest)) = none := by
      rw [hv] at hend ⊢
      apply returnClause?_eq_none l.name.2 l.gap.blanks.2 _ hend
      · exact fun c hc => by rcases hhead c hc with rfl | rfl <;> decide
      · exact fun c hc => by rcases hhead c hc with rfl | rfl <;> decide
    rw [hr, ReturnLayout.clause, ReturnLayout.space, List.nil_append, List.nil_append, hclause,
      Option.bind_none, Option.none_or]
    exact named?_eq_some (List.forall_mem_nil _) l.name.2 hend
  · have hspace : ∀ c ∈ l.returns.space, isBlank c = true := by
      cases l.returns with
      | bracketed _ _ after => exact after.2
      | single _ _ after => exact after.2
      | absent => simp [ReturnLayout.space]
    rw [returnClause?_layout hr, Option.bind_some, named?_eq_some hspace l.name.2 hend,
      Option.some_or]

/-- A header is read back in every layout, whatever stands before its line and after its
parameters. -/
theorem next?_layout (before : Text) (l : HeaderLayout) (rest : Text)
    (hbefore : IsWholeLines before) :
    ∃ h, next? (before ++ l.print ++ rest) before.length = some h ∧ h.start = before.length ∧
      h.name = l.name.1 ∧ clauseNames h.returnClause = l.returns.toList ∧
      clauseNames h.argClause = l.args.toList := by
  have hline : startsLine (before ++ (l.print ++ rest)) before.length = true :=
    (startsLine_lead hbefore 0).trans rfl
  obtain ⟨h, hread, hstart, hname, hreturns, hargs⟩ : ∃ h,
      read? before.length (l.print ++ rest) = some h ∧ h.start = before.length ∧
        h.name = l.name.1 ∧ h.returnClause = l.returns.clause ∧
        h.argClause = parameterClause (logicalLine (l.parameters ++ rest)).1 := by
    rw [read?, signature?_layout, Option.map_some]
    exact ⟨_, rfl, rfl, rfl, rfl, rfl⟩
  rw [List.append_assoc]
  refine ⟨h, next?_of_at? ?_, hstart, hname, ?_, ?_⟩
  · rw [at?, if_pos hline, List.drop_left, hread]
  · rw [hreturns, clauseNames_returns]
  · rw [hargs, clauseNames_parameters]

/-- A header whose parameters go on after a quote, a comment sign and a parenthesis. -/
def continuedLayout : HeaderLayout where
  lead := .of "  ".toList rfl
  space := .of "\t".toList rfl
  returns := .bracketed
    (.names ⟨.of [] rfl, ⟨"a".toList, by decide⟩, .of " ".toList rfl⟩
      [⟨.of [] rfl, ⟨"b".toList, by decide⟩, .of [] rfl⟩])
    (.of " ".toList rfl) (.of [] rfl)
  name := ⟨"f".toList, by decide⟩
  gap := ⟨.of " ".toList rfl, []⟩
  args := .names ⟨⟨.of [] rfl, []⟩, ⟨"x".toList, by decide⟩, ⟨.of [] rfl, []⟩⟩
    [⟨⟨.of " ".toList rfl, [⟨.of " it's ) 5%".toList rfl, .of "\t".toList rfl⟩]⟩,
      ⟨"y".toList, by decide⟩, ⟨.of [] rfl, []⟩⟩]
  spaced := by decide

example : continuedLayout.print =
    "  function\t[a ,b] =f (x, ... it's ) 5%\n\ty)".toList := by decide

theorem next?_continuedLayout :
    IsWholeLines "x = 1;\n".toList ∧
    ∃ h, next? ("x = 1;\n".toList ++ continuedLayout.print ++ " ...\nend\n".toList) 7 = some h ∧
      h.start = 7 ∧ h.name = "f".toList ∧
      clauseNames h.returnClause = ["a".toList, "b".toList] ∧
      clauseNames h.argClause = ["x".toList, "y".toList] := by
  have hbefore : IsWholeLines "x = 1;\n".toList := by
    intro c hc
    have hlast : "x = 1;\n".toList.getLast? = some '\n' := by decide
    exact (Option.some.inj (hlast.symm.trans hc)).symm
  exact ⟨hbefore, next?_layout _ continuedLayout _ hbefore⟩

end Header
end MatlabOutline
