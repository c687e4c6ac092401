import MatlabOutline.Proofs.BlockNesting

/-! The dialect of a text, read off its keywords. A text is closed just if its keywords begin with a
function, a balanced word and an `end`. If they are one function after another with nothing but
balanced words between them, no function is closed, however many control blocks there are. -/
namespace MatlabOutline

namespace Keyword

/-- Words in which every opener is one of those allowed and has an `end` of its own. -/
inductive BalancedOver (allowed : Opener → Prop) : List Keyword → Prop
  | nil : BalancedOver allowed []
  | block {o : Opener} {inner rest : List Keyword} (ho : allowed o)
      (hinner : BalancedOver allowed inner) (hrest : BalancedOver allowed rest) :
      BalancedOver allowed (.opener o :: inner ++ .close :: rest)

/-- The keywords of functions that are not closed: one or more, each with a balanced word of other
blocks. -/
def OpenFunctions (ks : List Keyword) : Prop :=
  ∃ bodies : List (List Keyword), bodies ≠ [] ∧ (∀ w ∈ bodies, BalancedOver (· ≠ .function) w) ∧
    ks = bodies.flatMap (.opener .function :: ·)

/-- The keywords begin with a function that is closed, with any blocks inside. -/
def BeginsClosed (ks : List Keyword) : Prop :=
  ∃ body rest, BalancedOver (fun _ => True) body ∧
    ks = .opener .function :: body ++ .close :: rest

end Keyword

namespace Block
open Keyword

/-- Marks are balanced if the word of their keywords is. -/
theorem balanced_of_keywords {allowed : Opener → Prop} {ms : List Mark}
    (h : BalancedOver allowed (ms.map Mark.keyword)) : Balanced ms := by
  generalize hks : ms.map Mark.keyword = ks at h
  induction h generalizing ms with
  | nil =>
    rw [List.map_eq_nil_iff.1 hks]
    exact .nil
  | block _ _ _ hinner hrest =>
    obtain ⟨⟨_, s⟩, ns, rfl, rfl, hns⟩ := List.map_eq_cons_iff.1 hks
    obtain ⟨inner, ns, rfl, hin, hns⟩ := List.map_eq_append_iff.1 hns
    obtain ⟨⟨_, t⟩, rest, rfl, rfl, hre⟩ := List.map_eq_cons_iff.1 hns
    exact .block (hinner hin) (hrest hre)

theorem Balanced.keywords {ms : List Mark} (h : Balanced ms) :
    BalancedOver (fun _ => True) (ms.map Mark.keyword) := by
  induction h with
  | nil => exact .nil
  | block _ _ hinner hrest =>
    simp only [List.map_append, List.map_cons, List.cons_append]
    exact .block trivial hinner hrest

/-- Before a block is closed, all blocks inside it are, and after its `end` the blocks around it are
still open. -/
theorem exists_balanced_of_close {start depth e : Nat} {ms : List Mark}
    (h : close start (depth + 1) ms = .ok e) :
    ∃ body t rest, Balanced body ∧ ms = body ++ ⟨.close, t⟩ :: rest ∧
      ∀ d, depth = d + 1 → close start (d + 1) rest = .ok e := by
  induction hn : ms.length using Nat.strong_induction_on generalizing ms depth with
  | h n ih =>
    subst hn
    rcases ms with _ | ⟨⟨o | _, s⟩, ms⟩
    · cases h
    · -- the block that opens here is closed first, and then the one that was open before
      rw [close_opener] at h
      obtain ⟨inner, t, ns, hinner, rfl, hns⟩ := ih ms.length (by simp) h rfl
      obtain ⟨body, t', rest, hbody, rfl, hrest⟩ := ih ns.length (by simp; omega) (hns depth rfl) rfl
      exact ⟨⟨.opener o, s⟩ :: inner ++ ⟨.close, t⟩ :: body, t', rest, .block hinner hbody, by simp,
        hrest⟩
    · refine ⟨[], s, ms, .nil, rfl, ?_⟩
      rintro d rfl
      rwa [close_close] at h

/-- The function of the first mark is closed just if its `end` follows a balanced word. -/
theorem beginsClosed_iff {start : Nat} {m : Mark} {ms : List Mark}
    (hm : m.keyword = .opener .function) :
    BeginsClosed ((m :: ms).map Mark.keyword) ↔ ∃ e, close start 1 ms = .ok e := by
  constructor
  · rintro ⟨body, rest, hbody, hks⟩
    rw [List.map_cons, List.cons_append, List.cons.injEq] at hks
    obtain ⟨inner, ns, rfl, rfl, hns⟩ := List.map_eq_append_iff.1 hks.2
    obtain ⟨⟨_, t⟩, later, rfl, rfl, -⟩ := List.map_eq_cons_iff.1 hns
    exact ⟨_, (balanced_of_keywords hbody).close_append start 0 _⟩
  · rintro ⟨e, he⟩
    obtain ⟨body, t, rest, hbody, rfl, -⟩ := exists_balanced_of_close he
    exact ⟨body.map Mark.keyword, rest.map Mark.keyword, hbody.keywords, by simp [hm]⟩

/-- A block that goes on with functions which are not closed is not closed. -/
theorem close_of_openFunctions {start depth : Nat} {w : List Keyword}
    {bodies : List (List Keyword)} {ms : List Mark} (hw : BalancedOver (· ≠ .function) w)
    (hbodies : ∀ w ∈ bodies, BalancedOver (· ≠ .function) w)
    (hms : ms.map Mark.keyword = w ++ bodies.flatMap (.opener .function :: ·)) :
    close start (depth + 1) ms = .error (.unterminated start) := by
  induction bodies generalizing w depth ms with
  | nil =>
    rw [List.flatMap_nil, List.append_nil] at hms
    rw [← hms] at hw
    have h := (balanced_of_keywords hw).close_append start depth []
    rwa [List.append_nil] at h
  | cons v bodies ih =>
    obtain ⟨hv, hlater⟩ := List.forall_mem_cons.1 hbodies
    rw [List.flatMap_cons, List.cons_append] at hms
    obtain ⟨body, ns, rfl, rfl, hns⟩ := List.map_eq_append_iff.1 hms
    obtain ⟨⟨_, s⟩, ns, rfl, rfl, hrest⟩ := List.map_eq_cons_iff.1 hns
    rw [(balanced_of_keywords hw).close_append, close_opener]
    exact ih hv hlater hrest

end Block

namespace Dialect
open Keyword

/-- The first header decides: the text is closed just if the block that it opens is. -/
theorem detect_eq_closed_iff {text : Text} {first : Header}
    (hfirst : Header.first? text = some first) :
    detect text = closed ↔ ∃ e, Block.stop text first.start = .ok e := by
  rw [detect, hfirst]
  cases hstop : Block.stop text first.start <;> simp [hstop]

/-- On a well-formed text the dialect is the one in which it is written: unclosed if its keywords
are those of functions without an `end` of their own, and closed just if the first function has
one. -/
theorem detect_wellFormed (text : Text) (first : Header)
    (hfirst : Header.first? text = some first) :
    (OpenFunctions ((Mark.all text first.start).map Mark.keyword) → detect text = unclosed) ∧
    (BeginsClosed ((Mark.all text first.start).map Mark.keyword) ↔ detect text = closed) := by
  have hat := Header.at?_of_first? hfirst
  have hstop := Block.stop_of_header hat
  rw [Mark.all_of_header hat]
  constructor
  · rintro ⟨_ | ⟨w, bodies⟩, hne, hbodies, hks⟩
    · exact absurd rfl hne
    obtain ⟨hw, hlater⟩ := List.forall_mem_cons.1 hbodies
    rw [List.flatMap_cons, List.map_cons, List.cons_append, List.cons.injEq] at hks
    rw [detect, hfirst]
    simp only [hstop, Block.close_of_openFunctions hw hlater hks.2]
  · rw [detect_eq_closed_iff hfirst, hstop]
    exact Block.beginsClosed_iff rfl

/-- Two functions without an `end` of their own, with control blocks inside. -/
def loopsText : Text :=
  "function a(x)\n arguments\n  x\n end\n if x, for i = 1:3, end, end\nfunction b\n while 1, end\n".toList

/-- A function closed inside another, and a third that is not closed. -/
def nestedText : Text := "function a\n function b\n end\nend\nfunction c\n".toList

theorem loopsText_unclosed_nestedText_closed :
    (OpenFunctions ((Mark.all loopsText 0).map Mark.keyword) ∧ detect loopsText = unclosed) ∧
    (BeginsClosed ((Mark.all nestedText 0).map Mark.keyword) ∧ detect nestedText = closed) := by
  have hfor : BalancedOver (· ≠ .function) [.opener .forLoop, .close] :=
    @BalancedOver.block _ _ [] [] (by decide) .nil .nil
  have hif : BalancedOver (· ≠ .function) [.opener .ifBlock, .opener .forLoop, .close, .close] :=
    @BalancedOver.block _ _ [.opener .forLoop, .close] [] (by decide) hfor .nil
  have hfirst : BalancedOver (· ≠ .function)
      [.opener .arguments, .close, .opener .ifBlock, .opener .forLoop, .close, .close] :=
    @BalancedOver.block _ _ [] _ (by decide) .nil hif
  have hsecond : BalancedOver (· ≠ .function) [.opener .whileLoop, .close] :=
    @BalancedOver.block _ _ [] [] (by decide) .nil .nil
  have hopen : OpenFunctions ((Mark.all loopsText 0).map Mark.keyword) :=
    ⟨[_, _], by simp, by simpa using ⟨hfirst, hsecond⟩, by decide +kernel⟩
  have hinner : BalancedOver (fun _ => True) [.opener .function, .close] :=
    @BalancedOver.block _ _ [] [] trivial .nil .nil
  have hclosed : BeginsClosed ((Mark.all nestedText 0).map Mark.keyword) :=
    ⟨_, [.opener .function], hinner, by decide +kernel⟩
  have hloops := detect_wellFormed loopsText ⟨0, 10, 13, [], ['a'], "(x)".toList⟩ (by decide +kernel)
  have hnested := detect_wellFormed nestedText ⟨0, 10, 10, [], ['a'], []⟩ (by decide +kernel)
  exact ⟨⟨hopen, hloops.1 hopen⟩, hclosed, hnested.2.1 hclosed⟩

end Dialect
end MatlabOutline
