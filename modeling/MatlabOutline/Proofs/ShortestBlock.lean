import MatlabOutline.Proofs.Balance

/-! The shortest balanced prefix. A block ends with the first keyword up to which as many `end`s as
openers have been read. It cannot be read if an `end` comes first, and it is not closed if every
prefix of the keywords has more openers than `end`s. -/
namespace MatlabOutline.Block

/-- The number of marks that open a block. -/
def openers (ms : List Mark) : Nat := ms.countP fun m => m.keyword ≠ .close

/-- The number of marks that close a block. -/
def ends (ms : List Mark) : Nat := ms.countP fun m => m.keyword = .close

theorem balance_eq_openers_sub_ends (ms : List Mark) : balance ms = openers ms - ends ms := by
  induction ms with
  | nil => rfl
  | cons m ms ih =>
    rw [balance, ih]
    cases hk : m.keyword with
    | opener o =>
      have hopeners : openers (m :: ms) = openers ms + 1 := by simp [openers, hk]
      have hends : ends (m :: ms) = ends ms := by simp [ends, hk]
      rw [hopeners, hends, rise]
      omega
    | close =>
      have hopeners : openers (m :: ms) = openers ms := by simp [openers, hk]
      have hends : ends (m :: ms) = ends ms + 1 := by simp [ends, hk]
      rw [hopeners, hends, rise]
      omega

/-- The first of the marks opens a block. -/
def StartsBlock (ms : List Mark) : Prop := ∃ m ∈ ms.head?, m.keyword ≠ .close

/-- The shortest prefix with as many `end`s as openers ends with the mark at place `i`. -/
def FirstBalancedAt (ms : List Mark) (i : Nat) : Prop :=
  (i < ms.length ∧ ends (ms.take (i + 1)) = openers (ms.take (i + 1))) ∧
    ∀ j < i, ends (ms.take (j + 1)) ≠ openers (ms.take (j + 1))

/-- Every prefix of the marks has more openers than `end`s. -/
def StaysOpen (ms : List Mark) : Prop :=
  ∀ j < ms.length, ends (ms.take (j + 1)) < openers (ms.take (j + 1))

theorem FirstBalancedAt.unique {ms : List Mark} {i j : Nat} (hi : FirstBalancedAt ms i)
    (hj : FirstBalancedAt ms j) : i = j := by
  rcases Nat.lt_trichotomy i j with h | h | h
  · exact absurd hi.1.2 (hj.2 i h)
  · exact h
  · exact absurd hj.1.2 (hi.2 j h)

theorem StaysOpen.not_firstBalancedAt {ms : List Mark} {i : Nat} (h : StaysOpen ms) :
    ¬ FirstBalancedAt ms i :=
  fun hi => Nat.ne_of_lt (h i hi.1.1) hi.1.2

theorem ClosesAt.firstBalancedAt {ms : List Mark} {i : Nat} (h : ClosesAt ms i) :
    FirstBalancedAt ms i := by
  obtain ⟨hlt, hzero, hpos⟩ := h
  rw [balance_eq_openers_sub_ends] at hzero
  refine ⟨⟨hlt, by omega⟩, fun j hj => ?_⟩
  have hopen := hpos j hj
  rw [balance_eq_openers_sub_ends] at hopen
  omega

/-- What marks lead to, when a block is looked for at their beginning. -/
inductive Outcome (start : Nat) : List Mark → Except BlockError Nat → Prop
  | nothing : Outcome start [] (.error (.unterminated start))
  | endFirst (p : Nat) (ms : List Mark) :
      Outcome start (⟨.close, p⟩ :: ms) (.error (.unexpectedEnd p))
  | closed {ms : List Mark} {i : Nat} {m : Mark} (hfirst : StartsBlock ms)
      (hi : FirstBalancedAt ms i) (hm : ms[i]? = some m) : Outcome start ms (.ok m.stop)
  | leftOpen {ms : List Mark} (hfirst : StartsBlock ms) (hopen : StaysOpen ms) :
      Outcome start ms (.error (.unterminated start))

theorem outcome_close (start : Nat) (ms : List Mark) : Outcome start ms (close start 0 ms) := by
  rcases ms with _ | ⟨⟨_ | _, p⟩, ms⟩
  · exact .nothing
  · rename_i o
    have hfirst : StartsBlock (⟨.opener o, p⟩ :: ms) := ⟨_, rfl, by simp⟩
    rw [close_opener]
    rcases exists_returnsAt_or Int.one_pos ms with ⟨i, hi⟩ | hpos
    · have hm : ms[i]? = some (ms.get ⟨i, hi.1⟩) := List.getElem?_eq_getElem hi.1
      rw [close_of_returnsAt Nat.one_pos hi hm]
      exact .closed hfirst ((closesAt_cons_succ rfl).2 hi).firstBalancedAt hm
    · rw [close_of_forall_pos hpos]
      refine .leftOpen hfirst fun j _ => ?_
      have hj := hpos j
      have hbalance := balance_eq_openers_sub_ends ((⟨.opener o, p⟩ :: ms).take (j + 1))
      rw [List.take_succ_cons, balance, rise] at hbalance
      rw [List.take_succ_cons]
      omega
  · exact .endFirst p ms

section Outcomes

variable {start : Nat} {ms : List Mark} {r : Except BlockError Nat}

theorem Outcome.eq_ok_iff (h : Outcome start ms r) (e : Nat) :
    r = .ok e ↔
      StartsBlock ms ∧ ∃ i m, FirstBalancedAt ms i ∧ ms[i]? = some m ∧ m.stop = e := by
  cases h with
  | nothing => simp [StartsBlock]
  | endFirst p ms => simp [StartsBlock]
  | @closed _ i m hfirst hi hm =>
    constructor
    · intro he
      exact ⟨hfirst, i, m, hi, hm, Except.ok.inj he⟩
    · rintro ⟨-, j, n, hj, hn, rfl⟩
      obtain rfl := hi.unique hj
      rw [hm, Option.some.injEq] at hn
      rw [hn]
  | leftOpen hfirst hopen =>
    refine iff_of_false (by simp) ?_
    rintro ⟨-, i, m, hi, -⟩
    exact hopen.not_firstBalancedAt hi

theorem Outcome.eq_unexpectedEnd_iff (h : Outcome start ms r) (p : Nat) :
    r = .error (.unexpectedEnd p) ↔ ms.head? = some ⟨.close, p⟩ := by
  have hnot : StartsBlock ms → ms.head? ≠ some ⟨.close, p⟩ := by
    rintro ⟨m, hm, hk⟩ hhead
    rw [Option.mem_def, hhead, Option.some.injEq] at hm
    exact hk (by rw [← hm])
  cases h with
  | nothing => simp
  | endFirst q ms => simp
  | closed hfirst => exact iff_of_false (by simp) (hnot hfirst)
  | leftOpen hfirst => exact iff_of_false (by simp) (hnot hfirst)

theorem Outcome.eq_unterminated_iff (h : Outcome start ms r) (s : Nat) :
    r = .error (.unterminated s) ↔ s = start ∧ (ms = [] ∨ StartsBlock ms ∧ StaysOpen ms) := by
  cases h with
  | nothing => simp [eq_comm]
  | endFirst p ms => simp [StartsBlock]
  | closed hfirst hi hm =>
    refine iff_of_false (by simp) ?_
    rintro ⟨-, rfl | ⟨-, hopen⟩⟩
    · simp at hm
    · exact hopen.not_firstBalancedAt hi
  | leftOpen hfirst hopen => simp [hfirst, hopen, eq_comm]

end Outcomes

/-- A block ends with the shortest balanced prefix of the keywords from its start. An `end` is
unexpected exactly if it is the first of them, and the block is unterminated exactly if there is no
keyword at all, or the first one opens a block and every prefix has more openers than `end`s. -/
theorem stop_shortest_balanced (text : Text) (start : Nat) :
    (∀ e, stop text start = .ok e ↔
      StartsBlock (Mark.all text start) ∧
        ∃ i m, FirstBalancedAt (Mark.all text start) i ∧ (Mark.all text start)[i]? = some m ∧
          m.stop = e) ∧
    (∀ p, stop text start = .error (.unexpectedEnd p) ↔
      (Mark.all text start).head? = some ⟨.close, p⟩) ∧
    ∀ s, stop text start = .error (.unterminated s) ↔
      s = start ∧ (Mark.all text start = [] ∨
        StartsBlock (Mark.all text start) ∧ StaysOpen (Mark.all text start)) := by
  have h := outcome_close start (Mark.all text start)
  exact ⟨h.eq_ok_iff, h.eq_unexpectedEnd_iff, h.eq_unterminated_iff⟩

end MatlabOutline.Block
