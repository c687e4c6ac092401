import MatlabOutline.Block.Basic
import Mathlib.Data.List.TakeDrop

/-! Open blocks as a walk. Each opener goes up one step and each `end` goes down one; a block is
closed where the walk first comes back to the level from which it started. -/
namespace MatlabOutline.Block

/-- The step that a keyword takes. -/
def rise : Keyword → Int
  | .opener _ => 1
  | .close => -1

/-- How many more blocks the marks open than they close. -/
def balance : List Mark → Int
  | [] => 0
  | m :: ms => rise m.keyword + balance ms

@[simp] theorem balance_append (ms ns : List Mark) :
    balance (ms ++ ns) = balance ms + balance ns := by
  induction ms with
  | nil => simp [balance]
  | cons m ms ih => rw [List.cons_append, balance, balance, ih]; omega

/-- With `depth` blocks open before them, the marks close the last of these at place `i`. -/
def ReturnsAt (depth : Int) (ms : List Mark) (i : Nat) : Prop :=
  i < ms.length ∧ depth + balance (ms.take (i + 1)) = 0 ∧
    ∀ j ≤ i, 0 < depth + balance (ms.take j)

/-- The block that opens with the first mark is closed by the one at place `i`. -/
def ClosesAt (ms : List Mark) (i : Nat) : Prop :=
  i < ms.length ∧ balance (ms.take (i + 1)) = 0 ∧ ∀ j < i, 0 < balance (ms.take (j + 1))

theorem returnsAt_cons_succ {depth : Int} {m : Mark} {ms : List Mark} {i : Nat} (hd : 0 < depth) :
    ReturnsAt depth (m :: ms) (i + 1) ↔ ReturnsAt (depth + rise m.keyword) ms i := by
  simp only [ReturnsAt, List.length_cons, List.take_succ_cons, balance, Nat.add_lt_add_iff_right,
    Int.add_assoc]
  refine and_congr_right fun _ => and_congr_right fun _ => ⟨fun h j hj => ?_, fun h j hj => ?_⟩
  · have := h (j + 1) (by omega)
    rwa [List.take_succ_cons, balance] at this
  · cases j with
    | zero => simpa [balance] using hd
    | succ j =>
      rw [List.take_succ_cons, balance]
      exact h j (by omega)

theorem closesAt_cons_succ {m : Mark} {ms : List Mark} {i : Nat} (hm : rise m.keyword = 1) :
    ClosesAt (m :: ms) (i + 1) ↔ ReturnsAt 1 ms i := by
  simp only [ClosesAt, ReturnsAt, List.length_cons, List.take_succ_cons, balance, hm,
    Nat.lt_succ_iff, Nat.succ_le_iff]

/-- Either the walk comes back to its level, or it stays above for good. -/
theorem exists_returnsAt_or {depth : Int} (hd : 0 < depth) (ms : List Mark) :
    (∃ i, ReturnsAt depth ms i) ∨ ∀ j, 0 < depth + balance (ms.take j) := by
  induction ms generalizing depth with
  | nil => right; simpa [balance] using hd
  | cons m ms ih =>
    by_cases hz : depth + rise m.keyword = 0
    · left
      refine ⟨0, by simp, by simpa [balance] using hz, fun j hj => ?_⟩
      obtain rfl : j = 0 := by omega
      simpa [balance] using hd
    · have hpos : 0 < depth + rise m.keyword := by
        cases hk : m.keyword <;> simp only [hk, rise] at hz ⊢ <;> omega
      rcases ih hpos with ⟨i, hi⟩ | hall
      · exact .inl ⟨i + 1, (returnsAt_cons_succ hd).2 hi⟩
      · right
        intro j
        cases j with
        | zero => simpa [balance] using hd
        | succ j =>
          rw [List.take_succ_cons, balance, ← Int.add_assoc]
          exact hall j

theorem balance_take_drop (ms : List Mark) (a n : Nat) :
    balance ((ms.drop a).take n) = balance (ms.take (a + n)) - balance (ms.take a) := by
  rw [List.take_add, balance_append]
  omega

theorem ClosesAt.unique {ms : List Mark} {i j : Nat} (hi : ClosesAt ms i) (hj : ClosesAt ms j) :
    i = j := by
  rcases Nat.lt_trichotomy i j with h | h | h
  · have := hj.2.2 i h
    have := hi.2.1
    omega
  · exact h
  · have := hi.2.2 j h
    have := hj.2.1
    omega

/-- A block is closed by an `end`. -/
theorem ClosesAt.keyword {ms : List Mark} {i : Nat} {m : Mark} (h : ClosesAt ms i) (hi : 0 < i)
    (hm : ms[i]? = some m) : m.keyword = .close := by
  obtain ⟨-, hzero, hpos⟩ := h
  have hbefore := hpos (i - 1) (by omega)
  rw [Nat.sub_add_cancel hi] at hbefore
  rw [List.take_add_one, hm, Option.toList_some, balance_append, balance, balance] at hzero
  cases hk : m.keyword with
  | opener o => simp only [hk, rise] at hzero; omega
  | close => rfl

/-- A block that opens inside another is closed before it. -/
theorem ClosesAt.inner {ms : List Mark} {a b c : Nat} {m : Mark} (h : ClosesAt (ms.drop a) c)
    (hab : a < b) (hbc : b < a + c) (hm : ms[b]? = some m) (ho : rise m.keyword = 1) :
    ∃ d, ClosesAt (ms.drop b) d ∧ b + d < a + c := by
  obtain ⟨-, hzero, hpos⟩ := h
  have habove := hpos (b - a - 1) (by omega)
  rw [balance_take_drop] at hzero habove
  rw [show a + (b - a - 1 + 1) = b by omega] at habove
  have hnext : balance (ms.take (b + 1)) = balance (ms.take b) + 1 := by
    rw [List.take_add_one, hm, Option.toList_some, balance_append, balance, balance, ho]
    rfl
  have hcons : ms.drop b = m :: ms.drop (b + 1) := by
    obtain ⟨hlt, rfl⟩ := List.getElem?_eq_some_iff.1 hm
    exact List.drop_eq_getElem_cons hlt
  rcases exists_returnsAt_or Int.one_pos (ms.drop (b + 1)) with ⟨i, hi⟩ | hall
  · have hclose : ClosesAt (ms.drop b) (i + 1) := by
      rw [hcons]
      exact (closesAt_cons_succ ho).2 hi
    refine ⟨i + 1, hclose, ?_⟩
    obtain ⟨-, hz, hp⟩ := hclose
    by_contra hge
    rw [balance_take_drop] at hz
    by_cases he : b + (i + 1) = a + c
    · rw [show b + (i + 1 + 1) = a + (c + 1) by omega] at hz
      omega
    · have hp' := hp (a + c - b) (by omega)
      rw [balance_take_drop, show b + (a + c - b + 1) = a + (c + 1) by omega] at hp'
      omega
  · have hlow := hall (a + c - b)
    rw [balance_take_drop, show b + 1 + (a + c - b) = a + (c + 1) by omega] at hlow
    omega

@[simp] theorem close_opener (start depth s : Nat) (o : Opener) (ms : List Mark) :
    close start depth (⟨.opener o, s⟩ :: ms) = close start (depth + 1) ms := by
  cases depth <;> rfl

@[simp] theorem close_close (start depth s : Nat) (ms : List Mark) :
    close start (depth + 2) (⟨.close, s⟩ :: ms) = close start (depth + 1) ms := rfl

/-- The walk down to level zero is the one that closing a block follows. -/
theorem close_of_returnsAt {start depth i : Nat} {ms : List Mark} {m : Mark} (hd : 0 < depth)
    (h : ReturnsAt depth ms i) (hm : ms[i]? = some m) : close start depth ms = .ok m.stop := by
  induction ms generalizing depth i with
  | nil => simp at hm
  | cons a ms ih =>
    obtain ⟨k, s⟩ := a
    cases i with
    | zero =>
      obtain rfl := Option.some.inj hm
      have hz : (depth : Int) + rise k = 0 := by simpa [balance] using h.2.1
      cases k with
      | opener o => simp only [rise] at hz; omega
      | close =>
        obtain rfl : depth = 1 := by simp only [rise] at hz; omega
        rfl
    | succ i =>
      have hnext := (returnsAt_cons_succ (by omega)).1 h
      rw [List.getElem?_cons_succ] at hm
      cases k with
      | opener o =>
        rw [close_opener]
        exact ih (by omega) hnext hm
      | close =>
        have hpos := hnext.2.2 0 (by omega)
        simp only [List.take_zero, balance, rise] at hpos
        obtain ⟨d, rfl⟩ : ∃ d, depth = d + 2 := ⟨depth - 2, by omega⟩
        rw [close_close]
        have hdepth : ((d + 2 : Nat) : Int) + rise .close = (d + 1 : Nat) := by
          simp only [rise]
          omega
        rw [hdepth] at hnext
        exact ih (by omega) hnext hm

theorem close_of_forall_pos {start depth : Nat} {ms : List Mark}
    (h : ∀ j, 0 < (depth : Int) + balance (ms.take j)) :
    close start depth ms = .error (.unterminated start) := by
  induction ms generalizing depth with
  | nil => rfl
  | cons a ms ih =>
    obtain ⟨k, s⟩ := a
    have hnext : ∀ j, 0 < (depth : Int) + rise k + balance (ms.take j) := by
      intro j
      have := h (j + 1)
      rwa [List.take_succ_cons, balance, ← Int.add_assoc] at this
    cases k with
    | opener o =>
      rw [close_opener]
      exact ih hnext
    | close =>
      have hpos := hnext 0
      simp only [List.take_zero, balance, rise] at hpos
      obtain ⟨d, rfl⟩ : ∃ d, depth = d + 2 := ⟨depth - 2, by omega⟩
      rw [close_close]
      refine ih fun j => ?_
      have := hnext j
      simp only [rise] at this
      omega

/-- Marks that close all the blocks they open, and no other. -/
inductive Balanced : List Mark → Prop
  | nil : Balanced []
  | block {o : Opener} {s t : Nat} {inner rest : List Mark} (hinner : Balanced inner)
      (hrest : Balanced rest) : Balanced (⟨.opener o, s⟩ :: inner ++ ⟨.close, t⟩ :: rest)

/-- Balanced marks do not close a block that is open around them. -/
theorem Balanced.close_append {ms : List Mark} (h : Balanced ms) (start depth : Nat)
    (ns : List Mark) : close start (depth + 1) (ms ++ ns) = close start (depth + 1) ns := by
  induction h generalizing depth ns with
  | nil => rfl
  | block _ _ hinner hrest =>
    rw [List.append_assoc, List.cons_append, List.cons_append, close_opener, hinner, close_close,
      hrest]

end MatlabOutline.Block
