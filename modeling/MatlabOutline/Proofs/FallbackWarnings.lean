import MatlabOutline.Proofs.ShortestBlock
import MatlabOutline.Proofs.DetectedDialects

/-! Warnings about functions without an end. A closed function whose keywords never balance runs to
the end of the text, and there is one warning for each such function, in order. Nothing else is
reported: an `end` never comes first, because a header begins with its own keyword, and a text whose
dialect is detected as closed has at least its first function closed. -/
namespace MatlabOutline
open Text

namespace Block

/-- No prefix of the marks has as many `end`s as openers. -/
def NeverBalances (ms : List Mark) : Prop :=
  ∀ i < ms.length, ends (ms.take (i + 1)) ≠ openers (ms.take (i + 1))

instance (ms : List Mark) : Decidable (NeverBalances ms) :=
  inferInstanceAs (Decidable (∀ i < ms.length, _))

theorem StaysOpen.neverBalances {ms : List Mark} (h : StaysOpen ms) : NeverBalances ms :=
  fun i hi => Nat.ne_of_lt (h i hi)

theorem FirstBalancedAt.not_neverBalances {ms : List Mark} {i : Nat} (h : FirstBalancedAt ms i) :
    ¬ NeverBalances ms :=
  fun hnever => hnever i h.1.1 h.1.2

/-- The block of a header is closed, or else its keywords never balance. -/
theorem stop_header_cases {text : Text} {h : Header} (hp : Header.at? text h.start = some h) :
    (¬ NeverBalances (Mark.all text h.start) ∧ ∃ e, stop text h.start = .ok e) ∨
      (NeverBalances (Mark.all text h.start) ∧
        stop text h.start = .error (.unterminated h.start)) := by
  have houtcome := outcome_close h.start (Mark.all text h.start)
  have hall := Mark.all_of_header hp
  rw [stop]
  generalize Mark.all text h.start = ms at houtcome hall ⊢
  generalize close h.start 0 ms = r at houtcome ⊢
  cases houtcome with
  | nothing => cases hall
  | endFirst p ms => cases hall
  | closed _ hi _ => exact .inl ⟨hi.not_neverBalances, _, rfl⟩
  | leftOpen _ hopen => exact .inr ⟨hopen.neverBalances, rfl⟩

end Block

/-- A natural number can be read back from its decimal notation. -/
theorem Text.decimal_natCast_inj {m n : Nat} (h : decimal m = decimal n) : m = n := by
  calc m = Nat.ofDigitChars 10 (decimal m) 0 := Nat.ofDigitChars_ten_toDigits.symm
    _ = Nat.ofDigitChars 10 (decimal n) 0 := by rw [h]
    _ = n := Nat.ofDigitChars_ten_toDigits

namespace Dialect

/-- The warning that the function at an offset is not closed. -/
def fallback (start : Nat) : Message :=
  ⟨.warning, "Falling back to end of text: unterminated block starting at offset ".toList ++
    decimal start⟩

theorem fallback_inj {p q : Nat} (h : fallback p = fallback q) : p = q :=
  decimal_natCast_inj (List.append_cancel_left (congrArg Message.text h))

/-- The warning does not speak of an `end` that comes too early. -/
theorem not_isInfix_fallback (p : Nat) : ¬ "unexpected 'end'".toList <:+: (fallback p).text := by
  intro h
  have hquote : '\'' ∈ (fallback p).text := h.mem (by decide)
  rcases List.mem_append.1 hquote with hmem | hmem
  · exact absurd hmem (by decide)
  · have hdigit : '\''.isDigit = true := Nat.isDigit_of_mem_toDigits (by decide) (by decide) hmem
    cases hdigit

variable {text : Text} {h : Header}

theorem functionEnd_of_neverBalances (hp : Header.at? text h.start = some h)
    (hnever : Block.NeverBalances (Mark.all text h.start)) :
    closed.functionEnd text h.start = (text.length, [fallback h.start]) := by
  rcases Block.stop_header_cases hp with ⟨hnot, -⟩ | ⟨-, hstop⟩
  · exact absurd hnever hnot
  · have htext : "Falling back to end of text: ".toList ++
        "unterminated block starting at offset ".toList =
          "Falling back to end of text: unterminated block starting at offset ".toList := by
      decide +kernel
    rw [functionEnd, hstop, fallback, ← htext, List.append_assoc]
    rfl

theorem log_of_balances (hp : Header.at? text h.start = some h)
    (hnot : ¬ Block.NeverBalances (Mark.all text h.start)) :
    (closed.functionEnd text h.start).2 = [] := by
  rcases Block.stop_header_cases hp with ⟨-, e, hstop⟩ | ⟨hnever, -⟩
  · rw [functionEnd, hstop]
  · exact absurd hnever hnot

theorem detect_eq_closed_iff_balances (hfirst : Header.first? text = some h) :
    detect text = closed ↔ ¬ Block.NeverBalances (Mark.all text h.start) := by
  rw [detect_eq_closed_iff hfirst]
  rcases Block.stop_header_cases (Header.at?_of_first? hfirst) with ⟨hnot, hstop⟩ | ⟨hnever, hstop⟩
  · exact iff_of_true hstop hnot
  · exact iff_of_false (by simp [hstop]) (not_not.2 hnever)

end Dialect

namespace FunctionEntry

/-- The keywords from the start of the function on never balance. -/
def NeverCloses (text : Text) (e : FunctionEntry) : Prop :=
  Block.NeverBalances (Mark.all text e.start.toNat)

instance (text : Text) (e : FunctionEntry) : Decidable (e.NeverCloses text) :=
  inferInstanceAs (Decidable (Block.NeverBalances _))

/-- Closed functions are reported one by one, each that never closes and no other. -/
theorem log_ofHeaders {text : Text} {hs : List Header}
    (hat : ∀ h ∈ hs, Header.at? text h.start = some h) :
    hs.flatMap (fun h => (Dialect.closed.functionEnd text h.start).2) =
      ((hs.map (ofHeader text .closed)).filter (·.NeverCloses text)).map
        fun e => Dialect.fallback e.start.toNat := by
  induction hs with
  | nil => rfl
  | cons h hs ih =>
    obtain ⟨hh, hlater⟩ := List.forall_mem_cons.1 hat
    have hiff : (ofHeader text .closed h).NeverCloses text ↔
        Block.NeverBalances (Mark.all text h.start) := Iff.rfl
    rw [List.flatMap_cons, List.map_cons, ih hlater]
    by_cases hnever : Block.NeverBalances (Mark.all text h.start)
    · rw [Dialect.functionEnd_of_neverBalances hh hnever,
        List.filter_cons_of_pos (by simpa [hiff] using hnever)]
      rfl
    · rw [Dialect.log_of_balances hh hnever,
        List.filter_cons_of_neg (by simpa [hiff] using hnever)]
      rfl

end FunctionEntry

namespace Source

/-- The source, to be read in another dialect. -/
def inDialect (s : Source) (dialect : Option Dialect) : Source := { s with dialect }

section Logs

variable {s : Source}

theorem log_of_headers (h : Header.all s.text ≠ []) :
    s.entries.2 =
      (Header.all s.text).flatMap fun h => (s.usedDialect.functionEnd s.text h.start).2 := by
  rw [entries]
  split
  · contradiction
  · rfl

theorem log_unclosed (h : Header.all s.text ≠ []) (hd : s.usedDialect = .unclosed) :
    s.entries.2 = [] := by
  rw [log_of_headers h, hd]
  exact List.flatMap_eq_nil_iff.2 fun _ _ => rfl

theorem log_closed (h : Header.all s.text ≠ []) (hd : s.usedDialect = .closed) :
    s.entries.2 = (s.entries.1.filter (·.NeverCloses s.text)).map
      fun e => Dialect.fallback e.start.toNat := by
  rw [log_of_headers h, entries_of_headers h, hd]
  exact FunctionEntry.log_ofHeaders fun a ha => ((Header.finds_all s.text).at? a ha).2

/-- Every message is the warning about a function that never closes. -/
theorem exists_of_mem_log {m : Message} (h : Header.all s.text ≠ []) (hm : m ∈ s.entries.2) :
    ∃ e ∈ s.entries.1, e.NeverCloses s.text ∧ m = Dialect.fallback e.start.toNat := by
  cases hd : s.usedDialect with
  | unclosed =>
    rw [log_unclosed h hd] at hm
    cases hm
  | closed =>
    rw [log_closed h hd] at hm
    obtain ⟨e, he, rfl⟩ := List.mem_map.1 hm
    obtain ⟨hmem, hnever⟩ := List.mem_filter.1 he
    exact ⟨e, hmem, by simpa using hnever, rfl⟩

theorem stop_of_neverCloses {e : FunctionEntry} (h : Header.all s.text ≠ [])
    (hd : s.usedDialect = .closed) (he : e ∈ s.entries.1) (hnever : e.NeverCloses s.text) :
    e.stop = s.text.length := by
  rw [entries_of_headers h, hd] at he
  obtain ⟨a, ha, rfl⟩ := FunctionEntry.mem_ofHeaders he
  have hend := Dialect.functionEnd_of_neverBalances ha hnever
  simp only [FunctionEntry.ofHeader, hend]

end Logs

/-- Read as closed, a source with headers has one warning for each function whose keywords never
balance, in order, and such a function runs to the end of the text. Read as unclosed, it has none.
If the dialect is detected, there is none where the first function never balances, and otherwise
they are the warnings of the closed dialect and none is about the first function. No message speaks
of an `end` that comes too early. -/
theorem fallbacks_reported (s : Source) (first : Header)
    (hfirst : Header.first? s.text = some first) :
    ((s.inDialect (some .closed)).entries.2 =
        ((s.inDialect (some .closed)).entries.1.filter (·.NeverCloses s.text)).map
          (fun e => Dialect.fallback e.start.toNat) ∧
      ∀ e ∈ (s.inDialect (some .closed)).entries.1, e.NeverCloses s.text →
        e.stop = s.text.length) ∧
    (s.inDialect (some .unclosed)).entries.2 = [] ∧
    (Block.NeverBalances (Mark.all s.text first.start) → (s.inDialect none).entries.2 = []) ∧
    (¬ Block.NeverBalances (Mark.all s.text first.start) →
      (s.inDialect none).entries.2 = (s.inDialect (some .closed)).entries.2 ∧
        Dialect.fallback first.start ∉ (s.inDialect none).entries.2) ∧
    ∀ dialect, ∀ m ∈ (s.inDialect dialect).entries.2, ¬ "unexpected 'end'".toList <:+: m.text := by
  have hne : ∀ dialect, Header.all (s.inDialect dialect).text ≠ [] :=
    fun _ => List.ne_nil_of_mem (Header.mem_all_of_first? hfirst)
  have hdetect := Dialect.detect_eq_closed_iff_balances hfirst
  refine ⟨⟨log_closed (hne _) rfl, fun e => stop_of_neverCloses (hne _) rfl⟩,
    log_unclosed (hne _) rfl, fun hnever => ?_, fun hnot => ⟨?_, fun hmem => ?_⟩, fun dialect m hm => ?_⟩
  · apply log_unclosed (hne none)
    cases hd : Dialect.detect s.text with
    | unclosed => exact hd
    | closed => exact absurd hnever (hdetect.1 hd)
  · have hused : (s.inDialect none).usedDialect = .closed := hdetect.2 hnot
    rw [log_of_headers (hne none), log_of_headers (hne _), hused]
    rfl
  · obtain ⟨e, -, hnever, heq⟩ := exists_of_mem_log (hne none) hmem
    rw [FunctionEntry.NeverCloses, ← Dialect.fallback_inj heq] at hnever
    exact hnot hnever
  · obtain ⟨e, -, -, rfl⟩ := exists_of_mem_log (hne dialect) hm
    exact Dialect.not_isInfix_fallback _

/-- Three functions, of which the second has an `end` too few. -/
def unfinishedSource : Source :=
  ⟨"function a\nend\nfunction b\nif x\nend\nfunction c\nend\n".toList, none, [], none⟩

theorem unfinishedSource_fallbacks :
    (Header.first? unfinishedSource.text = some ⟨0, 10, 10, [], ['a'], []⟩ ∧
      ¬ Block.NeverBalances (Mark.all unfinishedSource.text 0)) ∧
    (unfinishedSource.inDialect (some .closed)).entries.2 = [Dialect.fallback 15] ∧
    (unfinishedSource.inDialect (some .unclosed)).entries.2 = [] ∧
    (unfinishedSource.inDialect none).entries.2 = [Dialect.fallback 15] := by
  have hfirst : Header.first? unfinishedSource.text = some ⟨0, 10, 10, [], ['a'], []⟩ := by
    decide +kernel
  have hnot : ¬ Block.NeverBalances (Mark.all unfinishedSource.text 0) := by decide +kernel
  obtain ⟨⟨hclosed, -⟩, hunclosed, -, hdetected, -⟩ := fallbacks_reported unfinishedSource _ hfirst
  have hlog : (unfinishedSource.inDialect (some .closed)).entries.2 = [Dialect.fallback 15] :=
    hclosed.trans (by decide +kernel)
  exact ⟨⟨hfirst, hnot⟩, hlog, hunclosed, (hdetected hnot).1.trans hlog⟩

end Source
end MatlabOutline
