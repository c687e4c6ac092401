import MatlabOutline.Proofs.PrintedBlocks
import MatlabOutline.Proofs.SkippedText
import MatlabOutline.Proofs.Statements

/-! Bodies do not disturb the balance of blocks. Each kind of statement is read without a keyword in
sight, whatever its strings, comments and fields hold, and each block closes itself; so a function
is closed by the `end` after its body. -/
namespace MatlabOutline
open Text

namespace Text

theorem doubled_cons (quote c : Char) (t : Text) :
    doubled quote (c :: t) = (if c = quote then [c, c] else [c]) ++ doubled quote t :=
  List.flatMap_cons

end Text

theorem Keyword.here?_of_ne {before word rest : Text} (h : ∀ k ∈ all, k.word ≠ word) :
    here? before word rest = none := by
  have hnone : ofWord? word = none := by
    apply List.find?_eq_none.2
    simpa using h
  rw [here?, hnone]
  split <;> rfl

namespace Variable

/-- The last character of a variable makes a quote after it the transpose sign. -/
theorem exists_getLast? (w : Variable) :
    ∃ c, w.name.getLast? = some c ∧ Lexeme.endsValue c = true := by
  have hne := w.identifier.ne_nil
  refine ⟨w.name.getLast hne, List.getLast?_eq_some_getLast hne, ?_⟩
  have hmem := List.getLast_mem hne
  have hword := w.identifier.2 _ hmem
  simp only [isWord, isAlphanumeric, w.ascii _ hmem, if_true, Bool.or_eq_true, beq_iff_eq] at hword
  rcases hword with h | h
  · rw [h]
    decide
  · simp [Lexeme.endsValue, h]

end Variable

namespace Lexeme

/-- A string literal ends with its closing quote, if its content has every quote doubled. -/
theorem stringTail_doubled {quote : Char} {s v : Text} (hquote : quote ≠ '\n')
    (hs : ∀ c ∈ s, c ≠ '\n') (hv : ∀ c ∈ v.head?, c ≠ quote) :
    stringTail quote (doubled quote s ++ quote :: v) = (doubled quote s).length + 1 := by
  induction s with
  | nil =>
    cases v with
    | nil => simp [doubled, stringTail, hquote]
    | cons d v => simp [doubled, stringTail, hquote, hv d rfl]
  | cons c s ih =>
    obtain ⟨hc, hs⟩ := List.forall_mem_cons.1 hs
    rw [doubled_cons]
    split_ifs with hcq
    · subst hcq
      simp [stringTail, hc, ih hs]
    · rw [List.append_assoc, List.singleton_append, stringTail_cons hcq hc, ih hs]
      rfl

/-- Whatever is put between quotes with every quote doubled, the string literal ends just past its
closing quote, if no further quote follows it. -/
theorem stringEnd?_quoted (before content after : Text) (quote : Char) (hquote : quote ≠ '\n')
    (hcontent : '\n' ∉ content) (hafter : after.head? ≠ some quote) :
    stringEnd? (before ++ quote :: (doubled quote content ++ quote :: after)) before.length =
      some (before.length + (doubled quote content).length + 2) := by
  have htail : stringTail quote (doubled quote content ++ quote :: after) =
      (doubled quote content).length + 1 := by
    apply stringTail_doubled hquote
    · rintro c hc rfl
      exact hcontent hc
    · rintro c hc rfl
      exact hafter hc
  rw [stringEnd?, List.drop_left]
  simp only [htail, Option.some.injEq]
  omega

/-- Quotes at both ends of the content, next to the delimiters, and in a row. -/
theorem stringEnd?_quotesInQuotes :
    ('\'' ≠ '\n' ∧ '\n' ∉ "'it''s'".toList ∧ "; % 'end".toList.head? ≠ some '\'') ∧
    stringEnd? "x = '''it''''s'''; % 'end".toList 4 = some 17 := by
  have hquote : '\'' ≠ '\n' := by decide
  have hcontent : '\n' ∉ "'it''s'".toList := by decide
  have hafter : "; % 'end".toList.head? ≠ some '\'' := by decide
  exact ⟨⟨hquote, hcontent, hafter⟩,
    stringEnd?_quoted "x = ".toList "'it''s'".toList "; % 'end".toList '\'' hquote hcontent hafter⟩

theorem at?_of_read {text l v : Text} {p : Nat} {c : Char} {fresh : Bool} {k : Kind}
    (hd : text.drop p = c :: l ++ v)
    (hread : read fresh (text.take p).reverse c (l ++ v) = (k, l.length)) :
    at? text fresh p = some (k, p + (c :: l).length) := by
  rw [at?, hd, List.cons_append]
  simp only [hread, List.take_left, List.length_cons]
  rw [Nat.add_assoc, Nat.add_comm 1]

/-- A continuation takes the rest of its line, and the newline. -/
theorem at?_continuation {text v : Text} {p : Nat} (tail : Line)
    (hd : text.drop p = '.' :: '.' :: '.' :: (tail.1 ++ '\n' :: v)) (fresh : Bool) :
    at? text fresh p = some (.continuation, p + (tail.1.length + 4)) := by
  have hcut : text.drop p = '.' :: ('.' :: '.' :: (tail.1 ++ ['\n'])) ++ v := by
    rw [hd]
    simp
  have hline : restOfLine (tail.1 ++ ['\n'] ++ v) = tail.1 := by
    rw [List.append_assoc]
    exact restOfLine_append tail.2 (by simp [AtLineEnd])
  rw [at?_of_read (k := .continuation) hcut]
  · simp
  · rw [List.cons_append, List.cons_append, read_continuation, hline]
    simp

/-- A dot that does not open a continuation. -/
theorem read_dot {fresh : Bool} {before t : Text}
    (h : (after? "...".toList ('.' :: t)).isSome = false) :
    read fresh before '.' t = (.other, 0) := by
  rw [read, if_neg (by decide), if_neg (by decide), if_neg (by rw [h]; decide)]
  rfl

theorem read_transpose {fresh : Bool} {before t : Text}
    (h : opensString fresh before '\'' = false) : read fresh before '\'' t = (.other, 0) := by
  rw [read, if_neg (by decide), if_neg (by decide), if_neg (by simp [after?]), if_neg (by simp [h])]
  rfl

/-- A block comment ends with the first line that closes it. -/
theorem blockLength_append {u l v : Text} {ls : List Text} (hu : ∀ c ∈ u, c ≠ '\n')
    (hls : ∀ m ∈ ls, (∀ c ∈ m, c ≠ '\n') ∧ closesBlock m = false)
    (hl : (∀ c ∈ l, c ≠ '\n') ∧ closesBlock l = true) (hv : AtLineEnd v) :
    blockLength (u ++ furtherLines (ls ++ [l]) ++ v) = (u ++ furtherLines (ls ++ [l])).length := by
  have hnewline : ∀ m ∈ ls ++ [l], ∀ c ∈ m, c ≠ '\n' := by
    intro m hm
    rcases List.mem_append.1 hm with hm | hm
    · exact (hls m hm).1
    · rw [List.mem_singleton.1 hm]
      exact hl.1
  have hlines := lines_append hu hnewline hv
  have hfirst : restOfLine (u ++ furtherLines (ls ++ [l]) ++ v) = u :=
    (List.cons.inj ((lines_eq_cons _).symm.trans hlines)).1
  rw [blockLength, hfirst, hlines, List.cons_append, List.tail_cons, List.append_assoc,
    blockTail_append fun m hm => (hls m hm).2, List.singleton_append, blockTail, if_pos hl.2]
  simp only [furtherLines, List.flatMap_append, List.flatMap_singleton, List.length_append,
    List.length_cons]
  omega

theorem closesBlock_indented {lead : Text} (h : ∀ c ∈ lead, isBlank c = true) :
    closesBlock (lead ++ "%\x7d".toList) = true := by
  have hrun : (lead ++ "%\x7d".toList).dropWhile isBlank = "%\x7d".toList :=
    dropWhile_run h (notAhead_cons (c := '%') rfl)
  rw [closesBlock, hrun]
  rfl

/-- A block comment on lines of its own is one lexeme. -/
theorem at?_blockLines {text lead v : Text} {p : Nat} {ls : List Text}
    (hline : Header.startsLine text p = true)
    (hd : text.drop p =
      lead ++ ('%' :: '\x7b' :: furtherLines (ls ++ [lead ++ "%\x7d".toList]) ++ v))
    (hlead : ∀ c ∈ lead, isBlank c = true)
    (hls : ∀ l ∈ ls, (∀ c ∈ l, c ≠ '\n') ∧ closesBlock l = false) (hv : AtLineEnd v) :
    at? text false (p + lead.length) = some (.blockComment, p + lead.length +
      ('%' :: '\x7b' :: furtherLines (ls ++ [lead ++ "%\x7d".toList])).length) := by
  have hnewline : ∀ c ∈ lead ++ "%\x7d".toList, c ≠ '\n' := by
    rintro c hc rfl
    rcases List.mem_append.1 hc with hc | hc
    · exact absurd (hlead _ hc) (by decide)
    · exact absurd hc (by decide)
  have hlength := blockLength_append (u := ['\x7b']) (by simp) hls
    ⟨hnewline, closesBlock_indented hlead⟩ hv
  have hblanks := onlyBlanksBefore_take hline hd hlead
  have hat := drop_add_length hd
  generalize lead ++ "%\x7d".toList = close at hat hlength ⊢
  have hrest : restOfLine ([] ++ (furtherLines (ls ++ [close]) ++ v)) = [] := by
    apply restOfLine_append (by simp)
    cases ls <;> simp [furtherLines, AtLineEnd]
  have hopens : opensBlock (text.take (p + lead.length)).reverse
      ('\x7b' :: furtherLines (ls ++ [close]) ++ v) = true := by
    rw [List.nil_append] at hrest
    simp only [List.cons_append, opensBlock, hblanks, hrest]
    rfl
  apply at?_of_read hat
  rw [read_blockComment hopens]
  exact congrArg _ hlength

end Lexeme

theorem Block.Balanced.append {ms ns : List Mark} (hms : Balanced ms) (hns : Balanced ns) :
    Balanced (ms ++ ns) := by
  induction hms with
  | nil => exact hns
  | block hinner _ _ hrest =>
    rw [List.append_assoc, List.cons_append]
    exact .block hinner hrest

namespace Mark

/-- Reading a text that stands after a given character reports no keyword, and turns one stack of
open brackets into another. -/
def SilentAfter (c : Char) (stack : List Bracket) (u : Text) (stack' : List Bracket) : Prop :=
  ∀ text p v, (text.take p).getLast? = some c → text.drop p = u ++ v →
    scan text false stack p = scan text false stack' (p + u.length)

section Silence

variable {stack stack' : List Bracket} {c d : Char} {l u : Text} {k : Lexeme.Kind}

theorem Silent.after (h : Silent stack u stack') : SilentAfter c stack u stack' :=
  fun text p v _ hd => h text p v hd

/-- One lexeme that is no keyword in sight, before a text that depends on its last character. -/
theorem Silent.lexeme_after (hl : l.getLast? = some c) (hk : visible? stack k = none)
    (hat : ∀ text p v, text.drop p = l ++ (u ++ v) →
      Lexeme.at? text false p = some (k, p + l.length))
    (h : SilentAfter c (brackets stack k) u stack') : Silent stack (l ++ u) stack' := by
  intro text p v hd
  rw [List.append_assoc] at hd
  have hlast : (text.take (p + l.length)).getLast? = some c := by
    rw [take_add_length hd, List.getLast?_append, hl]
    rfl
  rw [scan_step (hat text p v hd), hk, List.length_append, ← Nat.add_assoc]
  exact h text (p + l.length) v hlast (drop_add_length hd)

theorem SilentAfter.lexeme (hk : visible? stack k = none)
    (hat : ∀ text p v, (text.take p).getLast? = some c → text.drop p = l ++ (u ++ v) →
      Lexeme.at? text false p = some (k, p + l.length))
    (h : Silent (brackets stack k) u stack') : SilentAfter c stack (l ++ u) stack' := by
  intro text p v hc hd
  rw [List.append_assoc] at hd
  rw [scan_step (hat text p v hc hd), hk, List.length_append, ← Nat.add_assoc]
  exact h text (p + l.length) v (drop_add_length hd)

theorem Silent.char_after (hread : ∀ before v, Lexeme.read false before c (u ++ v) = (k, 0))
    (hk : visible? stack k = none) (h : SilentAfter c (brackets stack k) u stack') :
    Silent stack (c :: u) stack' := by
  apply lexeme_after (l := [c]) rfl hk _ h
  intro text p v hd
  exact Lexeme.at?_of_read (l := []) hd (hread _ v)

/-- A variable is no keyword anywhere. -/
theorem Silent.variable (w : Variable) (hd : isWord d = false)
    (h : ∀ c, Lexeme.endsValue c = true → SilentAfter c stack (d :: u) stack') :
    Silent stack (w.name ++ d :: u) stack' := by
  obtain ⟨c, hlast, hc⟩ := w.exists_getLast?
  apply lexeme_after (k := .word none) hlast (by simp [visible?]) _ (h c hc)
  intro text p v hdrop
  rw [Lexeme.at?_word hdrop w.identifier (notAhead_cons hd), Keyword.here?_of_ne w.free]

/-- The left side of an assignment. -/
theorem Silent.assign (v : Variable) (h : SilentAfter ' ' [] u stack') :
    Silent [] (v.name ++ ' ' :: '=' :: ' ' :: u) stack' := by
  apply Silent.variable v rfl
  intro c _
  apply Silent.after
  apply char (fun _ _ => rfl) rfl
  apply char (fun _ _ => rfl) rfl
  exact char_after (fun _ _ => rfl) rfl h

/-- The field of a structure, whatever its name. -/
theorem Silent.field {name : Text} (hname : IsIdentifier name) (hd : isWord d = false)
    (h : Silent stack (d :: u) stack') : Silent stack ('.' :: (name ++ d :: u)) stack' := by
  have hdots : ∀ before v, Lexeme.read false before '.' (name ++ d :: u ++ v) = (.other, 0) := by
    intro before v
    cases name with
    | nil => exact absurd rfl hname.ne_nil
    | cons e name =>
      have he : e ≠ '.' := ne_of_isWordStart (by simpa [IsIdentifier] using hname.1) rfl
      exact Lexeme.read_dot (by simp [after?, he.symm])
  apply char_after hdots rfl
  apply SilentAfter.lexeme (k := .word none) (by simp [visible?]) _ h
  intro text p v hlast hdrop
  rw [Lexeme.at?_word hdrop hname (notAhead_cons hd), Keyword.here?, List.head?_reverse, hlast,
    if_pos rfl]

/-- A string, whatever its content. -/
theorem SilentAfter.string {quote : Quote} {s : Line} (hc : Lexeme.endsValue c = false)
    (hd : d ≠ quote.char) (h : Silent stack (d :: u) stack') :
    SilentAfter c stack (quote.char :: (doubled quote.char s.1 ++ quote.char :: (d :: u)))
      stack' := by
  have hcut : quote.char :: (doubled quote.char s.1 ++ quote.char :: (d :: u)) =
      (quote.char :: (doubled quote.char s.1 ++ [quote.char])) ++ d :: u := by simp
  have hquote : quote.char ≠ '\n' ∧ (quote.char = '"' ∨ quote.char = '\'') := by
    cases quote <;> decide
  rw [hcut]
  apply SilentAfter.lexeme (k := .string) rfl _ h
  intro text p v hlast hdrop
  have hopens : Lexeme.opensString false (text.take p).reverse quote.char = true := by
    rw [Lexeme.opensString, List.head?_reverse, hlast]
    rcases hquote.2 with hq | hq <;> simp [hq, hc]
  apply Lexeme.at?_of_read hdrop
  rw [Lexeme.read_string hquote.2 hopens, List.append_assoc, List.singleton_append,
    Lexeme.stringTail_doubled hquote.1 s.2 (by simpa using hd)]
  simp

/-- The transpose sign. -/
theorem SilentAfter.transpose (hc : Lexeme.endsValue c = true) (h : Silent stack u stack') :
    SilentAfter c stack ('\'' :: u) stack' := by
  apply SilentAfter.lexeme (l := ['\'']) (k := .other) rfl _ h
  intro text p v hlast hdrop
  apply Lexeme.at?_of_read (l := []) hdrop
  apply Lexeme.read_transpose
  simp [Lexeme.opensString, List.head?_reverse, hlast, hc]

/-- A continuation, whatever stands after the dots. -/
theorem Silent.continuation (tail : Line) (h : Silent stack u stack') :
    Silent stack ('.' :: '.' :: '.' :: (tail.1 ++ '\n' :: u)) stack' := by
  have hcut : '.' :: '.' :: '.' :: (tail.1 ++ '\n' :: u) =
      ('.' :: '.' :: '.' :: (tail.1 ++ ['\n'])) ++ u := by simp
  rw [hcut]
  apply lexeme (k := .continuation) rfl _ h
  intro text p v hdrop
  rw [Lexeme.at?_continuation tail (v := u ++ v) (by rw [hdrop]; simp)]
  simp

/-- Whatever stands on the right side of an assignment, no keyword of it is in sight. -/
theorem SilentAfter.value (value : Value) (h : Silent [] (';' :: u) stack') :
    SilentAfter ' ' [] (value.print ++ ';' :: u) stack' := by
  cases value with
  | string quote content =>
    have hcut : (Value.string quote content).print ++ ';' :: u =
        quote.char :: (doubled quote.char content.1 ++ quote.char :: (';' :: u)) := by
      simp [Value.print]
    rw [hcut]
    exact .string rfl (by cases quote <;> decide) h
  | sum w tail gap =>
    have hcut : (Value.sum w tail gap).print ++ ';' :: u =
        w.name ++ ' ' :: '+' :: ' ' :: ('.' :: '.' :: '.' ::
          (tail.1 ++ '\n' :: (gap.1 ++ (w.name ++ ';' :: u)))) := by
      simp [Value.print]
    rw [hcut]
    apply Silent.after
    apply Silent.variable w rfl
    intro _ _
    apply Silent.after
    apply Silent.char (fun _ _ => rfl) rfl
    apply Silent.char (fun _ _ => rfl) rfl
    apply Silent.char (fun _ _ => rfl) rfl
    apply Silent.continuation tail
    apply Silent.blanks gap.2
    exact Silent.variable w rfl fun _ _ => h.after
  | last w bracket =>
    rw [Value.print, List.append_assoc]
    have hword : IsIdentifier "end".toList := by decide
    apply Silent.after
    cases bracket with
    | round =>
      apply Silent.variable w rfl
      intro _ _
      apply Silent.after
      apply Silent.char (k := .opening .round) (fun _ _ => rfl) rfl
      apply Silent.word hword rfl
      exact .char (k := .closing) (fun _ _ => rfl) rfl h
    | curly =>
      apply Silent.variable w rfl
      intro _ _
      apply Silent.after
      apply Silent.char (k := .opening .curly) (fun _ _ => rfl) rfl
      apply Silent.word hword rfl
      exact .char (k := .closing) (fun _ _ => rfl) rfl h
  | transpose w =>
    rw [Value.print, List.append_assoc]
    apply Silent.after
    exact Silent.variable w rfl fun c hc => .transpose hc h

end Silence

/-- Whole lines that close every block they open, and no other. -/
def Balances (u : Text) : Prop :=
  ∀ text p v, Header.startsLine text p = true → text.drop p = u ++ v →
    Header.startsLine text (p + u.length) = true ∧
      ∃ ms, Block.Balanced ms ∧ scan text false [] p = ms ++ scan text false [] (p + u.length)

namespace Balances

variable {lead u v : Text}

theorem startsLine_concat {text : Text} {p : Nat} (hd : text.drop p = u ++ ['\n'] ++ v) :
    Header.startsLine text (p + (u ++ ['\n']).length) = true := by
  rw [Header.startsLine, take_add_length hd, ← List.append_assoc, List.getLast?_concat]
  rfl

theorem nil : Balances [] := fun _ _ _ hline _ => ⟨hline, [], .nil, rfl⟩

theorem append (hu : Balances u) (hv : Balances v) : Balances (u ++ v) := by
  intro text p w hline hd
  rw [List.append_assoc] at hd
  obtain ⟨hnext, ms, hms, hscan⟩ := hu text p (v ++ w) hline hd
  obtain ⟨hend, ns, hns, hrest⟩ := hv text (p + u.length) w hnext (drop_add_length hd)
  rw [List.length_append, ← Nat.add_assoc]
  refine ⟨hend, ms ++ ns, hms.append hns, ?_⟩
  rw [hscan, hrest, List.append_assoc]

/-- Lines without a keyword in sight. -/
theorem of_silent (h : Silent [] (u ++ ['\n']) []) : Balances (u ++ ['\n']) := by
  intro text p v hline hd
  refine ⟨startsLine_concat hd, [], .nil, ?_⟩
  rw [List.nil_append]
  exact h text p v hd

/-- A block comment, which is read as a whole. -/
theorem blockComment {ls : List Text} (hlead : ∀ c ∈ lead, isBlank c = true)
    (hls : ∀ l ∈ ls, (∀ c ∈ l, c ≠ '\n') ∧ Lexeme.closesBlock l = false) :
    Balances (lead ++ "%\x7b".toList ++ furtherLines (ls ++ [lead ++ "%\x7d".toList]) ++
      ['\n']) := by
  intro text p v hline hd
  generalize hlines : furtherLines (ls ++ [lead ++ "%\x7d".toList]) = further at hd ⊢
  have hcut : text.drop p = lead ++ ('%' :: '\x7b' :: further ++ ('\n' :: v)) := by
    rw [hd]
    simp
  have hat : Lexeme.at? text false (p + lead.length) =
      some (.blockComment, p + lead.length + ('%' :: '\x7b' :: further).length) := by
    subst hlines
    exact Lexeme.at?_blockLines hline hcut hlead hls (by simp [AtLineEnd])
  have hend : scan text false [] (p + lead.length + ('%' :: '\x7b' :: further).length) =
      scan text false [] (p + lead.length + ('%' :: '\x7b' :: further).length + 1) :=
    Silent.char (k := .newline) (u := []) (fun _ _ => rfl) rfl .nil text _ v
      (drop_add_length (drop_add_length hcut))
  have hlength : p + (lead ++ "%\x7b".toList ++ further ++ ['\n']).length =
      p + lead.length + ('%' :: '\x7b' :: further).length + 1 := by
    simp
    omega
  refine ⟨startsLine_concat hd, [], .nil, ?_⟩
  rw [List.nil_append, scan_blanks hcut hlead, scan_step hat, hlength, ← hend]
  rfl

theorem statement (hlead : ∀ c ∈ lead, isBlank c = true) (s : Statement) :
    Balances (s.print lead ++ ['\n']) := by
  have hend : Silent [] [';', '\n'] [] :=
    .char (fun _ _ => rfl) rfl (.char (k := .newline) (fun _ _ => rfl) rfl .nil)
  cases s with
  | assign v value =>
    apply of_silent
    have hcut : (Statement.assign v value).print lead ++ ['\n'] =
        lead ++ (v.name ++ ' ' :: '=' :: ' ' :: (value.print ++ [';', '\n'])) := by
      simp [Statement.print]
    rw [hcut]
    apply Silent.blanks hlead
    apply Silent.assign v
    exact .value value hend
  | assignField v field w =>
    apply of_silent
    have hcut : (Statement.assignField v field w).print lead ++ ['\n'] =
        lead ++ (v.name ++ '.' :: (field.1 ++ ' ' :: '=' :: ' ' :: (w.name ++ [';', '\n']))) := by
      simp [Statement.print]
    rw [hcut]
    apply Silent.blanks hlead
    apply Silent.variable v rfl
    intro _ _
    apply Silent.after
    apply Silent.field field.2 rfl
    apply Silent.char (fun _ _ => rfl) rfl
    apply Silent.char (fun _ _ => rfl) rfl
    apply Silent.char (fun _ _ => rfl) rfl
    exact Silent.variable w rfl fun _ _ => hend.after
  | comment content =>
    apply of_silent
    have hcut : (Statement.comment content).print lead ++ ['\n'] =
        lead ++ ('%' :: ' ' :: content.1 ++ '\n' :: []) := by
      simp [Statement.print]
    rw [hcut]
    apply Silent.blanks hlead
    apply Silent.comment content.2
    exact .char (k := .newline) (fun _ _ => rfl) rfl .nil
  | blockComment content =>
    apply blockComment hlead
    intro l hl
    obtain ⟨m, -, rfl⟩ := List.mem_map.1 hl
    exact ⟨m.1.2, m.2⟩

end Balances

/-- The line that opens a block reports its keyword and nothing else. -/
theorem scan_openingLine {text lead v : Text} {p : Nat} (opening : Opening)
    (hline : Header.startsLine text p = true)
    (hd : text.drop p = lead ++ opening.print ++ ['\n'] ++ v)
    (hlead : ∀ c ∈ lead, isBlank c = true) :
    scan text false [] p = ⟨.opener opening.opener, p + lead.length⟩ ::
      scan text false [] (p + (lead ++ opening.print ++ ['\n']).length) := by
  -- what follows the keyword is silent, and no longer word
  obtain ⟨c, after, hprint, hc, hsilent, hk⟩ : ∃ c after,
      opening.print ++ ['\n'] = (Keyword.opener opening.opener).word ++ c :: after ∧
      isWord c = false ∧ Silent [] (c :: after) [] ∧
      (opening.opener = .arguments → c = '\n') := by
    have hnewline : Silent [] ['\n'] [] := .char (k := .newline) (fun _ _ => rfl) rfl .nil
    cases opening with
    | control o w =>
      refine ⟨' ', w.name ++ ['\n'], by simp [Opening.print, Opening.opener, Keyword.word], rfl, ?_,
        fun h => absurd h o.2.2⟩
      apply Silent.char (fun _ _ => rfl) rfl
      exact Silent.variable w rfl fun _ _ => hnewline.after
    | arguments => exact ⟨'\n', [], rfl, rfl, hnewline, fun _ => rfl⟩
  have hcut : text.drop p =
      lead ++ ((Keyword.opener opening.opener).word ++ (c :: after ++ v)) := by
    rw [hd, List.append_assoc lead, hprint]
    simp
  have hopens : Keyword.opener opening.opener = .opener .arguments →
      Keyword.opensArguments (c :: after ++ v) = true := by
    intro h
    rw [hk (Keyword.opener.inj h)]
    rfl
  rw [scan_indented hopens hline hcut hlead (notAhead_cons hc) false,
    hsilent text _ v (drop_add_length (drop_add_length hcut)), List.append_assoc lead, hprint]
  simp only [List.length_append, Nat.add_assoc]

/-- A block around lines that are balanced. -/
theorem Balances.block {lead u : Text} (hlead : ∀ c ∈ lead, isBlank c = true) (opening : Opening)
    (h : Balances u) :
    Balances (lead ++ opening.print ++ ['\n'] ++ u ++ (lead ++ "end".toList) ++ ['\n']) := by
  intro text p v hline hd
  have hopening : text.drop p = lead ++ opening.print ++ ['\n'] ++
      (u ++ (lead ++ (Keyword.close.word ++ (['\n'] ++ v)))) := by
    rw [hd]
    simp [Keyword.word]
  obtain ⟨hend, ms, hms, hscan⟩ :=
    h text _ _ (startsLine_concat hopening) (drop_add_length hopening)
  have hclose := drop_add_length (drop_add_length hopening)
  have hnewline : Silent [] ['\n'] [] := .char (k := .newline) (fun _ _ => rfl) rfl .nil
  have hbalanced : Block.Balanced (⟨.opener opening.opener, p + lead.length⟩ :: ms ++
      [⟨.close, p + (lead ++ opening.print ++ ['\n']).length + u.length + lead.length⟩]) :=
    .block hms .nil
  have hlength : p + (lead ++ opening.print ++ ['\n'] ++ u ++ (lead ++ "end".toList) ++
      ['\n']).length = p + (lead ++ opening.print ++ ['\n']).length + u.length + lead.length +
        Keyword.close.word.length + ['\n'].length := by
    simp only [List.length_append, Keyword.word, Nat.add_assoc]
  refine ⟨startsLine_concat hd, _, hbalanced, ?_⟩
  rw [scan_openingLine opening hline hopening hlead, hscan,
    scan_indented (k := .close) (by simp) hend hclose hlead (notAhead_cons rfl) false,
    hnewline text _ v (drop_add_length (drop_add_length hclose)), hlength]
  simp

end Mark

/-- The lines of a body close every block they open, and no other. -/
theorem Body.balances (lead : Nat → Blanks) (depth : Nat) (body : Body) :
    Mark.Balances (body.print lead depth) := by
  induction body generalizing depth with
  | done => exact .nil
  | statement s rest hrest =>
    exact (Mark.Balances.statement (lead depth).2 s).append (hrest depth)
  | block opening inner rest hinner hrest =>
    have hblock := Mark.Balances.block (lead depth).2 opening (hinner (depth + 1))
    have hprint := hblock.append (hrest depth)
    simpa [print] using hprint

/-- The line of a header reports the keyword of the function. -/
theorem Mark.scan_plainHeader {text v : Text} (hd : text = "function f(x)\n".toList ++ v) :
    scan text true [] 0 =
      ⟨.opener .function, 0⟩ :: scan text false [] "function f(x)\n".toList.length := by
  have hcut : text.drop 0 = [] ++ ((Keyword.opener .function).word ++ (" f(x)\n".toList ++ v)) := hd
  have hx : IsIdentifier ['x'] := by decide
  have hafter : Silent [] " f(x)\n".toList [] := by
    apply Silent.char (c := ' ') (fun _ _ => rfl) rfl
    apply Silent.variable ⟨['f'], by decide, by simp, by decide⟩ (d := '(') rfl
    intro _ _
    apply Silent.after
    apply Silent.char (k := .opening .round) (fun _ _ => rfl) rfl
    apply Silent.word hx rfl
    apply Silent.char (k := .closing) (fun _ _ => rfl) rfl
    exact .char (k := .newline) (fun _ _ => rfl) rfl .nil
  rw [scan_indented (k := .opener .function) (by simp) rfl hcut (by simp)
    (notAhead_cons (c := ' ') rfl) true, hafter text _ v (drop_add_length (drop_add_length hcut))]
  rfl

/-- A function is closed by the `end` after its body, whatever the body holds. -/
theorem Block.stop_body (lead : Nat → Blanks) (body : Body) :
    Block.stop ("function f(x)\n".toList ++ body.print lead 0 ++ "end\n".toList) 0 =
      .ok (("function f(x)\n".toList ++ body.print lead 0 ++ "end\n".toList).length - 1) := by
  have hlength : ("function f(x)\n".toList ++ body.print lead 0 ++ "end\n".toList).length =
      "function f(x)\n".toList.length + (body.print lead 0).length + 4 := by
    rw [List.length_append, List.length_append]
    rfl
  rw [hlength, List.append_assoc]
  generalize htext : "function f(x)\n".toList ++ (body.print lead 0 ++ "end\n".toList) = text
  have hd : text.drop 0 = "function f(x)".toList ++ ['\n'] ++
      (body.print lead 0 ++ ([] ++ (Keyword.close.word ++ ['\n']))) := htext.symm
  obtain ⟨hline, ms, hms, hscan⟩ := Body.balances lead 0 body text _ _
    (Mark.Balances.startsLine_concat hd) (drop_add_length hd)
  change Mark.scan text false [] "function f(x)\n".toList.length = _ at hscan
  have hend := Mark.scan_indented (k := .close) (by simp) hline
    (drop_add_length (drop_add_length hd)) (by simp) (notAhead_cons rfl) false
  rw [Block.stop, Mark.all_eq_scan, Mark.scan_plainHeader htext.symm, hscan, hend, close_opener,
    hms.close_append]
  rfl

/-- How a body is printed with two blanks before each line. -/
example :
    let x : Variable := ⟨"x".toList, by decide, by simp, by decide⟩
    let y : Variable := ⟨"y_2".toList, by decide, by simp, by decide⟩
    let body : Body :=
      .statement (.assign x (.string .single (.of "it's end".toList rfl))) <|
      .block .arguments
        (.statement (.blockComment [⟨.of "end %\x7d".toList rfl, by decide⟩]) <|
          .statement (.assign y (.sum x (.of " if".toList rfl) (.of " ".toList rfl))) .done) <|
      .statement (.assignField x ⟨"while".toList, by decide⟩ y) .done
    body.print (fun _ => .of "  ".toList rfl) 0 =
      ("  x = 'it''s end';\n  arguments\n  %\x7b\nend %\x7d\n  %\x7d\n  y_2 = x + ... if\n x;\n" ++
        "  end\n  x.while = y_2;\n").toList := by decide +kernel

end MatlabOutline
