import MatlabOutline.Proofs.LineEnds

/-! Headers in a text with line ends of two characters. Between the keyword and what follows it a
header passes over newlines, but not over carriage returns: a header that is divided there is lost.
Every other header is found again, with the same name and the same names in its clauses. -/
namespace MatlabOutline
open Text
namespace Header

theorem identifier?_crlf (t : Text) :
    identifier? (crlf t) = (identifier? t).map (Prod.map id crlf) := by
  cases t with
  | nil => rfl
  | cons c t =>
    by_cases hc : c = '\n'
    · subst hc
      rfl
    · rw [crlf_cons hc, identifier?, identifier?, takeWhile_crlf_of_not (by decide) (by decide),
        dropWhile_crlf (by decide)]
      split_ifs <;> rfl

theorem crlf_identifier {n : Text} (h : IsIdentifier n) : crlf n = n := by
  apply crlf_of_forall
  rintro c hc rfl
  exact absurd (h.2 _ hc) (by decide)

theorem bracketed?_crlf (t : Text) :
    bracketed? (crlf t) = (bracketed? t).map (Prod.map crlf crlf) := by
  cases t with
  | nil => rfl
  | cons c t =>
    by_cases hn : c = '\n'
    · subst hn
      rfl
    · rw [crlf_cons hn]
      by_cases hc : c = '['
      · subst hc
        have hend := notAhead_dropWhile (· != ']') t
        rw [bracketed?, bracketed?, dropWhile_crlf (by decide), takeWhile_crlf (by decide)]
        cases hd : t.dropWhile (· != ']') with
        | nil => rfl
        | cons d u =>
          obtain rfl : d = ']' := by simpa using hend d (by rw [hd]; rfl)
          simp [crlf_cons]
      · have hnone : ∀ u : Text, bracketed? (c :: u) = none := by
          intro u
          unfold bracketed?
          split
          · rename_i heq
            exact absurd (List.cons.inj heq).1 hc
          · rfl
        rw [hnone, hnone]
        rfl

theorem returnClause?_crlf (t : Text) :
    returnClause? (crlf t) = (returnClause? t).map (Prod.map crlf crlf) := by
  have htarget : (bracketed? (crlf t)).or (identifier? (crlf t)) =
      ((bracketed? t).or (identifier? t)).map (Prod.map crlf crlf) := by
    rw [bracketed?_crlf, identifier?_crlf]
    cases bracketed? t with
    | some b => rfl
    | none =>
      cases hi : identifier? t with
      | none => rfl
      | some n =>
        have hname := crlf_identifier (identifier?_eq_some_iff.1 hi).2.1
        simp [Prod.map, hname]
  rw [returnClause?, returnClause?, htarget]
  cases (bracketed? t).or (identifier? t) with
  | none => rfl
  | some b =>
    obtain ⟨target, u⟩ := b
    simp only [Option.map_some, Prod.map_apply, dropWhile_crlf (p := isBlank) (by decide),
      takeWhile_crlf (p := isBlank) (by decide)]
    cases hd : u.dropWhile isBlank with
    | nil => rfl
    | cons c v =>
      by_cases hn : c = '\n'
      · subst hn
        rfl
      · rw [crlf_cons hn]
        by_cases hc : c = '='
        · subst hc
          simp [crlf_cons]
        · have hne : ∀ w v : Text, c :: w ≠ '=' :: v := fun w v heq => hc (List.cons.inj heq).1
          split
          · rename_i heq
            exact absurd heq (hne _ _)
          · split
            · rename_i heq
              exact absurd heq (hne _ _)
            · rfl

theorem afterKeyword?_crlf (t : Text) :
    afterKeyword? (crlf t) = (afterKeyword? t).map crlf := by
  rw [afterKeyword?, afterKeyword?, dropWhile_crlf (by decide), after?_crlf (by decide) (by decide)]
  cases after? "function".toList (t.dropWhile isBlank) with
  | none => rfl
  | some u =>
    simp only [Option.map_some, head?_any_crlf (p := isWord) (by decide)]
    split_ifs <;> rfl

namespace Signature

/-- Whether the keyword and what follows it stand on one line. -/
def onOneLine (s : Signature) : Bool := s.lead.all (· != '\n')

/-- The signature in the text with line ends of two characters. -/
def withReturns (s : Signature) : Signature :=
  { s with returnClause := crlf s.returnClause, rest := crlf s.rest }

end Signature

theorem named?_crlf (lead clause t : Text) :
    named? lead (crlf clause) (crlf t) = (named? lead clause t).map Signature.withReturns := by
  rw [named?, named?, dropWhile_crlf (by decide), takeWhile_crlf_of_not (by decide) (by decide),
    identifier?_crlf, Option.map_map, Option.map_map]
  rfl

/-- The return clause, if there is one, and the name, given what comes before them. -/
def clauseAndName? (lead body : Text) : Option Signature :=
  ((returnClause? body).bind fun c => named? lead c.1 c.2).or (named? lead [] body)

theorem lead_of_clauseAndName? {lead body : Text} {s : Signature}
    (h : clauseAndName? lead body = some s) : s.lead = lead := by
  rcases Option.or_eq_some_iff.1 h with hc | ⟨-, hn⟩
  · obtain ⟨c, -, hn⟩ := Option.bind_eq_some_iff.1 hc
    exact (named?_append hn).1
  · exact (named?_append hn).1

theorem clauseAndName?_crlf (lead body : Text) :
    clauseAndName? lead (crlf body) = (clauseAndName? lead body).map Signature.withReturns := by
  have hname := named?_crlf lead [] body
  rw [crlf_nil] at hname
  rw [clauseAndName?, clauseAndName?, returnClause?_crlf, hname, Option.map_or]
  cases returnClause? body with
  | none => rfl
  | some c => exact congrArg (Option.or · _) (named?_crlf lead c.1 c.2)

/-- No clause and no name begins with a carriage return. -/
theorem clauseAndName?_return (lead t : Text) : clauseAndName? lead ('\r' :: t) = none := rfl

/-- A filler on one line is passed over in the same way. -/
theorem filler_crlf {t : Text} (h : ∀ c ∈ t.takeWhile isFiller, c ≠ '\n') :
    (crlf t).takeWhile isFiller = t.takeWhile isFiller ∧
      (crlf t).dropWhile isFiller = crlf (t.dropWhile isFiller) := by
  have hcut : crlf t = t.takeWhile isFiller ++ crlf (t.dropWhile isFiller) := by
    conv_lhs => rw [← List.takeWhile_append_dropWhile (p := isFiller) (l := t)]
    rw [crlf_append, crlf_of_forall h]
  have hfill : ∀ c ∈ t.takeWhile isFiller, isFiller c = true :=
    fun c hc => List.mem_takeWhile_imp hc
  have hend : NotAhead isFiller (crlf (t.dropWhile isFiller)) := by
    have hbody := notAhead_dropWhile isFiller t
    cases hd : t.dropWhile isFiller with
    | nil => simp [NotAhead]
    | cons c u =>
      have hc := hbody c (by rw [hd]; rfl)
      have hn : c ≠ '\n' := by
        rintro rfl
        exact absurd hc (by decide)
      rw [crlf_cons hn]
      exact notAhead_cons hc
  rw [hcut]
  exact ⟨takeWhile_run hfill hend, dropWhile_run hfill hend⟩

/-- A filler over several lines is passed over only up to the first carriage return. -/
theorem exists_dropWhile_filler_crlf {t : Text} (h : '\n' ∈ t.takeWhile isFiller) :
    ∃ u, (crlf t).dropWhile isFiller = '\r' :: u := by
  obtain ⟨f, g, hfg, hf⟩ := List.eq_append_cons_of_mem h
  have hfill : ∀ c ∈ f, isFiller c = true := by
    intro c hc
    exact List.mem_takeWhile_imp (by rw [hfg]; simp [hc])
  have hline : ∀ c ∈ f, c ≠ '\n' := by
    rintro c hc rfl
    exact hf hc
  have hcut : crlf t = f ++ '\r' :: '\n' :: crlf (g ++ t.dropWhile isFiller) := by
    conv_lhs => rw [← List.takeWhile_append_dropWhile (p := isFiller) (l := t), hfg]
    simp only [List.append_assoc, List.cons_append, crlf_append, crlf_newline, crlf_of_forall hline]
  exact ⟨_, by rw [hcut]; exact dropWhile_run hfill (notAhead_cons (by decide))⟩

theorem onOneLine_of_lead {s : Signature} {indent filler : Text}
    (hlead : s.lead = indent ++ "function".toList ++ filler) (hi : ∀ c ∈ indent, isBlank c = true) :
    s.onOneLine = filler.all (· != '\n') := by
  have hindent : indent.all (· != '\n') = true := by
    rw [List.all_eq_true]
    intro c hc
    have hblank := hi c hc
    rw [bne_iff_ne]
    rintro rfl
    exact absurd hblank (by decide)
  rw [Signature.onOneLine, hlead, List.all_append, List.all_append, hindent]
  rfl

/-- A header is read again exactly if it stands on one line up to its clause or name. -/
theorem signature?_crlf (t : Text) :
    signature? (crlf t) =
      ((signature? t).filter Signature.onOneLine).map Signature.withReturns := by
  rw [signature?, signature?, afterKeyword?_crlf]
  cases afterKeyword? t with
  | none => rfl
  | some u =>
    have hindent : (crlf t).takeWhile isBlank = t.takeWhile isBlank :=
      takeWhile_crlf_of_not (by decide) (by decide) t
    simp only [Option.map_some, hindent]
    change clauseAndName? (t.takeWhile isBlank ++ "function".toList ++ (crlf u).takeWhile isFiller)
        ((crlf u).dropWhile isFiller) =
      ((clauseAndName? (t.takeWhile isBlank ++ "function".toList ++ u.takeWhile isFiller)
        (u.dropWhile isFiller)).filter Signature.onOneLine).map Signature.withReturns
    have hline : ∀ s, clauseAndName? (t.takeWhile isBlank ++ "function".toList ++
        u.takeWhile isFiller) (u.dropWhile isFiller) = some s →
          s.onOneLine = (u.takeWhile isFiller).all (· != '\n') := fun s hs =>
      onOneLine_of_lead (lead_of_clauseAndName? hs) fun c hc => List.mem_takeWhile_imp hc
    by_cases hn : '\n' ∈ u.takeWhile isFiller
    · have hlong : (u.takeWhile isFiller).all (· != '\n') = false :=
        List.all_eq_false.2 ⟨_, hn, by decide⟩
      obtain ⟨v, hv⟩ := exists_dropWhile_filler_crlf hn
      rw [hv, clauseAndName?_return, Option.filter_eq_none_iff.2]
      · rfl
      · intro s hs
        rw [hline s hs, hlong]
        decide
    · have hall : ∀ c ∈ u.takeWhile isFiller, c ≠ '\n' := by
        rintro c hc rfl
        exact hn hc
      have hshort : (u.takeWhile isFiller).all (· != '\n') = true := by simpa using hall
      obtain ⟨htake, hdrop⟩ := filler_crlf hall
      rw [htake, hdrop, clauseAndName?_crlf]
      cases hs : clauseAndName? (t.takeWhile isBlank ++ "function".toList ++ u.takeWhile isFiller)
          (u.dropWhile isFiller) with
      | none => rfl
      | some s => rw [Option.filter_some, if_pos ((hline s hs).trans hshort)]

/-- The keyword of a header stands on one line with the return clause or the name after it. -/
def OpensOnOneLine (text : Text) (h : Header) : Prop :=
  ∀ s ∈ signature? (text.drop h.start), s.onOneLine = true

/-- How a header is carried into the text with line ends of two characters. Its logical line ends at
the newline, past the carriage return. -/
structure CarriedTo (text : Text) (h h' : Header) : Prop where
  start : h'.start = crlfOffset text h.start
  lineEnd : h'.lineEnd = crlfOffset text h.lineEnd + (returnAhead (text.drop h.lineEnd)).length
  name : h'.name = h.name
  returns : clauseNames h'.returnClause = clauseNames h.returnClause
  args : clauseNames h'.argClause = clauseNames h.argClause

section Places

variable {text : Text} {p : Nat}

/-- Where the characters of a header on one line are carried to, with some of those after it. -/
theorem crlfOffset_signature {s : Signature} {n : Nat} (hs : signature? (text.drop p) = some s)
    (hone : s.onOneLine = true) (hn : n ≤ s.rest.length) :
    text.drop (p + s.width + n) = s.rest.drop n ∧
      crlfOffset text (p + s.width + n) =
        crlfOffset text p + s.withReturns.width + (crlf (s.rest.take n)).length := by
  obtain ⟨-, hgap, hname, -⟩ := signature?_pieces hs
  have hcut : text.drop p = (s.lead ++ s.returnClause ++ s.gap ++ s.name ++ s.rest.take n) ++
      s.rest.drop n := by
    rw [List.append_assoc, List.take_append_drop]
    exact signature?_append hs
  have hwidth : p + s.width + n =
      p + (s.lead ++ s.returnClause ++ s.gap ++ s.name ++ s.rest.take n).length := by
    simp only [List.length_append, List.length_take, Nat.min_eq_left hn, Signature.width]
    omega
  have hlead : crlf s.lead = s.lead := by
    apply crlf_of_forall
    simpa [Signature.onOneLine] using hone
  have hblank : crlf s.gap = s.gap := by
    apply crlf_of_forall
    rintro c hc rfl
    exact absurd (hgap _ hc) (by decide)
  rw [hwidth, crlfOffset_add_length hcut, drop_add_length hcut]
  refine ⟨rfl, ?_⟩
  simp only [crlf_append, List.length_append, hlead, hblank, crlf_identifier hname,
    Signature.width, Signature.withReturns]
  omega

/-- A header that stands on one line up to its clause or name is found again. -/
theorem exists_at?_crlf {h : Header} (hp : at? text p = some h) (hopen : h.OpensOnOneLine text) :
    ∃ h', at? (crlf text) (crlfOffset text p) = some h' ∧ CarriedTo text h h' := by
  have hb := at?_bounds hp
  obtain ⟨hstart, hread⟩ := at?_eq_some_iff.1 hp
  obtain ⟨s, hs, rfl⟩ := Option.map_eq_some_iff.1 hread
  have hone : s.onOneLine = true := hopen s hs
  have hs' : signature? (crlf (text.drop p)) = some s.withReturns := by
    rw [signature?_crlf, hs, Option.filter_some, if_pos hone]
    rfl
  obtain ⟨hline, hlength⟩ := logicalLine_crlf s.rest
  obtain ⟨hdrop, hoffset⟩ := crlfOffset_signature hs hone (logicalLine_end s.rest).1
  refine ⟨_, at?_eq_some_iff.2 ⟨?_, by rw [drop_crlfOffset, read?, hs', Option.map_some]⟩, ?_⟩
  · rwa [startsLine_crlf (by omega)]
  · refine ⟨rfl, ?_, rfl, clauseNames_crlf _, ?_⟩
    · change crlfOffset text p + s.withReturns.width + (logicalLine (crlf s.rest)).2 =
        crlfOffset text (p + s.width + (logicalLine s.rest).2) +
          (returnAhead (text.drop (p + s.width + (logicalLine s.rest).2))).length
      rw [hlength, hoffset, hdrop]
      omega
    · exact clauseNames_of_endsAlike (endsAlike_parameterClause hline)

/-- Nothing is found at other places that offsets are carried to. -/
theorem at?_crlf_eq_none (hp : p ≤ text.length)
    (h : ∀ a, at? text p = some a → ¬ a.OpensOnOneLine text) :
    at? (crlf text) (crlfOffset text p) = none := by
  rw [at?, startsLine_crlf hp, drop_crlfOffset]
  split_ifs with hstart
  · rw [read?, signature?_crlf, Option.map_map, Option.map_eq_none_iff, Option.filter_eq_none_iff]
    intro s hs hone
    have hat : at? text p = some _ := at?_eq_some_iff.2 ⟨hstart, by rw [read?, hs, Option.map_some]⟩
    refine h _ hat fun s' hs' => ?_
    rwa [Option.some.inj (hs'.symm.trans hs)]
  · rfl

/-- A header fits again exactly if it stands on one line up to its clause or name. -/
theorem fitsAt_crlf_iff {h : Header} (hp : at? text p = some h) :
    FitsAt (crlf text) (crlfOffset text p) ↔ h.OpensOnOneLine text := by
  have hb := at?_bounds hp
  rw [← isSome_at?_iff]
  constructor
  · intro hsome
    by_contra hopen
    rw [at?_crlf_eq_none (by omega)] at hsome
    · cases hsome
    · intro a ha
      rwa [← Option.some.inj (hp.symm.trans ha)]
  · intro hopen
    obtain ⟨h', hat, -⟩ := exists_at?_crlf hp hopen
    rw [hat]
    rfl

/-- At a newline the search passes over the two characters of the line end. -/
theorem at?_crlf_newline {u : Text} (hd : text.drop p = '\n' :: u) :
    at? (crlf text) (crlfOffset text p) = none ∧ at? (crlf text) (crlfOffset text p + 1) = none ∧
      crlfOffset text (p + 1) = crlfOffset text p + 2 := by
  have hlt : p < text.length := by
    by_contra hge
    rw [List.drop_eq_nil_iff.2 (by omega)] at hd
    cases hd
  refine ⟨at?_crlf_eq_none (by omega) ?_, ?_, crlfOffset_add_length (u := ['\n']) hd⟩
  · intro a ha
    obtain ⟨c, t, hcut, hc⟩ := head_of_at? ha
    rw [hd] at hcut
    exact absurd (List.cons.inj hcut).1.symm hc
  · have hreturn : (crlf text).drop (crlfOffset text p) = '\r' :: '\n' :: crlf u := by
      rw [drop_crlfOffset, hd]
      rfl
    rw [at?, startsLine_succ hreturn]
    rfl

end Places

/-- A search is carried along if every header that it finds opens on one line. -/
theorem Finds.crlf {text : Text} {p : Nat} {hs : List Header} (h : Finds text p hs)
    (hopen : ∀ a ∈ hs, a.OpensOnOneLine text) :
    ∃ hs', Finds (crlf text) (crlfOffset text p) hs' ∧ List.Forall₂ (CarriedTo text) hs hs' := by
  induction h with
  | done hle => exact ⟨[], .done (length_crlf_le_crlfOffset hle), .nil⟩
  | @pass p hs hp rest ih =>
    obtain ⟨hs', hfinds, hcarried⟩ := ih hopen
    refine ⟨hs', ?_, hcarried⟩
    cases hd : text.drop p with
    | nil =>
      -- past the end nothing is left to be found
      have hle := List.drop_eq_nil_iff.1 hd
      obtain rfl := rest.eq_nil (by omega)
      rw [List.forall₂_nil_left_iff.1 hcarried]
      exact .done (length_crlf_le_crlfOffset hle)
    | cons c t =>
      by_cases hc : c = '\n'
      · subst hc
        obtain ⟨hreturn, hnewline, hoffset⟩ := at?_crlf_newline hd
        rw [hoffset] at hfinds
        exact .pass hreturn (.pass hnewline hfinds)
      · have hoffset : crlfOffset text (p + 1) = crlfOffset text p + 1 := by
          have hadd := crlfOffset_add_length (u := [c]) hd
          rwa [crlf_cons hc] at hadd
        rw [hoffset] at hfinds
        refine .pass (at?_crlf_eq_none ?_ fun a ha => ?_) hfinds
        · have hlen := congrArg List.length hd
          rw [List.length_drop, List.length_cons] at hlen
          omega
        · rw [hp] at ha
          cases ha
  | @hit p a hs ha rest ih =>
    obtain ⟨hfirst, hopen⟩ := List.forall_mem_cons.1 hopen
    obtain ⟨hs', hfinds, hcarried⟩ := ih hopen
    obtain ⟨a', hat, haa⟩ := exists_at?_crlf ha hfirst
    refine ⟨a' :: hs', .hit hat ?_, .cons haa hcarried⟩
    -- the search goes on at the newline, past the carriage return
    rw [haa.lineEnd]
    cases hd : text.drop a.lineEnd with
    | nil => exact hfinds
    | cons c t =>
      by_cases hc : c = '\n'
      · subst hc
        exact hfinds.of_none (at?_crlf_newline hd).1
      · rw [returnAhead_cons hc]
        exact hfinds

/-- The headers of a text are all found again if they open on one line. -/
theorem all_crlf {text : Text} (hopen : ∀ a ∈ all text, a.OpensOnOneLine text) :
    List.Forall₂ (CarriedTo text) (all text) (all (crlf text)) := by
  obtain ⟨hs', hfinds, hcarried⟩ := (finds_all text).crlf hopen
  rwa [(finds_all (Text.crlf text)).unique hfinds]

end Header
end MatlabOutline
