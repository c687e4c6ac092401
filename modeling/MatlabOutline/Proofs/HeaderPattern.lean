import MatlabOutline.Proofs.Characters

/-! The pattern of a header as a language: which texts open with a header, said without the reader.
The reader accepts exactly these texts, however their blanks and fillers are divided. -/
namespace MatlabOutline
open Text
namespace Header

/-- The return clause of a header: a bracketed list or a single name with an equals sign after it,
or nothing. -/
inductive ReturnClause : Text → Prop
  | bracketed {inner blanks : Text} (inside : ∀ c ∈ inner, c ≠ ']')
      (blank : ∀ c ∈ blanks, isBlank c = true) :
      ReturnClause ('[' :: inner ++ [']'] ++ blanks ++ ['='])
  | single {name blanks : Text} (identifier : IsIdentifier name)
      (blank : ∀ c ∈ blanks, isBlank c = true) : ReturnClause (name ++ blanks ++ ['='])
  | absent : ReturnClause []

/-- The texts that open with a header. The keyword and the name are whole words. -/
inductive Opens : Text → Prop
  | intro {indent filler clause gap name rest : Text}
      (indented : ∀ c ∈ indent, isBlank c = true) (filled : ∀ c ∈ filler, isFiller c = true)
      (keyword : NotAhead isWord (filler ++ clause ++ gap ++ name ++ rest))
      (returns : ReturnClause clause) (spaced : ∀ c ∈ gap, isBlank c = true)
      (named : IsIdentifier name) (ended : NotAhead isWord rest) :
      Opens (indent ++ "function".toList ++ (filler ++ clause ++ gap ++ name ++ rest))

theorem identifier?_eq_some_iff {t n r : Text} :
    identifier? t = some (n, r) ↔ t = n ++ r ∧ IsIdentifier n ∧ NotAhead isWord r := by
  constructor
  · intro h
    refine ⟨identifier?_append h, ?_⟩
    cases t with
    | nil => simp [identifier?] at h
    | cons c t =>
      rw [identifier?] at h
      split at h
      · rename_i hc
        simp only [Option.some.injEq, Prod.mk.injEq] at h
        obtain ⟨rfl, rfl⟩ := h
        refine ⟨⟨by simpa using hc, ?_⟩, notAhead_dropWhile _ _⟩
        intro d hd
        rcases List.mem_cons.1 hd with rfl | hd
        · exact isWord_of_isWordStart hc
        · exact List.mem_takeWhile_imp hd
      · simp at h
  · rintro ⟨rfl, ⟨hs, hw⟩, hr⟩
    cases n with
    | nil => simp at hs
    | cons c n =>
      have hc : isWordStart c = true := by simpa using hs
      have hn : ∀ d ∈ n, isWord d = true := fun d hd => hw d (by simp [hd])
      rw [List.cons_append, identifier?, if_pos hc, takeWhile_run hn hr, dropWhile_run hn hr]

theorem bracketed?_eq_some_iff {t b r : Text} :
    bracketed? t = some (b, r) ↔
      t = b ++ r ∧ ∃ inner, b = '[' :: inner ++ [']'] ∧ ∀ c ∈ inner, c ≠ ']' := by
  constructor
  · intro h
    refine ⟨bracketed?_append h, ?_⟩
    unfold bracketed? at h
    split at h
    · rename_i u
      split at h
      · simp at h
      · rename_i c v hd
        simp only [Option.some.injEq, Prod.mk.injEq] at h
        have hc : c = ']' := by
          have := notAhead_dropWhile (· != ']') u c (by rw [hd]; rfl)
          simpa using this
        refine ⟨_, by rw [← h.1, hc], fun d hd => ?_⟩
        simpa using List.mem_takeWhile_imp hd
    · simp at h
  · rintro ⟨rfl, inner, rfl, hi⟩
    have hin : ∀ c ∈ inner, (c != ']') = true := fun c hc => by simpa using hi c hc
    have hout : NotAhead (· != ']') (']' :: r) := notAhead_cons rfl
    have hcut : '[' :: inner ++ [']'] ++ r = '[' :: (inner ++ ']' :: r) := by simp
    rw [hcut, bracketed?, dropWhile_run hin hout, takeWhile_run hin hout]

theorem notAhead_isFiller {t : Text} (h : t.head?.any isWordStart = true) :
    NotAhead isFiller t := by
  intro c hc
  rw [Option.mem_def.1 hc] at h
  exact eq_false_of_isWord isWord_of_isFiller (isWord_of_isWordStart (by simpa using h))

theorem isFiller_of_isBlank {c : Char} (h : isBlank c = true) : isFiller c = true := by
  simp [isFiller, h]

theorem notAhead_isBlank {t : Text} (h : NotAhead isFiller t) : NotAhead isBlank t := by
  intro c hc
  have := h c hc
  simp only [isFiller, Bool.or_eq_false_iff] at this
  exact this.1.1

/-- No word goes on after fillers. -/
theorem notAhead_isWord_append {u v : Text} (hu : ∀ c ∈ u, isFiller c = true)
    (hv : u = [] → NotAhead isWord v) : NotAhead isWord (u ++ v) := by
  cases u with
  | nil => exact hv rfl
  | cons c u => exact notAhead_cons (isWord_of_isFiller (hu c (by simp)))

theorem returnClause_of_returnClause? {t c r : Text} (h : returnClause? t = some (c, r)) :
    ReturnClause c := by
  unfold returnClause? at h
  split at h
  · simp at h
  · rename_i target u hu
    split at h
    · simp only [Option.some.injEq, Prod.mk.injEq] at h
      obtain ⟨rfl, -⟩ := h
      have hblank : ∀ c ∈ u.takeWhile isBlank, isBlank c = true :=
        fun c hc => List.mem_takeWhile_imp hc
      rcases Option.or_eq_some_iff.1 hu with hb | ⟨-, hi⟩
      · obtain ⟨-, inner, rfl, hinner⟩ := bracketed?_eq_some_iff.1 hb
        exact .bracketed hinner hblank
      · exact .single (identifier?_eq_some_iff.1 hi).2.1 hblank
    · simp at h

theorem returnClause?_bracketed {inner blanks v : Text} (hi : ∀ c ∈ inner, c ≠ ']')
    (hb : ∀ c ∈ blanks, isBlank c = true) :
    returnClause? ('[' :: inner ++ [']'] ++ blanks ++ ['='] ++ v) =
      some ('[' :: inner ++ [']'] ++ blanks ++ ['='], v) := by
  have hbr : bracketed? ('[' :: inner ++ [']'] ++ (blanks ++ '=' :: v)) =
      some ('[' :: inner ++ [']'], blanks ++ '=' :: v) :=
    bracketed?_eq_some_iff.2 ⟨rfl, inner, rfl, hi⟩
  have hv : NotAhead isBlank ('=' :: v) := notAhead_cons rfl
  have hcut : '[' :: inner ++ [']'] ++ blanks ++ ['='] ++ v =
      '[' :: inner ++ [']'] ++ (blanks ++ '=' :: v) := by simp
  rw [hcut, returnClause?, hbr, Option.some_or]
  simp only [dropWhile_run hb hv, takeWhile_run hb hv]

theorem bracketed?_of_identifier {n : Text} (h : IsIdentifier n) (u : Text) :
    bracketed? (n ++ u) = none := by
  have hhead := h.head?_append u
  unfold bracketed?
  split
  · rename_i heq
    have hbracket : isWordStart '[' = true := by simpa [heq] using hhead
    exact absurd hbracket (by decide)
  · rfl

theorem returnClause?_single {name blanks v : Text} (hn : IsIdentifier name)
    (hb : ∀ c ∈ blanks, isBlank c = true) :
    returnClause? (name ++ blanks ++ ['='] ++ v) = some (name ++ blanks ++ ['='], v) := by
  have hv : NotAhead isBlank ('=' :: v) := notAhead_cons rfl
  have hend : NotAhead isWord (blanks ++ '=' :: v) := by
    apply notAhead_isWord_append (fun c hc => isFiller_of_isBlank (hb c hc))
    exact fun _ => notAhead_cons rfl
  have hname : identifier? (name ++ (blanks ++ '=' :: v)) = some (name, blanks ++ '=' :: v) :=
    identifier?_eq_some_iff.2 ⟨rfl, hn, hend⟩
  have hcut : name ++ blanks ++ ['='] ++ v = name ++ (blanks ++ '=' :: v) := by simp
  rw [hcut, returnClause?, bracketed?_of_identifier hn, Option.none_or, hname]
  simp only [dropWhile_run hb hv, takeWhile_run hb hv]

/-- A name without an equals sign after it is no return clause. -/
theorem returnClause?_eq_none {name blanks v : Text} (hn : IsIdentifier name)
    (hb : ∀ c ∈ blanks, isBlank c = true) (hv : NotAhead isBlank v)
    (hend : NotAhead isWord (blanks ++ v)) (heq : ∀ c ∈ v.head?, c ≠ '=') :
    returnClause? (name ++ (blanks ++ v)) = none := by
  rw [returnClause?, bracketed?_of_identifier hn, Option.none_or,
    identifier?_eq_some_iff.2 ⟨rfl, hn, hend⟩]
  simp only [dropWhile_run hb hv]
  split
  · exact absurd rfl (heq '=' rfl)
  · rfl

theorem named?_eq_some {lead clause gap name rest : Text} (hg : ∀ c ∈ gap, isBlank c = true)
    (hn : IsIdentifier name) (hr : NotAhead isWord rest) :
    named? lead clause (gap ++ name ++ rest) = some ⟨lead, clause, gap, name, rest⟩ := by
  have hhead : NotAhead isBlank (name ++ rest) := by
    apply notAhead_isBlank
    exact notAhead_isFiller (hn.head?_append rest)
  rw [List.append_assoc, named?, dropWhile_run hg hhead, takeWhile_run hg hhead,
    identifier?_eq_some_iff.2 ⟨rfl, hn, hr⟩]
  rfl

theorem afterKeyword?_eq_some_iff {t u : Text} :
    afterKeyword? t = some u ↔
      t.dropWhile isBlank = "function".toList ++ u ∧ NotAhead isWord u := by
  unfold afterKeyword?
  constructor
  · intro h
    split at h
    · simp at h
    · rename_i v hv
      split at h
      · simp at h
      · rename_i hw
        obtain rfl := Option.some.inj h
        refine ⟨after?_eq_some_iff.1 hv, fun c hc => ?_⟩
        rw [Option.mem_def] at hc
        simpa [hc] using hw
  · rintro ⟨ht, hu⟩
    rw [after?_eq_some_iff.2 ht]
    have : u.head?.any isWord = false := by
      cases u with
      | nil => rfl
      | cons c u => simpa using hu c rfl
    simp [this]

theorem named?_pieces {lead clause t : Text} {s : Signature} (h : named? lead clause t = some s) :
    (∀ c ∈ s.gap, isBlank c = true) ∧ IsIdentifier s.name ∧ NotAhead isWord s.rest := by
  obtain ⟨n, hn, rfl⟩ := Option.map_eq_some_iff.1 h
  obtain ⟨-, hname, hrest⟩ := identifier?_eq_some_iff.1 hn
  exact ⟨fun c hc => List.mem_takeWhile_imp hc, hname, hrest⟩

/-- The pieces of a signature are what the pattern asks for. -/
theorem signature?_pieces {t : Text} {s : Signature} (h : signature? t = some s) :
    ReturnClause s.returnClause ∧ (∀ c ∈ s.gap, isBlank c = true) ∧ IsIdentifier s.name ∧
      NotAhead isWord s.rest ∧ ∃ filler,
        s.lead = t.takeWhile isBlank ++ "function".toList ++ filler ∧
        (∀ c ∈ filler, isFiller c = true) ∧
        NotAhead isWord (filler ++ s.returnClause ++ s.gap ++ s.name ++ s.rest) := by
  have happend := signature?_append h
  unfold signature? at h
  split at h
  · simp at h
  · rename_i u hu
    obtain ⟨ht, hu⟩ := afterKeyword?_eq_some_iff.1 hu
    have hlead : s.lead = t.takeWhile isBlank ++ "function".toList ++ u.takeWhile isFiller ∧
        ReturnClause s.returnClause ∧ (∀ c ∈ s.gap, isBlank c = true) ∧ IsIdentifier s.name ∧
        NotAhead isWord s.rest := by
      rcases Option.or_eq_some_iff.1 h with hc | ⟨_, hn⟩
      · obtain ⟨c, hc, hn⟩ := Option.bind_eq_some_iff.1 hc
        obtain ⟨h1, h2, -⟩ := named?_append hn
        exact ⟨h1, h2 ▸ returnClause_of_returnClause? hc, named?_pieces hn⟩
      · obtain ⟨h1, h2, -⟩ := named?_append hn
        exact ⟨h1, h2 ▸ .absent, named?_pieces hn⟩
    obtain ⟨h1, h2, h3, h4, h5⟩ := hlead
    refine ⟨h2, h3, h4, h5, _, h1, fun c hc => List.mem_takeWhile_imp hc, ?_⟩
    have hcut : u = u.takeWhile isFiller ++ s.returnClause ++ s.gap ++ s.name ++ s.rest := by
      have hblank := List.takeWhile_append_dropWhile (p := isBlank) (l := t)
      rw [ht] at hblank
      rw [← hblank, h1] at happend
      simpa using happend
    rwa [← hcut]

/-- The reader after a keyword: a return clause with a name, or a name alone. -/
theorem signature?_of_keyword {indent filler body : Text} (hi : ∀ c ∈ indent, isBlank c = true)
    (hf : ∀ c ∈ filler, isFiller c = true) (hb : NotAhead isFiller body)
    (hk : NotAhead isWord (filler ++ body)) :
    signature? (indent ++ "function".toList ++ (filler ++ body)) =
      ((returnClause? body).bind fun c =>
        named? (indent ++ "function".toList ++ filler) c.1 c.2).or
        (named? (indent ++ "function".toList ++ filler) [] body) := by
  have hfun : NotAhead isBlank ("function".toList ++ (filler ++ body)) :=
    notAhead_cons (c := 'f') rfl
  have hafter : afterKeyword? (indent ++ "function".toList ++ (filler ++ body)) =
      some (filler ++ body) := by
    rw [afterKeyword?_eq_some_iff, List.append_assoc, dropWhile_run hi hfun]
    exact ⟨rfl, hk⟩
  rw [signature?, hafter]
  simp only [dropWhile_run hf hb, takeWhile_run hf hb]
  rw [List.append_assoc indent, takeWhile_run hi hfun]

theorem isSome_named? {lead clause t : Text} (h : t.head?.any isWordStart = true) :
    (named? lead clause t).isSome := by
  have hblank := notAhead_isBlank (notAhead_isFiller h)
  cases t with
  | nil => simp at h
  | cons c t =>
    have hc : isWordStart c = true := by simpa using h
    rw [named?, List.dropWhile_cons_of_neg (by simpa using hblank c rfl), identifier?, if_pos hc]
    rfl

/-- The reader accepts exactly the texts that open with a header. -/
theorem isSome_signature?_iff {t : Text} : (signature? t).isSome ↔ Opens t := by
  constructor
  · intro h
    obtain ⟨s, hs⟩ := Option.isSome_iff_exists.1 h
    obtain ⟨hret, hgap, hname, hrest, filler, hlead, hfiller, hkey⟩ := signature?_pieces hs
    have hindent : ∀ c ∈ t.takeWhile isBlank, isBlank c = true :=
      fun c hc => List.mem_takeWhile_imp hc
    have hopens := Opens.intro hindent hfiller hkey hret hgap hname hrest
    have ht := signature?_append hs
    rw [hlead] at ht
    rw [ht]
    simpa using hopens
  · rintro ⟨hindent, hfiller, hkey, hret, hgap, hname, hrest⟩
    rename_i indent filler clause gap name rest
    cases hret with
    | bracketed inside blank =>
      rename_i inner blanks
      have hcut : filler ++ ('[' :: inner ++ [']'] ++ blanks ++ ['=']) ++ gap ++ name ++ rest =
          filler ++ ('[' :: inner ++ [']'] ++ blanks ++ ['='] ++ (gap ++ name ++ rest)) := by simp
      have hbody : NotAhead isFiller
          ('[' :: inner ++ [']'] ++ blanks ++ ['='] ++ (gap ++ name ++ rest)) :=
        notAhead_cons (c := '[') rfl
      rw [hcut] at hkey ⊢
      rw [signature?_of_keyword hindent hfiller hbody hkey,
        returnClause?_bracketed inside blank, Option.bind_some, named?_eq_some hgap hname hrest,
        Option.some_or]
      rfl
    | single identifier blank =>
      rename_i target blanks
      have hcut : filler ++ (target ++ blanks ++ ['=']) ++ gap ++ name ++ rest =
          filler ++ (target ++ (blanks ++ ['='] ++ gap ++ name ++ rest)) := by simp
      have hhead := identifier.head?_append (blanks ++ ['='] ++ gap ++ name ++ rest)
      rw [hcut] at hkey ⊢
      rw [signature?_of_keyword hindent hfiller (notAhead_isFiller hhead) hkey, Option.isSome_or,
        isSome_named? hhead, Bool.or_true]
    | absent =>
      -- the blanks before the name are taken as filler
      have hcut : filler ++ [] ++ gap ++ name ++ rest = filler ++ gap ++ (name ++ rest) := by simp
      have hhead := hname.head?_append rest
      have hfill : ∀ c ∈ filler ++ gap, isFiller c = true := by
        intro c hc
        rcases List.mem_append.1 hc with hc | hc
        · exact hfiller c hc
        · exact isFiller_of_isBlank (hgap c hc)
      rw [hcut] at hkey ⊢
      rw [signature?_of_keyword hindent hfill (notAhead_isFiller hhead) hkey, Option.isSome_or,
        isSome_named? hhead, Bool.or_true]

end Header
end MatlabOutline
