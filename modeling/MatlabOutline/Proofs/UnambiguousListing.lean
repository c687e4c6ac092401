import MatlabOutline.Outline.Listing
import MatlabOutline.Proofs.Characters

/-! The listing of an outline can be read in one way only. A line gives its depth by its indent, and
then the name, the mark of a builtin, the arguments and the description of its function, each of
which ends at a character that it cannot hold; and the depths in pre-order give the shape. -/
namespace MatlabOutline
open Text

namespace Text

/-- Where a run of one class ends, a text can be cut in one way only. -/
theorem run_inj {p : Char → Bool} {u u' v v' : Text} (hu : ∀ c ∈ u, p c = true)
    (hu' : ∀ c ∈ u', p c = true) (hv : NotAhead p v) (hv' : NotAhead p v')
    (h : u ++ v = u' ++ v') : u = u' ∧ v = v' := by
  have htake := congrArg (List.takeWhile p) h
  rw [takeWhile_run hu hv, takeWhile_run hu' hv'] at htake
  subst htake
  exact ⟨rfl, List.append_cancel_left h⟩

theorem cut_inj {c : Char} {u u' v v' : Text} (hu : c ∉ u) (hu' : c ∉ u')
    (h : u ++ c :: v = u' ++ c :: v') : u = u' ∧ v = v' := by
  have hrun : ∀ {w : Text}, c ∉ w → ∀ d ∈ w, (d != c) = true :=
    fun hw d hd => bne_iff_ne.2 (ne_of_mem_of_not_mem hd hw)
  have hcut : ∀ w : Text, NotAhead (· != c) (c :: w) := fun w => notAhead_cons (by simp)
  obtain ⟨hleft, hright⟩ := run_inj (hrun hu) (hrun hu') (hcut v) (hcut v') h
  exact ⟨hleft, (List.cons.inj hright).2⟩

/-- Pieces without the first character of the separator can be told apart again. -/
theorem joinWith_inj {c : Char} {sep : Text} {ps qs : List Text} (hps : ∀ p ∈ ps, c ∉ p)
    (hqs : ∀ q ∈ qs, c ∉ q) (hp : ps ≠ []) (hq : qs ≠ [])
    (h : joinWith (c :: sep) ps = joinWith (c :: sep) qs) : ps = qs := by
  have hmem : ∀ (p q : Text) (ts : List Text), c ∈ joinWith (c :: sep) (p :: q :: ts) := by
    intro p q ts
    simp
  induction ps generalizing qs with
  | nil => exact absurd rfl hp
  | cons p ps ih =>
    obtain ⟨hcp, hps'⟩ := List.forall_mem_cons.1 hps
    cases qs with
    | nil => exact absurd rfl hq
    | cons q qs =>
      obtain ⟨hcq, hqs'⟩ := List.forall_mem_cons.1 hqs
      cases ps with
      | nil =>
        cases qs with
        | nil => exact congrArg (fun t => [t]) h
        | cons q' qs =>
          have hin : c ∈ joinWith (c :: sep) [p] := h ▸ hmem q q' qs
          exact absurd hin hcp
      | cons p' ps =>
        cases qs with
        | nil =>
          have hin : c ∈ joinWith (c :: sep) [q] := h ▸ hmem p p' ps
          exact absurd hin hcq
        | cons q' qs =>
          rw [joinWith_cons_cons, joinWith_cons_cons, List.append_assoc, List.append_assoc] at h
          obtain ⟨hpq, hrest⟩ := cut_inj hcp hcq h
          rw [hpq, ih hps' hqs' (List.cons_ne_nil p' ps) (List.cons_ne_nil q' qs)
            (List.append_cancel_left hrest)]

theorem joinWith_ne_nil {sep : Text} {ps : List Text} (hp : ps ≠ []) (hps : ∀ p ∈ ps, p ≠ []) :
    joinWith sep ps ≠ [] := by
  cases ps with
  | nil => exact absurd rfl hp
  | cons p ps =>
    have hne := hps p List.mem_cons_self
    cases ps with
    | nil => exact hne
    | cons q ps =>
      rw [joinWith_cons_cons, List.append_assoc]
      exact List.append_ne_nil_of_left_ne_nil hne _

theorem length_times (n : Nat) (t : Text) : (times n t).length = n * t.length := by
  simp [times]

end Text

namespace Forest

variable {α : Type}

/-- Below a depth, only the next forest can go on after a forest has ended. -/
theorem withDepths_append_inj {f g : Forest α} {depth : Nat} {r s : List (Nat × α)}
    (hr : ∀ e ∈ r.head?, e.1 < depth) (hs : ∀ e ∈ s.head?, e.1 < depth)
    (h : f.withDepths depth ++ r = g.withDepths depth ++ s) : f = g ∧ r = s := by
  induction f generalizing g depth r s with
  | nil =>
    cases g with
    | nil => exact ⟨rfl, h⟩
    | node b ds gs =>
      have hr : r = (depth, b) :: _ := h
      subst hr
      exact absurd (hr _ rfl) (Nat.lt_irrefl depth)
  | node a cs fs hc hf =>
    cases g with
    | nil =>
      have hs : s = (depth, a) :: _ := h.symm
      subst hs
      exact absurd (hs _ rfl) (Nat.lt_irrefl depth)
    | node b ds gs =>
      -- what comes after the children is on their parent's level or above it
      have hafter : ∀ (k : Forest α) (q : List (Nat × α)), (∀ e ∈ q.head?, e.1 < depth) →
          ∀ e ∈ (k.withDepths depth ++ q).head?, e.1 < depth + 1 := by
        intro k q hq e he
        cases k with
        | nil => exact Nat.lt_succ_of_lt (hq e he)
        | node c es ks =>
          obtain rfl : (depth, c) = e := Option.some.inj he
          exact Nat.lt_succ_self depth
      simp only [withDepths, List.cons_append, List.append_assoc] at h
      obtain ⟨hroot, hrest⟩ := List.cons.inj h
      obtain ⟨rfl, hothers⟩ := hc (hafter fs r hr) (hafter gs s hs) hrest
      obtain ⟨rfl, rfl⟩ := hf hr hs hothers
      obtain rfl : a = b := (Prod.mk.inj hroot).2
      exact ⟨rfl, rfl⟩

/-- The depths in pre-order give the shape of a forest. -/
theorem withDepths_inj {f g : Forest α} {depth : Nat}
    (h : f.withDepths depth = g.withDepths depth) : f = g := by
  have happend : f.withDepths depth ++ [] = g.withDepths depth ++ [] := by rw [h]
  exact (withDepths_append_inj (by simp) (by simp) happend).1

end Forest

/-- A word that can be listed as an argument. -/
structure IsArgument (a : Text) : Prop where
  ne_nil : a ≠ []
  plain : ∀ c ∈ a, isSpace c = false ∧ c ≠ ',' ∧ c ≠ '(' ∧ c ≠ ')'

instance (a : Text) : Decidable (IsArgument a) :=
  decidable_of_iff (a ≠ [] ∧
      a.all (fun c => !isSpace c && c != ',' && c != '(' && c != ')') = true) <| by
    simp only [List.all_eq_true, Bool.and_eq_true, Bool.not_eq_true', bne_iff_ne, and_assoc]
    exact ⟨fun h => ⟨h.1, h.2⟩, fun h => ⟨h.ne_nil, h.plain⟩⟩

/-- The arguments of a function as they are listed. -/
def argumentList (args : List Text) : Text :=
  if args.isEmpty then "arguments unavailable".toList else joinWith ", ".toList args

section Arguments

variable {as bs : List Text}

theorem mem_argumentList {c : Char} (h : c ∈ argumentList as) :
    c ∈ "arguments unavailable".toList ∨ c ∈ ", ".toList ∨ ∃ a ∈ as, c ∈ a := by
  rw [argumentList] at h
  split_ifs at h
  · exact .inl h
  · exact .inr (mem_joinWith h)

theorem closing_not_mem_argumentList (has : ∀ a ∈ as, IsArgument a) : ')' ∉ argumentList as := by
  intro h
  rcases mem_argumentList h with h | h | ⟨a, ha, h⟩
  · exact absurd h (by decide)
  · exact absurd h (by decide)
  · exact ((has a ha).plain _ h).2.2.2 rfl

/-- No arguments read like the words that stand for none: one alone has no space in it, and between
two there is a comma. -/
theorem joinWith_ne_unavailable (has : ∀ a ∈ as, IsArgument a) (hne : as ≠ []) :
    joinWith ", ".toList as ≠ "arguments unavailable".toList := by
  intro h
  cases as with
  | nil => exact hne rfl
  | cons a as =>
    cases as with
    | nil =>
      have hspace : ' ' ∈ a := by
        change a = "arguments unavailable".toList at h
        rw [h]
        decide
      exact absurd ((has a List.mem_cons_self).plain ' ' hspace).1 (by decide)
    | cons b as =>
      have hcomma : ',' ∈ "arguments unavailable".toList := by
        rw [← h, joinWith_cons_cons]
        simp
      exact absurd hcomma (by decide)

theorem argumentList_inj (has : ∀ a ∈ as, IsArgument a) (hbs : ∀ b ∈ bs, IsArgument b)
    (h : argumentList as = argumentList bs) : as = bs := by
  rw [argumentList, argumentList] at h
  simp only [List.isEmpty_iff] at h
  split_ifs at h with ha hb hb
  · rw [ha, hb]
  · exact absurd h.symm (joinWith_ne_unavailable hbs hb)
  · exact absurd h (joinWith_ne_unavailable has ha)
  · have hcomma : ∀ {ts : List Text}, (∀ t ∈ ts, IsArgument t) → ∀ t ∈ ts, ',' ∉ t :=
      fun hts t ht hmem => ((hts t ht).plain _ hmem).2.1 rfl
    exact joinWith_inj (hcomma has) (hcomma hbs) ha hb h

end Arguments

namespace FunctionEntry

/-- What a line of the listing tells of a function. -/
def listed (e : FunctionEntry) : Text × List Text × Bool × Option Text :=
  (e.name, e.args, e.builtin, e.docstring)

/-- A function whose name, arguments and description have the form that they have in sources. -/
structure Listable (e : FunctionEntry) : Prop where
  name : IsIdentifier e.name
  args : ∀ a ∈ e.args, IsArgument a
  docstring : ∀ d ∈ e.docstring, d ≠ [] ∧ '\n' ∉ d

instance (e : FunctionEntry) : Decidable e.Listable :=
  decidable_of_iff (IsIdentifier e.name ∧ (∀ a ∈ e.args, IsArgument a) ∧
      ∀ d ∈ e.docstring, d ≠ [] ∧ '\n' ∉ d)
    ⟨fun h => ⟨h.1, h.2.1, h.2.2⟩, fun h => ⟨h.name, h.args, h.docstring⟩⟩

/-- The mark of a builtin. -/
def builtinMark (builtin : Bool) : Text := if builtin then " [builtin]".toList else []

/-- A description as it is listed. -/
def remark : Option Text → Text
  | some (c :: d) => "  -- ".toList ++ c :: d
  | _ => []

theorem summary_eq (e : FunctionEntry) :
    e.summary = e.name ++ (builtinMark e.builtin ++
      (" (".toList ++ (argumentList e.args ++ ')' :: remark e.docstring))) := by
  have hproto : e.prototype = e.name ++ builtinMark e.builtin ++ " (".toList ++
      argumentList e.args ++ ")".toList := rfl
  have hsummary : e.summary = e.prototype ++ remark e.docstring := by
    rw [summary]
    rcases e.docstring with _ | (_ | ⟨c, d⟩)
    · exact (List.append_nil _).symm
    · exact (List.append_nil _).symm
    · exact List.append_assoc _ _ _
  rw [hsummary, hproto]
  simp

theorem remark_inj {d d' : Option Text} (hd : ∀ t ∈ d, t ≠ []) (hd' : ∀ t ∈ d', t ≠ [])
    (h : remark d = remark d') : d = d' := by
  have hcases : ∀ {o : Option Text}, (∀ t ∈ o, t ≠ []) →
      o = none ∧ remark o = [] ∨ ∃ t, o = some t ∧ remark o = "  -- ".toList ++ t := by
    intro o ho
    rcases o with _ | (_ | ⟨c, t⟩)
    · exact .inl ⟨rfl, rfl⟩
    · exact absurd rfl (ho [] rfl)
    · exact .inr ⟨c :: t, rfl, rfl⟩
  rcases hcases hd with ⟨rfl, hr⟩ | ⟨t, rfl, hr⟩
  · rcases hcases hd' with ⟨rfl, -⟩ | ⟨t', rfl, hr'⟩
    · rfl
    · rw [hr, hr'] at h
      cases h
  · rcases hcases hd' with ⟨rfl, hr'⟩ | ⟨t', rfl, hr'⟩
    · rw [hr, hr'] at h
      cases h
    · rw [hr, hr'] at h
      rw [List.append_cancel_left h]

/-- After the name, the mark of a builtin shows in the second character. -/
theorem builtinMark_inj {b b' : Bool} {v v' : Text}
    (h : builtinMark b ++ (" (".toList ++ v) = builtinMark b' ++ (" (".toList ++ v')) :
    b = b' ∧ v = v' := by
  cases b <;> cases b'
  · exact ⟨rfl, List.append_cancel_left h⟩
  · have hsecond : some '(' = some '[' := congrArg (fun t : Text => t[1]?) h
    exact absurd hsecond (by decide)
  · have hsecond : some '[' = some '(' := congrArg (fun t : Text => t[1]?) h
    exact absurd hsecond (by decide)
  · exact ⟨rfl, List.append_cancel_left (List.append_cancel_left h)⟩

theorem notAhead_isWord_builtinMark (b : Bool) (v : Text) :
    NotAhead isWord (builtinMark b ++ (" (".toList ++ v)) := by
  have hspace : isWord ' ' = false := by decide +kernel
  cases b <;> exact notAhead_cons hspace

section Lines

variable {e e' : FunctionEntry}

/-- A summary tells all that is listed of its function. -/
theorem summary_inj (he : e.Listable) (he' : e'.Listable) (h : e.summary = e'.summary) :
    e.listed = e'.listed := by
  rw [summary_eq, summary_eq] at h
  obtain ⟨hname, h⟩ := run_inj he.name.2 he'.name.2 (notAhead_isWord_builtinMark _ _)
    (notAhead_isWord_builtinMark _ _) h
  obtain ⟨hbuiltin, h⟩ := builtinMark_inj h
  obtain ⟨hlist, h⟩ := cut_inj (closing_not_mem_argumentList he.args)
    (closing_not_mem_argumentList he'.args) h
  have hargs := argumentList_inj he.args he'.args hlist
  have hdoc := remark_inj (fun t ht => (he.docstring t ht).1) (fun t ht => (he'.docstring t ht).1) h
  rw [listed, listed, hname, hargs, hbuiltin, hdoc]

theorem summary_of_listed (h : e.listed = e'.listed) : e.summary = e'.summary := by
  simp only [listed, Prod.mk.injEq] at h
  obtain ⟨hname, hargs, hbuiltin, hdoc⟩ := h
  rw [summary_eq, summary_eq, hname, hargs, hbuiltin, hdoc]

theorem Listable.notAhead_summary (he : e.Listable) : NotAhead (· == ' ') e.summary := by
  intro c hc
  have hhead := he.name.head?_append (builtinMark e.builtin ++
    (" (".toList ++ (argumentList e.args ++ ')' :: remark e.docstring)))
  rw [← summary_eq, Option.mem_def.1 hc] at hhead
  have hword := isWord_of_isWordStart hhead
  rw [beq_eq_false_iff_ne]
  rintro rfl
  exact absurd hword (by decide +kernel)

theorem Listable.summary_ne_nil (he : e.Listable) : e.summary ≠ [] := by
  rw [summary_eq]
  exact List.append_ne_nil_of_left_ne_nil he.name.ne_nil _

theorem Listable.newline_not_mem (he : e.Listable) : '\n' ∉ e.summary := by
  have hname : '\n' ∉ e.name := fun h => absurd (he.name.2 _ h) (by decide +kernel)
  have hmark : '\n' ∉ builtinMark e.builtin := by cases e.builtin <;> decide
  have hargs : '\n' ∉ argumentList e.args := by
    intro h
    rcases mem_argumentList h with h | h | ⟨a, ha, h⟩
    · exact absurd h (by decide)
    · exact absurd h (by decide)
    · exact absurd ((he.args a ha).plain _ h).1 (by decide)
  have hremark : '\n' ∉ remark e.docstring := by
    unfold remark
    split
    · rename_i c d hd
      rw [List.mem_append, not_or]
      exact ⟨by decide, (he.docstring _ hd).2⟩
    · exact List.not_mem_nil
  have hopen : '\n' ∉ " (".toList := by decide
  rw [summary_eq]
  simp only [List.mem_append, List.mem_cons, not_or]
  exact ⟨hname, hmark, hopen, hargs, by decide, hremark⟩

/-- A line of the listing tells its depth and all that is listed of its function. -/
theorem line_eq_iff {n n' : Nat} (he : e.Listable) (he' : e'.Listable) :
    times n "  ".toList ++ e.summary = times n' "  ".toList ++ e'.summary ↔
      (n, e.listed) = (n', e'.listed) := by
  have hspaces : ∀ m, ∀ c ∈ times m "  ".toList, (c == ' ') = true := by
    intro m c hc
    have hmem := mem_times hc
    revert hmem
    simp
  constructor
  · intro h
    obtain ⟨hindent, hsummary⟩ :=
      run_inj (hspaces n) (hspaces n') he.notAhead_summary he'.notAhead_summary h
    have hlength := congrArg List.length hindent
    rw [length_times, length_times] at hlength
    obtain rfl : n = n' := Nat.eq_of_mul_eq_mul_right (by decide) hlength
    rw [summary_inj he he' hsummary]
  · intro h
    obtain ⟨rfl, hlisted⟩ := Prod.mk.inj h
    rw [summary_of_listed hlisted]

end Lines

end FunctionEntry

namespace Outline

variable {F G : Outline}

/-- Two lists that agree in one view, place by place, agree in another that tells the same. -/
theorem map_eq_map_iff {α β γ : Type} {f : α → β} {g : α → γ} {xs ys : List α}
    (h : ∀ x ∈ xs, ∀ y ∈ ys, (f x = f y ↔ g x = g y)) :
    xs.map f = ys.map f ↔ xs.map g = ys.map g := by
  induction xs generalizing ys with
  | nil => simp [eq_comm]
  | cons x xs ih =>
    cases ys with
    | nil => simp
    | cons y ys =>
      have hhead := h x List.mem_cons_self y List.mem_cons_self
      have htail := ih fun a ha b hb =>
        h a (List.mem_cons_of_mem x ha) b (List.mem_cons_of_mem y hb)
      rw [List.map_cons, List.map_cons, List.map_cons, List.map_cons, List.cons.injEq,
        List.cons.injEq, hhead, htail]

theorem listable_of_mem_withDepths (hF : ∀ e ∈ F.flatten, e.Listable) :
    ∀ x ∈ F.withDepths 0, x.2.Listable := by
  intro x hx
  apply hF
  rw [← Forest.map_snd_withDepths 0]
  exact List.mem_map_of_mem hx

/-- The listing tells its lines. -/
theorem listingLines_of_listing (hF : ∀ e ∈ F.flatten, e.Listable)
    (hG : ∀ e ∈ G.flatten, e.Listable) (h : F.listing "  ".toList = G.listing "  ".toList) :
    listingLines "  ".toList F = listingLines "  ".toList G := by
  have hlines : ∀ {H : Outline}, (∀ e ∈ H.flatten, e.Listable) →
      ∀ l ∈ listingLines "  ".toList H, l ≠ [] ∧ '\n' ∉ l := by
    intro H hH l hl
    obtain ⟨x, hx, rfl⟩ := List.mem_map.1 hl
    have hlistable := listable_of_mem_withDepths hH x hx
    refine ⟨List.append_ne_nil_of_right_ne_nil _ hlistable.summary_ne_nil, ?_⟩
    rw [List.mem_append, not_or]
    exact ⟨fun hmem => absurd (mem_times hmem) (by decide), hlistable.newline_not_mem⟩
  have hempty : ∀ {H : Outline}, (∀ e ∈ H.flatten, e.Listable) → H.listing "  ".toList = [] →
      listingLines "  ".toList H = [] := by
    intro H hH hnil
    by_contra hne
    exact joinWith_ne_nil hne (fun l hl => (hlines hH l hl).1) hnil
  by_cases hf : listingLines "  ".toList F = []
  · have hnil : F.listing "  ".toList = [] := by rw [listing, hf]; rfl
    rw [hf, hempty hG (h ▸ hnil)]
  · by_cases hg : listingLines "  ".toList G = []
    · have hnil : G.listing "  ".toList = [] := by rw [listing, hg]; rfl
      exact absurd (hempty hF (h.trans hnil)) hf
    · exact joinWith_inj (fun l hl => (hlines hF l hl).2) (fun l hl => (hlines hG l hl).2) hf hg h

/-- Two outlines have one listing exactly if they have the same shape and, at every place, functions
with the same name, arguments, builtin mark and description. -/
theorem listing_unambiguous (F G : Outline) (hF : ∀ e ∈ F.flatten, e.Listable)
    (hG : ∀ e ∈ G.flatten, e.Listable) :
    F.listing "  ".toList = G.listing "  ".toList ↔
      F.map FunctionEntry.listed = G.map FunctionEntry.listed := by
  have hview : listingLines "  ".toList F = listingLines "  ".toList G ↔
      (F.withDepths 0).map (fun e => (e.1, e.2.listed)) =
        (G.withDepths 0).map fun e => (e.1, e.2.listed) := by
    apply map_eq_map_iff
    intro x hx y hy
    exact FunctionEntry.line_eq_iff (listable_of_mem_withDepths hF x hx)
      (listable_of_mem_withDepths hG y hy)
  constructor
  · intro h
    refine Forest.withDepths_inj (?_ : Forest.withDepths 0 _ = Forest.withDepths 0 _)
    rw [Forest.withDepths_map, Forest.withDepths_map]
    exact hview.1 (listingLines_of_listing hF hG h)
  · intro h
    rw [listing, listing, hview.2]
    rw [← Forest.withDepths_map, ← Forest.withDepths_map, h]

/-- A function that is described as if its nested function were listed beside it. -/
def outerEntry : FunctionEntry where
  start := 0
  stop := 60
  returns := []
  name := "f".toList
  args := ["a".toList, "b".toList]
  docstring := some "g [builtin] (x)  -- h".toList
  builtin := false

def innerEntry : FunctionEntry where
  start := 20
  stop := 40
  returns := []
  name := "g".toList
  args := ["x".toList]
  docstring := some "h".toList
  builtin := true

/-- A nested function is not listed as one at the top level is, whatever the descriptions hold. -/
theorem listing_outer_inner :
    (outerEntry.Listable ∧ innerEntry.Listable) ∧
      listing "  ".toList (.node outerEntry (.node innerEntry .nil .nil) .nil) ≠
        listing "  ".toList (.node outerEntry .nil (.node innerEntry .nil .nil)) := by
  have hlistable : ∀ e ∈ [outerEntry, innerEntry], e.Listable := by decide +kernel
  refine ⟨⟨hlistable _ (by simp), hlistable _ (by simp)⟩, ?_⟩
  exact (listing_unambiguous (.node outerEntry (.node innerEntry .nil .nil) .nil)
    (.node outerEntry .nil (.node innerEntry .nil .nil)) hlistable hlistable).not.2 (by decide)

end Outline
end MatlabOutline
