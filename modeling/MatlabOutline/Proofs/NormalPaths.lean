import MatlabOutline.Proofs.PageNames
import MatlabOutline.Proofs.ReachablePlaces

/-! Normal forms of paths. In a relative path the steps back up stand before all names, and an
absolute path has none. Where a relative path leads from a directory can be read off its normal
form: its steps back up are taken in the directory, and its names come after what is left. -/
namespace MatlabOutline
open Text

namespace Path

/-- The components of a path with every step back up taken out that can be. -/
def normalParts (t : Text) : List Text := (ofText t).normal.components

section Descent

theorem descend_up_eq_tail {passed : List Text} (h : up ∉ passed) :
    descend true passed up = passed.tail := by
  have hreverse := @descend_up passed.reverse (by simpa using h)
  rw [List.reverse_reverse] at hreverse
  rw [hreverse, List.dropLast_reverse, List.reverse_reverse]

/-- Below the top of the tree no step back up is left. -/
theorem up_not_mem_foldl_descend (parts : List Text) {passed : List Text} (h : up ∉ passed) :
    up ∉ parts.foldl (descend true) passed := by
  induction parts generalizing passed with
  | nil => exact h
  | cons part parts ih =>
    apply ih
    by_cases hpart : part = up
    · rw [hpart, descend_up_eq_tail h]
      exact fun hmem => h (List.mem_of_mem_tail hmem)
    · rw [descend_of_ne_up hpart, List.mem_cons, not_or]
      exact ⟨Ne.symm hpart, h⟩

/-- Steps back up come before all names. The components are given from the last to the first. -/
def UpsFirst (passed : List Text) : Prop :=
  passed.Pairwise fun later earlier => later = up → earlier = up

theorem upsFirst_descend {passed : List Text} (h : UpsFirst passed) (part : Text) :
    UpsFirst (descend false passed part) := by
  by_cases hpart : part = up
  · subst hpart
    unfold descend
    rw [if_pos rfl]
    cases passed with
    | nil => exact List.pairwise_singleton _ _
    | cons p ps =>
      obtain ⟨hp, hps⟩ := List.pairwise_cons.1 h
      change UpsFirst (if p = up then up :: p :: ps else ps)
      split_ifs with hup
      · refine List.pairwise_cons.2 ⟨fun t ht _ => ?_, h⟩
        rcases List.mem_cons.1 ht with rfl | ht
        · exact hup
        · exact hp t ht hup
      · exact hps
  · rw [descend_of_ne_up hpart]
    exact List.pairwise_cons.2 ⟨fun _ _ heq => absurd heq hpart, h⟩

theorem upsFirst_foldl_descend (parts : List Text) {passed : List Text} (h : UpsFirst passed) :
    UpsFirst (parts.foldl (descend false) passed) := by
  induction parts generalizing passed with
  | nil => exact h
  | cons part parts ih => exact ih (upsFirst_descend h part)

end Descent

section Reached

/-- Where a way leads from a place: to its names, after its steps back up have been taken there.
Both are given from the last component to the first. -/
def reached (place passed : List Text) : List Text :=
  passed.takeWhile (· != up) ++ place.drop (passed.dropWhile (· != up)).length

theorem reached_cons_of_ne {name : Text} (h : name ≠ up) (place passed : List Text) :
    reached place (name :: passed) = name :: reached place passed := by
  simp [reached, h]

theorem reached_cons_up (place passed : List Text) :
    reached place (up :: passed) = place.drop (passed.length + 1) := by
  simp [reached]

/-- A step on a way is the same step from every place. -/
theorem descend_reached {place : List Text} (h : up ∉ place) (passed : List Text) (part : Text) :
    descend true (reached place passed) part = reached place (descend false passed part) := by
  by_cases hpart : part = up
  · subst hpart
    have hplace : ∀ n, descend true (place.drop n) up = place.drop (n + 1) := by
      intro n
      rw [descend_up_eq_tail fun hmem => h (List.mem_of_mem_drop hmem), List.tail_drop]
    cases passed with
    | nil => exact hplace 0
    | cons p ps =>
      by_cases hp : p = up
      · subst hp
        rw [reached_cons_up, hplace]
        exact (reached_cons_up place (up :: ps)).symm
      · rw [reached_cons_of_ne hp]
        unfold descend
        simp [hp]
  · rw [descend_of_ne_up hpart, descend_of_ne_up hpart, reached_cons_of_ne hpart]

theorem foldl_descend_reached {place : List Text} (h : up ∉ place) (parts passed : List Text) :
    parts.foldl (descend true) (reached place passed) =
      reached place (parts.foldl (descend false) passed) := by
  induction parts generalizing passed with
  | nil => rfl
  | cons part parts ih => rw [List.foldl_cons, descend_reached h, ih, List.foldl_cons]

theorem reached_append {names : List Text} (h : up ∉ names) (place passed : List Text) :
    reached place (names ++ passed) = names ++ reached place passed := by
  induction names with
  | nil => rfl
  | cons name names ih =>
    rw [List.mem_cons, not_or] at h
    rw [List.cons_append, reached_cons_of_ne (Ne.symm h.1), ih h.2, List.cons_append]

theorem reached_of_forall_up {passed : List Text} (h : ∀ t ∈ passed, t = up) (place : List Text) :
    reached place passed = place.drop passed.length := by
  cases passed with
  | nil => rfl
  | cons t passed =>
    obtain rfl := h t List.mem_cons_self
    exact reached_cons_up place passed

/-- A way leads up by no more than its length. -/
theorem length_le_reached (place passed : List Text) :
    place.length ≤ (reached place passed).length + passed.length := by
  have hle := (List.dropWhile_suffix (l := passed) (· != up)).length_le
  simp only [reached, List.length_append, List.length_drop]
  omega

/-- A way that leads up to the top of the tree or further leads to its own names. -/
theorem reached_of_length_le {place above : List Text} (below : List Text)
    (h : place.length ≤ above.length + 1) :
    reached place (below ++ up :: above) = (below ++ up :: above).takeWhile (· != up) := by
  have hlt : above.length < ((below ++ up :: above).dropWhile (· != up)).length := by
    induction below with
    | nil => simp
    | cons name below ih =>
      by_cases hname : name = up
      · simp [hname]
        omega
      · simpa [hname] using ih
  rw [reached, List.drop_eq_nil_of_le (by omega), List.append_nil]

end Reached

section Components

variable {t : Text}

theorem normalParts_of_isAbsolute (h : (ofText t).isAbsolute = true) :
    normalParts t = (ofText t).root :: (ofText t).normal.parts := by
  rw [normalParts, components]
  exact if_pos h

theorem normalParts_of_relative (h : (ofText t).isAbsolute = false) :
    normalParts t = (ofText t).normal.parts := by
  rw [normalParts, components]
  exact if_neg (Bool.eq_false_iff.1 h)

theorem slash_mem_root (h : (ofText t).isAbsolute = true) : '/' ∈ (ofText t).root := by
  have hroot : rootOf t ≠ [] := by simpa [isAbsolute, ofText] using h
  change '/' ∈ rootOf t
  unfold rootOf at hroot ⊢
  split <;> simp_all

theorem slash_not_mem_normal {part : Text} (h : part ∈ (ofText t).normal.parts) : '/' ∉ part := by
  have hparts : ∀ u ∈ (ofText t).parts, FileTree.IsName u := fun u => FileTree.isName_of_mem_ofText
  exact (FileTree.isName_of_mem_foldl_descend hparts (by simp) part (List.mem_reverse.1 h)).2.1

theorem up_not_mem_normalParts (h : (ofText t).isAbsolute = true) : up ∉ normalParts t := by
  rw [normalParts_of_isAbsolute h, List.mem_cons, not_or]
  constructor
  · intro hup
    have hslash := slash_mem_root h
    rw [← hup] at hslash
    exact absurd hslash (by decide)
  · rw [normal, h, List.mem_reverse]
    exact up_not_mem_foldl_descend _ List.not_mem_nil

theorem upsFirst_normalParts (h : (ofText t).isAbsolute = false) :
    UpsFirst (normalParts t).reverse := by
  rw [normalParts_of_relative h, normal, h, List.reverse_reverse]
  exact upsFirst_foldl_descend _ List.Pairwise.nil

/-- The root of a path is found before its first character that is no slash. -/
theorem rootOf_append_cons (u : Text) {c : Char} (hc : c ≠ '/') (t : Text) :
    rootOf (u ++ c :: t) = rootOf u := by
  match u with
  | [] => simp [rootOf, hc]
  | [a] => by_cases ha : a = '/' <;> simp [rootOf, ha, hc]
  | [a, b] => by_cases ha : a = '/' <;> by_cases hb : b = '/' <;> simp [rootOf, ha, hb, hc]
  | a :: b :: d :: u =>
    by_cases ha : a = '/' <;> by_cases hb : b = '/' <;> by_cases hd : d = '/' <;>
      simp [rootOf, ha, hb, hd]

theorem isAbsolute_iff : (ofText t).isAbsolute = true ↔ t.head? = some '/' := by
  constructor
  · intro h
    cases t with
    | nil => cases h
    | cons c t =>
      by_contra hc
      have hroot : rootOf (c :: t) = [] := rootOf_append_cons [] (by simpa using hc) t
      simp [isAbsolute, ofText, hroot] at h
  · intro h
    obtain ⟨u, rfl⟩ := List.head?_eq_some_iff.1 h
    have hroot : rootOf ('/' :: u) ≠ [] := by
      unfold rootOf
      split <;> simp_all
    simpa [isAbsolute, ofText] using hroot

theorem parts_ofText_append (u t : Text) :
    (ofText (u ++ '/' :: t)).parts = (ofText u).parts ++ (ofText t).parts := by
  have hcut : splitOn '/' (u ++ '/' :: t) = splitOn '/' u ++ splitOn '/' t :=
    splitWhere_append_cons (by rfl) u t
  rw [ofText, hcut, List.filter_append]
  rfl

end Components

section Joining

variable {c t : Text}

/-- One path written after another. An absolute one stands for itself, and a slash goes in between
only if there is none, since two slashes could be a root. -/
def joinText (c t : Text) : Text :=
  if t.head? = some '/' then t
  else if c.getLast? = some '/' then c ++ t
  else c ++ '/' :: t

/-- What is written reads as what was meant. -/
theorem ofText_joinText (hc : c ≠ []) (t : Text) :
    ofText (joinText c t) = (ofText c).join (ofText t) := by
  rw [joinText, join]
  by_cases ht : t.head? = some '/'
  · rw [if_pos ht, if_pos (isAbsolute_iff.2 ht)]
  rw [if_neg ht, if_neg (isAbsolute_iff.not.2 ht)]
  obtain ⟨u, d, rfl⟩ := (List.eq_nil_or_concat' c).resolve_left hc
  rw [List.getLast?_concat]
  by_cases hd : d = '/'
  · subst hd
    rw [if_pos rfl]
    refine congrArg₂ Path.mk ?_ ?_
    · cases t with
      | nil => exact congrArg rootOf (List.append_nil _)
      | cons b t => exact rootOf_append_cons _ (by simpa using ht) t
    · change (ofText (u ++ ['/'] ++ t)).parts = (ofText (u ++ ['/'])).parts ++ (ofText t).parts
      rw [List.append_assoc, List.singleton_append, parts_ofText_append, parts_ofText_append]
      exact congrArg (· ++ _) (List.append_nil _).symm
  · rw [if_neg (by simpa using hd)]
    refine congrArg₂ Path.mk ?_ (parts_ofText_append _ t)
    change rootOf _ = rootOf (u ++ [d])
    rw [List.append_assoc, List.singleton_append, rootOf_append_cons u hd, rootOf_append_cons u hd]

theorem exists_normalParts_concat {dir : Text} (h : dir ≠ []) :
    ∃ path, normalParts path = normalParts dir ++ ["x".toList] := by
  have hjoin : ofText (joinText dir "x".toList) =
      ⟨(ofText dir).root, (ofText dir).parts ++ ["x".toList]⟩ := ofText_joinText h _
  have hnormal : (ofText (joinText dir "x".toList)).normal =
      ⟨(ofText dir).root, (ofText dir).normal.parts ++ ["x".toList]⟩ := by
    rw [normal, hjoin, List.foldl_append, List.foldl_cons, List.foldl_nil,
      descend_of_ne_up (by decide), List.reverse_cons]
    rfl
  refine ⟨joinText dir "x".toList, ?_⟩
  rw [normalParts, hnormal, normalParts, components, components]
  change (if isAbsolute (ofText dir) then _ else _) =
    (if isAbsolute (ofText dir) then _ else _) ++ _
  split_ifs <;> rfl

end Joining

section Places

variable {c t : Text}

/-- The components of a path that is read from a directory. -/
def placed (c t : Text) : List Text := normalParts (joinText c t)

theorem placed_of_isAbsolute (h : (ofText t).isAbsolute = true) (c : Text) :
    placed c t = normalParts t := by
  rw [placed, joinText, if_pos (isAbsolute_iff.1 h)]

/-- A relative path leads to its names, after its steps back up have been taken in the directory. -/
theorem placed_of_relative (hc : (ofText c).isAbsolute = true)
    (h : (ofText t).isAbsolute = false) :
    placed c t = (ofText c).root ::
      (reached (ofText c).normal.parts.reverse (normalParts t).reverse).reverse := by
  have hne : c ≠ [] := by
    rintro rfl
    cases hc
  have hplace : (ofText c).normal.parts.reverse = (ofText c).parts.foldl (descend true) [] := by
    rw [normal, hc, List.reverse_reverse]
  have hpassed : (normalParts t).reverse = (ofText t).parts.foldl (descend false) [] := by
    rw [normalParts_of_relative h, normal, h, List.reverse_reverse]
  have hjoin : ((ofText c).join (ofText t)).normal =
      ⟨(ofText c).root,
        (((ofText c).parts ++ (ofText t).parts).foldl (descend true) []).reverse⟩ := by
    rw [join, if_neg (Bool.eq_false_iff.1 h), ← hc]
    rfl
  have hup : up ∉ (ofText c).parts.foldl (descend true) [] :=
    up_not_mem_foldl_descend _ List.not_mem_nil
  rw [placed, normalParts, ofText_joinText hne, hjoin, List.foldl_append, hplace, hpassed,
    ← foldl_descend_reached hup]
  exact if_pos hc

/-- A directory as deep as wanted, with one name at every step. -/
def deep (n : Nat) (name : Text) : Text := FileTree.placeText (List.replicate n name)

theorem ofText_deep {name : Text} (h : FileTree.IsName name) (n : Nat) :
    ofText (deep n name) = ⟨"/".toList, List.replicate n name⟩ := by
  apply FileTree.ofText_placeText
  intro t ht
  rwa [List.eq_of_mem_replicate ht]

theorem isAbsolute_deep {name : Text} (h : FileTree.IsName name) (n : Nat) :
    (ofText (deep n name)).isAbsolute = true := by
  rw [ofText_deep h]
  rfl

theorem placed_deep {name : Text} (h : FileTree.IsName name) (hup : name ≠ up)
    (ht : (ofText t).isAbsolute = false) (n : Nat) :
    placed (deep n name) t =
      "/".toList :: (reached (List.replicate n name) (normalParts t).reverse).reverse := by
  have hnames : up ∉ List.replicate n name := fun hmem => hup (List.eq_of_mem_replicate hmem).symm
  have hnormal : (ofText (deep n name)).normal.parts = List.replicate n name := by
    rw [ofText_deep h, normal, foldl_descend_of_up_not_mem _ hnames, List.append_nil,
      List.reverse_reverse]
  rw [placed_of_relative (isAbsolute_deep h n) ht, hnormal, List.reverse_replicate, ofText_deep h]

end Places

end Path
end MatlabOutline
