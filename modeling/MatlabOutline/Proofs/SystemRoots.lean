import MatlabOutline.Proofs.NormalPaths

/-! System roots. The first root above a path decides whether it is visible, so what the roots show
together is what they show one by one exactly if each root is seen from the first one at or above
it, and their order does not matter exactly if none lies hidden below another. A path that passes
for one below a root lies there from every working directory, unless it goes on from a relative root
with a step back up, or is absolute where the root is not. -/
namespace MatlabOutline
open Text

namespace Path

section Visibility

/-- The name of the directories that nothing is seen in from above. -/
def hidden : Text := "private".toList

/-- Whether a directory is seen from a root at or above it. -/
def Sees (root dir : List Text) : Prop := root <+: dir ∧ hidden ∉ dir.drop root.length

instance (root dir : List Text) : Decidable (Sees root dir) :=
  inferInstanceAs (Decidable (root <+: dir ∧ hidden ∉ dir.drop root.length))

variable {root mid dir : List Text}

theorem sees_append_iff : Sees root (root ++ mid) ↔ hidden ∉ mid := by
  simp [Sees]

theorem Sees.refl (dir : List Text) : Sees dir dir := by
  simp [Sees]

theorem Sees.trans (h : Sees root mid) (h' : Sees mid dir) : Sees root dir := by
  obtain ⟨u, rfl⟩ := h.1
  obtain ⟨v, rfl⟩ := h'.1
  rw [sees_append_iff] at h h'
  rw [List.append_assoc, sees_append_iff, List.mem_append]
  exact not_or.2 ⟨h, h'⟩

/-- A directory that is seen from far above is seen from in between. -/
theorem Sees.from_below (h : Sees root dir) (hmid : root <+: mid) (hdir : mid <+: dir) :
    Sees mid dir := by
  obtain ⟨u, rfl⟩ := hmid
  obtain ⟨v, rfl⟩ := hdir
  rw [List.append_assoc, sees_append_iff, List.mem_append, not_or] at h
  exact sees_append_iff.2 h.2

end Visibility

section FirstRoot

/-- The first root at or above a directory. Empty roots count for nothing. -/
def firstRoot? (roots : List Text) (dir : List Text) : Option Text :=
  (roots.filter fun r => !r.isEmpty).find? fun r => (normalParts r).isPrefixOf dir

variable {roots dir : List Text} {path r name : Text}

theorem firstRoot?_eq_some_iff : firstRoot? roots dir = some r ↔
    normalParts r <+: dir ∧ ∃ before after, (roots.filter fun r => !r.isEmpty) =
      before ++ r :: after ∧ ∀ q ∈ before, ¬ normalParts q <+: dir := by
  simp only [firstRoot?, List.find?_eq_some_iff_append, List.isPrefixOf_iff_prefix,
    Bool.not_eq_true', ← Bool.not_eq_true]

theorem mem_of_firstRoot? (h : firstRoot? roots dir = some r) : r ∈ roots ∧ r ≠ [] := by
  obtain ⟨hmem, hne⟩ := List.mem_filter.1 (List.mem_of_find?_eq_some h)
  exact ⟨hmem, by simpa using hne⟩

theorem exists_firstRoot? (hr : r ∈ roots) (hne : r ≠ []) (h : normalParts r <+: dir) :
    ∃ q, firstRoot? roots dir = some q := by
  rw [← Option.isSome_iff_exists, firstRoot?, List.find?_isSome]
  exact ⟨r, by simp [hr, hne], List.isPrefixOf_iff_prefix.2 h⟩

theorem firstRoot?_cons (hne : r ≠ []) (h : normalParts r <+: dir) (roots : List Text) :
    firstRoot? (r :: roots) dir = some r := by
  simp [firstRoot?, hne, h]

theorem belowRoot?_of_parts (h : normalParts path = dir ++ [name]) (root : Text) :
    belowRoot? path root =
      if normalParts root <+: dir then
        some (decide (hidden ∉ dir.drop (normalParts root).length))
      else none := by
  have hcond : ((normalParts root).isPrefixOf (dir ++ [name]) &&
      decide ((normalParts root).length < (dir ++ [name]).length)) = true ↔
      normalParts root <+: dir := by
    rw [Bool.and_eq_true, List.isPrefixOf_iff_prefix, decide_eq_true_eq, List.prefix_concat_iff]
    constructor
    · rintro ⟨heq | habove, hlt⟩
      · rw [heq] at hlt
        exact absurd hlt (lt_irrefl _)
      · exact habove
    · intro habove
      have hle := habove.length_le
      exact ⟨.inr habove, by simp; omega⟩
  have hunfold : belowRoot? path root =
      if (normalParts root).isPrefixOf (normalParts path) &&
          decide ((normalParts root).length < (normalParts path).length) then
        some (!((normalParts path).drop (normalParts root).length).dropLast.contains hidden)
      else none := rfl
  rw [hunfold, h]
  by_cases habove : normalParts root <+: dir
  · rw [if_pos (hcond.2 habove), if_pos habove,
      List.drop_append_of_le_length habove.length_le, List.dropLast_concat]
    simp
  · rw [if_neg (hcond.not.2 habove), if_neg habove]

theorem belowRoot?_eq_some_true_iff (h : normalParts path = dir ++ [name]) {root : Text} :
    belowRoot? path root = some true ↔ Sees (normalParts root) dir := by
  rw [belowRoot?_of_parts h, Sees]
  split_ifs with habove <;> simp [habove]

theorem belowRoot?_eq_none_iff (h : normalParts path = dir ++ [name]) {root : Text} :
    belowRoot? path root = none ↔ ¬ normalParts root <+: dir := by
  rw [belowRoot?_of_parts h]
  split_ifs with habove <;> simp [habove]

/-- A path is visible exactly if its directory is seen from the first root at or above it. -/
theorem isUnderRoots_of_parts (h : normalParts path = dir ++ [name]) :
    isUnderRoots path roots = true ↔ ∃ r ∈ firstRoot? roots dir, Sees (normalParts r) dir := by
  have hne : path ≠ [] := by
    rintro rfl
    cases dir <;> cases h
  have hfirst : isUnderRoots path roots = true ↔
      (roots.filter fun r => !r.isEmpty).findSome? (belowRoot? path) = some true := by
    rw [isUnderRoots, if_neg (by simpa using hne)]
    simp [Option.getD_eq_iff]
  simp only [hfirst, List.findSome?_eq_some_iff, belowRoot?_eq_some_true_iff h,
    belowRoot?_eq_none_iff h, Option.mem_def, firstRoot?_eq_some_iff]
  constructor
  · rintro ⟨before, r, after, hroots, hsees, hbefore⟩
    exact ⟨r, ⟨hsees.1, before, after, hroots, hbefore⟩, hsees⟩
  · rintro ⟨r, ⟨-, before, after, hroots, hbefore⟩, hsees⟩
    exact ⟨before, r, after, hroots, hsees, hbefore⟩

theorem isUnderRoots_of_nil (h : normalParts path = []) : isUnderRoots path roots = false := by
  have hpath : (ofText path).normal.components = [] := h
  have hnone : (roots.filter fun r => !r.isEmpty).findSome? (belowRoot? path) = none := by
    rw [List.findSome?_eq_none_iff]
    intro r _
    rw [belowRoot?, hpath]
    simp
  rw [isUnderRoots, hnone]
  split_ifs <;> rfl

theorem isUnderRoots_iff : isUnderRoots path roots = true ↔
    ∃ dir name, normalParts path = dir ++ [name] ∧
      ∃ r ∈ firstRoot? roots dir, Sees (normalParts r) dir := by
  constructor
  · intro hunder
    rcases List.eq_nil_or_concat' (normalParts path) with hnil | ⟨dir, name, hparts⟩
    · rw [isUnderRoots_of_nil hnil] at hunder
      cases hunder
    · exact ⟨dir, name, hparts, (isUnderRoots_of_parts hparts).1 hunder⟩
  · rintro ⟨dir, name, hparts, hsees⟩
    exact (isUnderRoots_of_parts hparts).2 hsees

theorem isUnderRoots_singleton_iff : isUnderRoots path [r] = true ↔
    r ≠ [] ∧ ∃ dir name, normalParts path = dir ++ [name] ∧ Sees (normalParts r) dir := by
  rw [isUnderRoots_iff]
  constructor
  · rintro ⟨dir, name, hparts, q, hq, hsees⟩
    obtain ⟨hmem, hne⟩ := mem_of_firstRoot? hq
    obtain rfl := List.mem_singleton.1 hmem
    exact ⟨hne, dir, name, hparts, hsees⟩
  · rintro ⟨hne, dir, name, hparts, hsees⟩
    exact ⟨dir, name, hparts, r, firstRoot?_cons hne hsees.1 [], hsees⟩

end FirstRoot

section Together

variable {roots : List Text} {path r : Text}

/-- Whether each root is seen from the first root at or above it. -/
def InView (roots : List Text) : Prop :=
  ∀ r ∈ roots, r ≠ [] → ∃ q ∈ firstRoot? roots (normalParts r), Sees (normalParts q) (normalParts r)

instance (roots : List Text) : Decidable (InView roots) :=
  inferInstanceAs (Decidable (∀ r ∈ roots, r ≠ [] →
    ∃ q ∈ firstRoot? roots (normalParts r), Sees (normalParts q) (normalParts r)))

/-- Whether each root is seen from every root at or above it. -/
def Unhidden (roots : List Text) : Prop :=
  ∀ q ∈ roots, ∀ r ∈ roots, q ≠ [] → r ≠ [] → normalParts q <+: normalParts r →
    Sees (normalParts q) (normalParts r)

instance (roots : List Text) : Decidable (Unhidden roots) :=
  inferInstanceAs (Decidable (∀ q ∈ roots, ∀ r ∈ roots, q ≠ [] → r ≠ [] →
    normalParts q <+: normalParts r → Sees (normalParts q) (normalParts r)))

/-- What is visible from the roots together is visible from one of them alone. -/
theorem exists_of_isUnderRoots (h : isUnderRoots path roots = true) :
    ∃ r ∈ roots, isUnderRoots path [r] = true := by
  obtain ⟨dir, name, hparts, r, hr, hsees⟩ := isUnderRoots_iff.1 h
  obtain ⟨hmem, hne⟩ := mem_of_firstRoot? hr
  exact ⟨r, hmem, isUnderRoots_singleton_iff.2 ⟨hne, dir, name, hparts, hsees⟩⟩

/-- If the roots are in view, what is visible from one of them is visible from all together. -/
theorem InView.isUnderRoots (hroots : InView roots) (hr : r ∈ roots)
    (h : isUnderRoots path [r] = true) : isUnderRoots path roots = true := by
  obtain ⟨hne, dir, name, hparts, hsees⟩ := isUnderRoots_singleton_iff.1 h
  obtain ⟨q, hq⟩ := exists_firstRoot? hr hne hsees.1
  refine (isUnderRoots_of_parts hparts).2 ⟨q, hq, ?_⟩
  obtain ⟨habove, before, after, hcut, hbefore⟩ := firstRoot?_eq_some_iff.1 hq
  rcases List.prefix_or_prefix_of_prefix habove hsees.1 with hqr | hrq
  -- the first root above the path is the first one above the other root, and sees it
  · have hfirst : firstRoot? roots (normalParts r) = some q := by
      refine firstRoot?_eq_some_iff.2 ⟨hqr, before, after, hcut, fun o ho hor => ?_⟩
      exact hbefore o ho (hor.trans hsees.1)
    obtain ⟨q', hq', hsees'⟩ := hroots r hr hne
    obtain rfl := Option.some.inj (hfirst.symm.trans hq')
    exact hsees'.trans hsees
  -- the first root stands below the other one
  · exact hsees.from_below hrq habove

/-- A file that stands in a root itself is visible from it, so the root has to be in view. -/
theorem inView_of_forall
    (h : ∀ r ∈ roots, ∀ path, isUnderRoots path [r] = true → isUnderRoots path roots = true) :
    InView roots := by
  intro r hr hne
  obtain ⟨path, hpath⟩ := exists_normalParts_concat hne
  have hone : isUnderRoots path [r] = true :=
    isUnderRoots_singleton_iff.2 ⟨hne, _, _, hpath, .refl _⟩
  exact (isUnderRoots_of_parts hpath).1 (h r hr path hone)

theorem Unhidden.inView {other : List Text} (h : Unhidden roots) (hperm : other.Perm roots) :
    InView other := by
  intro r hr hne
  obtain ⟨q, hq⟩ := exists_firstRoot? hr hne (List.prefix_refl _)
  obtain ⟨hmem, hqne⟩ := mem_of_firstRoot? hq
  have habove := (firstRoot?_eq_some_iff.1 hq).1
  exact ⟨q, hq, h q (hperm.mem_iff.1 hmem) r (hperm.mem_iff.1 hr) hqne hne habove⟩

/-- A root that comes first decides about the files in a root below it. -/
theorem unhidden_of_forall
    (h : ∀ other, other.Perm roots → ∀ path, isUnderRoots path other = isUnderRoots path roots) :
    Unhidden roots := by
  intro q hq r hr hqne hrne habove
  obtain ⟨path, hpath⟩ := exists_normalParts_concat hrne
  have hseen : isUnderRoots path (r :: roots.erase r) = true :=
    (isUnderRoots_of_parts hpath).2
      ⟨r, firstRoot?_cons hrne (List.prefix_refl _) _, .refl _⟩
  rw [h _ (List.perm_cons_erase hr).symm, ← h _ (List.perm_cons_erase hq).symm,
    isUnderRoots_of_parts hpath, firstRoot?_cons hqne habove] at hseen
  obtain ⟨q', hq', hsees⟩ := hseen
  obtain rfl := Option.some.inj hq'
  exact hsees

/-- The roots show together what they show one by one, and a further root takes nothing away,
exactly if each root is seen from the first one at or above it. Their order does not matter exactly
if each is seen from every root at or above it. -/
theorem roots_decide_alone_iff (roots : List Text) :
    ((∀ path, isUnderRoots path roots = true ↔ ∃ r ∈ roots, isUnderRoots path [r] = true) ↔
      InView roots) ∧
    ((∀ fewer, fewer ⊆ roots → ∀ path, isUnderRoots path fewer = true →
      isUnderRoots path roots = true) ↔ InView roots) ∧
    ((∀ other, other.Perm roots → ∀ path, isUnderRoots path other = isUnderRoots path roots) ↔
      Unhidden roots) := by
  have halone : InView roots → ∀ path, isUnderRoots path roots = true ↔
      ∃ r ∈ roots, isUnderRoots path [r] = true := by
    intro hview path
    exact ⟨exists_of_isUnderRoots, fun ⟨r, hr, hone⟩ => hview.isUnderRoots hr hone⟩
  refine ⟨⟨fun h => ?_, halone⟩, ⟨fun h => ?_, fun hview fewer hfewer path hpath => ?_⟩,
    unhidden_of_forall, fun hunhidden other hperm path => ?_⟩
  · exact inView_of_forall fun r hr path hone => (h path).2 ⟨r, hr, hone⟩
  · exact inView_of_forall fun r hr => h [r] (by simpa using hr)
  · obtain ⟨r, hr, hone⟩ := exists_of_isUnderRoots hpath
    exact hview.isUnderRoots (hfewer hr) hone
  · have hview := hunhidden.inView (List.Perm.refl roots)
    have hother := hunhidden.inView hperm
    rw [Bool.eq_iff_iff, halone hview]
    constructor
    · intro hpath
      obtain ⟨r, hr, hone⟩ := exists_of_isUnderRoots hpath
      exact ⟨r, hperm.mem_iff.1 hr, hone⟩
    · rintro ⟨r, hr, hone⟩
      exact hother.isUnderRoots (hperm.mem_iff.2 hr) hone

/-- A root in another one, and one that is hidden below nothing. -/
def toolboxRoots : List Text :=
  ["/opt/toolbox".toList, "/opt/toolbox/signal/".toList, "/srv/private".toList]

theorem toolboxRoots_decide_alone :
    (InView toolboxRoots ∧ Unhidden toolboxRoots) ∧
    (∀ path, isUnderRoots path toolboxRoots = true ↔
      ∃ r ∈ toolboxRoots, isUnderRoots path [r] = true) ∧
    ∀ other, other.Perm toolboxRoots → ∀ path,
      isUnderRoots path other = isUnderRoots path toolboxRoots := by
  have hview : InView toolboxRoots := by decide +kernel
  have hunhidden : Unhidden toolboxRoots := by decide +kernel
  obtain ⟨halone, -, horder⟩ := roots_decide_alone_iff toolboxRoots
  exact ⟨⟨hview, hunhidden⟩, halone.2 hview, horder.2 hunhidden⟩

/-- A root that is hidden below another one shows its files only if it comes first. -/
theorem hiddenRoot_overruled :
    isUnderRoots "/opt/toolbox/private/f.m".toList
      ["/opt/toolbox".toList, "/opt/toolbox/private".toList] = false ∧
    isUnderRoots "/opt/toolbox/private/f.m".toList ["/opt/toolbox/private".toList] = true ∧
    isUnderRoots "/opt/toolbox/private/f.m".toList
      ["/opt/toolbox/private".toList, "/opt/toolbox".toList] = true := by
  decide +kernel

end Together

section Below

/-- Whether a path lies below a root when both are read from a directory. -/
def LiesBelow (c root path : Text) : Prop :=
  placed c root <+: placed c path ∧ placed c root ≠ placed c path

instance (c root path : Text) : Decidable (LiesBelow c root path) :=
  inferInstanceAs (Decidable (placed c root <+: placed c path ∧ placed c root ≠ placed c path))

theorem liesBelow_of_eq_append {c root path part : Text} {rest : List Text}
    (h : placed c path = placed c root ++ part :: rest) : LiesBelow c root path := by
  rw [LiesBelow, h]
  exact ⟨List.prefix_append _ _, by simp⟩

variable {root path part : Text} {rest : List Text}

/-- A relative path has no absolute root above it. -/
theorem isAbsolute_of_root (hr : (ofText root).isAbsolute = true)
    (h : normalParts root <+: normalParts path) : (ofText path).isAbsolute = true := by
  by_contra hp
  rw [Bool.not_eq_true] at hp
  rw [normalParts_of_isAbsolute hr, normalParts_of_relative hp] at h
  exact slash_not_mem_normal (h.subset List.mem_cons_self) (slash_mem_root hr)

/-- Absolute paths are the same from everywhere. -/
theorem liesBelow_of_absolute (hr : (ofText root).isAbsolute = true)
    (hp : (ofText path).isAbsolute = true)
    (h : normalParts path = normalParts root ++ part :: rest) (c : Text) :
    LiesBelow c root path := by
  have hplaced : placed c path = placed c root ++ part :: rest := by
    rw [placed_of_isAbsolute hr, placed_of_isAbsolute hp, h]
  exact liesBelow_of_eq_append hplaced

/-- Names that go on from a relative root do so from everywhere. -/
theorem liesBelow_of_relative (hr : (ofText root).isAbsolute = false)
    (hp : (ofText path).isAbsolute = false)
    (h : normalParts path = normalParts root ++ part :: rest) (hpart : part ≠ up) {c : Text}
    (hc : (ofText c).isAbsolute = true) : LiesBelow c root path := by
  have hups := upsFirst_normalParts hp
  rw [h, List.reverse_append, UpsFirst, List.pairwise_append, List.pairwise_reverse] at hups
  have hnames : up ∉ (part :: rest).reverse := by
    rw [List.mem_reverse, List.mem_cons, not_or]
    exact ⟨Ne.symm hpart, fun hmem => hpart ((List.pairwise_cons.1 hups.1).1 up hmem rfl)⟩
  have hplaced : placed c path = placed c root ++ part :: rest := by
    rw [placed_of_relative hc hp, placed_of_relative hc hr, h, List.reverse_append,
      reached_append hnames, List.reverse_append, List.reverse_reverse, List.cons_append]
  exact liesBelow_of_eq_append hplaced

/-- An absolute path does not lie below a relative root from a directory that is deep enough. -/
theorem exists_not_liesBelow_of_absolute (hr : (ofText root).isAbsolute = false)
    (hp : (ofText path).isAbsolute = true) :
    ∃ c, (ofText c).isAbsolute = true ∧ ¬ LiesBelow c root path := by
  have hname : FileTree.IsName "x".toList := by decide
  refine ⟨deep ((normalParts path).length + (normalParts root).length) "x".toList,
    isAbsolute_deep hname _, ?_⟩
  rintro ⟨habove, -⟩
  have hle := habove.length_le
  have hreached := length_le_reached
    (List.replicate ((normalParts path).length + (normalParts root).length) "x".toList)
    (normalParts root).reverse
  rw [placed_of_isAbsolute hp, placed_deep hname (by decide) hr, List.length_cons,
    List.length_reverse] at hle
  rw [List.length_replicate, List.length_reverse] at hreached
  omega

/-- A path that goes up from a relative root does not lie below it from everywhere. -/
theorem exists_not_liesBelow_of_up (hr : (ofText root).isAbsolute = false)
    (hp : (ofText path).isAbsolute = false)
    (h : normalParts path = normalParts root ++ up :: rest) :
    ∃ c, (ofText c).isAbsolute = true ∧ ¬ LiesBelow c root path := by
  have hups := upsFirst_normalParts hp
  rw [h, List.reverse_append, UpsFirst, List.pairwise_append] at hups
  have hroot : ∀ t ∈ (normalParts root).reverse, t = up :=
    fun t ht => hups.2.2 up (by simp) t ht rfl
  -- from one step below the top the root is that step, and the path leads to names of its own
  have hfirst : ∀ name, FileTree.IsName name → name ≠ up →
      LiesBelow (deep ((normalParts root).length + 1) name) root path →
      ((normalParts path).reverse.takeWhile (· != up)).getLast? = some name := by
    intro name hname hup hbelow
    have hplaced : placed (deep ((normalParts root).length + 1) name) root =
        "/".toList :: [name] := by
      rw [placed_deep hname hup hr, reached_of_forall_up hroot, List.drop_replicate,
        List.length_reverse, Nat.add_sub_cancel_left]
      rfl
    have hplaced' : placed (deep ((normalParts root).length + 1) name) path =
        "/".toList :: ((normalParts path).reverse.takeWhile (· != up)).reverse := by
      rw [placed_deep hname hup hp, h, List.reverse_append, List.reverse_cons, List.append_assoc,
        List.singleton_append, reached_of_length_le _ (by simp)]
    rw [LiesBelow, hplaced, hplaced', List.cons_prefix_cons] at hbelow
    obtain ⟨u, hu⟩ := hbelow.1.2
    rw [← List.head?_reverse, ← hu]
    rfl
  by_contra hnone
  have hall : ∀ name, FileTree.IsName name →
      LiesBelow (deep ((normalParts root).length + 1) name) root path := by
    intro name hname
    by_contra hnot
    exact hnone ⟨_, isAbsolute_deep hname _, hnot⟩
  have hx := hfirst "x".toList (by decide) (by decide) (hall _ (by decide))
  have hy := hfirst "y".toList (by decide) (by decide) (hall _ (by decide))
  exact absurd (hx.symm.trans hy) (by decide)

/-- A path that passes for one below a root lies below it from every working directory exactly if
both are absolute or both relative, and the path does not go on from the root with a step back
up. -/
theorem below_everywhere_iff (path root : Text) (h : isUnderRoots path [root] = true) :
    (∀ c, (ofText c).isAbsolute = true → LiesBelow c root path) ↔
      (ofText root).isAbsolute = (ofText path).isAbsolute ∧
        ¬ normalParts root ++ [up] <+: normalParts path := by
  obtain ⟨-, dir, name, hparts, habove, -⟩ := isUnderRoots_singleton_iff.1 h
  obtain ⟨part, rest, hpath⟩ :
      ∃ part rest, normalParts path = normalParts root ++ part :: rest := by
    obtain ⟨u, rfl⟩ := habove
    obtain ⟨part, rest, hrest⟩ := List.exists_cons_of_ne_nil (List.concat_ne_nil name u)
    exact ⟨part, rest, by rw [hparts, List.append_assoc, hrest]⟩
  have hgoes : normalParts root ++ [up] <+: normalParts path ↔ part = up := by
    rw [hpath, List.prefix_append_right_inj]
    simp [eq_comm]
  rw [hgoes]
  cases hr : (ofText root).isAbsolute with
  | true =>
    have hp := isAbsolute_of_root hr (hpath ▸ List.prefix_append _ _)
    have hup : part ≠ up := by
      rintro rfl
      exact up_not_mem_normalParts hp (by simp [hpath])
    exact ⟨fun _ => ⟨hp.symm, hup⟩, fun _ c _ => liesBelow_of_absolute hr hp hpath c⟩
  | false =>
    cases hp : (ofText path).isAbsolute with
    | true =>
      obtain ⟨c, hc, hnot⟩ := exists_not_liesBelow_of_absolute hr hp
      exact ⟨fun hall => absurd (hall c hc) hnot, fun hcond => absurd hcond.1 (by decide)⟩
    | false =>
      refine ⟨fun hall => ⟨rfl, ?_⟩, fun hcond c hc => liesBelow_of_relative hr hp hpath hcond.2 hc⟩
      rintro rfl
      obtain ⟨c, hc, hnot⟩ := exists_not_liesBelow_of_up hr hp hpath
      exact hnot (hall c hc)

/-- A relative root with a name in it, and a file below. -/
theorem siblingRoot_below_everywhere :
    isUnderRoots ".././lib//signal/sin.m".toList ["../lib".toList] = true ∧
    ∀ c, (ofText c).isAbsolute = true →
      LiesBelow c "../lib".toList ".././lib//signal/sin.m".toList := by
  have h : isUnderRoots ".././lib//signal/sin.m".toList ["../lib".toList] = true := by
    decide +kernel
  exact ⟨h, (below_everywhere_iff _ _ h).2 (by decide +kernel)⟩

/-- A file beside the working directory passes for one below it. -/
theorem fileBeside_passes_for_below :
    isUnderRoots "../x.m".toList [".".toList] = true ∧
    (ofText "/work".toList).isAbsolute = true ∧
    ¬ LiesBelow "/work".toList ".".toList "../x.m".toList := by
  decide +kernel

end Below

end Path
end MatlabOutline
