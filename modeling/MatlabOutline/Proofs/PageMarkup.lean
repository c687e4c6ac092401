import MatlabOutline.Proofs.Nesting
import MatlabOutline.Proofs.WrittenPages

/-! The markup of a page, as a reader finds it in the text of the page. Texts are escaped wherever
they are put into a page, so they add no tags: where code is shown plainly, the tags depend only on
the shape of what is shown. The functions of a file have one heading each, in pre-order, and only
those at the top level show their source. -/
namespace MatlabOutline
open Text

namespace Html

/-- Where a reader of a page stands: in text, in a tag, or in the quoted value of an attribute. Of a
tag, what has been read so far is kept, without the values. -/
inductive Reading where
  | text
  | tag (soFar : Text)
  | value (soFar : Text)
  deriving DecidableEq, Repr

/-- The tags that a reader meets from here on. -/
def tagsFrom : Reading → Text → List Text
  | _, [] => []
  | .text, c :: t => if c = '<' then tagsFrom (.tag ['<']) t else tagsFrom .text t
  | .tag r, c :: t =>
    if c = '>' then (r ++ ['>']) :: tagsFrom .text t
    else if c = '"' then tagsFrom (.value (r ++ ['"'])) t
    else tagsFrom (.tag (r ++ [c])) t
  | .value r, c :: t => if c = '"' then tagsFrom (.tag (r ++ ['"'])) t else tagsFrom (.value r) t

/-- The tags of a page in order, each from its opening bracket to its closing one, with the quoted
values of attributes left blank. -/
def tags (page : Text) : List Text := tagsFrom .text page

theorem tagsFrom_text {u : Text} (hu : '<' ∉ u) (v : Text) :
    tagsFrom .text (u ++ v) = tagsFrom .text v := by
  induction u with
  | nil => rfl
  | cons c u ih =>
    obtain ⟨hc, hu⟩ := not_or.1 (List.mem_cons.not.1 hu)
    rw [List.cons_append, tagsFrom, if_neg (Ne.symm hc), ih hu]

theorem tagsFrom_value {u : Text} (hu : '"' ∉ u) (r v : Text) :
    tagsFrom (.value r) (u ++ v) = tagsFrom (.value r) v := by
  induction u with
  | nil => rfl
  | cons c u ih =>
    obtain ⟨hc, hu⟩ := not_or.1 (List.mem_cons.not.1 hu)
    rw [List.cons_append, tagsFrom, if_neg (Ne.symm hc), ih hu]

/-- Where a reader stands after a text. -/
def readThrough : Reading → Text → Reading
  | r, [] => r
  | .text, c :: t => if c = '<' then readThrough (.tag ['<']) t else readThrough .text t
  | .tag r, c :: t =>
    if c = '>' then readThrough .text t
    else if c = '"' then readThrough (.value (r ++ ['"'])) t
    else readThrough (.tag (r ++ [c])) t
  | .value r, c :: t =>
    if c = '"' then readThrough (.tag (r ++ ['"'])) t else readThrough (.value r) t

theorem tagsFrom_append (r : Reading) (u v : Text) :
    tagsFrom r (u ++ v) = tagsFrom r u ++ tagsFrom (readThrough r u) v := by
  fun_induction readThrough r u <;> simp_all [tagsFrom]

theorem readThrough_append (r : Reading) (u v : Text) :
    readThrough r (u ++ v) = readThrough (readThrough r u) v := by
  fun_induction readThrough r u <;> simp_all [readThrough]

theorem readThrough_text {u : Text} (hu : '<' ∉ u) : readThrough .text u = .text := by
  induction u with
  | nil => rfl
  | cons c u ih =>
    obtain ⟨hc, hu⟩ := not_or.1 (List.mem_cons.not.1 hu)
    rw [readThrough, if_neg (Ne.symm hc), ih hu]

/-- An escaped text opens no tag. -/
theorem lt_not_mem_escape (t : Text) : '<' ∉ escape t := fun h => (mem_escape h).1 rfl

/-- Whether a text neither ends a tag nor opens a value. The names of elements and of attributes are
of this kind. -/
def isPlain (t : Text) : Bool := t.all fun c => c != '>' && c != '"'

theorem tagsFrom_tag {u : Text} (hu : isPlain u = true) (r v : Text) :
    tagsFrom (.tag r) (u ++ v) = tagsFrom (.tag (r ++ u)) v := by
  induction u generalizing r with
  | nil => rw [List.append_nil]; rfl
  | cons c u ih =>
    simp only [isPlain, List.all_cons, Bool.and_eq_true, bne_iff_ne] at hu
    obtain ⟨⟨hclose, hquote⟩, hu⟩ := hu
    rw [List.cons_append, tagsFrom, if_neg hclose, if_neg hquote, ih hu, List.append_assoc]
    rfl

namespace Piece

/-- Whether the names in a piece are plain, and raw markup ends outside of its tags. -/
def isTidy : Piece → Bool
  | opening element none => isPlain element
  | opening element (some (key, _)) => isPlain element && isPlain key
  | closing element => isPlain element
  | raw markup => readThrough .text markup = .text
  | _ => true

/-- The tag that a piece is, if it is one, or the tags in raw markup. -/
def tags : Piece → List Text
  | opening element none => ['<' :: element ++ ['>']]
  | opening element (some (key, _)) => ['<' :: element ++ ' ' :: key ++ "=\"\">".toList]
  | closing element => ['<' :: '/' :: element ++ ['>']]
  | raw markup => Html.tags markup
  | _ => []

/-- A piece is read as the tag that it is, whatever texts it holds. -/
theorem tagsFrom_render {p : Piece} (hp : p.isTidy = true) (v : Text) :
    tagsFrom .text (p.render ++ v) = p.tags ++ tagsFrom .text v := by
  have hopen : ∀ {r : Text} (w : Text), isPlain r = true →
      tagsFrom .text ('<' :: r ++ w) = tagsFrom (.tag ('<' :: r)) w :=
    fun w hr => tagsFrom_tag hr ['<'] w
  cases p with
  | opening element attr =>
    rcases attr with _ | ⟨key, value⟩
    · have hcut : render (opening element none) ++ v = '<' :: element ++ '>' :: v := by
        simp [render]
      rw [hcut, hopen _ hp]
      rfl
    · obtain ⟨helement, hkey⟩ := Bool.and_eq_true_iff.1 hp
      have hcut : render (opening element (some (key, value))) ++ v =
          '<' :: element ++
            ((' ' :: key ++ ['=']) ++ '"' :: (escape value ++ '"' :: '>' :: v)) := by
        simp [render]
      have hplain : isPlain (' ' :: key ++ ['=']) = true := by
        rw [isPlain, List.all_append, Bool.and_eq_true]
        exact ⟨hkey, rfl⟩
      have hvalue : '"' ∉ escape value := fun h => (mem_escape h).2.2.1 rfl
      rw [hcut, hopen _ helement, tagsFrom_tag hplain, tagsFrom, if_neg (by decide), if_pos rfl,
        tagsFrom_value hvalue]
      simp [tagsFrom, tags]
  | closing element =>
    have hcut : render (closing element) ++ v = '<' :: ('/' :: element) ++ '>' :: v := by
      simp [render]
    have hplain : isPlain ('/' :: element) = true := hp
    rw [hcut, hopen _ hplain]
    rfl
  | text t => exact tagsFrom_text (lt_not_mem_escape t) v
  | newline => rfl
  | raw markup =>
    have hend : readThrough .text markup = .text := of_decide_eq_true hp
    have happend := tagsFrom_append .text markup v
    rwa [hend] at happend

end Piece

/-- The tags of markup, piece by piece. -/
def markupTags (m : Markup) : List Text := m.flatMap Piece.tags

/-- Whether all pieces of markup are tidy. -/
def isTidy (m : Markup) : Bool := m.all Piece.isTidy

section Markup

/-- The tags in the text of a page are those of its pieces. -/
theorem tags_render {m : Markup} (hm : isTidy m = true) : tags (render m) = markupTags m := by
  induction m with
  | nil => rfl
  | cons p m ih =>
    obtain ⟨hp, hm⟩ := Bool.and_eq_true_iff.1 hm
    have hrender : render (p :: m) = p.render ++ render m := rfl
    rw [tags, hrender, Piece.tagsFrom_render hp]
    exact congrArg (p.tags ++ ·) (ih hm)

example : tags (render [.opening "h3".toList (some ("id".toList, "\">".toList)),
    .text "a < b".toList, .closing "h3".toList]) = ["<h3 id=\"\">".toList, "</h3>".toList] := by
  decide

@[simp] theorem markupTags_append (m n : Markup) :
    markupTags (m ++ n) = markupTags m ++ markupTags n := List.flatMap_append

@[simp] theorem isTidy_append (m n : Markup) : isTidy (m ++ n) = (isTidy m && isTidy n) :=
  List.all_append

theorem markupTags_joinLines (ms : List Markup) :
    markupTags (joinLines ms) = ms.flatMap markupTags := by
  induction ms with
  | nil => rfl
  | cons m ms ih =>
    cases ms with
    | nil => exact (List.append_nil _).symm
    | cons n ms =>
      have hnewline : markupTags (.newline :: joinLines (n :: ms)) =
          markupTags (joinLines (n :: ms)) := rfl
      rw [joinLines, markupTags_append, hnewline, ih]
      rfl

theorem isTidy_joinLines (ms : List Markup) : isTidy (joinLines ms) = ms.all isTidy := by
  induction ms with
  | nil => rfl
  | cons m ms ih =>
    cases ms with
    | nil => exact (Bool.and_true _).symm
    | cons n ms =>
      have hnewline : isTidy (.newline :: joinLines (n :: ms)) = isTidy (joinLines (n :: ms)) := rfl
      rw [joinLines, isTidy_append, hnewline, ih]
      rfl

end Markup

end Html

namespace Page
open Html

/-- The opening tag of the heading of a function at a depth. -/
def headingTag (depth : Nat) : Text :=
  "<h".toList ++ decimal (min (3 + depth) 6) ++ " id=\"\">".toList

/-- The closing tag of the heading of a function at a depth. -/
def headingEnd (depth : Nat) : Text := "</h".toList ++ decimal (min (3 + depth) 6) ++ ">".toList

/-- The tags of a paragraph, unless it is left out. -/
def paragraphTags (empty : Bool) : List Text := if empty then [] else ["<p>".toList, "</p>".toList]

/-- Which paragraphs of an article are left out: the returned values, and the description. -/
def omitted (a : Article) : Bool × Bool := (a.returns.isEmpty, a.docstring.isEmpty)

/-- The tags of an article without its source. -/
def leadTags (depth : Nat) (o : Bool × Bool) : List Text :=
  [headingTag depth, headingEnd depth] ++ paragraphTags o.1 ++ paragraphTags o.2

/-- The tags of an article. -/
def articleTags (depth : Nat) (a : Article) : List Text :=
  leadTags depth (omitted a) ++
    if depth = 0 ∧ a.source ≠ [] then ["<pre>".toList, "</pre>".toList] else []

section Articles

theorem heading_cases (depth : Nat) :
    decimal (min (3 + depth) 6) = ['3'] ∨ decimal (min (3 + depth) 6) = ['4'] ∨
      decimal (min (3 + depth) 6) = ['5'] ∨ decimal (min (3 + depth) 6) = ['6'] := by
  rcases depth with _ | _ | _ | n
  · exact .inl rfl
  · exact .inr (.inl rfl)
  · exact .inr (.inr (.inl rfl))
  · have hlevel : min (3 + ((n + 1 + 1 + 1 : Nat) : Int)) 6 = 6 := by omega
    rw [hlevel]
    exact .inr (.inr (.inr rfl))

/-- A line that is left out has no tags. -/
theorem flatMap_ite (b : Bool) (m : Markup) :
    (if b then [] else [m]).flatMap markupTags = if b then [] else markupTags m := by
  cases b
  · exact List.append_nil _
  · rfl

/-- Code that is shown plainly stands in one element, and adds no tags of its own. -/
theorem plainCode_eq (code : Text) :
    plainCode code = "<pre>".toList ++ (escape code ++ "</pre>\n".toList) := rfl

theorem tags_plainCode (code : Text) :
    tags (plainCode code) = ["<pre>".toList, "</pre>".toList] := by
  have hopen : readThrough .text "<pre>".toList = .text := rfl
  rw [plainCode_eq, tags, tagsFrom_append, hopen, tagsFrom_text (lt_not_mem_escape code)]
  rfl

theorem readThrough_plainCode (code : Text) : readThrough .text (plainCode code) = .text := by
  have hopen : readThrough .text "<pre>".toList = .text := rfl
  rw [plainCode_eq, readThrough_append, hopen, readThrough_append,
    readThrough_text (lt_not_mem_escape code)]
  rfl

theorem markupTags_heading (depth : Nat) (name sig : Text) :
    markupTags [.opening ('h' :: decimal (min (topLevel + depth) 6)) (some ("id".toList, name)),
      .text sig, .closing ('h' :: decimal (min (topLevel + depth) 6))] =
      [headingTag depth, headingEnd depth] := by
  simp [markupTags, Piece.tags, headingTag, headingEnd, topLevel]

theorem flatMap_articleLines (depth : Nat) (a : Article) :
    (articleLines (topLevel + depth) a plainCode).flatMap markupTags = articleTags depth a := by
  have hsource : (a.source.isEmpty || topLevel + (depth : Int) != topLevel) =
      !decide (depth = 0 ∧ a.source ≠ []) := by
    have htop : topLevel + (depth : Int) = topLevel ↔ depth = 0 := by omega
    rw [Bool.eq_iff_iff]
    simp only [Bool.or_eq_true, List.isEmpty_iff, bne_iff_ne, ne_eq, htop, Bool.not_eq_true',
      decide_eq_false_iff_not]
    tauto
  have hpre : (if !decide (depth = 0 ∧ a.source ≠ []) then []
      else markupTags [.raw (plainCode a.source)]) =
        if depth = 0 ∧ a.source ≠ [] then ["<pre>".toList, "</pre>".toList] else [] := by
    have hraw : markupTags [.raw (plainCode a.source)] = ["<pre>".toList, "</pre>".toList] :=
      (List.append_nil _).trans (tags_plainCode a.source)
    simp only [Bool.not_eq_true', decide_eq_false_iff_not, ite_not, hraw]
  rw [articleLines, hsource]
  simp only [List.flatMap_append, flatMap_ite, hpre, List.flatMap_cons, List.flatMap_nil,
    markupTags_heading]
  rfl

theorem flatMap_articlesLines (depth : Nat) (f : Forest Article) :
    (articlesLines (topLevel + depth) f plainCode).flatMap markupTags =
      (f.withDepths depth).flatMap fun e => articleTags e.1 e.2 := by
  induction f generalizing depth with
  | nil => rfl
  | node a cs fs hc hf =>
    have hlevel : topLevel + depth + 1 = topLevel + ((depth + 1 : Nat) : Int) := by omega
    simp only [articlesLines, Forest.withDepths, List.flatMap_append, List.flatMap_cons,
      flatMap_articleLines, hlevel, hc, hf, List.append_assoc]

theorem isTidy_articleLines (depth : Nat) (a : Article) :
    (articleLines (topLevel + depth) a plainCode).all isTidy = true := by
  have hheading : isPlain ('h' :: decimal (min (topLevel + depth) 6)) = true := by
    change isPlain ('h' :: decimal (min (3 + depth) 6)) = true
    rcases heading_cases depth with h | h | h | h <;> rw [h] <;> rfl
  have hone : ∀ (b : Bool) (m : Markup), isTidy m = true →
      (if b then [] else [m]).all isTidy = true := by
    intro b m hm
    cases b
    · exact Bool.and_eq_true_iff.2 ⟨hm, rfl⟩
    · rfl
  simp only [articleLines, List.all_append, Bool.and_eq_true]
  have hraw : isTidy [.raw (plainCode a.source)] = true :=
    Bool.and_eq_true_iff.2 ⟨decide_eq_true (readThrough_plainCode a.source), rfl⟩
  refine ⟨⟨⟨?_, hone _ _ rfl⟩, hone _ _ rfl⟩, hone _ _ hraw⟩
  simp only [isTidy, Piece.isTidy, List.all_cons, List.all_nil, hheading]
  rfl

theorem isTidy_articlesLines (depth : Nat) (f : Forest Article) :
    (articlesLines (topLevel + depth) f plainCode).all isTidy = true := by
  induction f generalizing depth with
  | nil => rfl
  | node a cs fs hc hf =>
    have hlevel : topLevel + depth + 1 = topLevel + ((depth + 1 : Nat) : Int) := by omega
    rw [articlesLines, hlevel, List.all_append, List.all_append, isTidy_articleLines, hc, hf]
    rfl

end Articles

section Frames

/-- The tags of one link. -/
def linkTags : List Text := ["<li>".toList, "<a href=\"\">".toList, "</a>".toList, "</li>".toList]

/-- The tags of a page before its links. -/
def tagsBefore : List Text :=
  ["<!DOCTYPE html>".toList, "<html>".toList, "<head>".toList, "<meta charset=\"\">".toList,
    "<title>".toList, "</title>".toList, "<style>".toList, "</style>".toList, "</head>".toList,
    "<body>".toList, "<nav>".toList, "<ul>".toList]

/-- The tags of a page between its links and its body. -/
def tagsBetween : List Text :=
  ["</ul>".toList, "</nav>".toList, "<main>".toList, "<h1>".toList, "</h1>".toList]

/-- The tags of a page after its body. -/
def tagsAfter : List Text := ["</main>".toList, "</body>".toList, "</html>".toList]

theorem markupTags_navigation (links : List Link) :
    markupTags (navigation links) = (List.replicate links.length linkTags).flatten := by
  rw [navigation, markupTags_joinLines]
  induction links with
  | nil => rfl
  | cons l links ih =>
    rw [List.map_cons, List.flatMap_cons, ih, List.length_cons, List.replicate_succ,
      List.flatten_cons]
    rfl

theorem isTidy_navigation (links : List Link) : isTidy (navigation links) = true := by
  rw [navigation, isTidy_joinLines, List.all_map, List.all_eq_true]
  intro l _
  rfl

theorem markupTags_frame (title : Text) (nav body : Markup) :
    markupTags (frame title nav body) =
      tagsBefore ++ markupTags nav ++ tagsBetween ++ markupTags body ++ tagsAfter := by
  rw [frame, markupTags_joinLines]
  simp only [List.flatMap_cons, List.flatMap_nil, List.append_assoc]
  rfl

theorem isTidy_frame (title : Text) (nav body : Markup) :
    isTidy (frame title nav body) = (isTidy nav && isTidy body) := by
  have hlines : isTidy (frame title nav body) = (isTidy nav && (isTidy body && true)) := by
    rw [frame, isTidy_joinLines]
    rfl
  rw [hlines, Bool.and_true]

/-- The tags above the functions of a page: a heading, or a paragraph that says there are none. -/
def sectionTags {α : Type} : Forest α → List Text
  | .nil => ["<p>".toList, "</p>".toList]
  | .node .. => ["<h2>".toList, "</h2>".toList]

/-- The tags in the text of the page for a file. -/
theorem tags_file (c : Contents) (links : List Link) :
    tags (render (file c links plainCode)) =
      tagsBefore ++ (List.replicate links.length linkTags).flatten ++ tagsBetween ++
        (paragraphTags c.header.isEmpty ++ sectionTags c.functions ++
          (c.functions.withDepths 0).flatMap fun e => articleTags e.1 e.2) ++ tagsAfter := by
  have hlevel : topLevel = topLevel + ((0 : Nat) : Int) := rfl
  have htidy : isTidy (file c links plainCode) = true := by
    rw [file, isTidy_frame, isTidy_navigation, isTidy_joinLines, bodyLines, hlevel,
      List.all_append, List.all_append, isTidy_articlesLines]
    cases c.header.isEmpty <;> cases c.functions <;> rfl
  rw [tags_render htidy, file, markupTags_frame, markupTags_navigation, markupTags_joinLines,
    bodyLines, List.flatMap_append, List.flatMap_append, flatMap_ite, hlevel,
    flatMap_articlesLines]
  cases c.functions <;> rfl

end Frames

section Shapes

/-- Below the top level the tags of the articles depend only on what is left out. -/
theorem flatMap_articleTags_nested (depth : Nat) (f : Forest Article) :
    (f.withDepths (depth + 1)).flatMap (fun e => articleTags e.1 e.2) =
      ((f.map omitted).withDepths (depth + 1)).flatMap fun e => leadTags e.1 e.2 := by
  induction f generalizing depth with
  | nil => rfl
  | node a cs fs hc hf =>
    have harticle : articleTags (depth + 1) a = leadTags (depth + 1) (omitted a) := by
      rw [articleTags, if_neg (fun h => Nat.succ_ne_zero depth h.1), List.append_nil]
    simp only [Forest.map, Forest.withDepths, List.flatMap_cons, List.flatMap_append, hc, hf,
      harticle]

/-- At the top level they depend also on which sources are empty. -/
theorem flatMap_articleTags_eq {f g : Forest Article} (homitted : f.map omitted = g.map omitted)
    (hsources : f.roots.map (fun a => a.source.isEmpty) = g.roots.map fun a => a.source.isEmpty) :
    (f.withDepths 0).flatMap (fun e => articleTags e.1 e.2) =
      (g.withDepths 0).flatMap fun e => articleTags e.1 e.2 := by
  induction f generalizing g with
  | nil =>
    cases g with
    | nil => rfl
    | node b ds gs => cases homitted
  | node a cs fs _ hf =>
    cases g with
    | nil => cases homitted
    | node b ds gs =>
      simp only [Forest.map, Forest.node.injEq] at homitted
      obtain ⟨hroot, hchildren, hothers⟩ := homitted
      simp only [Forest.roots, List.map_cons, List.cons.injEq] at hsources
      obtain ⟨hsource, hsources⟩ := hsources
      have harticle : articleTags 0 a = articleTags 0 b := by
        have hempty : a.source ≠ [] ↔ b.source ≠ [] := by
          rw [Bool.eq_iff_iff, List.isEmpty_iff, List.isEmpty_iff] at hsource
          exact hsource.not
        rw [articleTags, articleTags, hroot]
        simp only [hempty]
      simp only [Forest.withDepths, List.flatMap_cons, List.flatMap_append,
        flatMap_articleTags_nested, harticle, hchildren, hf hothers hsources]

end Shapes

section Headings

/-- An opening tag of a heading. -/
def isHeading : Text → Bool
  | '<' :: 'h' :: c :: _ => c.isDigit
  | _ => false

/-- An opening tag of a heading or of a source. -/
def isLandmark (t : Text) : Bool := isHeading t || t == "<pre>".toList

/-- The landmarks of an article with the given source. -/
def landmarks (depth : Nat) (source : Text) : List Text :=
  headingTag depth :: if depth = 0 ∧ source ≠ [] then ["<pre>".toList] else []

theorem isHeading_headingTag (depth : Nat) : isHeading (headingTag depth) = true := by
  rw [headingTag]
  rcases heading_cases depth with h | h | h | h <;> rw [h] <;> rfl

theorem filter_paragraphTags (empty : Bool) : (paragraphTags empty).filter isLandmark = [] := by
  cases empty <;> rfl

theorem filter_articleTags (depth : Nat) (a : Article) :
    (articleTags depth a).filter isLandmark = landmarks depth a.source := by
  have hopen : isLandmark (headingTag depth) = true := by
    rw [isLandmark, isHeading_headingTag]
    rfl
  have hclose : isLandmark (headingEnd depth) = false := rfl
  have hsource : (if depth = 0 ∧ a.source ≠ [] then ["<pre>".toList, "</pre>".toList]
      else []).filter isLandmark = if depth = 0 ∧ a.source ≠ [] then ["<pre>".toList] else [] := by
    split_ifs <;> rfl
  rw [articleTags, leadTags, List.filter_append, hsource, List.filter_append, List.filter_append,
    filter_paragraphTags, filter_paragraphTags, List.filter_cons_of_pos hopen,
    List.filter_cons_of_neg (by rw [hclose]; decide)]
  rfl

/-- The headings and sources of a page in order: the title, and below it the heading of the
functions and each of them, if there are any. -/
theorem filter_tags_file (c : Contents) (links : List Link) :
    (tags (render (file c links plainCode))).filter isLandmark =
      "<h1>".toList :: if c.functions = .nil then [] else
        "<h2>".toList :: (c.functions.withDepths 0).flatMap fun e => landmarks e.1 e.2.source := by
  have hlinks : (List.replicate links.length linkTags).flatten.filter isLandmark = [] := by
    have hlink : ∀ t ∈ linkTags, ¬ isLandmark t = true := by decide
    rw [List.filter_eq_nil_iff]
    intro t ht
    obtain ⟨ts, hts, htag⟩ := List.mem_flatten.1 ht
    rw [List.eq_of_mem_replicate hts] at htag
    exact hlink t htag
  have hbefore : tagsBefore.filter isLandmark = [] := rfl
  have hbetween : tagsBetween.filter isLandmark = ["<h1>".toList] := rfl
  have hafter : tagsAfter.filter isLandmark = [] := rfl
  rw [tags_file]
  simp only [List.filter_append, hlinks, hbefore, hbetween, hafter, filter_paragraphTags,
    List.filter_flatMap, filter_articleTags]
  cases c.functions with
  | nil => rfl
  | node a cs fs => exact List.append_nil _

end Headings

/-- What two pages have in common if nothing but texts differs: the number of their links, whether
there is a header, the tree of functions with what is left out of each, and which of the functions
at the top level have a source. -/
structure SameShape (links links' : List Link) (header header' : Text)
    (drafts drafts' : Forest Draft) : Prop where
  links : links.length = links'.length
  header : header.isEmpty = header'.isEmpty
  functions : drafts.map (fun d => (d.returns.isEmpty, d.docstring.isEmpty)) =
    drafts'.map fun d => (d.returns.isEmpty, d.docstring.isEmpty)
  sources : drafts.roots.map (fun d => d.source.isEmpty) =
    drafts'.roots.map fun d => d.source.isEmpty

section Drafts

variable {drafts : Forest Draft} {functions : Forest Article}

theorem parts_of_article {d : Draft} {a : Article} (h : d.article = .ok a) :
    a.returns = d.returns ∧ a.docstring = d.docstring ∧ a.source = d.source := by
  unfold Draft.article at h
  split at h
  · cases h
  · cases h
  · cases h
  · obtain rfl := Except.ok.inj h
    exact ⟨rfl, rfl, rfl⟩

/-- What an article takes over from its draft can be read off the drafts. -/
theorem map_of_mapExcept {β : Type} {f : Article → β} {g : Draft → β}
    (hfg : ∀ d a, d.article = .ok a → f a = g d)
    (h : drafts.mapExcept Draft.article = .ok functions) : functions.map f = drafts.map g := by
  induction drafts generalizing functions with
  | nil =>
    obtain rfl := Except.ok.inj h
    rfl
  | node d cs ds hc hd =>
    simp only [Forest.mapExcept, bind, Except.bind, pure, Except.pure] at h
    cases ha : d.article with
    | error e =>
      rw [ha] at h
      cases h
    | ok a =>
      cases hbs : cs.mapExcept Draft.article with
      | error e =>
        rw [ha, hbs] at h
        cases h
      | ok bs =>
        cases hgs : ds.mapExcept Draft.article with
        | error e =>
          rw [ha, hbs, hgs] at h
          cases h
        | ok gs =>
          rw [ha, hbs, hgs] at h
          obtain rfl := Except.ok.inj h
          rw [Forest.map, Forest.map, hfg d a ha, hc hbs, hd hgs]

/-- The landmarks of a page can be read off the drafts. -/
theorem filter_tags_of_drafts (h : drafts.mapExcept Draft.article = .ok functions)
    (name header : Text) (links : List Link) :
    (tags (render (file ⟨name, header, functions⟩ links plainCode))).filter isLandmark =
      "<h1>".toList :: if drafts = .nil then [] else
        "<h2>".toList :: (drafts.withDepths 0).flatMap fun e => landmarks e.1 e.2.source := by
  have hsources := map_of_mapExcept (fun d a ha => (parts_of_article ha).2.2) h
  have hnil : functions = .nil ↔ drafts = .nil := by
    cases functions <;> cases drafts <;> simp_all [Forest.map]
  have hview : ∀ {α : Type} (source : α → Text) (f : Forest α),
      (f.withDepths 0).flatMap (fun e => landmarks e.1 (source e.2)) =
        ((f.map source).withDepths 0).flatMap fun e => landmarks e.1 e.2 := by
    intro α source f
    rw [Forest.withDepths_map, List.flatMap_map]
  rw [filter_tags_file]
  simp only [hnil]
  rw [hview, hsources, ← hview]

theorem filter_isHeading_landmarks (es : List (Nat × Draft)) :
    (es.flatMap fun e => landmarks e.1 e.2.source).filter isHeading =
      es.map fun e => headingTag e.1 := by
  induction es with
  | nil => rfl
  | cons e es ih =>
    have hone : (landmarks e.1 e.2.source).filter isHeading = [headingTag e.1] := by
      rw [landmarks, List.filter_cons_of_pos (isHeading_headingTag e.1)]
      split_ifs <;> rfl
    rw [List.flatMap_cons, List.filter_append, hone, ih]
    rfl

end Drafts

end Page

namespace Site
open Html Page

/-- A page written from drafts is the page of their articles. -/
theorem exists_of_writeDraft {tree u : FileTree} {dir : Path} {links : List Link}
    {name header : Text} {drafts : Forest Draft} {highlight : Text → Text}
    (h : writeDraft tree dir links name header drafts highlight = .ok u) :
    ∃ functions, drafts.mapExcept Draft.article = .ok functions ∧
      u.read (pagePath dir name) =
        .ok (encode (render (file ⟨name, header, functions⟩ links highlight))) := by
  rw [writeDraft] at h
  split at h
  · cases h
  · rename_i t hmake
    split at h
    · cases h
    · rename_i functions harticles
      split at h
      · cases h
      · rename_i v hput
        obtain rfl := Except.ok.inj h
        exact ⟨functions, harticles, FileTree.read_written (putPage_eq_iff_write.1 hput)⟩

/-- Two pages of the same shape have the same tags, whatever texts they show. The headings are the
title and, if there are functions, the heading of their section and one for each of them in
pre-order; a source stands after the heading of a function at the top level that has one, and
nowhere else. -/
theorem markup_independent_of_text (tree tree' u u' : FileTree) (dir dir' : Path)
    (links links' : List Link) (name name' header header' : Text) (drafts drafts' : Forest Draft)
    (hwrite : writeDraft tree dir links name header drafts plainCode = .ok u)
    (hwrite' : writeDraft tree' dir' links' name' header' drafts' plainCode = .ok u')
    (hshape : SameShape links links' header header' drafts drafts') :
    ∃ page page', u.read (pagePath dir name) = .ok (encode page) ∧
      u'.read (pagePath dir' name') = .ok (encode page') ∧
      tags page = tags page' ∧
      ((tags page).filter isHeading = "<h1>".toList :: if drafts = .nil then [] else
        "<h2>".toList :: (drafts.withDepths 0).map fun e => headingTag e.1) ∧
      ((tags page).filter isLandmark = "<h1>".toList :: if drafts = .nil then [] else
        "<h2>".toList :: (drafts.withDepths 0).flatMap fun e => landmarks e.1 e.2.source) := by
  obtain ⟨functions, hfunctions, hpage⟩ := exists_of_writeDraft hwrite
  obtain ⟨functions', hfunctions', hpage'⟩ := exists_of_writeDraft hwrite'
  have hlandmarks := filter_tags_of_drafts hfunctions name header links
  refine ⟨_, _, hpage, hpage', ?_, ?_, hlandmarks⟩
  · have homitted : functions.map omitted = functions'.map omitted := by
      have hparts : ∀ d a, Draft.article d = .ok a →
          omitted a = (d.returns.isEmpty, d.docstring.isEmpty) := by
        intro d a ha
        obtain ⟨hreturns, hdocstring, -⟩ := parts_of_article ha
        rw [omitted, hreturns, hdocstring]
      rw [map_of_mapExcept hparts hfunctions, map_of_mapExcept hparts hfunctions', hshape.functions]
    have hsources : functions.roots.map (fun a => a.source.isEmpty) =
        functions'.roots.map fun a => a.source.isEmpty := by
      have hparts : ∀ d a, Draft.article d = .ok a → a.source.isEmpty = d.source.isEmpty :=
        fun d a ha => congrArg List.isEmpty (parts_of_article ha).2.2
      rw [← Forest.roots_map, ← Forest.roots_map, map_of_mapExcept hparts hfunctions,
        map_of_mapExcept hparts hfunctions', Forest.roots_map, Forest.roots_map, hshape.sources]
    have hsection : sectionTags functions = sectionTags functions' := by
      cases functions <;> cases functions' <;> first | rfl | cases homitted
    rw [tags_file, tags_file, hshape.links, hshape.header, hsection,
      flatMap_articleTags_eq homitted hsources]
  · have hheading : ∀ t, isHeading t = (isHeading t && isLandmark t) := by
      intro t
      rw [isLandmark]
      cases isHeading t <;> rfl
    have hfilter : ∀ l : List Text,
        l.filter isHeading = (l.filter isLandmark).filter isHeading := by
      intro l
      rw [List.filter_filter]
      exact List.filter_congr fun t _ => hheading t
    rw [hfilter, hlandmarks, List.filter_cons_of_pos rfl]
    split_ifs with hnil
    · rfl
    · rw [List.filter_cons_of_pos rfl, filter_isHeading_landmarks]

/-- A function with a nested one, each shown with the given texts. -/
def nestedDrafts (name description source : Text) : Forest Draft :=
  .node ⟨some name, some [], some false, [], description, source⟩
    (.node ⟨some name, some [name], some true, [name], [], source⟩ .nil .nil) .nil

def plainDrafts : Forest Draft :=
  nestedDrafts "f".toList "About f.".toList "function f".toList

def hostileDrafts : Forest Draft :=
  nestedDrafts "\"><pre>".toList "</p><h3>".toList "</pre><script>".toList

/-- Texts that look like markup add no tags to a page. -/
theorem tags_of_hostile_texts :
    let tree := FileTree.empty ["work".toList]
    let dir := Path.ofText "out".toList
    ∃ u u' page page',
      writeDraft tree dir [⟨"f".toList, "f.html".toList⟩] "f".toList "Notes".toList plainDrafts
        plainCode = .ok u ∧
      writeDraft tree dir [⟨"<a>".toList, "\">".toList⟩] "<i>".toList "<b>".toList hostileDrafts
        plainCode = .ok u' ∧
      u.read (pagePath dir "f".toList) = .ok (encode page) ∧
      u'.read (pagePath dir "<i>".toList) = .ok (encode page') ∧
      tags page = tags page' ∧
      (tags page).filter isHeading = ["<h1>".toList, "<h2>".toList, "<h3 id=\"\">".toList,
        "<h4 id=\"\">".toList] ∧
      (tags page).filter isLandmark = ["<h1>".toList, "<h2>".toList, "<h3 id=\"\">".toList,
        "<pre>".toList, "<h4 id=\"\">".toList] := by
  intro tree dir
  have hok : ∀ {x : Except DraftError FileTree}, x.isOk = true → ∃ u, x = .ok u := by
    intro x hx
    cases x with
    | error e => cases hx
    | ok u => exact ⟨u, rfl⟩
  obtain ⟨u, hwrite⟩ := hok (x := writeDraft tree dir [⟨"f".toList, "f.html".toList⟩] "f".toList
    "Notes".toList plainDrafts plainCode) (by decide +kernel)
  obtain ⟨u', hwrite'⟩ := hok (x := writeDraft tree dir [⟨"<a>".toList, "\">".toList⟩] "<i>".toList
    "<b>".toList hostileDrafts plainCode) (by decide +kernel)
  have hshape : SameShape [⟨"f".toList, "f.html".toList⟩] [⟨"<a>".toList, "\">".toList⟩]
      "Notes".toList "<b>".toList plainDrafts hostileDrafts :=
    ⟨rfl, by decide +kernel, by decide +kernel, by decide +kernel⟩
  obtain ⟨page, page', hpage, hpage', htags, hheadings, hlandmarks⟩ :=
    markup_independent_of_text tree tree u u' dir dir _ _ _ _ _ _ _ _ hwrite hwrite' hshape
  exact ⟨u, u', page, page', hwrite, hwrite', hpage, hpage', htags, hheadings, hlandmarks⟩

end Site
end MatlabOutline
