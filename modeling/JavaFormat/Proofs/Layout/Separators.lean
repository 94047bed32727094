import JavaFormat.Proofs.Layout.Delimited
import JavaFormat.Proofs.Layout.Firm

/-!
# Lists keep their separators

A list is printed anew from its named children: all tokens are left out, a separator goes
behind each item but the last, and behind the last one if the token in front of the
closing delimiter is a separator. However the lines break, that comes to as many
separators as the source has, unless there are no items: a separator that stands alone
between the delimiters, as in `{,}`, is not printed.
-/

namespace JavaFormat.Layout

open Doc

/-- Scripts of documents in their order, with a separator and a place to break behind
each but the last, `n` separators in all. -/
inductive Enumerated (separator : String) : List Doc → Nat → List Cue → Prop
  | last {d a} (ha : d.Scripts a) : Enumerated separator [d] 0 a
  | closed {d a} (ha : d.Scripts a) : Enumerated separator [d] 1 (a ++ prompt (typed separator))
  | more {d ds n a g q} (ha : d.Scripts a) (hg : g = .stop ∨ g = .gap)
    (h : Enumerated separator ds n q) :
    Enumerated separator (d :: ds) (n + 1) (a ++ (prompt (typed separator) ++ .now g :: q))

section Enumerated

variable {separator : String} {ds : List Doc} {q : List Cue}

/-- What is printed of the separator behind the last item. -/
def closingCues (separator : String) (closed : Bool) : List Cue :=
  if closed then prompt (typed separator) else []

/-- The last item, with the separator behind it if there is one. -/
theorem enumerated_singleton {d : Doc} {a : List Cue} (closed : Bool) (ha : d.Scripts a) :
    Enumerated separator [d] closed.toNat (a ++ closingCues separator closed) := by
  cases closed with
  | false => simpa [closingCues] using Enumerated.last ha
  | true => exact .closed ha

/-- One more item in front of others. -/
theorem Enumerated.step {d e : Doc} {es : List Doc} {a r : List Cue} {g : Glyph} {closed : Bool}
    (ha : d.Scripts a) (hg : g = .stop ∨ g = .gap)
    (h : Enumerated separator (e :: es) ((e :: es).length - 1 + closed.toNat)
      (r ++ closingCues separator closed)) :
    Enumerated separator (d :: e :: es) ((d :: e :: es).length - 1 + closed.toNat)
      (a ++ (prompt (typed separator) ++ .now g :: r) ++ closingCues separator closed) := by
  have hcount : (d :: e :: es).length - 1 + closed.toNat =
      (e :: es).length - 1 + closed.toNat + 1 := by
    simp only [List.length_cons]
    omega
  rw [hcount]
  simpa using Enumerated.more ha hg h

/-- A place to break, as it is printed. -/
theorem exists_of_scripts_space {a : List Cue} (ha : space.Scripts a) :
    ∃ g, (g = .stop ∨ g = .gap) ∧ a = [.now g] := by
  rcases scripts_space.mp ha with rfl | rfl
  · exact ⟨.stop, .inl rfl, rfl⟩
  · exact ⟨.gap, .inr rfl, rfl⟩

/-- Items that are joined by a separator and a place to break. -/
theorem enumerated_interleave (closed : Bool) (hne : ds ≠ [])
    (hq : ScriptsAll (interleave (cat [separator, space]) ds) q) :
    Enumerated separator ds (ds.length - 1 + closed.toNat) (q ++ closingCues separator closed) := by
  induction ds generalizing q with
  | nil => exact absurd rfl hne
  | cons d ds ih =>
    cases ds with
    | nil =>
      obtain ⟨a, _, ha, rfl, rfl⟩ := hq
      simpa using enumerated_singleton closed ha
    | cons e es =>
      obtain ⟨a, _, ha, ⟨s, r, hs, hr, rfl⟩, rfl⟩ := hq
      obtain ⟨_, _, rfl, ⟨b, _, hb, rfl, rfl⟩, rfl⟩ := scripts_cat.mp hs
      obtain ⟨g, hg, rfl⟩ := exists_of_scripts_space hb
      simpa using Enumerated.step ha hg (ih (by simp) hr)

/-- Items of a fill, where a separator stays with the item in front of it. -/
theorem enumerated_fillParts (closed : Bool) (hne : ds ≠ [])
    (hq : ScriptsAll (fillParts separator ds) q) :
    Enumerated separator ds (ds.length - 1 + closed.toNat) (q ++ closingCues separator closed) := by
  induction ds generalizing q with
  | nil => exact absurd rfl hne
  | cons d ds ih =>
    cases ds with
    | nil =>
      obtain ⟨a, _, ha, rfl, rfl⟩ := hq
      simpa using enumerated_singleton closed ha
    | cons e es =>
      obtain ⟨item, _, hitem, ⟨s, r, hs, hr, rfl⟩, rfl⟩ := hq
      obtain ⟨a, _, ha, ⟨_, _, rfl, rfl, rfl⟩, rfl⟩ := scripts_cat.mp hitem
      obtain ⟨g, hg, rfl⟩ := exists_of_scripts_space hs
      simpa using Enumerated.step ha hg (ih (by simp) hr)

/-- A list, filled or not, with the separator behind its last item if there is one. -/
theorem enumerated_listBody (style : ListStyle) (items : List Piece) (closed : Bool)
    (hne : ds ≠ [])
    (hq : (if closed then cat [listBody style items ds, style.separator]
      else listBody style items ds).Scripts q) :
    Enumerated style.separator ds (ds.length - 1 + closed.toNat) q := by
  obtain ⟨body, hbody, rfl⟩ : ∃ body, (listBody style items ds).Scripts body ∧
      q = body ++ closingCues style.separator closed := by
    cases closed with
    | false => exact ⟨q, hq, (List.append_nil q).symm⟩
    | true =>
      obtain ⟨body, _, hbody, ⟨_, _, rfl, rfl, rfl⟩, rfl⟩ := scripts_cat.mp hq
      exact ⟨body, hbody, by simp [closingCues]⟩
  unfold listBody at hbody
  split at hbody
  · exact enumerated_fillParts closed hne hbody
  · exact enumerated_interleave closed hne (scripts_join.mp hbody)

end Enumerated

/-! ## The separators of the source -/

/-- Separated items have a separator between any two of them and one more if they are closed. -/
theorem countP_of_separated {separator : String} {closed : Bool} {ts : List Tree}
    (h : Shape.Separated separator closed ts) :
    ts.countP (·.isToken separator) = (ts.filter Tree.isNamed).length - 1 + closed.toNat := by
  induction h with
  | single ht => simp [ht, isToken_eq_false_of_isNamed ht]
  | closed ht hs => simp [ht, hs, Tree.isNamed_of_isToken hs, isToken_eq_false_of_isNamed ht]
  | @more b t s ts ht hs hts ih =>
    obtain ⟨u, hu, hnamed⟩ := exists_isNamed_of_separated hts
    have hpos := List.length_pos_of_mem (List.mem_filter.mpr ⟨hu, hnamed⟩)
    simp [ht, hs, Tree.isNamed_of_isToken hs, isToken_eq_false_of_isNamed ht, ih]
    omega

/-- A list between its delimiters, with a place to break inside of each. -/
theorem exists_of_scripts_enclosed {opening closing : String} {padded : Bool} {body : Doc}
    {q : List Cue}
    (hq : (grouped [opening, indented [if padded then space else softline, body],
      if padded then space else softline, closing]).Scripts q) :
    ∃ g g' b, (g = .stop ∨ g = .gap) ∧ (g' = .stop ∨ g' = .gap) ∧ body.Scripts b ∧
      q = prompt (typed opening) ++ .now g :: (b ++ .now g' :: prompt (typed closing)) := by
  have hedge : ∀ a, (if padded then space else softline).Scripts a →
      ∃ g, (g = .stop ∨ g = .gap) ∧ a = [.now g] := by
    intro a ha
    cases padded with
    | false =>
      rcases scripts_softline.mp ha with rfl | rfl
      · exact ⟨.stop, .inl rfl, rfl⟩
      · exact ⟨.gap, .inr rfl, rfl⟩
    | true => exact exists_of_scripts_space ha
  obtain ⟨_, _, rfl, ⟨inner, _, hinner, ⟨e, _, he, ⟨_, _, rfl, rfl, rfl⟩, rfl⟩, rfl⟩, rfl⟩ :=
    scripts_grouped.mp hq
  obtain ⟨e', _, he', ⟨b, _, hb, rfl, rfl⟩, rfl⟩ := scripts_indented.mp hinner
  obtain ⟨g, hg, rfl⟩ := hedge e' he'
  obtain ⟨g', hg', rfl⟩ := hedge e he
  exact ⟨g, g', b, hg, hg', hb, by simp⟩

/-! ## Lists -/

/-- What stands between the delimiters of a list: nothing, a separator alone, or separated
items. -/
def Enclosable (separator : String) (body : List Tree) : Prop :=
  body = [] ∨ (∃ t, body = [t] ∧ t.isToken separator = true) ∨
    ∃ closed, Shape.Separated separator closed body

section Delimited

variable {s : Site} {style : ListStyle} {first last : Tree} {body : List Tree} {ds : List Doc}

/-- The items of a list are the named ones of the children between its delimiters. -/
theorem map_node_named (hnodes : s.children.map Piece.node = s.node.children)
    (hchildren : s.node.children = first :: (body ++ [last])) (hfirst : first.isNamed = false)
    (hlast : last.isNamed = false) : s.named.map Piece.node = body.filter Tree.isNamed := by
  have hmap : s.named.map Piece.node = s.node.namedChildren := by
    rw [Site.named, Tree.namedChildren, ← hnodes, List.filter_map]
    rfl
  rw [hmap, Tree.namedChildren, hchildren]
  simp [hfirst, hlast]

/-- A list with an item has separated items. -/
theorem Enclosable.exists_separated {separator : String} (h : Enclosable separator body)
    (hne : body.filter Tree.isNamed ≠ []) : ∃ closed, Shape.Separated separator closed body := by
  rcases h with rfl | ⟨t, rfl, ht⟩ | hseparated
  · exact absurd rfl hne
  · exact absurd (by simp [Tree.isNamed_of_isToken ht]) hne
  · exact hseparated

/-- What a list without items prints. -/
theorem scripts_empty_list (hcomments : s.comments.dangling = []) {opening closing : String}
    {q : List Cue}
    (hq : (cat [.text opening, s.comments.danglingInline, .text closing]).Scripts q) :
    q = prompt (typed opening) ++ prompt (typed closing) := by
  obtain ⟨_, _, rfl, ⟨a, _, ha, ⟨_, _, rfl, rfl, rfl⟩, rfl⟩, rfl⟩ := scripts_cat.mp hq
  obtain rfl : a = [] := by simpa [NodeComments.danglingInline, hcomments, inlineParts] using ha
  simp

/-- The document of a list with items. -/
theorem delimited_of_separated (hne : s.named ≠ []) (hdocs : docs s.named = .ok ds)
    (hchildren : s.node.children = first :: (body ++ [last])) {closed : Bool}
    (hseparated : Shape.Separated style.separator closed body) :
    s.delimited style = .ok (grouped [style.opening,
      indented [if style.padded then space else softline,
        if closed then cat [listBody style s.named ds, style.separator]
        else listBody style s.named ds],
      if style.padded then space else softline, style.closing]) := by
  rw [Site.delimited, if_neg (by simp [hne]), hdocs,
    hasTrailingSeparator_of_separated hchildren hseparated]
  rfl

/-- A list is printed with as many separators as the source has between the delimiters, in
whatever lines; if there are no items, nothing is printed between the delimiters. -/
theorem delimited_keeps_separators (hnodes : s.children.map Piece.node = s.node.children)
    (hchildren : s.node.children = first :: (body ++ [last]))
    (hfirst : first.isToken style.opening = true) (hlast : last.isToken style.closing = true)
    (hbody : Enclosable style.separator body) (hcomments : s.comments.dangling = [])
    (hdocs : docs s.named = .ok ds) :
    ∃ d, s.delimited style = .ok d ∧ ∀ q, d.Scripts q →
      (s.named = [] → q = prompt (typed style.opening) ++ prompt (typed style.closing)) ∧
      (s.named ≠ [] → ∃ g g' b, (g = .stop ∨ g = .gap) ∧ (g' = .stop ∨ g' = .gap) ∧
        q = prompt (typed style.opening) ++
          .now g :: (b ++ .now g' :: prompt (typed style.closing)) ∧
        Enumerated style.separator ds (body.countP (·.isToken style.separator)) b) := by
  have hnamed := map_node_named hnodes hchildren (Tree.isNamed_of_isToken hfirst)
    (Tree.isNamed_of_isToken hlast)
  by_cases hempty : s.named = []
  · refine ⟨cat [style.opening, s.comments.danglingInline, style.closing], ?_, fun q hq =>
      ⟨fun _ => scripts_empty_list hcomments hq, fun hne => absurd hempty hne⟩⟩
    rw [Site.delimited, if_pos (by simp [hempty])]
    rfl
  · have hitems : body.filter Tree.isNamed ≠ [] := by
      rw [← hnamed]
      exact fun h => hempty (List.map_eq_nil_iff.mp h)
    obtain ⟨closed, hseparated⟩ := hbody.exists_separated hitems
    have hlength : ds.length = (body.filter Tree.isNamed).length := by
      have hall := ensures_mapM (R := fun _ => True) (fun p _ d _ => trivial) ds hdocs
      rw [hall.1, ← hnamed, List.length_map]
    have hds : ds ≠ [] := by
      rw [← List.length_pos_iff, hlength, List.length_pos_iff]
      exact hitems
    have hdelimited := delimited_of_separated hempty hdocs hchildren hseparated
    refine ⟨_, hdelimited, fun q hq => ⟨fun h => absurd h hempty, fun _ => ?_⟩⟩
    · obtain ⟨g, g', b, hg, hg', hb, hq⟩ := exists_of_scripts_enclosed hq
      refine ⟨g, g', b, hg, hg', hq, ?_⟩
      rw [countP_of_separated hseparated, ← hlength]
      exact enumerated_listBody style s.named closed hds hb

end Delimited

/-- The children of `{ 1, 2, }`. -/
def closedInitializer : List Tree :=
  let source := Source.ofText "\x7b 1, 2, \x7d"
  [.leaf ⟨0, .token, none, source.span 0 1⟩ "\x7b",
    .leaf ⟨1, .decimalIntegerLiteral, none, source.span 2 3⟩ "1",
    .leaf ⟨2, .token, none, source.span 3 4⟩ ",",
    .leaf ⟨3, .decimalIntegerLiteral, none, source.span 5 6⟩ "2",
    .leaf ⟨4, .token, none, source.span 6 7⟩ ",",
    .leaf ⟨5, .token, none, source.span 8 9⟩ "\x7d"]

/-- The initializer with its children laid out. -/
def closedInitializerSite : Site :=
  let source := Source.ofText "\x7b 1, 2, \x7d"
  let scene : Scene := ⟨source, [], []⟩
  scene.site none (.branch ⟨6, .arrayInitializer, none, source.span 0 9⟩ closedInitializer)
    (layOutAll scene (some .arrayInitializer) closedInitializer)

/-- A filled initializer that ends in a comma keeps both of its commas. -/
theorem delimited_keeps_separators_closedInitializer :
    ∃ d, closedInitializerSite.delimited { ListStyle.braced with filled := true } = .ok d ∧
      ∀ q, d.Scripts q → ∃ g g' b, (g = .stop ∨ g = .gap) ∧ (g' = .stop ∨ g' = .gap) ∧
        q = prompt (typed "\x7b") ++ .now g :: (b ++ .now g' :: prompt (typed "\x7d")) ∧
        Enumerated "," [.text "1", .text "2"] 2 b := by
  have hdocs : docs closedInitializerSite.named = .ok [.text "1", .text "2"] := by rfl
  have hbody : Enclosable "," (closedInitializer.drop 1).dropLast :=
    .inr (.inr ⟨true, .more (by decide) (by decide) (.closed (by decide) (by decide))⟩)
  obtain ⟨d, hd, hscripts⟩ : ∃ d,
      closedInitializerSite.delimited { ListStyle.braced with filled := true } = .ok d ∧
        ∀ q, d.Scripts q → _ ∧ _ :=
    delimited_keeps_separators (by rfl) (by rfl) (by decide) (by decide) hbody rfl hdocs
  exact ⟨d, hd, fun q hq => (hscripts q hq).2 (List.cons_ne_nil _ _)⟩

end JavaFormat.Layout
