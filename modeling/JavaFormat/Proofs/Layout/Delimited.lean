import JavaFormat.Proofs.Layout.Complete
import JavaFormat.Proofs.Layout.Sites

/-!
# Lists lose nothing

The separators of a list are written anew: one between two items, and one behind the
last item if the list has it there. `Listed` says of documents that with a separator
between any two of them they have the leaves and comments of the list; it does not
matter how the separators are set.
-/

namespace JavaFormat.Layout

open Doc

/-- Documents that have the leaves `ls` and the comments `cs` once a separator is put
between any two of them. -/
inductive Listed (separator : String) : List Doc → List String → Multiset Remark → Prop
  | last {d ls cs} (hd : Weaves d ls cs) : Listed separator [d] ls cs
  | more {d ds ls₁ ls₂ cs₁ cs₂} (hd : Weaves d ls₁ cs₁) (h : Listed separator ds ls₂ cs₂) :
    Listed separator (d :: ds) (ls₁ ++ separator :: ls₂) (cs₁ + cs₂)

namespace Listed

variable {separator : String} {ds : List Doc} {ls : List String} {cs : Multiset Remark}

/-- A list of items has an item. -/
theorem ne_nil (h : Listed separator ds ls cs) : ds ≠ [] := by
  cases h <;> simp

/-- A document that stands for the separator goes between any two items. -/
theorem interleave {e : Doc} (he : Weaves e [separator] 0) (h : Listed separator ds ls cs) :
    WeavesAll (interleave e ds) ls cs := by
  induction h with
  | last hd => exact .single hd
  | @more d ds ls₁ ls₂ cs₁ cs₂ hd h ih =>
    cases ds with
    | nil => exact absurd rfl h.ne_nil
    | cons f fs =>
      have hall : WeavesAll (d :: e :: Doc.interleave e (f :: fs)) _ _ := .cons hd (.cons he ih)
      exact hall.congr (by simp) (by simp)

/-- Joining the items with a separator puts their leaves and comments in order. -/
theorem join {e : Doc} (he : Weaves e [separator] 0) (h : Listed separator ds ls cs) :
    Weaves (join e ds) ls cs :=
  (h.interleave he).cat

/-- In a fill, a separator stays with the item in front of it. -/
theorem fillParts (h : Listed separator ds ls cs) :
    WeavesAll (fillParts separator ds) ls cs := by
  induction h with
  | last hd => exact .single hd
  | @more d ds ls₁ ls₂ cs₁ cs₂ hd h ih =>
    cases ds with
    | nil => exact absurd rfl h.ne_nil
    | cons f fs =>
      have hitem : Weaves (cat [d, separator]) (ls₁ ++ [separator]) cs₁ :=
        (Each.cons hd (.single (weaves_text separator))).cat.congr rfl (by simp)
      have hall := Each.cons hitem (.skip empty_space ih)
      exact hall.congr (by simp) rfl

end Listed

variable {share : Tree → Multiset Remark}

/-- The separators of a list come back with its items, but for one behind the last. -/
theorem succeeds_listed {separator : String} {b : Bool} {ts : List Tree}
    (h : Shape.Separated separator b ts) {ps : List Piece} (hn : ps.map Piece.node = ts)
    (hp : ∀ p ∈ ps, p.Inner share) :
    ∃ ls, texts ps = ls ++ (if b then [separator] else []) ∧
      Succeeds (docs (ps.filter (·.node.isNamed))) (Listed separator · ls (shares share ps)) := by
  induction h generalizing ps with
  | @single t ht =>
    obtain ⟨p, rfl, rfl⟩ := List.map_eq_singleton_iff.mp hn
    have hdoc := (hp p (by simp)).doc
    have hfilter : [p].filter (·.node.isNamed) = [p] := by simp [ht]
    refine ⟨p.node.leafTexts, by simp, ?_⟩
    rw [hfilter, docs, List.mapM_cons, List.mapM_nil]
    exact hdoc.bind fun d hd => .pure (.last (hd.congr rfl (by simp)))
  | @closed t s ht hs =>
    obtain ⟨p, rest, rfl, rfl, hrest⟩ := List.map_eq_cons_iff.mp hn
    obtain ⟨q, rfl, rfl⟩ := List.map_eq_singleton_iff.mp hrest
    have hdoc := (hp p (by simp)).doc
    obtain ⟨hqt, hqs⟩ := (hp q (by simp)).of_isToken hs
    have hq := Tree.isNamed_of_isToken hs
    have hfilter : [p, q].filter (·.node.isNamed) = [p] := by simp [ht, hq]
    refine ⟨p.node.leafTexts, by simp [hqt], ?_⟩
    rw [hfilter, docs, List.mapM_cons, List.mapM_nil]
    exact hdoc.bind fun d hd => .pure (.last (hd.congr rfl (by simp [hqs])))
  | @more b t s ts ht hs _ ih =>
    obtain ⟨p, rest, rfl, rfl, hrest⟩ := List.map_eq_cons_iff.mp hn
    obtain ⟨q, qs, rfl, rfl, rfl⟩ := List.map_eq_cons_iff.mp hrest
    have hdoc := (hp p (by simp)).doc
    obtain ⟨hqt, hqs⟩ := (hp q (by simp)).of_isToken hs
    have hq := Tree.isNamed_of_isToken hs
    obtain ⟨ls, hls, hds⟩ := ih rfl fun r hr => hp r (by simp [hr])
    have hfilter : (p :: q :: qs).filter (·.node.isNamed) = p :: qs.filter (·.node.isNamed) := by
      simp [ht, hq]
    refine ⟨p.node.leafTexts ++ separator :: ls, by simp [hqt, hls], ?_⟩
    rw [hfilter, docs, List.mapM_cons]
    have hcs : share p.node + shares share qs = shares share (p :: q :: qs) := by simp [hqs]
    rw [← hcs]
    exact hdoc.bind fun d hd => hds.bind fun ds hds => .pure (.more hd hds)

namespace Site.Ready

variable {s : Site} {opening closing separator : String} {closable : Bool}

/-- The leaves of a list between its delimiters. -/
theorem texts_delimited (h : s.Ready share) {first last : Piece} {ps : List Piece}
    (hc : s.children = first :: (ps ++ [last])) (hopen : first.isToken opening)
    (hclose : last.isToken closing) :
    texts s.children = opening :: (texts ps ++ [closing]) ∧
      shares share s.children = shares share ps := by
  obtain ⟨hft, hfs⟩ := (h.inner first (by simp [hc])).of_isToken hopen
  obtain ⟨hlt, hls⟩ := (h.inner last (by simp [hc])).of_isToken hclose
  rw [hc]
  simp [hft, hlt, hfs, hls]

/-- A list prints its items, its separators and the comments inside it. -/
theorem yields_delimited (h : s.Ready share) (style : ListStyle)
    (hs : Shape.Delimited style.opening style.closing style.separator closable s.node.children) :
    Yields (s.delimited style) (texts s.children)
      (remarks s.comments.dangling + shares share s.children) := by
  obtain ⟨first, ps, last, hc, hopen, hclose, hnamed, hps⟩ := Site.exists_delimited h.nodes hs
  obtain ⟨ht, hsh⟩ := h.texts_delimited hc hopen hclose
  have hfirst := weaves_text style.opening
  have hlast := weaves_text style.closing
  rw [ht, hsh]
  rcases hps with rfl | ⟨b, -, hps, htrailing⟩
  · have hempty : s.named.isEmpty = true := by simp [hnamed]
    rw [Site.delimited, if_pos hempty]
    have hall := (Each.cons hfirst (.cons (weaves_danglingInline s.comments) (.single hlast))).cat
    exact .pure (hall.congr (by simp) (by simp))
  · obtain ⟨ls, hls, hdocs⟩ := succeeds_listed hps rfl fun p hp => h.inner p (by simp [hc, hp])
    rw [← hnamed] at hdocs
    have hne : s.named ≠ [] := hnamed ▸ filter_isNamed_ne_nil hps
    have hempty : s.named.isEmpty = false := by simp [hne]
    rw [h.remarks_dangling_eq_zero hne, Site.delimited, if_neg (by simp [hempty]), htrailing]
    refine hdocs.bind fun ds hds => .pure ?_
    have hseparator : Weaves (cat [style.separator, space]) [style.separator] 0 :=
      (Each.cons (weaves_text style.separator) (.single empty_space)).cat
    have hbody : Weaves (listBody style s.named ds) ls (shares share ps) := by
      unfold listBody
      split
      · exact hds.fillParts.fill
      · exact hds.join hseparator
    have hclosed : Weaves (if b then cat [listBody style s.named ds, style.separator]
        else listBody style s.named ds) (ls ++ if b then [style.separator] else [])
          (shares share ps) := by
      cases b with
      | false => simpa using hbody
      | true =>
        exact (Each.cons hbody (.single (weaves_text style.separator))).cat.congr rfl (by simp)
    have hedge : Empty (if style.padded then space else softline) := by
      split
      · exact empty_space
      · exact empty_softline
    rw [← hls] at hclosed
    have hinner := (Each.skip hedge (.single hclosed)).indented
    have hall := (Each.cons hfirst (.cons hinner (.skip hedge (.single hlast)))).grouped
    exact hall.congr (by simp) (by simp)

/-- Type arguments are printed with their separators and the comments inside them. -/
theorem yields_typeArguments (h : s.Ready share)
    (hs : Shape.Delimited "<" ">" "," false s.node.children) :
    Yields s.typeArguments (texts s.children)
      (remarks s.comments.dangling + shares share s.children) := by
  obtain ⟨first, ps, last, hc, hopen, hclose, hnamed, hps⟩ := Site.exists_delimited h.nodes hs
  obtain ⟨ht, hsh⟩ := h.texts_delimited hc hopen hclose
  have hfirst := weaves_text "<"
  have hlast := weaves_text ">"
  rw [ht, hsh]
  rcases hps with rfl | ⟨b, hb, hps, -⟩
  · rw [Site.typeArguments, hnamed]
    have hall := (Each.cons hfirst (.cons (weaves_danglingInline s.comments) (.single hlast))).cat
    exact .pure (hall.congr (by simp) (by simp))
  · obtain ⟨ls, hls, hdocs⟩ := succeeds_listed hps rfl fun p hp => h.inner p (by simp [hc, hp])
    have hb : b = false := Bool.eq_false_of_le_false hb
    have hls : texts ps = ls := by simpa [hb] using hls
    rw [← hnamed] at hdocs
    have hne : s.named ≠ [] := hnamed ▸ filter_isNamed_ne_nil hps
    have hempty : s.named.isEmpty = false := by simp [hne]
    have hseparator : Weaves (.text ", ") [","] 0 := weaves_text_blank ","
    rw [h.remarks_dangling_eq_zero hne, Site.typeArguments]
    refine hdocs.bind fun ds hds => ?_
    rw [if_neg (by simp [hempty]), hls]
    have hall := (Each.cons hfirst (.cons (hds.join hseparator) (.single hlast))).cat
    exact .pure (hall.congr (by simp) (by simp))

end Site.Ready

end JavaFormat.Layout
