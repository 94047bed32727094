import JavaFormat.Proofs.Layout.Independence
import JavaFormat.Proofs.Layout.SpotTrees
import JavaFormat.Proofs.Text.LineAbove

/-!
# What the layout makes of the line breaks that it fixes

Two nodes that are the same but for positions are laid out the same if the second one's children
stand behind as many line breaks as the layout of the first one fixes in front of its children:
wherever the layout looks at the source, it then sees in the second what it saw in the first.
-/

namespace JavaFormat

/-- What has the span `t` stands on a later line than what has the span `s` in front of it, and
below a blank line, just if the number of breaks between them says so, if a number is given. -/
def Source.Divides (source : Source) (k : Option Nat) (s t : Span) : Prop :=
  ∀ n ∈ k, (s.stop.line < t.start.line ↔ 1 ≤ n) ∧ (source.blankAbove t.start = true ↔ 2 ≤ n)

/-- The spans behind `previous` are as many breaks apart as is said for each. -/
def Source.DividesAll (source : Source) (previous : Span) : List (Option Nat) → List Span → Prop
  | k :: ks, t :: ts => source.Divides k previous t ∧ source.DividesAll t ks ts
  | _, _ => True

/-- Spans are as many breaks apart as is said for each but the first. -/
def Source.Heeds (source : Source) : List (Option Nat) → List Span → Prop
  | _ :: ks, t :: ts => source.DividesAll t ks ts
  | _, _ => True

section Divides

variable {source : Source} {k : Option Nat} {ks : List (Option Nat)} {t u : Span}
  {ts us : List Span}

/-- Where all of several spans are divided as told, the first of them are. -/
theorem Source.DividesAll.of_append (h : source.DividesAll t ks (ts ++ us)) :
    source.DividesAll t ks ts := by
  induction ts generalizing t ks with
  | nil => cases ks <;> trivial
  | cons u ts ih =>
    cases ks with
    | nil => trivial
    | cons k ks => exact ⟨h.1, ih h.2⟩

/-- Where numbers of breaks are heeded, they are in front of the first spans. -/
theorem Source.Heeds.of_append (h : source.Heeds ks (ts ++ us)) : source.Heeds ks ts := by
  cases ts with
  | nil => cases ks <;> trivial
  | cons t ts =>
    cases ks with
    | nil => trivial
    | cons k ks => exact Source.DividesAll.of_append h

/-- Of the spans that are divided as told, the first of the numbers are heeded. -/
theorem Source.DividesAll.of_append_left {ls : List (Option Nat)}
    (h : source.DividesAll t (ks ++ ls) ts) : source.DividesAll t ks ts := by
  induction ts generalizing t ks with
  | nil => cases ks <;> trivial
  | cons u ts ih =>
    cases ks with
    | nil => trivial
    | cons k ks => exact ⟨h.1, ih h.2⟩

/-- Where numbers of breaks are heeded, the first of them are. -/
theorem Source.Heeds.of_append_left {ls : List (Option Nat)} (h : source.Heeds (ks ++ ls) ts) :
    source.Heeds ks ts := by
  cases ks with
  | nil => trivial
  | cons k ks =>
    cases ts with
    | nil => trivial
    | cons t ts => exact Source.DividesAll.of_append_left h

/-- What is in front of the first of several spans may be forgotten. -/
theorem Source.DividesAll.heeds (h : source.DividesAll t ks ts) : source.Heeds ks ts := by
  cases ks with
  | nil => trivial
  | cons k ks =>
    cases ts with
    | nil => trivial
    | cons u ts => exact h.2

/-- Where numbers of breaks are heeded, they are without the first span. -/
theorem Source.Heeds.tail (h : source.Heeds (k :: ks) ts) : source.Heeds ks ts.tail := by
  cases ts with
  | nil => cases ks <;> trivial
  | cons t ts => exact Source.DividesAll.heeds h

end Divides

/-- A node stops where its last child stops. -/
def Tree.StopsWithLast (t : Tree) : Prop := ∀ u ∈ t.children.getLast?, u.span.stop = t.span.stop

/-- From the first comment in front of a node to the last one behind it, the node having the span
given. -/
def NodeComments.extent (c : NodeComments) (span : Span) : Span where
  start :=
    match c.leading with
    | a :: _ => a.comment.span.start
    | [] => span.start
  stop := (c.trailing.getLast?.map (·.comment.span.stop)).getD span.stop

namespace NodeComments

variable {c c' : NodeComments} {span : Span}

/-- Without comments in front of it a node starts itself. -/
theorem start_extent (h : c.leading = []) : (c.extent span).start = span.start := by
  rw [extent, h]

/-- Without comments behind it a node stops itself. -/
theorem stop_extent (h : c.trailing = []) : (c.extent span).stop = span.stop := by
  rw [extent, h]
  rfl

/-- There are no comments inside a node if there are none in one that is the same but for
positions. -/
theorem dangling_eq_nil_of_outline {k k' : NodeKind} (h : c.outline k = c'.outline k')
    (hnone : c'.dangling = []) : c.dangling = [] := by
  have hsame := congrArg (fun c => c.dangling.map (·.comment)) h
  simp only [map_comment_dangling_outline] at hsame
  rw [hnone] at hsame
  exact List.map_eq_nil_iff.mp hsame

end NodeComments

namespace Layout

open Doc

variable {source source' : Source} {p p' q q' : Piece} {ps ps' : List Piece}

/-- From the first comment in front of a piece to the last one behind it. -/
def Piece.extent (p : Piece) : Span := p.comments.extent p.node.span

/-- The blank line in front of a piece is the one above all of it. -/
theorem hasBlankLineBefore_eq (source : Source) (p : Piece) :
    hasBlankLineBefore source p = source.blankAbove p.extent.start := by
  unfold hasBlankLineBefore Piece.extent NodeComments.extent
  cases p.comments.leading <;> rfl

/-! ## Members -/

section Members

variable {gap : Gap}

/-- A number of breaks says whether there is a blank line or has to be one. -/
theorem blankAbove_or_eq {t u : Span} {blank apart : Bool}
    (h : source.Divides (some (if blank || apart then 2 else 1)) t u) :
    (blank || apart) = (source.blankAbove u.start || apart) := by
  have habove := (h _ rfl).2
  cases apart with
  | true => simp
  | false =>
    rw [Bool.or_false] at habove
    rw [Bool.or_false, Bool.or_false, Bool.eq_iff_iff, habove]
    cases blank <;> simp

/-- Members that are divided as told are printed alike behind another one. -/
theorem membersAfter_eq_of_divides (hgap : gap.Placeless)
    (houtlines : ps.map Piece.outline = ps'.map Piece.outline) {previous previous' : Tree}
    (hprevious : previous.outline = previous'.outline) {t : Span}
    (h : source'.DividesAll t (memberBreaks source gap previous ps) (ps'.map Piece.extent)) :
    membersAfter source gap previous ps = membersAfter source' gap previous' ps' := by
  induction ps generalizing ps' previous previous' t with
  | nil =>
    rw [List.map_eq_nil_iff.mp houtlines.symm]
    rfl
  | cons p ps ih =>
    obtain ⟨p', ps', rfl, hp, hps⟩ := List.map_eq_cons_iff.mp houtlines.symm
    rw [membersAfter, membersAfter, doc_eq_of_outline hp.symm, isToken_eq_of_outline hp.symm]
    rw [memberBreaks, isToken_eq_of_outline hp.symm] at h
    split at h
    · rename_i hsemicolon
      simp only [if_pos hsemicolon, ih hps.symm hprevious h.2]
    · rename_i hmember
      have hapart : gap previous p.node = gap previous' p'.node := by
        rw [← hgap, hprevious, ← node_eq_of_outline hp, hgap]
      have hblank := blankAbove_or_eq h.1
      rw [← hasBlankLineBefore_eq source' p'] at hblank
      have hrest := ih hps.symm (node_eq_of_outline hp.symm) h.2
      rw [hapart] at hblank
      simp only [if_neg hmember, hapart, hblank, hrest]

/-- Members of which the breaks are heeded are printed alike. -/
theorem members_eq_of_heeds (hgap : gap.Placeless)
    (houtlines : ps.map Piece.outline = ps'.map Piece.outline)
    (h : source'.Heeds (membersBreaks source gap ps) (ps'.map Piece.extent)) :
    members source gap ps = members source' gap ps' := by
  cases ps with
  | nil =>
    rw [List.map_eq_nil_iff.mp houtlines.symm]
    rfl
  | cons p ps =>
    obtain ⟨p', ps', rfl, hp, hps⟩ := List.map_eq_cons_iff.mp houtlines.symm
    rw [members, members, doc_eq_of_outline hp.symm,
      membersAfter_eq_of_divides hgap hps.symm (node_eq_of_outline hp.symm) h]

/-- Members, if there are any, of which the breaks are heeded are printed alike. -/
theorem members?_eq_of_heeds (hgap : gap.Placeless)
    (houtlines : ps.map Piece.outline = ps'.map Piece.outline)
    (h : source'.Heeds (membersBreaks source gap ps) (ps'.map Piece.extent)) :
    members? source gap ps = members? source' gap ps' := by
  have hempty : ps.isEmpty = ps'.isEmpty := by simpa using congrArg List.isEmpty houtlines
  rw [members?, members?, hempty, members_eq_of_heeds hgap houtlines h]

/-- Constants that are divided as told are printed alike. -/
theorem enumConstants_eq_of_divides (houtlines : ps.map Piece.outline = ps'.map Piece.outline)
    {t : Span} (current : Option Doc)
    (h : source'.DividesAll t (constantBreaks source current.isSome ps) (ps'.map Piece.extent)) :
    enumConstants source current ps = enumConstants source' current ps' := by
  induction ps generalizing ps' t current with
  | nil =>
    rw [List.map_eq_nil_iff.mp houtlines.symm]
    rfl
  | cons p ps ih =>
    obtain ⟨p', ps', rfl, hp, hps⟩ := List.map_eq_cons_iff.mp houtlines.symm
    simp only [enumConstants, kind_eq_of_outline hp.symm, isToken_eq_of_outline hp.symm,
      doc_eq_of_outline hp.symm]
    rw [constantBreaks, kind_eq_of_outline hp.symm, isToken_eq_of_outline hp.symm] at h
    split at h
    · rename_i hk
      simp only [if_pos hk, ih hps.symm current h.2]
    · rename_i hk
      simp only [if_neg hk]
      cases current with
      | none =>
        have hrest := fun d => ih hps.symm (some d) h.2
        simp only [Option.isSome_none, Bool.false_and, hrest]
      | some d =>
        cases hcomma : p'.isToken "," with
        | true =>
          rw [hcomma] at h
          exact ih hps.symm (some _) h.2
        | false =>
          rw [hcomma] at h
          have hblank := (h.1 _ rfl).2
          have hsame : hasBlankLineBefore source p = hasBlankLineBefore source' p' := by
            rw [hasBlankLineBefore_eq source' p', Bool.eq_iff_iff, hblank]
            cases hasBlankLineBefore source p <;> simp
          have hrest := fun d => ih hps.symm (some d) h.2
          simp only [hsame, hrest]

end Members

/-- The same labels are read, and the same statements below them. -/
theorem sameGroup_of_heeds (houtlines : ps.map Piece.outline = ps'.map Piece.outline)
    (labels : List Doc) {last last' : Option Piece}
    (hlast : last.map Piece.outline = last'.map Piece.outline)
    (h : source'.Heeds (groupBreaks source (!labels.isEmpty) ps) (ps'.map Piece.extent)) :
    SameGroup source source' (switchLabels labels last ps) (switchLabels labels last' ps') := by
  induction ps generalizing ps' labels last last' with
  | nil =>
    rw [List.map_eq_nil_iff.mp houtlines.symm]
    exact .ok rfl hlast rfl rfl
  | cons p ps ih =>
    have hall := houtlines
    obtain ⟨p', ps', rfl, hp, hps⟩ := List.map_eq_cons_iff.mp houtlines.symm
    have hstatements :
        source'.Heeds (membersBreaks source .none (p :: ps)) ((p' :: ps').map Piece.extent) →
        members source .none (p :: ps) = members source' .none (p' :: ps') :=
      members_eq_of_heeds Gap.placeless_none houtlines
    have hself : (some p).map Piece.outline = (some p').map Piece.outline :=
      congrArg some hp.symm
    have hlabel : ∀ before,
        source'.Heeds (none :: groupBreaks source true ps) ((p' :: ps').map Piece.extent) →
        SameGroup source source' (p.doc >>= fun d => switchLabels (d :: before) (some p) ps)
          (p'.doc >>= fun d => switchLabels (d :: before) (some p') ps') := by
      intro before h
      rw [doc_eq_of_outline hp.symm]
      cases p'.doc with
      | error e => exact .error e
      | ok d => exact ih hps.symm (d :: before) hself h.tail
    rw [groupBreaks] at h
    cases labels with
    | nil =>
      simp only [List.isEmpty_nil, Bool.not_true, Bool.false_and, Bool.or_false,
        decide_eq_true_eq] at h
      simp only [switchLabels, kind_eq_of_outline hp]
      split
      · rename_i hk
        rw [if_pos hk] at h
        exact hlabel [] h
      · rename_i hk
        rw [if_neg hk] at h
        exact .ok rfl hlast hall (hstatements h)
    | cons label before =>
      simp only [List.isEmpty_cons, Bool.not_false, Bool.true_and, Bool.or_eq_true,
        decide_eq_true_eq] at h
      simp only [switchLabels, kind_eq_of_outline hp, isToken_eq_of_outline hp]
      split
      · rename_i hcolon
        rw [if_pos (.inr hcolon)] at h
        exact ih hps.symm _ hlast h.tail
      · rename_i hcolon
        split
        · rename_i hk
          rw [if_pos (.inl hk)] at h
          exact hlabel (label :: before) h
        · rename_i hk
          rw [if_neg (not_or.mpr ⟨hk, hcolon⟩)] at h
          exact .ok rfl hlast hall (hstatements h)

/-! ## Annotations -/

section Annotations

variable {owner : Option NodeKind}

/-- A modifier that is the same but for its position ends its line if the break behind it says
so. -/
theorem annotationOnOwnLine_eq_of_divides {t u t' u' : Tree} (ht : t.kind = t'.kind)
    {x y : Span} (hx : x.stop = t'.span.stop) (hy : y.start = u'.span.start)
    (h : source'.Divides (some (if annotationOnOwnLine owner t (some u) then 1 else 0)) x y) :
    annotationOnOwnLine owner t (some u) = annotationOnOwnLine owner t' (some u') := by
  have hline := (h _ rfl).1
  rw [hx, hy] at hline
  simp only [annotationOnOwnLine, ht, Option.any_some] at hline ⊢
  generalize (t'.kind.isAnnotationUse && !owner.any keepsAnnotationsInline) = allowed at hline ⊢
  cases allowed with
  | false => rfl
  | true =>
    simp only [Bool.true_and, decide_eq_true_eq] at hline ⊢
    rw [Bool.eq_iff_iff, decide_eq_true_eq, decide_eq_true_eq, hline]
    split <;> simp_all

/-- Modifiers that are divided as told are printed alike, if there are no comments between them. -/
theorem modifierParts_eq_of_divides (hp : p.outline = p'.outline)
    (houtlines : ps.map Piece.outline = ps'.map Piece.outline)
    (hleading : ∀ q ∈ ps', q.comments.leading = [])
    (htrailing : ∀ q ∈ p' :: ps', q.comments.trailing = [])
    (h : source'.DividesAll p'.extent (modifierBreaks owner p ps) (ps'.map Piece.extent)) :
    modifierParts owner [] (p :: ps) = modifierParts owner [] (p' :: ps') := by
  induction ps generalizing p p' ps' with
  | nil =>
    obtain rfl := List.map_eq_nil_iff.mp houtlines.symm
    simp only [modifierParts, doc_eq_of_outline hp]
    rfl
  | cons q ps ih =>
    obtain ⟨q', ps', rfl, hq, hps⟩ := List.map_eq_cons_iff.mp houtlines.symm
    obtain ⟨hq', hleading⟩ := List.forall_mem_cons.mp hleading
    obtain ⟨hp', htrailing⟩ := List.forall_mem_cons.mp htrailing
    have hbreaking : p.hasBreakingTrailing = p'.hasBreakingTrailing := by
      rw [← p.hasBreakingTrailing_outline, hp, p'.hasBreakingTrailing_outline]
    have hown := annotationOnOwnLine_eq_of_divides (kind_eq_of_outline hp)
      (NodeComments.stop_extent hp') (NodeComments.start_extent hq') h.1
    have hrest := ih hq.symm hps.symm hleading htrailing h.2
    rw [modifierParts, modifierParts]
    simp only [List.takeWhile_nil, List.dropWhile_nil, List.head?_cons, Option.map_some,
      modifierBreak, hown, hbreaking, doc_eq_of_outline hp, hrest]
    rfl

/-- Neighbours between which and in the first of which there are no comments, if it is a list of
modifiers. -/
structure Bare (p q : Piece) : Prop where
  dangling : p.kind = .modifiers → p.comments.dangling = []
  trailing : p.kind = .modifiers → p.comments.trailing = []
  leading : p.kind = .modifiers → q.comments.leading = []

/-- The same goes behind a list of modifiers that stops where its last modifier stops. -/
theorem modifiersSeparator_eq_of_divides (hp : p.outline = p'.outline) (hk : p'.kind = .modifiers)
    (hbare : Bare p' q') (hstops : p'.node.StopsWithLast)
    (h : source'.Divides (some (listBreaks owner p.node q.node)) p'.extent q'.extent) :
    modifiersSeparator owner p.node p.comments (some q.node) =
      modifiersSeparator owner p'.node p'.comments (some q'.node) := by
  have hlast : p.node.children.getLast?.map Tree.outline =
      p'.node.children.getLast?.map Tree.outline := by
    have hchildren := congrArg (·.children.getLast?) (node_eq_of_outline hp)
    simpa using hchildren
  have hdangling' := hbare.dangling hk
  have hdangling : p.comments.dangling = [] :=
    NodeComments.dangling_eq_nil_of_outline (congrArg Piece.comments hp) hdangling'
  have hcomments : ∀ {c : NodeComments} t, c.dangling = [] → endsWithLineComment c t = false := by
    intro c t hc
    rw [endsWithLineComment, hc]
    rfl
  unfold listBreaks at h
  unfold modifiersSeparator
  unfold Tree.StopsWithLast at hstops
  generalize p.node.children.getLast? = last at hlast h ⊢
  generalize p'.node.children.getLast? = last' at hlast hstops ⊢
  cases rel_of_map_eq hlast with
  | none => rfl
  | @some item item' hitem =>
    have hkind : item.kind = item'.kind := by
      rw [← Tree.kind_outline, hitem, Tree.kind_outline]
    have hstop : p'.extent.stop = item'.span.stop := by
      rw [hstops item' rfl]
      exact NodeComments.stop_extent (hbare.trailing hk)
    have hown := annotationOnOwnLine_eq_of_divides hkind hstop
      (NodeComments.start_extent (hbare.leading hk)) h
    simp only [hcomments _ hdangling, hcomments _ hdangling', Bool.false_or, hown]

/-- Children behind the breaks that are fixed on a line make up the same line. -/
theorem sameLine_of_divides {kind : NodeKind} {spacing : Spacing} (hp : p.outline = p'.outline)
    (houtlines : ps.map Piece.outline = ps'.map Piece.outline) (hbare : (p' :: ps').IsChain Bare)
    (hstops : ∀ r ∈ p' :: ps', r.node.StopsWithLast)
    (h : source'.DividesAll p'.extent (sequenceBreaks kind spacing p ps) (ps'.map Piece.extent)) :
    SameLine (some kind) spacing (p :: ps) (p' :: ps') := by
  induction ps generalizing p p' ps' with
  | nil =>
    obtain rfl := List.map_eq_nil_iff.mp houtlines.symm
    exact .single hp
  | cons q ps ih =>
    obtain ⟨q', ps', rfl, hq, hps⟩ := List.map_eq_cons_iff.mp houtlines.symm
    obtain ⟨hfirst, hbare⟩ := List.isChain_cons_cons.mp hbare
    obtain ⟨hs, hstops⟩ := List.forall_mem_cons.mp hstops
    refine .cons hp (fun hk htight => ?_) (ih hq.symm hps.symm hbare hstops h.2)
    have hdivides := h.1
    rw [separatorBreaks, if_pos ⟨hk, htight⟩] at hdivides
    exact modifiersSeparator_eq_of_divides hp (kind_eq_of_outline hp ▸ hk) hfirst hs hdivides

/-- Pieces of which the breaks are heeded are on the same lines. -/
theorem sameLine_of_heeds {kind : NodeKind} {spacing : Spacing}
    (houtlines : ps.map Piece.outline = ps'.map Piece.outline) (hbare : ps'.IsChain Bare)
    (hstops : ∀ p ∈ ps', p.node.StopsWithLast)
    (h : source'.Heeds (lineBreaks kind spacing ps) (ps'.map Piece.extent)) :
    SameLine (some kind) spacing ps ps' := by
  cases ps with
  | nil =>
    obtain rfl := List.map_eq_nil_iff.mp houtlines.symm
    exact .nil
  | cons p ps =>
    obtain ⟨p', ps', rfl, hp, hps⟩ := List.map_eq_cons_iff.mp houtlines.symm
    exact sameLine_of_divides hp.symm hps.symm hbare hstops h

end Annotations

/-! ## Sites -/

/-- Sites that are the same but for positions, the children of the second one being as many breaks
apart as the layout of the first one fixes, with no comments in and next to lists of modifiers. -/
structure Site.Steady (s s' : Site) : Prop where
  outline : s.outline = s'.outline
  nodes : s.children.map Piece.node = s.node.children
  dangling : s'.node.kind = .modifiers → s'.comments.dangling = []
  leading : s'.node.kind = .modifiers → ∀ p ∈ s'.children, p.comments.leading = []
  trailing : s'.node.kind = .modifiers → ∀ p ∈ s'.children, p.comments.trailing = []
  bare : s'.node.kind.holdsMembers = false → s'.children.IsChain Bare
  stops : ∀ p ∈ s'.children, p.node.StopsWithLast
  heeds : s'.source.Heeds s.breaks (s'.children.map Piece.extent)

/-- Of a site that is the same but for positions, the children between the braces are the same. None
of these is taken away, since as many are left as in the other site. -/
theorem Site.exists_braced_of_outline {s s' : Site} (h : s.outline = s'.outline) {f l : Piece}
    (hc : s.children = f :: (s.unbraced ++ [l])) (hf : f.isToken "\x7b" = true)
    (hl : l.isToken "\x7d" = true) : ∃ f' l', s'.children = f' :: (s'.unbraced ++ [l']) := by
  have houtlines := Site.children_eq h
  rw [hc, List.map_cons, List.map_append] at houtlines
  obtain ⟨f', rest, hrest, hf', htail⟩ := List.map_eq_cons_iff.mp houtlines.symm
  obtain ⟨us, ls, rfl, hus, hls⟩ := List.map_eq_append_iff.mp htail
  obtain ⟨l', rfl, hl'⟩ := List.map_eq_singleton_iff.mp hls
  have hfirst := Tree.text?_of_isToken ((isToken_eq_of_outline hf' _).trans hf)
  have hlast := Tree.text?_of_isToken ((isToken_eq_of_outline hl' _).trans hl)
  have hkept : s'.unbraced.length = us.length := by
    rw [← List.length_map Piece.outline, ← Site.unbraced_eq h, ← hus, List.length_map]
  have hunbraced : s'.unbraced = us := by
    rw [Site.unbraced, hrest] at hkept ⊢
    simp only [List.filter_cons, List.filter_append, List.filter_nil, hfirst, hlast] at hkept ⊢
    simp only [beq_self_eq_true, Bool.true_or, Bool.or_true, Bool.not_true, Bool.false_eq_true,
      if_false, List.append_nil] at hkept ⊢
    exact List.filter_eq_self.mpr (List.length_filter_eq_length_iff.mp hkept)
  exact ⟨f', l', by rw [hunbraced, hrest]⟩

namespace Site.Steady

variable {s s' : Site} (h : s.Steady s')

include h

/-- Sites that are the same but for positions have the same kind. -/
theorem kind_eq : s.node.kind = s'.node.kind := by
  have hnode : s.outline.node = s'.outline.node := congrArg Site.node h.outline
  rw [← Tree.kind_outline s.node, ← Tree.kind_outline s'.node]
  exact congrArg Tree.kind hnode

/-- Children in a row that are as many breaks apart as is fixed make up the same line. -/
theorem sameLine {spacing : Spacing} (hquiet : s.node.kind.holdsMembers = false)
    (hbreaks : s.breaks = lineBreaks s.node.kind spacing s.children) :
    SameLine (some s.node.kind) spacing s.children s'.children := by
  have hheeds := h.heeds
  rw [hbreaks] at hheeds
  exact sameLine_of_heeds (Site.children_eq h.outline) (h.bare (h.kind_eq ▸ hquiet)) h.stops hheeds

/-- The same goes for the header of a loop. -/
theorem sameLine_dropLast (hquiet : s.node.kind.holdsMembers = false)
    (hbreaks : s.breaks = lineBreaks s.node.kind .standard s.children.dropLast) :
    SameLine (some s.node.kind) .standard s.children.dropLast s'.children.dropLast := by
  have houtlines : s.children.dropLast.map Piece.outline =
      s'.children.dropLast.map Piece.outline := by
    rw [List.map_dropLast, Site.children_eq h.outline, List.map_dropLast]
  have hheeds : s'.source.Heeds s.breaks (s'.children.dropLast.map Piece.extent) := by
    have hheeds := h.heeds
    rcases List.eq_nil_or_concat' s'.children with hnil | ⟨ps, p, hps⟩
    · rw [hnil] at hheeds ⊢
      exact hheeds
    · rw [hps, List.map_append] at hheeds
      rw [hps, List.dropLast_concat]
      exact hheeds.of_append
  rw [hbreaks] at hheeds
  exact sameLine_of_heeds houtlines (h.bare (h.kind_eq ▸ hquiet)).dropLast
    (fun p hp => h.stops p (List.dropLast_subset _ hp)) hheeds

/-- The same goes for what follows the body of a loop. -/
theorem sameLine_drop (hquiet : s.node.kind.holdsMembers = false) (hbreaks : s.breaks =
    none :: none :: lineBreaks s.node.kind .standard (s.children.drop 2)) :
    SameLine (some s.node.kind) .standard (s.children.drop 2) (s'.children.drop 2) := by
  have houtlines : (s.children.drop 2).map Piece.outline =
      (s'.children.drop 2).map Piece.outline := by
    rw [List.map_drop, Site.children_eq h.outline, List.map_drop]
  have hheeds := h.heeds
  rw [hbreaks] at hheeds
  have hbehind := hheeds.tail.tail
  rw [← List.drop_one, ← List.drop_one, List.drop_drop, ← List.map_drop] at hbehind
  exact sameLine_of_heeds houtlines ((h.bare (h.kind_eq ▸ hquiet)).drop 2)
    (fun p hp => h.stops p (List.mem_of_mem_drop hp)) hbehind

/-- The modifiers of a declaration are as far from it as is fixed. -/
theorem sameLine_typeDeclared (hquiet : s.node.kind.holdsMembers = false)
    (hs : Shape.TypeDeclared s.node.children)
    (hbreaks : s.breaks = headBreaks s.node.kind s.children) :
    SameLine (some s.node.kind) .standard s.children s'.children := by
  obtain ⟨ms, hs, ks, body, hps, hmodifiers, hhead, hclauses, hbody⟩ :=
    Site.exists_typeDeclared h.nodes hs
  have houtlines := Site.children_eq h.outline
  have hunmodified := ne_modifiers_of_typeDeclared hhead hclauses hbody
  rcases hmodifiers with rfl | ⟨m, rfl, hkind⟩
  · rw [List.nil_append] at hps
    rw [hps] at houtlines ⊢
    exact .of_outline houtlines hunmodified
  · obtain ⟨next, more, hnext⟩ : ∃ next more, hs ++ (ks ++ [body]) = next :: more :=
      List.exists_cons_of_ne_nil (by simp)
    have hbare := h.bare (h.kind_eq ▸ hquiet)
    have hstops := h.stops
    have hheeds := h.heeds
    rw [hnext] at hps hunmodified
    rw [hbreaks, hps, List.singleton_append, headBreaks, if_pos hkind] at hheeds
    rw [hps, List.singleton_append] at houtlines ⊢
    obtain ⟨m', rest, hps', hm, hrest⟩ := List.map_eq_cons_iff.mp houtlines.symm
    obtain ⟨next', more', rfl, hnext', -⟩ := List.map_eq_cons_iff.mp hrest
    rw [hps'] at hbare hstops hheeds ⊢
    refine .cons hm.symm (fun hk htight => ?_) (.of_outline hrest.symm hunmodified)
    have hdivides := hheeds.1
    rw [separatorBreaks, if_pos ⟨hk, htight⟩] at hdivides
    exact modifiersSeparator_eq_of_divides hm.symm (kind_eq_of_outline hm ▸ hk)
      (List.isChain_cons_cons.mp hbare).1 (hstops m' (by simp)) hdivides

/-- What stands between the braces of a body is as many breaks apart as is fixed there. -/
theorem heeds_unbraced {f l : Piece} {ks : List (Option Nat)}
    (hc : s.children = f :: (s.unbraced ++ [l])) (hf : f.isToken "\x7b" = true)
    (hl : l.isToken "\x7d" = true) (hbreaks : s.breaks = none :: ks) :
    ∃ t, s'.source.DividesAll t ks (s'.unbraced.map Piece.extent) := by
  obtain ⟨f', l', hc'⟩ := Site.exists_braced_of_outline h.outline hc hf hl
  have hheeds := h.heeds
  rw [hbreaks, hc', List.map_cons, List.map_append] at hheeds
  exact ⟨f'.extent, Source.DividesAll.of_append hheeds⟩

/-- A body of members between braces. -/
theorem body_eq {gap : Gap} (hgap : gap.Placeless) (hs : Shape.Braced s.node.children)
    (hbreaks : s.breaks = none :: membersBreaks s.source gap s.unbraced) :
    s.body gap = s'.body gap := by
  obtain ⟨first, items, last, hc, hopen, hclose, hitems⟩ := hs
  obtain ⟨-, f, l, hframe, hf, hl⟩ := Site.exists_braced h.nodes hc hopen hclose hitems
  obtain ⟨t, hdivides⟩ := h.heeds_unbraced hframe hf hl hbreaks
  exact Site.body_eq h.outline (members?_eq_of_heeds hgap (Site.unbraced_eq h.outline)
    hdivides.heeds)

/-- A compilation unit. -/
theorem program_eq (hbreaks : s.breaks = membersBreaks s.source Gap.ofProgram s.children) :
    s.program = s'.program := by
  have hheeds := h.heeds
  rw [hbreaks] at hheeds
  exact Site.program_eq h.outline (members?_eq_of_heeds Gap.placeless_ofProgram
    (Site.children_eq h.outline) hheeds)

/-- The body of an enumeration. -/
theorem enumBody_eq (hs : Shape.EnumBraced s.node.children)
    (hbreaks : s.breaks = none :: constantBreaks s.source false s.unbraced) :
    s.enumBody = s'.enumBody := by
  obtain ⟨-, -, -, -, -, f, l, hframe, hf, hl⟩ := Site.exists_enumBraced h.nodes hs
  obtain ⟨t, hdivides⟩ := h.heeds_unbraced hframe hf hl hbreaks
  exact Site.enumBody_eq h.outline (enumConstants_eq_of_divides (Site.unbraced_eq h.outline)
    none hdivides)

/-- What follows the constants of an enumeration. -/
theorem enumDeclarations_eq
    (hbreaks : s.breaks = none :: membersBreaks s.source Gap.ofMembers (s.children.drop 1)) :
    s.enumDeclarations = s'.enumDeclarations := by
  have houtlines : (s.children.drop 1).map Piece.outline =
      (s'.children.drop 1).map Piece.outline := by
    rw [List.map_drop, Site.children_eq h.outline, List.map_drop]
  have hheeds := h.heeds
  rw [hbreaks] at hheeds
  have hbehind := hheeds.tail
  rw [← List.drop_one, ← List.map_drop] at hbehind
  exact Site.enumDeclarations_eq h.outline
    (members_eq_of_heeds Gap.placeless_ofMembers houtlines hbehind)

/-- Modifiers, each as far from the next one as is fixed. -/
theorem modifiers_eq (hk : s.node.kind = .modifiers)
    (hbreaks : s.breaks = modifiersBreaks s.parent s.children) : s.modifiers = s'.modifiers := by
  have hk' : s'.node.kind = .modifiers := h.kind_eq ▸ hk
  have houtlines := Site.children_eq h.outline
  have hparent : s.outline.parent = s'.outline.parent := congrArg Site.parent h.outline
  have hdangling' := h.dangling hk'
  have hdangling : s.comments.dangling = [] :=
    NodeComments.dangling_eq_nil_of_outline (congrArg Site.comments h.outline) hdangling'
  have hleading := h.leading hk'
  have htrailing := h.trailing hk'
  have hheeds := h.heeds
  rw [Site.modifiers, Site.modifiers, hdangling, hdangling',
    ← (show s.parent = s'.parent from hparent)]
  rw [hbreaks] at hheeds
  generalize s.children = ps at houtlines hheeds ⊢
  generalize s'.children = ps' at houtlines hheeds hleading htrailing ⊢
  cases ps with
  | nil => rw [List.map_eq_nil_iff.mp houtlines.symm]
  | cons p ps =>
    obtain ⟨p', ps', rfl, hp, hps⟩ := List.map_eq_cons_iff.mp houtlines.symm
    rw [modifierParts_eq_of_divides hp.symm hps.symm (List.forall_mem_cons.mp hleading).2 htrailing
      hheeds]

/-- A group of statements and the labels above them. -/
theorem switchGroup_eq (hbreaks : s.breaks = groupBreaks s.source false s.children) :
    s.switchGroup = s'.switchGroup := by
  have hheeds := h.heeds
  rw [hbreaks] at hheeds
  exact Site.switchGroup_eq h.outline
    (sameGroup_of_heeds (Site.children_eq h.outline) [] rfl hheeds)

/-- The same document is made of the sites. The kinds without a rule of their own are printed child
by child, or by their text. -/
theorem bare_eq (hr : s.node.Regular) : s.bare = s'.bare := by
  have houtline := h.outline
  have hallowed := hr.allowed
  have hkind := Site.kind_eq houtline
  have hbreaks : s.breaks = s.breaks := rfl
  conv_rhs at hbreaks => unfold Site.breaks
  have hsequence : s.node.kind.holdsMembers = false → ∀ {spacing},
      s.breaks = lineBreaks s.node.kind spacing s.children →
        s.sequence spacing = s'.sequence spacing :=
    fun hquiet _ hline => Site.sequence_eq houtline (h.sameLine hquiet hline)
  have htype := fun hquiet hs hline =>
    Site.typeDeclaration_eq houtline (h.sameLine_typeDeclared hquiet hs hline)
  have hloop := fun hquiet hline => Site.loop_eq houtline (h.sameLine_dropLast hquiet hline)
  have hdo := fun hquiet hline => Site.doLoop_eq houtline (h.sameLine_drop hquiet hline)
  unfold Site.bare
  cases hk : s.node.kind <;> rw [hk] at hallowed hkind hbreaks hsequence htype hloop hdo <;>
    rw [← hkind]
  case program => exact h.program_eq hbreaks
  case classDeclaration | interfaceDeclaration | enumDeclaration | recordDeclaration |
      annotationTypeDeclaration => exact htype rfl (hallowed (by simp) rfl) hbreaks
  case classBody | interfaceBody | annotationTypeBody =>
    exact h.body_eq Gap.placeless_ofMembers (hallowed (by simp) rfl) hbreaks
  case block | constructorBody | switchBlock | moduleBody =>
    exact h.body_eq Gap.placeless_none (hallowed (by simp) rfl) hbreaks
  case enumBody => exact h.enumBody_eq (hallowed (by simp) rfl) hbreaks
  case enumBodyDeclarations => exact h.enumDeclarations_eq hbreaks
  case modifiers => exact h.modifiers_eq hk hbreaks
  case dimensions => exact Site.eq_of_outline houtline dimensions_outline
  case variableDeclarator => exact Site.eq_of_outline houtline variableDeclarator_outline
  case formalParameters | annotationArgumentList | recordPatternBody | typeParameters |
      elementValueArrayInitializer | resourceSpecification => exact Site.delimited_eq houtline _
  case typeArguments => exact Site.eq_of_outline houtline typeArguments_outline
  case arrayInitializer => exact Site.eq_of_outline houtline arrayInitializer_outline
  case argumentList => exact Site.eq_of_outline houtline arguments_outline
  case methodInvocation => exact Site.eq_of_outline houtline methodInvocation_outline
  case assignmentExpression => exact Site.eq_of_outline houtline assignmentExpression_outline
  case binaryExpression => exact Site.eq_of_outline houtline binary_outline
  case ternaryExpression => exact Site.eq_of_outline houtline ternary_outline
  case unaryExpression => exact Site.eq_of_outline houtline unary_outline
  case parenthesizedExpression => exact Site.eq_of_outline houtline parenthesized_outline
  case ifStatement => exact Site.eq_of_outline houtline ifStatement_outline
  case whileStatement | forStatement | enhancedForStatement => exact hloop rfl hbreaks
  case doStatement => exact hdo rfl hbreaks
  case switchBlockStatementGroup => exact h.switchGroup_eq hbreaks
  all_goals
    first
    | exact hsequence rfl hbreaks
    | exact Site.tight_eq houtline
    | simp only [Site.text_eq houtline]

/-- The same piece is made of the sites but for positions. -/
theorem piece_eq (hr : s.node.Regular) : s.piece.outline = s'.piece.outline :=
  Site.piece_eq h.outline (h.bare_eq hr)

end Site.Steady

end Layout

end JavaFormat
