import JavaFormat.Layout.Modifiers
import JavaFormat.Proofs.Layout.Complete
import Mathlib.Data.List.TakeWhile

/-!
# Modifiers lose nothing

The comments inside a list of modifiers are handed out to the modifiers from left to
right. The last modifier takes all that are left, so a list with a modifier prints
all of them.
-/

namespace JavaFormat.Layout

open Doc

variable {share : Tree → Multiset Remark}

/-- A comment behind a modifier, which nothing has to break the line behind unless it is
bound. -/
theorem weavesAll_modifierComment (a : AttachedComment) :
    WeavesAll (modifierComment a) [] {⟨a, false⟩} := by
  have hfree : ¬Remark.EndsLine ⟨a, false⟩ := fun h => Bool.false_ne_true h.1
  exact .skip empty_blank (.single (weaves_comment hfree))

/-- What stands behind a modifier holds no leaf and no comment. -/
theorem weavesAll_modifierBreak (owner : Option NodeKind) (p : Piece)
    (printed : List AttachedComment) (following : Option Tree) :
    WeavesAll (modifierBreak owner p printed following) [] 0 := by
  cases following with
  | none => exact .nil
  | some t =>
    unfold modifierBreak
    dsimp only
    split
    · exact .single empty_hardline
    · exact .single empty_blank

/-- A modifier is printed in front of the comments that come before the next one, and of what
the others are printed as. -/
theorem modifierParts_cons_of_ok {owner : Option NodeKind} {pending : List AttachedComment}
    {p : Piece} {ps : List Piece} {d : Doc} {rest : List Doc} {following : Option Tree}
    (hnext : ps.head?.map Piece.node = following) (hdoc : p.doc = .ok d)
    (hrest : modifierParts owner (pending.dropWhile (comesBefore following)) ps = .ok rest) :
    modifierParts owner pending (p :: ps) =
      .ok (d :: (pending.takeWhile (comesBefore following)).flatMap modifierComment ++
        modifierBreak owner p (pending.takeWhile (comesBefore following)) following ++ rest) := by
  subst hnext
  rw [modifierParts, hdoc]
  simp only [bind, Except.bind]
  rw [hrest]
  rfl

/-- The first of several modifiers is printed, and behind it the comments still to be printed with
the modifiers that follow. Nothing follows the last modifier, so no comment is left behind it. -/
theorem exists_modifierParts_cons (owner : Option NodeKind) (pending : List AttachedComment)
    {p : Piece} {ps : List Piece} (h : ∀ q ∈ p :: ps, q.Complete share) :
    ∃ d more, p.doc = .ok d ∧ Weaves d p.node.leafTexts (share p.node) ∧
      modifierParts owner pending (p :: ps) = .ok (d :: more) ∧
      WeavesAll more (texts ps) (remarksOf false pending + shares share ps) := by
  induction ps generalizing pending p with
  | nil =>
    obtain ⟨d, hdoc, hd⟩ := (h p List.mem_cons_self).doc
    have hall : pending.takeWhile (comesBefore none) = pending :=
      List.takeWhile_eq_self_iff.mpr fun a _ => rfl
    refine ⟨d, pending.flatMap modifierComment, hdoc, hd, ?_, ?_⟩
    · rw [modifierParts_cons_of_ok rfl hdoc rfl]
      simp [hall, modifierBreak]
    · simpa using weavesAll_flatMap weavesAll_modifierComment pending
  | cons q qs ih =>
    obtain ⟨hp, hqs⟩ := List.forall_mem_cons.mp h
    obtain ⟨d, hdoc, hd⟩ := hp.doc
    set printed := pending.takeWhile (comesBefore (some q.node)) with hprinted
    set left := pending.dropWhile (comesBefore (some q.node)) with hleft
    obtain ⟨e, more, -, he, hparts, hmore⟩ := ih left hqs
    have hsplit : remarksOf false pending = remarksOf false printed + remarksOf false left := by
      rw [hprinted, hleft, ← remarksOf_append, List.takeWhile_append_dropWhile]
    have hcomments := weavesAll_flatMap weavesAll_modifierComment printed
    have hbreak := weavesAll_modifierBreak owner p printed (some q.node)
    refine ⟨d, _, hdoc, hd, modifierParts_cons_of_ok rfl hdoc hparts, ?_⟩
    refine ((hcomments.append hbreak).append (.cons he hmore)).congr (by simp) ?_
    rw [hsplit, shares_cons, add_zero]
    ac_rfl

/-! ## The end of a gap -/

/-- A gap between two modifiers breaks the line behind a line comment that is its last one. -/
theorem weaves_gap (owner : Option NodeKind) (p : Piece) (printed : List AttachedComment)
    (following : Tree) :
    Weaves (.concat (printed.flatMap modifierComment ++
      modifierBreak owner p printed (some following))) [] (gapRemarks printed) := by
  have hbreak := weavesAll_modifierBreak owner p printed (some following)
  have hends : printed.getLast?.any (·.comment.isLine) = true →
      modifierBreak owner p printed (some following) = [hardline] := by
    intro hline
    simp [modifierBreak, hline]
  generalize modifierBreak owner p printed (some following) = breaks at hbreak hends
  induction printed with
  | nil => exact hbreak.concat
  | cons a as ih =>
    cases as with
    | nil =>
      by_cases hline : a.comment.isLine = true
      · have hcomment := (Each.single empty_blank).concat.concat_append
          (weaves_comment_hardline ⟨a, true⟩)
        rw [hends (by simpa using hline)]
        exact hcomment.congr rfl (zero_add _)
      · have hfree : ¬Remark.EndsLine ⟨a, true⟩ := fun h => hline h.2.1
        have hcomment := (Each.skip empty_blank (.single (weaves_comment hfree))).append hbreak
        exact hcomment.concat.congr rfl (add_zero _)
    | cons b as =>
      have hrest := ih fun hline => hends (by simpa using hline)
      have hall := (weavesAll_modifierComment a).concat.concat_append hrest
      rw [List.flatMap_cons, List.append_assoc]
      exact hall

/-- Comments still to be printed are printed with the modifiers that follow, the last one in
front of a modifier being bound. -/
theorem yields_modifierParts (owner : Option NodeKind) (pending : List AttachedComment)
    {ps : List Piece} (hne : ps ≠ []) (h : ∀ p ∈ ps, p.Complete share) :
    ∃ ds, modifierParts owner pending ps = .ok ds ∧ Weaves (.concat ds) (texts ps)
      (modifierRemarks (ps.map Piece.node) pending + shares share ps) := by
  induction ps generalizing pending with
  | nil => exact absurd rfl hne
  | cons p ps ih =>
    obtain ⟨hp, hps⟩ := List.forall_mem_cons.mp h
    obtain ⟨d, hdoc, hd⟩ := hp.doc
    cases ps with
    | nil =>
      have hall : pending.takeWhile (comesBefore none) = pending :=
        List.takeWhile_eq_self_iff.mpr fun a _ => rfl
      have hcomments := Each.cons hd (weavesAll_flatMap weavesAll_modifierComment pending)
      refine ⟨d :: pending.flatMap modifierComment, ?_, hcomments.concat.congr rfl ?_⟩
      · rw [modifierParts_cons_of_ok rfl hdoc rfl]
        simp [hall, modifierBreak]
      · rw [shares_cons, shares_nil, add_zero, add_comm]
        rfl
    | cons next ps =>
      obtain ⟨more, hparts, hmore⟩ :=
        ih (pending.dropWhile (comesBefore (some next.node))) (List.cons_ne_nil _ _) hps
      refine ⟨_, modifierParts_cons_of_ok rfl hdoc hparts, ?_⟩
      have hgap := weaves_gap owner p (pending.takeWhile (comesBefore (some next.node))) next.node
      have hall := ((Each.single hd).concat.concat_append hgap).concat_append hmore
      refine hall.congr (by simp) ?_
      simp only [List.map_cons, modifierRemarks, shares_cons, ← Multiset.coe_add]
      ac_rfl

/-! ## Two modifiers next to each other -/

/-- The modifiers in front of one are printed with the comments that come before one of them or
before it, and the others are left. -/
theorem exists_modifierParts_append (owner : Option NodeKind) (pending : List AttachedComment)
    {ps₁ ps₂ : List Piece} {p : Piece} (h : ∀ q ∈ ps₁ ++ p :: ps₂, q.Complete share) :
    ∃ ds skipped left more, pending = skipped ++ left ∧
      (∀ a ∈ skipped, ∃ q ∈ ps₁ ++ [p], comesBefore (some q.node) a = true) ∧
      WeavesAll ds (texts ps₁) (remarksOf false skipped + shares share ps₁) ∧
      modifierParts owner left (p :: ps₂) = .ok more ∧
      modifierParts owner pending (ps₁ ++ p :: ps₂) = .ok (ds ++ more) := by
  induction ps₁ generalizing pending with
  | nil =>
    obtain ⟨d, more, -, -, hparts, -⟩ := exists_modifierParts_cons owner pending h
    exact ⟨[], [], pending, d :: more, rfl, by simp, .nil, hparts, hparts⟩
  | cons q qs ih =>
    obtain ⟨hq, hqs⟩ := List.forall_mem_cons.mp h
    obtain ⟨d, hdoc, hd⟩ := hq.doc
    obtain ⟨next, hnext, hmem⟩ :
        ∃ next, (qs ++ p :: ps₂).head?.map Piece.node = some next.node ∧ next ∈ qs ++ [p] := by
      cases qs with
      | nil => exact ⟨p, rfl, List.mem_singleton_self p⟩
      | cons next qs => exact ⟨next, rfl, List.mem_cons_self⟩
    set printed := pending.takeWhile (comesBefore (some next.node)) with hprinted
    set left := pending.dropWhile (comesBefore (some next.node)) with hleft
    obtain ⟨ds, skipped, left', more, hsplit, hskipped, hds, hparts, hall⟩ := ih left hqs
    have hcomments := weavesAll_flatMap weavesAll_modifierComment printed
    have hbreak := weavesAll_modifierBreak owner q printed (some next.node)
    have hprint := modifierParts_cons_of_ok hnext hdoc hall
    rw [← List.append_assoc] at hprint
    refine ⟨_, printed ++ skipped, left', more, ?_, ?_, ?_, hparts, hprint⟩
    · rw [List.append_assoc, ← hsplit, List.takeWhile_append_dropWhile]
    · intro a ha
      rcases List.mem_append.mp ha with ha | ha
      · exact ⟨next, List.mem_cons_of_mem q hmem, List.mem_takeWhile_imp ha⟩
      · obtain ⟨r, hr, hbefore⟩ := hskipped a ha
        exact ⟨r, List.mem_cons_of_mem q hr, hbefore⟩
    · refine (((Each.cons hd hcomments).append hbreak).append hds).congr (by simp) ?_
      rw [shares_cons, remarksOf_append, add_zero]
      ac_rfl

/-- What two modifiers that are next to each other are printed as, with what is printed in front
of them, between them and behind them. -/
theorem exists_modifierParts_pair (owner : Option NodeKind) (pending : List AttachedComment)
    {ps₁ ps₂ : List Piece} {p next : Piece} (h : ∀ q ∈ ps₁ ++ p :: next :: ps₂, q.Complete share) :
    ∃ ds d e more skipped printed left, pending = skipped ++ (printed ++ left) ∧
      (∀ a ∈ skipped, ∃ q ∈ ps₁ ++ [p], comesBefore (some q.node) a = true) ∧
      printed = (printed ++ left).takeWhile (comesBefore (some next.node)) ∧
      WeavesAll ds (texts ps₁) (remarksOf false skipped + shares share ps₁) ∧
      p.doc = .ok d ∧ next.doc = .ok e ∧
      WeavesAll more (texts ps₂) (remarksOf false left + shares share ps₂) ∧
      modifierParts owner pending (ps₁ ++ p :: next :: ps₂) =
        .ok (ds ++ (d :: printed.flatMap modifierComment ++
          modifierBreak owner p printed (some next.node) ++ e :: more)) := by
  obtain ⟨ds, skipped, left, parts, hsplit, hskipped, hds, hparts, hall⟩ :=
    exists_modifierParts_append owner pending h
  obtain ⟨-, hpair⟩ := List.forall_mem_append.mp h
  obtain ⟨hp, hnext⟩ := List.forall_mem_cons.mp hpair
  obtain ⟨d, hdoc, -⟩ := hp.doc
  obtain ⟨e, more, he, -, hrest, hmore⟩ :=
    exists_modifierParts_cons owner (left.dropWhile (comesBefore (some next.node))) hnext
  have hhead : (next :: ps₂).head?.map Piece.node = some next.node := rfl
  have hprint := modifierParts_cons_of_ok hhead hdoc hrest
  obtain rfl := Except.ok.inj (hparts.symm.trans hprint)
  exact ⟨ds, d, e, more, skipped, left.takeWhile (comesBefore (some next.node)), _,
    by rw [List.takeWhile_append_dropWhile, hsplit], hskipped,
    by rw [List.takeWhile_append_dropWhile], hds, hdoc, he, hmore, hall⟩

/-- A list of modifiers prints its modifiers and the comments inside it. -/
theorem Site.Ready.yields_modifiers {s : Site} (h : s.Ready share)
    (hs : s.node.children ≠ []) :
    Yields s.modifiers (texts s.children)
      (modifierRemarks s.node.children s.comments.dangling + shares share s.children) := by
  have hne : s.children ≠ [] := by
    intro hnil
    have hnodes := h.nodes
    rw [hnil] at hnodes
    exact hs hnodes.symm
  obtain ⟨ds, hparts, hds⟩ := yields_modifierParts s.parent s.comments.dangling hne h.complete
  rw [h.nodes] at hds
  exact ⟨cat ds, by rw [Site.modifiers, hparts]; rfl, hds.cat⟩

end JavaFormat.Layout
