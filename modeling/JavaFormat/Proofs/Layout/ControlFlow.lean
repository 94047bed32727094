import JavaFormat.Layout.ControlFlow
import JavaFormat.Proofs.Layout.Members
import JavaFormat.Proofs.Layout.Spacing

/-!
# Control flow loses nothing

Wherever the statement of a header goes, it is printed once, and so is every label of
a switch, with the colon behind it.
-/

namespace JavaFormat.Layout

open Doc

variable {share : Tree → Multiset Remark}

/-! ## Statements with a header -/

/-- The statement of a header is printed, on whichever line. -/
theorem yields_headedBody (header : List Piece) (hne : header ≠ []) {body : Piece}
    (h : body.Inner share) :
    Yields (headedBody header body) body.node.leafTexts (share body.node) := by
  unfold headedBody
  split
  · rw [List.getLast?_eq_some_getLast hne]
    refine h.doc.bind fun d hd => .pure ?_
    have hall := (Each.skip (empty_continuation (header.getLast hne)) (.single hd)).cat
    exact hall
  · split
    · rename_i htoken
      exact .pure (h.weaves_token htoken)
    · refine h.doc.bind fun d hd => ?_
      split
      · exact .pure (Each.skip empty_hardline (.single hd)).indented
      · have hindented := (Each.skip empty_space (.single hd)).indented
        exact .pure (Each.single hindented).grouped

/-- What stands in front of a keyword is empty. -/
theorem empty_beforeKeyword (body : Piece) : Empty (beforeKeyword body) := by
  unfold beforeKeyword
  split
  · exact empty_continuation body
  · exact empty_hardline

/-- What follows an `else` is printed. -/
theorem yieldsAll_alternativeParts (keyword : Piece) {alternative : Piece}
    (h : alternative.Inner share) :
    YieldsAll (alternativeParts keyword alternative) alternative.node.leafTexts
      (share alternative.node) := by
  unfold alternativeParts
  split
  · exact h.doc.bind fun d hd => .pure (.skip empty_blank (.single hd))
  · exact (yields_headedBody [keyword] (by simp) h).bind fun d hd => .pure (.single hd)

namespace Site.Ready

variable {s : Site}

/-- A conditional statement prints its condition, its statement and what is behind an
`else`. -/
theorem yields_ifStatement (h : s.Ready share)
    (hs : Shape.Allowed .ifStatement s.node.children) :
    Yields s.ifStatement (texts s.children) (shares share s.children) := by
  obtain ⟨k, c, b, more, hps, hmore⟩ := Site.exists_conditional h.nodes hs
  have hk := (h.inner k (by simp [hps])).doc
  have hc := (h.inner c (by simp [hps])).doc
  have hb := yields_headedBody [k, c] (by simp) (h.inner b (by simp [hps]))
  have helse : YieldsAll (elseParts b more) (texts more) (shares share more) := by
    rcases hmore with rfl | ⟨e, a, rfl⟩
    · exact .pure .nil
    · have he := (h.inner e (by simp [hps])).doc
      have ha := yieldsAll_alternativeParts e (h.inner a (by simp [hps]))
      refine he.bind fun d hd => ha.bind fun ds hds => .pure ?_
      have hall := Each.skip (empty_beforeKeyword b) (.cons hd hds)
      exact hall.congr (by simp) (by simp)
  rw [Site.ifStatement, hps]
  refine hk.bind fun d₁ h₁ => hc.bind fun d₂ h₂ => hb.bind fun d₃ h₃ => helse.bind
    fun ds hds => .pure ?_
  have hfront := Each.cons h₁ (.skip empty_blank (.cons h₂ (.single h₃)))
  exact (hfront.append hds).cat.congr (by simp) (by simp [add_assoc])

/-- A loop prints its header and its statement. -/
theorem yields_loop (h : s.Ready share) (hs : 2 ≤ s.node.children.length) :
    Yields s.loop (texts s.children) (shares share s.children) := by
  have hlength : 2 ≤ s.children.length := by
    rw [← h.nodes, List.length_map] at hs
    exact hs
  have hne : s.children ≠ [] := by
    intro hnil
    rw [hnil, List.length_nil] at hlength
    omega
  have hheader : s.children.dropLast ≠ [] := by
    intro hnil
    have hdrop := congrArg List.length hnil
    rw [List.length_dropLast, List.length_nil] at hdrop
    omega
  have hsplit := List.dropLast_append_getLast hne
  have hbody := h.inner _ (List.getLast_mem hne)
  have hcomplete : ∀ p ∈ s.children.dropLast, p.Complete share :=
    fun p hp => h.complete p (List.dropLast_subset _ hp)
  have hhead := yields_sequence s.node.kind .standard hcomplete
  have ht : texts s.children =
      texts s.children.dropLast ++ (s.children.getLast hne).node.leafTexts := by
    conv_lhs => rw [← hsplit]
    simp
  have hsh : shares share s.children =
      shares share s.children.dropLast + share (s.children.getLast hne).node := by
    conv_lhs => rw [← hsplit]
    simp
  rw [ht, hsh, Site.loop, List.getLast?_eq_some_getLast hne]
  refine hhead.bind fun d₁ h₁ => (yields_headedBody _ hheader hbody).bind fun d₂ h₂ => .pure ?_
  exact (Each.cons h₁ (.single h₂)).cat.congr (by simp) (by simp)

/-- A loop with its condition behind prints its statement and its condition. -/
theorem yields_doLoop (h : s.Ready share) (hs : 2 ≤ s.node.children.length) :
    Yields s.doLoop (texts s.children) (shares share s.children) := by
  have hlength : 2 ≤ s.children.length := by
    rw [← h.nodes, List.length_map] at hs
    exact hs
  unfold Site.doLoop
  split
  · rename_i keyword body tail hps
    have hk := (h.inner keyword (by simp [hps])).doc
    have hb := yields_headedBody [keyword] (by simp) (h.inner body (by simp [hps]))
    have hcomplete : ∀ p ∈ tail, p.Complete share := fun p hp => h.complete p (by simp [hps, hp])
    have hrest := yields_sequence s.node.kind .standard hcomplete
    refine hk.bind fun d₁ h₁ => hb.bind fun d₂ h₂ => hrest.bind fun d₃ h₃ => .pure ?_
    have hall := (Each.cons h₁ (.cons h₂ (.skip (empty_beforeKeyword body) (.single h₃)))).cat
    rw [hps]
    exact hall.congr (by simp) (by simp)
  · rename_i hshort
    match hps : s.children, hlength with
    | keyword :: body :: tail, _ => exact absurd hps (hshort keyword body tail)

end Site.Ready

/-! ## Switches -/

/-- The labels that are read off the children of a group have the leaves and comments of those that
are no statements. Each child in turn is a statement or one more label. -/
theorem succeeds_switchLabels {ps : List Piece} (h : ∀ p ∈ ps, p.Inner share)
    {labels : List Doc} (lastLabel : Option Piece) {ls : List String}
    {cs : Multiset Remark} (hl : WeavesAll labels.reverse ls cs) :
    Succeeds (switchLabels labels lastLabel ps) fun g =>
      (∀ p ∈ g.statements, p ∈ ps) ∧ ∃ ls' cs', WeavesAll g.labels.reverse ls' cs' ∧
        ls ++ texts ps = ls' ++ texts g.statements ∧
        cs + shares share ps = cs' + shares share g.statements := by
  induction ps generalizing labels lastLabel ls cs with
  | nil => exact .pure ⟨by simp, ls, cs, hl, rfl, rfl⟩
  | cons p ps ih =>
    obtain ⟨hp, hps⟩ := List.forall_mem_cons.mp h
    have hnext : ∀ {more : List Doc} (last : Option Piece),
        WeavesAll more.reverse (ls ++ p.node.leafTexts) (cs + share p.node) →
        Succeeds (switchLabels more last ps) fun g =>
          (∀ q ∈ g.statements, q ∈ p :: ps) ∧ ∃ ls' cs', WeavesAll g.labels.reverse ls' cs' ∧
            ls ++ texts (p :: ps) = ls' ++ texts g.statements ∧
            cs + shares share (p :: ps) = cs' + shares share g.statements := by
      intro more last hmore
      obtain ⟨g, hok, hmem, ls', cs', hw, ht, hc⟩ := ih hps last hmore
      refine ⟨g, hok, fun q hq => List.mem_cons_of_mem _ (hmem q hq), ls', cs', hw, ?_, ?_⟩
      · rw [texts_cons, ← List.append_assoc, ht]
      · rw [shares_cons, ← add_assoc, hc]
    rcases switchLabels_cons labels lastLabel p ps with
      ⟨label, before, rfl, hcolon, heq⟩ | ⟨-, ⟨-, heq⟩ | ⟨-, heq⟩⟩
    all_goals rw [heq]
    · refine hnext lastLabel ?_
      obtain ⟨htext, hshare⟩ := hp.of_isToken hcolon
      rw [List.reverse_cons] at hl
      obtain ⟨ls₁, ls₂, cs₁, cs₂, hbefore, hlabel, rfl, rfl⟩ := hl.of_append
      have hclosed := (hlabel.append (.single (weaves_text ":"))).cat
      rw [List.reverse_cons, htext, hshare]
      exact (hbefore.append (.single hclosed)).congr (by simp) (by simp)
    · refine hp.doc.bind fun d hd => hnext (some p) ?_
      rw [List.reverse_cons]
      exact hl.append (.single hd)
    · exact .pure ⟨fun q hq => hq, ls, cs, hl, rfl, rfl⟩

/-- A group of a switch prints its labels and its statements. -/
theorem Site.Ready.yields_switchGroup {s : Site} (h : s.Ready share) :
    Yields s.switchGroup (texts s.children) (shares share s.children) := by
  unfold Site.switchGroup
  refine (succeeds_switchLabels h.inner none .nil).bind ?_
  rintro ⟨labels, lastLabel, statements⟩ ⟨hmem, ls, cs, hlabels, ht, hc⟩
  rw [List.nil_append] at ht
  rw [zero_add] at hc
  rw [ht, hc]
  have hhead := hlabels.join empty_hardline
  have hstatements : ∀ p ∈ statements, p.Complete share := fun p hp => h.complete p (hmem p hp)
  have hmembers : Yields (members s.source Gap.none statements) (texts statements)
      (shares share statements) := yields_members s.source Gap.none hstatements
  match statements with
  | [] => exact .pure (hhead.congr (by simp) (by simp))
  | [statement] =>
    dsimp only
    split
    · have hd := (hstatements statement (by simp)).doc
      refine hd.bind fun d hd => .pure ?_
      have hgap : ∀ b : Bool, Empty (if b then hardline else .text " ") := by
        intro b
        cases b
        · exact empty_blank
        · exact empty_hardline
      exact (Each.cons hhead (.skip (hgap _) (.single hd))).cat.congr (by simp) (by simp)
    · refine hmembers.bind fun d hd => .pure ?_
      have hbody := (Each.skip empty_hardline (.single hd)).indented
      exact (Each.cons hhead (.single hbody)).cat
  | first :: second :: others =>
    refine hmembers.bind fun d hd => .pure ?_
    have hbody := (Each.skip empty_hardline (.single hd)).indented
    exact (Each.cons hhead (.single hbody)).cat

end JavaFormat.Layout
