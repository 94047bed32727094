import JavaFormat.Layout.Operators
import JavaFormat.Proofs.Layout.Complete
import JavaFormat.Proofs.Layout.Sites

/-!
# Operators lose nothing

A chain of operators takes the place of the expressions at its left end. The comments
in front of these are printed in front of the chain, those behind them behind the
operand that they end with.
-/

namespace JavaFormat.Layout

open Doc

variable {share : Tree → Multiset Remark}

/-! ## Assignments -/

/-- An assignment prints its target, the operator and its value. -/
theorem yields_assignment {left : Doc} {ls : List String} {cs : Multiset Remark}
    (hl : Weaves left ls cs) (operator : String) {right : Piece} (hr : right.Complete share) :
    Yields (assignment left operator right) (ls ++ operator :: right.node.leafTexts)
      (cs + share right.node) := by
  have ho := weaves_text operator
  refine hr.doc.bind fun d hd => ?_
  split
  · have hvalue := (Each.skip empty_space (.single hd)).indented
    have hall := (Each.cons hl (.skip empty_blank (.cons ho (.single hvalue)))).grouped
    exact .pure (hall.congr (by simp) (by simp))
  · have hall := (Each.cons hl (.skip empty_blank (.cons ho (.skip empty_blank (.single hd))))).cat
    exact .pure (hall.congr (by simp) (by simp))

namespace Site.Ready

variable {s : Site}

/-- An assignment is printed with its leaves in order and its comments. -/
theorem yields_assignment (h : s.Ready share)
    (hs : Shape.Allowed .assignmentExpression s.node.children) :
    Yields s.assignment (texts s.children) (shares share s.children) := by
  obtain ⟨left, operator, right, hc, hk, htext⟩ := hs
  obtain ⟨l, o, r, hps, rfl, rfl, rfl⟩ := Site.exists_triple h.nodes hc
  have hl := (h.inner l (by simp [hps])).doc
  have ho := h.inner o (by simp [hps])
  have hr := h.complete r (by simp [hps])
  have hwritten : (if o.text.isEmpty then "=" else o.text) = o.text := by
    have hne : o.text.isEmpty = false := by simpa [Piece.text] using htext
    rw [hne]
    rfl
  have ht : texts s.children = l.node.leafTexts ++ o.text :: r.node.leafTexts := by
    rw [hps]
    simp [ho.leafTexts_of_token hk]
  have hsh : shares share s.children = share l.node + share r.node := by
    rw [hps]
    simp [ho.token hk]
  rw [ht, hsh, Site.assignment, hps]
  dsimp only
  rw [hwritten]
  exact hl.bind fun d hd => Layout.yields_assignment hd o.text hr

/-- A variable prints its name and its initializer. -/
theorem yields_variableDeclarator (h : s.Ready share)
    (hs : Shape.Declarator s.node.children) :
    Yields s.variableDeclarator (texts s.children) (shares share s.children) := by
  obtain ⟨ps, qs, hps, htake, hdrop, hright⟩ := Site.exists_declarator h.nodes hs
  have hname : YieldsAll (docs ps) (texts ps) (shares share ps) :=
    yieldsAll_docs fun p hp => h.complete p (by simp [hps, hp])
  rw [Site.variableDeclarator, htake, hdrop, hps]
  rcases hright with rfl | ⟨q, r, rfl, hsign⟩
  · rw [List.append_nil]
    exact hname.bind fun ds hds => .pure hds.cat
  · obtain ⟨hqt, hqs⟩ := (h.inner q (by simp [hps])).of_isToken hsign
    have hr := h.complete r (by simp [hps])
    refine hname.bind fun ds hds => ?_
    have ht : texts (ps ++ [q, r]) = texts ps ++ "=" :: r.node.leafTexts := by simp [hqt]
    have hsh : shares share (ps ++ [q, r]) = shares share ps + share r.node := by simp [hqs]
    rw [ht, hsh]
    exact Layout.yields_assignment hds.cat "=" hr

end Site.Ready

/-! ## Chains -/

/-- An operator and its operand print as these two. -/
theorem weaves_operation (operator : String) {operand : Doc} {ls : List String}
    {cs : Multiset Remark} (h : Weaves operand ls cs) :
    Weaves (operation operator operand) (operator :: ls) cs := by
  have hall := (Each.skip empty_blank (.cons (weaves_text operator)
    (.skip empty_space (.single h)))).cat
  exact hall.congr (by simp) (by simp)

/-- A binary expression as a link: the operator, the right operand and the comments
around the expression. -/
theorem linked_operatorLink (comments : NodeComments) (left : Piece) {operator right : Piece}
    (ho : operator.Inner share) (hk : operator.kind = .token) (hr : right.Complete share) :
    Linked OperatorLink.leading OperatorLink.doc (operatorLink comments [left, operator, right])
      (operator.node.leafTexts ++ right.node.leafTexts)
      (remarks comments.leading + (share right.node + remarks comments.trailing)) := by
  refine ⟨_, _, weaves_leadingDoc comments, ?_, rfl⟩
  rw [ho.leafTexts_of_token hk]
  refine Succeeds.bind (P := fun x => x.1 = operator.text ∧
    Weaves x.2 right.node.leafTexts (share right.node)) ?_ ?_
  · exact hr.doc.bind fun d hd => .pure ⟨rfl, hd⟩
  · rintro ⟨text, operand⟩ ⟨rfl, hd⟩
    have hboth := (Each.cons hd (.single (weaves_trailingDoc comments.trailing))).cat
    exact .pure (weaves_operation operator.text (hboth.congr (by simp) rfl))

/-- A chain that is extended prints its left operand in front of its last link,
whether or not the operand is a chain of the same level. -/
theorem succeeds_extendChain (level : Nat) {left : Piece} (hl : left.Complete share)
    (link : OperatorLink) :
    Succeeds (extendChain level left link) fun c => c.last = link ∧
      Chained OperatorLink.leading OperatorLink.doc c.first c.inner left.node.leafTexts
        (share left.node) := by
  have halone : Chained OperatorLink.leading OperatorLink.doc left.doc [] left.node.leafTexts
      (share left.node) := .start hl.doc
  unfold extendChain
  cases hops : left.operators with
  | none => exact .pure ⟨rfl, halone⟩
  | some found =>
    refine (hl.operators found hops).bind fun c hc => ?_
    split
    · exact .pure ⟨rfl, hc⟩
    · exact .pure ⟨rfl, halone⟩

/-- The chain of a binary expression: its left operand in front of its own link. -/
theorem succeeds_operatorChain (comments : NodeComments) {left operator right : Piece}
    (hl : left.Complete share) (hop : (precedence? operator.text).isSome) :
    Succeeds (operatorChain comments [left, operator, right]) fun c =>
      c.last = operatorLink comments [left, operator, right] ∧
        Chained OperatorLink.leading OperatorLink.doc c.first c.inner left.node.leafTexts
          (share left.node) := by
  obtain ⟨level, hlevel⟩ := Option.isSome_iff_exists.mp hop
  rw [operatorChain, hlevel]
  exact succeeds_extendChain level hl _

namespace Site.Ready

variable {s : Site}

/-- The operands and the operator of a binary expression. -/
theorem children_binary (h : s.Ready share)
    (hs : Shape.Allowed .binaryExpression s.node.children) :
    ∃ left operator right, s.children = [left, operator, right] ∧ left.node.isNamed ∧
      operator.kind = .token ∧ (precedence? operator.text).isSome := by
  obtain ⟨left, operator, right, hc, hn, hk, hop⟩ := hs
  obtain ⟨l, o, r, hps, rfl, rfl, rfl⟩ := Site.exists_triple h.nodes hc
  exact ⟨l, o, r, hps, hn, hk, hop⟩

/-- What a binary expression offers its parent as a chain has all of its leaves and
comments. -/
theorem succeeds_operators (h : s.Ready share)
    (hs : Shape.Allowed .binaryExpression s.node.children) :
    Succeeds (operatorChain s.comments s.children) (OperatorChain.Weaves · (texts s.children)
      (remarks s.comments.leading + remarks s.comments.trailing + shares share s.children)) := by
  obtain ⟨left, operator, right, hc, -, hk, hop⟩ := h.children_binary hs
  have hl := h.complete left (by simp [hc])
  have ho := h.inner operator (by simp [hc])
  have hr := h.complete right (by simp [hc])
  rw [hc]
  obtain ⟨c, hok, hlast, hchain⟩ := succeeds_operatorChain s.comments hl hop
  refine ⟨c, hok, ?_⟩
  have hlink := linked_operatorLink s.comments left ho hk hr
  rw [← hlast] at hlink
  have hall := hchain.extend hlink
  have ht : left.node.leafTexts ++ (operator.node.leafTexts ++ right.node.leafTexts) =
      texts [left, operator, right] := by simp
  have hcs : share left.node + (remarks s.comments.leading +
      (share right.node + remarks s.comments.trailing)) =
      remarks s.comments.leading + remarks s.comments.trailing +
        shares share [left, operator, right] := by
    simp only [shares_cons, shares_nil, ho.token hk, zero_add, add_zero]
    ac_rfl
  rw [ht, hcs] at hall
  exact hall

/-- A binary expression prints its operands and operators, and the comments around
the expressions at its left end. -/
theorem yields_binary (h : s.Ready share)
    (hs : Shape.Allowed .binaryExpression s.node.children) :
    Yields s.binary (texts s.children) (shares share s.children) := by
  obtain ⟨left, operator, right, hc, -, hk, hop⟩ := h.children_binary hs
  have hl := h.complete left (by simp [hc])
  have ho := h.inner operator (by simp [hc])
  have hr := h.complete right (by simp [hc])
  have ht : texts s.children = left.node.leafTexts ++ operator.text :: right.node.leafTexts := by
    rw [hc]
    simp [ho.leafTexts_of_token hk]
  have hsh : shares share s.children = share left.node + share right.node := by
    rw [hc]
    simp [ho.token hk]
  rw [ht, hsh, Site.binary, hc]
  refine (succeeds_operatorChain s.comments hl hop).bind ?_
  rintro c ⟨hlast, ls₁, ls₂, cs₁, cs₂, hfirst, hlinks, htl, hsl⟩
  obtain ⟨front, rest, hleads, hdocs, rfl⟩ := hlinks.unlink
  rw [hlast, htl, hsl]
  refine hfirst.bind fun first hfirst => hdocs.bind fun inner hinner => ?_
  refine Succeeds.bind (P := fun x => x.1 = operator.text ∧
    Weaves x.2 right.node.leafTexts (share right.node)) ?_ ?_
  · exact hr.doc.bind fun d hd => .pure ⟨rfl, hd⟩
  rintro ⟨text, operand⟩ ⟨rfl, hd⟩
  have hrest := hinner.append (.single (weaves_operation operator.text hd))
  have hcs : front + (cs₁ + (rest + share right.node)) =
      cs₁ + (front + rest) + share right.node := by ac_rfl
  dsimp only
  split
  · have hall := (hleads.append (.single (Each.cons hfirst hrest).grouped)).cat
    exact .pure (hall.congr (by simp) hcs)
  · have hall := (hleads.append (.single (Each.cons hfirst (.single hrest.indented)).grouped)).cat
    exact .pure (hall.congr (by simp) hcs)

/-! ## Other operators -/

/-- A choice between two expressions writes its two signs anew. -/
theorem yields_ternary (h : s.Ready share)
    (hs : Shape.Allowed .ternaryExpression s.node.children) :
    Yields s.ternary (texts s.children) (shares share s.children) := by
  obtain ⟨a, m, b, n, c, hps, hmark, hcolon⟩ := Site.exists_ternary h.nodes hs
  have ha := (h.inner a (by simp [hps])).doc
  have hb := (h.inner b (by simp [hps])).doc
  have hc := (h.inner c (by simp [hps])).doc
  obtain ⟨hmt, hms⟩ := (h.inner m (by simp [hps])).of_isToken hmark
  obtain ⟨hnt, hns⟩ := (h.inner n (by simp [hps])).of_isToken hcolon
  have hmark : Weaves (.text "? ") ["?"] 0 := weaves_text_blank "?"
  have hcolon : Weaves (.text ": ") [":"] 0 := weaves_text_blank ":"
  rw [Site.ternary, hps]
  refine ha.bind fun d₁ h₁ => hb.bind fun d₂ h₂ => hc.bind fun d₃ h₃ => .pure ?_
  have hinner := (Each.skip empty_space (.cons hmark (.cons h₂
    (.skip empty_space (.cons hcolon (.single h₃)))))).indented
  have hall := (Each.cons h₁ (.single hinner)).grouped
  exact hall.congr (by simp [hmt, hnt]) (by simp [hms, hns])

/-- Parentheses are written anew around what is between them. -/
theorem yields_parenthesized (h : s.Ready share)
    (hs : Shape.Allowed .parenthesizedExpression s.node.children) :
    Yields s.parenthesized (texts s.children) (shares share s.children) := by
  obtain ⟨first, inner, last, hc, hfirst, hinner, hlast⟩ := hs
  obtain ⟨p, q, r, hps, rfl, rfl, rfl⟩ := Site.exists_triple h.nodes hc
  obtain ⟨hpt, hpsh⟩ := (h.inner p (by simp [hps])).of_isToken hfirst
  obtain ⟨hrt, hrsh⟩ := (h.inner r (by simp [hps])).of_isToken hlast
  have hnamed : s.named = [q] := by
    rw [Site.named, hps]
    simp [Tree.isNamed_of_isToken hfirst, Tree.isNamed_of_isToken hlast, hinner]
  have hdocs := yieldsAll_docs h.complete_named
  rw [Site.parenthesized, hps]
  refine hdocs.bind fun ds hds => .pure ?_
  rw [hnamed] at hds
  have hcontents := (Each.skip empty_softline hds).indented
  have hall := (Each.cons (weaves_text "(") (.cons hcontents
    (.skip empty_softline (.single (weaves_text ")"))))).grouped
  exact hall.congr (by simp [hpt, hrt]) (by simp [hpsh, hrsh])

/-- A sign prints in front of its operand. -/
theorem yields_unary (h : s.Ready share)
    (hs : Shape.Allowed .unaryExpression s.node.children) :
    Yields s.unary (texts s.children) (shares share s.children) := by
  obtain ⟨operator, operand, hc, hk⟩ := hs
  obtain ⟨p, q, hps, rfl, rfl⟩ := Site.exists_pair h.nodes hc
  have hp := h.inner p (by simp [hps])
  have hq := (h.inner q (by simp [hps])).doc
  have hgap : Empty (.text (if wouldFuse p.text q.node.firstLeaf.text then " " else "")) := by
    split
    · exact empty_blank
    · exact empty_text
  rw [Site.unary, hps]
  refine hq.bind fun d hd => .pure ?_
  have hall := (Each.cons (weaves_text p.text) (.skip hgap (.single hd))).cat
  exact hall.congr (by simp [hp.leafTexts_of_token hk]) (by simp [hp.token hk])

end Site.Ready

end JavaFormat.Layout
