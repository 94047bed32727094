import JavaFormat.Proofs.Layout.SpotRules

/-!
# Expressions and statements fix few line breaks

How an expression is broken is up to the renderer, so no number of breaks is fixed inside it. In
the header of a loop a number is fixed behind modifiers, as on any other line, and in a group of
a switch in front of the statements, as in any other body.
-/

namespace JavaFormat.Layout

open Doc

variable {spots : Piece → List Spot} {s : Site} {p : Piece} {ps : List Piece}

/-! ## Operators -/

/-- A document that may stand in front of one that begins with a leaf. -/
def Leads (d : Doc) (ws : List Spot) : Prop :=
  ∀ {ds vs}, PlacesAll ds vs → PlacesAll (d :: ds) (ws ++ vs)

/-- What places spots leads to them. -/
theorem Places.leads {d : Doc} {ws : List Spot} (h : Places d ws) : Leads d ws :=
  fun hds => h.cons (hds.strings (some 0) none (by simp))

/-- Nothing leads to no spots. -/
theorem leads_nothing : Leads (cat []) [] :=
  fun hds => ⟨hds.ne_nil, fun b k hb => .skip StringsAll.nil.cat (hds.strings b k hb)⟩

/-- An assignment. -/
theorem places_assignment {left : Doc} {ws : List Spot} (hleft : Leads left ws)
    (operator : String) (h : p.Spotted (spots p)) :
    Ensures (assignment left operator p) (Places · (ws ++ ⟨none, operator⟩ :: spots p)) := by
  refine h.doc.bind fun d hd => ?_
  split
  · have hvalue : Strings (some 0) (indented [space, d]) (spots p) (some 0) :=
      (StringsAll.slack slack_space hd.last).indented
    exact .pure (hleft ((places_text operator).cons (.single hvalue)).behind_blank).grouped
  · exact .pure (hleft ((places_text operator).cons
      (.skip strings_blank hd.last)).behind_blank).cat

/-- Documents each of which begins with a leaf, one after the other. -/
theorem PlacesEach.onward {ds : List Doc} {wss : List (List Spot)} (h : PlacesEach ds wss) :
    Onward ds wss.flatten :=
  onward_of_trails (h.imp fun _ _ hd b => hd.free b)

/-- Documents that place their spots one by one place all of them. -/
theorem PlacesEach.placesAll {ds : List Doc} {wss : List (List Spot)} (h : PlacesEach ds wss)
    (hne : ds ≠ []) : PlacesAll ds wss.flatten := by
  cases h with
  | nil => exact absurd rfl hne
  | cons hd hds => exact hd.cons (PlacesEach.onward hds)

namespace Site.Spotted

/-- An assignment expression. -/
theorem assignment (h : s.Spotted spots)
    (hs : Shape.Allowed .assignmentExpression s.node.children) :
    Ensures s.assignment (Places · (knit spots [] s.children)) := by
  obtain ⟨left, operator, right, hc, hk, htext⟩ := hs
  obtain ⟨l, o, r, hps, rfl, rfl, rfl⟩ := Site.exists_triple h.nodes hc
  have ho := (h.children o (by simp [hps])).token hk
  have hwritten : (if o.text.isEmpty then "=" else o.text) = o.text := by
    have hne : o.text.isEmpty = false := by simpa [Piece.text] using htext
    rw [hne]
    rfl
  have hspots : knit spots [] s.children = spots l ++ ⟨none, o.text⟩ :: spots r := by
    rw [hps]
    simp [ho]
  rw [hspots, Site.assignment, hps]
  dsimp only
  rw [hwritten]
  exact (h.children l (by simp [hps])).doc.bind fun d hd =>
    places_assignment hd.leads o.text (h.children r (by simp [hps]))

/-- A variable with its initializer, if it has one. -/
theorem variableDeclarator (h : s.Spotted spots)
    (hs : Shape.Allowed .variableDeclarator s.node.children) (hne : s.children ≠ []) :
    Ensures s.variableDeclarator (Places · (knit spots [] s.children)) := by
  obtain ⟨left, right, hps, htake, hdrop, hright⟩ := Site.exists_declarator h.nodes hs
  have hchildren := h.children
  rw [Site.variableDeclarator, htake, hdrop]
  rw [hps] at hchildren hne ⊢
  refine (places_docs fun p hp => hchildren p (by simp [hp])).bind fun ds hds => ?_
  rw [knit_append_of_nil, knit_eq_flatten left]
  rcases hright with rfl | ⟨sign, value, rfl, hsign⟩
  · have hds' : ds ≠ [] := by
      rintro rfl
      have hleft := List.map_eq_nil_iff.mp (List.forall₂_nil_left_iff.mp hds)
      exact hne (by rw [hleft, List.append_nil])
    rw [knit_nil, List.append_nil]
    exact .pure (hds.placesAll hds').cat
  · have hleft : Leads (cat ds) (left.map spots).flatten := by
      generalize left.map spots = wss at hds ⊢
      cases hds with
      | nil => exact leads_nothing
      | cons hd hds => exact (hd.cons (PlacesEach.onward hds)).cat.leads
    have hvalue := places_assignment hleft "=" (hchildren value (by simp))
    have hspots : knit spots [] [sign, value] = ⟨none, "="⟩ :: spots value := by
      simp [(hchildren sign (by simp)).of_isToken hsign]
    rwa [hspots]

/-- A choice between two expressions. -/
theorem ternary (h : s.Spotted spots) (hs : Shape.Allowed .ternaryExpression s.node.children) :
    Ensures s.ternary (Places · (knit spots [] s.children)) := by
  obtain ⟨a, m, b, n, c, hps, hmark, hcolon⟩ := Site.exists_ternary h.nodes hs
  have hspots : knit spots [] s.children =
      spots a ++ ⟨none, "?"⟩ :: (spots b ++ ⟨none, ":"⟩ :: spots c) := by
    rw [hps]
    simp [(h.children m (by simp [hps])).of_isToken hmark,
      (h.children n (by simp [hps])).of_isToken hcolon]
  rw [hspots, Site.ternary, hps]
  refine (h.children a (by simp [hps])).doc.bind fun d₁ h₁ => ?_
  refine (h.children b (by simp [hps])).doc.bind fun d₂ h₂ => ?_
  refine (h.children c (by simp [hps])).doc.bind fun d₃ h₃ => .pure ?_
  have hlast : StringsAll (some 0) [space, .text ": ", d₃] (⟨none, ":"⟩ :: spots c) (some 0) :=
    .slack slack_space ((places_text_blank ":").then h₃.last)
  have hbranches : Onward [space, .text "? ", d₂, space, .text ": ", d₃]
      (⟨none, "?"⟩ :: (spots b ++ ⟨none, ":"⟩ :: spots c)) :=
    .slack slack_space ((places_text_blank "?").then (.cons (h₂.free _) hlast))
  exact (h₁.cons (.single hbranches.indented)).grouped

/-- An expression between parentheses. -/
theorem parenthesized (h : s.Spotted spots)
    (hs : Shape.Allowed .parenthesizedExpression s.node.children) :
    Ensures s.parenthesized (Places · (knit spots [] s.children)) := by
  obtain ⟨first, inner, last, hc, hfirst, hinner, hlast⟩ := hs
  obtain ⟨p, q, r, hps, rfl, rfl, rfl⟩ := Site.exists_triple h.nodes hc
  have hnamed : s.named = [q] := by
    rw [Site.named, hps]
    simp [Tree.isNamed_of_isToken hfirst, Tree.isNamed_of_isToken hlast, hinner]
  have hq : ∀ p ∈ [q], p.Spotted (spots p) :=
    List.forall_mem_singleton.mpr (h.children q (by simp [hps]))
  have hspots : knit spots [] s.children = ⟨none, "("⟩ :: (spots q ++ [⟨none, ")"⟩]) := by
    rw [hps]
    simp [(h.children p (by simp [hps])).of_isToken hfirst,
      (h.children r (by simp [hps])).of_isToken hlast]
  rw [hspots, Site.parenthesized, hnamed]
  refine (places_docs hq).bind fun ds hds => .pure ?_
  cases hds with
  | cons hd hnil =>
    cases hnil
    exact places_framed "(" ")" slack_softline fun b => hd.last

/-- A sign or another operator in front of its operand. -/
theorem unary (h : s.Spotted spots) (hs : Shape.Allowed .unaryExpression s.node.children) :
    Ensures s.unary (Places · (knit spots [] s.children)) := by
  obtain ⟨operator, operand, hc, hk⟩ := hs
  obtain ⟨p, q, hps, rfl, rfl⟩ := Site.exists_pair h.nodes hc
  have hspots : knit spots [] s.children = ⟨none, p.text⟩ :: spots q := by
    rw [hps]
    simp [(h.children p (by simp [hps])).token hk]
  rw [hspots, Site.unary, hps]
  refine (h.children q (by simp [hps])).doc.bind fun d hd => .pure ?_
  have hgap : Slack (.text (if wouldFuse p.text q.node.firstLeaf.text then " " else "")) := by
    split
    · exact slack_blank
    · exact slack_nothing
  exact ((places_text p.text).cons (.slack hgap hd.last)).cat

end Site.Spotted

/-! ## Chains of operators -/

/-- Nothing is shown of no comments. -/
theorem mute_nothing : Mute (cat []) := fun _ => StringsAll.nil.cat

/-- Documents that show nothing in front of others. -/
theorem PlacesAll.behind_mute {ds es : List Doc} {ws : List Spot} (hds : ∀ d ∈ ds, Mute d)
    (hes : PlacesAll es ws) : PlacesAll (ds ++ es) ws := by
  induction ds with
  | nil => exact hes
  | cons d ds ih =>
    obtain ⟨hd, hds⟩ := List.forall_mem_cons.mp hds
    exact ⟨hes.ne_nil, fun b k hb => .skip (hd b) ((ih hds).strings b k hb)⟩

/-- An operator with its operand. -/
theorem trails_operation (operator : String) {d : Doc} {ws : List Spot} (hd : Places d ws) :
    Trails (operation operator d) (⟨none, operator⟩ :: ws) :=
  fun _ => (StringsAll.skip strings_blank
    ((places_text operator).then (.slack slack_space hd.last))).cat

/-- A link that is not the last one. -/
theorem OperatorLink.Places.doc {l : OperatorLink} {ws : List Spot} (h : l.Places ws) :
    Ensures l.doc (Trails · ws) := by
  refine h.parts.bind ?_
  rintro ⟨operator, operand⟩ ⟨vs, rfl, hoperand⟩
  have hall := hoperand.cons (.single (h.trailing (some 0)))
  rw [List.append_nil] at hall
  exact .pure (trails_operation operator hall.cat)

section Operators

variable {left operator right : Piece}

/-- The link that a binary expression ends with. -/
theorem places_operatorLink (ho : operator.kind = .token) (hp : operator.Spotted (spots operator))
    (hr : right.Spotted (spots right)) :
    (operatorLink {} [left, operator, right]).Places (spots operator ++ spots right) where
  parts := by
    rw [hp.token ho]
    exact hr.doc.bind fun d hd => .pure ⟨spots right, rfl, hd⟩
  leading := mute_nothing
  trailing := mute_nothing

/-- A chain of operators shows the spots of the expression that it is. -/
theorem places_operatorChain (ho : operator.kind = .token)
    (hp : operator.Spotted (spots operator)) (hl : left.Spotted (spots left))
    (hr : right.Spotted (spots right)) :
    Ensures (operatorChain {} [left, operator, right])
      (OperatorChain.Places · (knit spots [] [left, operator, right])) := by
  have hlink : (operatorLink {} [left, operator, right]).Places _ := places_operatorLink ho hp hr
  have hstart : ∀ level, OperatorChain.Places
      ⟨level, left.doc, [], operatorLink {} [left, operator, right]⟩
      (knit spots [] [left, operator, right]) :=
    fun level => ⟨spots left, [], _, by simp, hl.doc, .nil, hlink⟩
  unfold operatorChain
  dsimp only
  split
  · rename_i level _
    unfold extendChain
    split
    · exact .pure (hstart level)
    · rename_i found hfound
      refine (hl.operators found hfound).bind ?_
      rintro chain ⟨vs, wss, us, hspots, hfirst, hinner, hlast⟩
      split
      · have hall := List.rel_append hinner (.cons hlast .nil)
        exact .pure ⟨vs, wss ++ [us], _, by simp [hspots], hfirst, hall, hlink⟩
      · exact .pure (hstart level)
  · exact .throw _

/-- The chain that a binary expression is. -/
theorem Site.Spotted.operatorChain (h : s.Spotted spots)
    (hs : Shape.Allowed .binaryExpression s.node.children) :
    Ensures (operatorChain {} s.children) (OperatorChain.Places · (knit spots [] s.children)) := by
  obtain ⟨l, o, r, hc, -, hk, -⟩ := hs
  obtain ⟨l, o, r, hps, rfl, rfl, rfl⟩ := Site.exists_triple h.nodes hc
  have hchildren := h.children
  rw [hps] at hchildren ⊢
  exact places_operatorChain hk (hchildren o (by simp)) (hchildren l (by simp))
    (hchildren r (by simp))

/-- A binary expression without comments of its own. -/
theorem Site.Spotted.binary (h : s.Spotted spots) (hcomments : s.comments = {})
    (hs : Shape.Allowed .binaryExpression s.node.children) :
    Ensures s.binary (Places · (knit spots [] s.children)) := by
  unfold Site.binary
  rw [hcomments]
  refine (h.operatorChain hs).bind ?_
  rintro chain ⟨vs, wss, us, hspots, hfirst, hinner, hlast⟩
  rw [hspots]
  refine hfirst.bind fun first hfirst => ?_
  refine (ensures_mapM_forall₂ (hinner.imp fun _ _ hl => hl.doc)).bind fun inner hinner' => ?_
  refine hlast.parts.bind ?_
  rintro ⟨operator, operand⟩ ⟨ws, rfl, hoperand⟩
  have hleading : ∀ d ∈ chain.inner.reverse.map OperatorLink.leading, Mute d := by
    have hlinks := ((List.forall₂_and_left _ _).mp (hinner.imp fun _ _ hl => ⟨hl.leading, hl⟩)).1
    simpa using hlinks
  have hrest : List.Forall₂ Trails (inner ++ [operation operator operand])
      (wss ++ [⟨none, operator⟩ :: ws]) :=
    List.rel_append hinner' (.cons (trails_operation operator hoperand) .nil)
  have hbehind := onward_of_trails hrest
  rw [List.flatten_append, List.flatten_singleton] at hbehind
  dsimp only
  split
  · exact .pure ((hfirst.cons hbehind).grouped.single.behind_mute hleading).cat
  · exact .pure ((hfirst.cons (.single hbehind.indented)).grouped.single.behind_mute hleading).cat

end Operators

/-! ## Calls -/

/-- The parts of a call stand one after the other; no comments go in front of its dot. -/
theorem places_callParts (h : ∀ p ∈ ps, p.Spotted (spots p))
    (hleading : ∀ p ∈ ps, p.comments.leading = []) :
    Ensures (callParts ps) fun parts => parts.1 = [] ∧ PlacesEach parts.2 (ps.map spots) := by
  induction ps with
  | nil => exact .pure ⟨rfl, .nil⟩
  | cons p ps ih =>
    obtain ⟨hp, hps⟩ := List.forall_mem_cons.mp h
    obtain ⟨hnone, hleading⟩ := List.forall_mem_cons.mp hleading
    unfold callParts
    rw [if_neg (by simp [hnone])]
    refine hp.doc.bind fun d hd => (ih hps hleading).bind ?_
    rintro ⟨hoisted, parts⟩ ⟨rfl, hparts⟩
    exact .pure ⟨rfl, .cons hd hparts⟩

/-- A call without its receiver. -/
theorem trails_callDoc {object dot : Piece} (h : ∀ p ∈ dot :: ps, p.Spotted (spots p))
    (hleading : ∀ p ∈ dot :: ps, p.comments.leading = []) :
    Ensures (callDoc (object :: dot :: ps)) (Trails · (knit spots [] (dot :: ps))) := by
  refine (places_callParts h hleading).bind ?_
  rintro ⟨hoisted, parts⟩ ⟨rfl, hparts⟩
  have hne : parts ≠ [] := by
    rintro rfl
    cases hparts
  rw [knit_eq_flatten]
  exact .pure fun b => (hparts.placesAll hne).cat.free b

/-- The chain that a call with a receiver is shows the spots of the call. -/
theorem places_callChain (h : ∀ p ∈ ps, p.Spotted (spots p))
    (hleading : ∀ p ∈ ps, p.comments.leading = []) {chain : CallChain}
    (hchain : callChain? {} ps = some chain) : chain.Places (knit spots [] ps) := by
  obtain ⟨receiver, dot, rest, rfl, -, hchain⟩ := exists_receiver hchain
  have hreceiver := h receiver (by simp)
  have hlink : (callLink {} (receiver :: dot :: rest)).Places (knit spots [] (dot :: rest)) :=
    ⟨trails_callDoc (fun p hp => h p (List.mem_cons_of_mem _ hp))
      fun p hp => hleading p (List.mem_cons_of_mem _ hp), mute_nothing, mute_nothing⟩
  rcases hchain with ⟨chain, hcalls, rfl⟩ | rfl
  · obtain ⟨vs, wss, us, hspots, hhead, hinner, hlast⟩ := hreceiver.calls chain hcalls
    have hall := List.rel_append hinner (.cons hlast .nil)
    exact ⟨vs, wss ++ [us], _, by simp [hspots], hhead, hall, hlink⟩
  · exact ⟨spots receiver, [], _, by simp, hreceiver.doc, .nil, hlink⟩

/-- A link that is not the last one. -/
theorem CallLink.Places.wrapped {l : CallLink} {ws : List Spot} (h : l.Places ws) :
    Ensures l.wrapped (Trails · ws) := by
  refine h.doc.bind fun d hd => .pure fun b => ?_
  have hall := StringsAll.cons (hd b) (.single (h.trailing (some 0)))
  rw [List.append_nil] at hall
  exact hall.cat

/-- A receiver and its calls, one a line or not. -/
theorem places_brokenCalls (headKind : NodeKind) {head : Doc} {vs : List Spot}
    (hhead : Places head vs) {links : List Doc} {wss : List (List Spot)}
    (hlinks : List.Forall₂ Trails links wss) :
    Places (brokenCalls headKind head links) (vs ++ wss.flatten) := by
  have hbroken : ∀ n, Strings (some 0)
      (indented ((links.drop n).map fun link => cat [softline, link])) (wss.drop n).flatten
      (some 0) := by
    intro n
    have hdropped : List.Forall₂ Trails
        ((links.drop n).map fun link => cat [softline, link]) (wss.drop n) := by
      rw [List.forall₂_map_left_iff]
      refine (List.forall₂_drop n hlinks).imp fun d ws hd b => ?_
      exact (StringsAll.slack slack_softline (.single (hd none))).cat
    exact (onward_of_trails hdropped).indented
  unfold brokenCalls
  split
  · have hkept : Places (cat (head :: links.take 1)) (vs ++ (wss.take 1).flatten) :=
      (hhead.cons (onward_of_trails (List.forall₂_take 1 hlinks))).cat
    have hspots : vs ++ wss.flatten = vs ++ (wss.take 1).flatten ++ (wss.drop 1).flatten := by
      rw [List.append_assoc, ← List.flatten_append, List.take_append_drop]
    rw [hspots]
    exact (hkept.cons (.single (hbroken 1))).grouped
  · exact (hhead.cons (.single (hbroken 0))).grouped

/-- A chain of calls. -/
theorem CallChain.Places.doc {c : CallChain} {ws : List Spot} (h : c.Places ws) :
    Ensures c.doc (Layout.Places · ws) := by
  obtain ⟨vs, wss, us, rfl, hhead, hinner, hlast⟩ := h
  have hleading : ∀ d ∈ c.inner.reverse.map CallLink.leading, Mute d := by
    have hlinks := ((List.forall₂_and_left _ _).mp (hinner.imp fun _ _ hl => ⟨hl.leading, hl⟩)).1
    simpa using hlinks
  refine (ensures_mapM_forall₂ (hinner.imp fun _ _ hl => hl.wrapped)).bind fun inner hinner => ?_
  refine hlast.doc.bind fun last hlast => hhead.bind fun head hhead => .pure ?_
  have hall := places_brokenCalls c.headKind hhead (List.rel_append hinner (.cons hlast .nil))
  rw [List.flatten_append, List.flatten_singleton] at hall
  exact (hall.single.behind_mute hleading).cat

/-- A call without comments of its own or in front of its parts. -/
theorem Site.Spotted.methodInvocation (h : s.Spotted spots) (hcomments : s.comments = {})
    (hleading : ∀ p ∈ s.children, p.comments.leading = []) (hne : s.children ≠ []) :
    Ensures s.methodInvocation (Places · (knit spots [] s.children)) := by
  have htight := places_tight h.children hne
  unfold Site.methodInvocation
  rw [hcomments]
  split
  · rename_i chain hchain
    split
    · exact htight
    · exact (places_callChain h.children hleading hchain).doc
  · exact htight

/-! ## Control flow -/

/-- A continuation fixes no break. -/
theorem slack_continuation (previous : Piece) : Slack (continuation previous) := by
  unfold continuation
  split
  · exact slack_hardline
  · exact slack_blank

/-- What stands in front of a keyword fixes no break. -/
theorem slack_beforeKeyword (body : Piece) : Slack (beforeKeyword body) := by
  unfold beforeKeyword
  split
  · exact slack_continuation body
  · exact slack_hardline

/-- The statement that a header is for. -/
theorem trails_headedBody (header : List Piece) (h : p.Spotted (spots p)) :
    Ensures (headedBody header p) (Trails · (spots p)) := by
  unfold headedBody
  split
  · split
    · exact .throw _
    · rename_i last _
      exact h.doc.bind fun d hd => .pure fun b =>
        (StringsAll.slack (slack_continuation last) hd.last).cat
  · split
    · rename_i hsemicolon
      rw [h.of_isToken hsemicolon]
      exact .pure fun b => (places_text ";").free b
    · refine h.doc.bind fun d hd => ?_
      split
      · exact .pure fun b => (StringsAll.slack slack_hardline hd.last).indented
      · exact .pure fun b =>
          (StringsAll.single (StringsAll.slack slack_space hd.last).indented).grouped

/-- What follows an `else`. -/
theorem trails_alternativeParts (keyword : Piece) {alternative : Piece}
    (h : alternative.Spotted (spots alternative)) :
    Ensures (alternativeParts keyword alternative) (TrailsAll · (spots alternative)) := by
  unfold alternativeParts
  split
  · exact h.doc.bind fun d hd => .pure fun b => .slack slack_blank hd.last
  · exact (trails_headedBody [keyword] h).bind fun d hd => .pure fun b => .single (hd b)

namespace Site.Spotted

/-- A conditional statement. -/
theorem ifStatement (h : s.Spotted spots) (hs : Shape.Allowed .ifStatement s.node.children) :
    Ensures s.ifStatement (Places · (knit spots [] s.children)) := by
  obtain ⟨k, c, t, more, hps, helse⟩ := Site.exists_conditional h.nodes hs
  have hchildren := h.children
  rw [hps] at hchildren
  have hrest : Ensures (elseParts t more) (Onward · (knit spots [] more)) := by
    rcases helse with rfl | ⟨further, alternative, rfl⟩
    · exact .pure .nil
    · refine (hchildren further (by simp)).doc.bind fun d hd => ?_
      refine (trails_alternativeParts further (hchildren alternative (by simp))).bind
        fun ds hds => .pure ?_
      have hspots : knit spots [] [further, alternative] = spots further ++ spots alternative := by
        simp
      rw [hspots]
      exact .slack (slack_beforeKeyword t) (.cons (hd.free _) (hds _))
  rw [Site.ifStatement, hps]
  refine (hchildren k (by simp)).doc.bind fun first hfirst => ?_
  refine (hchildren c (by simp)).doc.bind fun test htest => ?_
  refine (trails_headedBody [k, c] (hchildren t (by simp))).bind fun body hbody => ?_
  refine hrest.bind fun rest hrest => .pure ?_
  exact (hfirst.cons (.skip strings_blank (.cons (htest.free _) (.cons (hbody _) hrest)))).cat

/-- A loop with its condition in front. -/
theorem loop (h : s.Spotted spots) (hlength : 2 ≤ s.children.length) :
    Ensures s.loop (Places ·
      (knit spots (lineBreaks s.node.kind .standard s.children.dropLast) s.children)) := by
  unfold Site.loop
  split
  · exact .throw _
  · rename_i body hbody
    have hps : s.children = s.children.dropLast ++ [body] :=
      (List.dropLast_append_getLast? body hbody).symm
    have hne : s.children.dropLast ≠ [] := by
      intro hnil
      have hcount := s.children.length_dropLast
      rw [hnil, List.length_nil] at hcount
      omega
    have hheader : ∀ p ∈ s.children.dropLast, p.Spotted (spots p) :=
      fun p hp => h.children p (List.mem_of_mem_dropLast hp)
    have hstatement := h.children body (List.mem_of_getLast? hbody)
    refine (places_sequence s.node.kind .standard hheader hne).bind fun head hhead => ?_
    refine (trails_headedBody s.children.dropLast hstatement).bind fun d hd => .pure ?_
    have hspots : knit spots (lineBreaks s.node.kind .standard s.children.dropLast) s.children =
        knit spots (lineBreaks s.node.kind .standard s.children.dropLast) s.children.dropLast ++
          spots body := by
      conv_lhs => rw [hps, List.dropLast_concat]
      rw [knit_append (length_lineBreaks _ _ _).le]
      simp
    rw [hspots]
    exact (hhead.cons (.single (hd _))).cat

/-- A loop with its condition behind. -/
theorem doLoop (h : s.Spotted spots) (hlength : 3 ≤ s.children.length) :
    Ensures s.doLoop (Places · (knit spots
      (none :: none :: lineBreaks s.node.kind .standard (s.children.drop 2)) s.children)) := by
  have hchildren := h.children
  unfold Site.doLoop
  split
  · rename_i keyword body tail hps
    rw [hps] at hchildren hlength ⊢
    have hne : tail ≠ [] := by
      rintro rfl
      simp at hlength
    refine (hchildren keyword (by simp)).doc.bind fun first hfirst => ?_
    refine (trails_headedBody [keyword] (hchildren body (by simp))).bind
      fun statement hstatement => ?_
    refine (places_sequence s.node.kind .standard
      (fun p hp => hchildren p (by simp [hp])) hne).bind fun rest hrest => .pure ?_
    exact (hfirst.cons (.cons (hstatement _) (.slack (slack_beforeKeyword body) hrest.last))).cat
  · exact .throw _

end Site.Spotted

/-! ## Groups of switches -/

/-- The numbers of breaks in front of the labels and statements of a group, of whose labels some
has been seen or not. -/
def groupBreaks (source : Source) : Bool → List Piece → List (Option Nat)
  | _, [] => []
  | seen, p :: ps =>
    if p.kind = .switchLabel || (seen && p.isToken ":") then none :: groupBreaks source true ps
    else membersBreaks source Gap.none (p :: ps)

/-- What is read off the children of a group: labels, the last one first, and the statements
behind them. -/
def SwitchGroup.Places (spots : Piece → List Spot) (source : Source) (g : SwitchGroup)
    (ws : List Spot) : Prop :=
  ∃ wss, PlacesEach g.labels wss ∧ g.labels ≠ [] ∧ (∀ p ∈ g.statements, p.Spotted (spots p)) ∧
    ws = wss.reverse.flatten ++ knit spots (membersBreaks source Gap.none g.statements) g.statements

/-- The labels and statements of a group place their spots. -/
theorem places_switchLabels (source : Source) {labels : List Doc} {wss : List (List Spot)}
    (lastLabel : Option Piece) (hlabels : PlacesEach labels wss) (hne : labels ≠ [])
    (h : ∀ p ∈ ps, p.Spotted (spots p)) :
    Ensures (switchLabels labels lastLabel ps) (SwitchGroup.Places spots source ·
      (wss.reverse.flatten ++ knit spots (groupBreaks source true ps) ps)) := by
  induction ps generalizing labels wss lastLabel with
  | nil =>
    unfold switchLabels
    exact .pure ⟨wss, hlabels, hne, by simp, rfl⟩
  | cons p ps ih =>
    obtain ⟨hp, hps⟩ := List.forall_mem_cons.mp h
    rw [groupBreaks]
    rcases switchLabels_cons labels lastLabel p ps with
      ⟨label, before, rfl, hcolon, heq⟩ | ⟨hcolon, ⟨hk, heq⟩ | ⟨hk, heq⟩⟩
    all_goals rw [heq]
    · obtain ⟨ws, vss, hfirst, hbefore, rfl⟩ := List.forall₂_cons_left_iff.mp hlabels
      have hclosed : Layout.Places (cat [label, .text ":"]) (ws ++ spots p) := by
        rw [hp.of_isToken hcolon]
        exact (hfirst.cons (places_text ":").last).cat
      simpa [hcolon] using ih lastLabel (.cons hclosed hbefore) (by simp) hps
    · refine hp.doc.bind fun d hd => ?_
      simpa [hk] using ih (some p) (.cons hd hlabels) (by simp) hps
    · rw [if_neg (by simp [hk, hcolon hne])]
      exact .pure ⟨_, hlabels, hne, h, rfl⟩

/-- Labels one a line and the statements below them. -/
theorem Site.Spotted.switchGroup (h : s.Spotted spots) {label : Piece}
    (hps : s.children = label :: ps) (hk : label.kind = .switchLabel) :
    Ensures s.switchGroup
      (Places · (knit spots (groupBreaks s.source false s.children) s.children)) := by
  have hchildren := h.children
  rw [hps] at hchildren
  obtain ⟨hlabel, hrest⟩ := List.forall_mem_cons.mp hchildren
  have hgroup : Ensures (switchLabels [] none s.children) (SwitchGroup.Places spots s.source ·
      (knit spots (groupBreaks s.source false s.children) s.children)) := by
    rw [hps]
    unfold switchLabels groupBreaks
    dsimp only
    rw [if_pos hk, if_pos (by simp [hk])]
    refine hlabel.doc.bind fun d hd => ?_
    simpa using places_switchLabels s.source (some label) (.cons hd .nil) (by simp) hrest
  refine hgroup.bind ?_
  rintro g ⟨wss, hlabels, hne, hstatements, hspots⟩
  rw [hspots]
  have hhead : Places (join hardline g.labels.reverse) wss.reverse.flatten :=
    PlacesEach.join slack_hardline (List.forall₂_reverse_iff.mpr hlabels) (by simpa using hne)
  have hbelow : ∀ {d ws}, Places d ws →
      Places (cat [join hardline g.labels.reverse, indented [hardline, d]])
        (wss.reverse.flatten ++ ws) := fun hd =>
    (hhead.cons (.single (StringsAll.slack slack_hardline hd.last).indented)).cat
  have hmembers := places_members s.source Gap.none hstatements
  dsimp only
  split
  · rename_i hnone
    rw [hnone, knit_nil, List.append_nil]
    exact .pure hhead
  · rename_i statement hsingle
    split
    · have hstatement := hstatements statement (by simp [hsingle])
      refine hstatement.doc.bind fun d hd => .pure ?_
      have hgap : ∀ breaks : Bool, Slack (if breaks then hardline else .text " ") := by
        intro breaks
        split
        · exact slack_hardline
        · exact slack_blank
      rw [hsingle, membersBreaks, memberBreaks, knit_cons, Spot.behind_none, knit_nil,
        List.append_nil]
      exact (hhead.cons (.slack (hgap _) hd.last)).cat
    · rw [hsingle] at hmembers ⊢
      exact (hmembers (by simp)).bind fun d hd => .pure (hbelow hd)
  · rename_i hnonempty _
    exact (hmembers hnonempty).bind fun d hd => .pure (hbelow hd)

end JavaFormat.Layout
