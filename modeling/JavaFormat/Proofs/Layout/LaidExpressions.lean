import JavaFormat.Proofs.Layout.LaidRules

/-!
# Expressions and statements keep their words apart

An operator has a space or a break on either side, the name of a variable meets nothing but its
dimensions, and a statement stands behind a gap or is a semicolon. The operator of a unary
expression is the one word that looks ahead. A chain of calls has no spaces; behind a receiver
there is a dot, and the parts of a call meet like the children of any other tight node.
-/

namespace JavaFormat.Layout

open Doc

variable {letters : Char → Bool} {s : Site} {p : Piece} {ps : List Piece}

/-! ## Operators -/

/-- An assignment keeps its two sides apart from its operator. -/
theorem apart_assignment {left : Doc} {ws : List Word} (hleft : Sets letters left ws)
    (operator : String) (h : p.Apart letters) :
    Ensures (assignment left operator p)
      (Sets letters · (ws ++ ⟨operator, false⟩ :: p.node.words)) := by
  refine h.doc.bind fun d hd => ?_
  have hoperator : ∀ {ds : List Doc},
      SetsAll letters (some ⟨operator, false⟩) ds p.node.words →
        SetsAll letters none (.text operator :: ds) (⟨operator, false⟩ :: p.node.words) :=
    fun hds => SetsAll.text (w := ⟨operator, false⟩) (by simp) hds
  split
  · have hvalue : SetsAll letters (some ⟨operator, false⟩) [indented [space, d]] p.node.words :=
      .single (SetsAll.gap lays_space (.single hd.free)).indented
    exact .pure (sets_grouped fun b hb =>
      .cons (hleft b hb.left) (.gap lays_blank (hoperator hvalue)))
  · have hvalue : SetsAll letters (some ⟨operator, false⟩) [.text " ", d] p.node.words :=
      .gap lays_blank (.single hd.free)
    exact .pure (sets_cat fun b hb =>
      .cons (hleft b hb.left) (.gap lays_blank (hoperator hvalue)))

/-- Attached nodes stand one after the other behind any word. -/
theorem apart_docs_attached (h : ∀ p ∈ ps, p.Apart letters)
    (hk : ∀ p ∈ ps, p.kind.isAttached = true) :
    Ensures (docs ps) fun ds => ∀ b, SetsAll letters b ds (wordsOf ps) := by
  have hfollows : Ensures (docs ps)
      (List.Forall₂ (Follows letters) · (ps.map fun p => p.node.words)) := by
    refine ensures_mapM_forall₂ ?_
    rw [List.forall₂_map_right_iff, List.forall₂_same]
    intro p hp
    have hstands := (h p hp).lexed.standsOff_of_isAttached (hk p hp)
    exact (h p hp).doc.mono fun d hd b => hd b ((h p hp).joins_of_standsOff hstands b)
  exact hfollows.mono fun ds hds b => setsAll_of_follows hds b

/-- The words of a token are its text. -/
theorem Piece.Apart.words_of_token (h : p.Apart letters) (hk : p.kind = .token) :
    p.node.words = [⟨p.text, false⟩] := by
  have hregular := h.lexed.regular
  unfold Piece.kind at hk
  unfold Piece.text
  cases hn : p.node with
  | leaf info text => rfl
  | branch info ts =>
    rw [hn] at hregular hk
    exact absurd hk hregular.1

namespace Site.Apart

/-- An assignment expression. -/
theorem assignment (h : s.Apart letters)
    (hs : Shape.Allowed .assignmentExpression s.node.children) :
    Ensures s.assignment (Sets letters · (wordsOf s.children)) := by
  obtain ⟨left, operator, right, hc, hk, htext⟩ := hs
  obtain ⟨l, o, r, hps, rfl, rfl, rfl⟩ := Site.exists_triple h.nodes hc
  have hl := h.children l (by simp [hps])
  have ho := h.children o (by simp [hps])
  have hr := h.children r (by simp [hps])
  have hwritten : (if o.text.isEmpty then "=" else o.text) = o.text := by
    have hne : o.text.isEmpty = false := by simpa [Piece.text] using htext
    rw [hne]
    rfl
  have hwords : wordsOf s.children = l.node.words ++ ⟨o.text, false⟩ :: r.node.words := by
    rw [hps]
    simp [ho.words_of_token hk]
  rw [hwords, Site.assignment, hps]
  dsimp only
  rw [hwritten]
  exact hl.doc.bind fun d hd => apart_assignment hd o.text hr

/-- The children of a variable: a name, its dimensions and its initializer. -/
theorem children_declarator (h : s.Apart letters)
    (hs : Shape.Allowed .variableDeclarator s.node.children)
    (hw : Shape.Written .variableDeclarator s.node.children) :
    ∃ name dimensions rest, s.children = name :: dimensions ++ rest ∧
      s.children.takeWhile (fun p => !p.isToken "=") = name :: dimensions ∧
      s.children.dropWhile (fun p => !p.isToken "=") = rest ∧
      (∀ p ∈ dimensions, p.kind.isAttached = true) ∧
      (rest = [] ∨ ∃ sign value, rest = [sign, value] ∧ sign.isToken "=" = true) := by
  obtain ⟨name, dimensions, hnames, hdimensions⟩ := hw
  obtain ⟨ls, rs, hps, htake, hdrop, hsign⟩ := Site.exists_declarator h.nodes hs
  have hls : ls.map Piece.node = name :: dimensions := by
    rw [← hnames, ← h.nodes, List.takeWhile_map, ← htake]
    rfl
  obtain ⟨n, ds, rfl, rfl, rfl⟩ := List.map_eq_cons_iff.mp hls
  refine ⟨n, ds, rs, hps, htake, hdrop, fun p hp => ?_, hsign⟩
  rcases hdimensions with hnil | ⟨t, hsingle, hkind⟩
  · rw [List.map_eq_nil_iff.mp hnil] at hp
    cases hp
  · obtain ⟨q, rfl, rfl⟩ := List.map_eq_singleton_iff.mp hsingle
    obtain rfl := List.mem_singleton.mp hp
    have hkind : p.kind = .dimensions := hkind
    rw [hkind]
    rfl

/-- A variable keeps its name apart from its dimensions, and both from its initializer. -/
theorem variableDeclarator (h : s.Apart letters)
    (hs : Shape.Allowed .variableDeclarator s.node.children)
    (hw : Shape.Written .variableDeclarator s.node.children) :
    Ensures s.variableDeclarator (Sets letters · (wordsOf s.children)) := by
  obtain ⟨name, dimensions, rest, hps, htake, hdrop, hdimensions, hrest⟩ :=
    h.children_declarator hs hw
  have hchildren := h.children
  rw [hps] at hchildren
  have hleft : Ensures (docs (name :: dimensions))
      fun ds => Sets letters (cat ds) (wordsOf (name :: dimensions)) := by
    rw [docs, List.mapM_cons]
    refine (hchildren name (by simp)).doc.bind fun d hd => ?_
    refine (apart_docs_attached (fun p hp => hchildren p (by simp [hp])) hdimensions).bind
      fun ds hds => .pure ?_
    exact sets_cat fun b hb => .cons (hd b hb.left) (hds _)
  rw [hps, Site.variableDeclarator, htake, hdrop]
  refine hleft.bind fun ds hds => ?_
  rcases hrest with rfl | ⟨sign, value, rfl, htoken⟩
  · rw [List.append_nil]
    exact .pure hds
  · have hvalue := apart_assignment hds "=" (hchildren value (by simp))
    have hright : wordsOf [sign, value] = ⟨"=", false⟩ :: value.node.words := by
      simp [Tree.words_of_isToken htoken]
    rwa [wordsOf_append, hright]

/-- A choice between two expressions. -/
theorem ternary (h : s.Apart letters) (hs : Shape.Allowed .ternaryExpression s.node.children) :
    Ensures s.ternary (Sets letters · (wordsOf s.children)) := by
  obtain ⟨a, m, b, n, c, hps, hmark, hcolon⟩ := Site.exists_ternary h.nodes hs
  have hmark' : Lays letters none (.text "? ") [⟨"?", false⟩] none :=
    lays_text_blank (w := ⟨"?", false⟩) (by simp)
  have hcolon' : Lays letters none (.text ": ") [⟨":", false⟩] none :=
    lays_text_blank (w := ⟨":", false⟩) (by simp)
  have hwords : wordsOf s.children = a.node.words ++ ⟨"?", false⟩ ::
      (b.node.words ++ ⟨":", false⟩ :: c.node.words) := by
    rw [hps]
    simp [Tree.words_of_isToken hmark, Tree.words_of_isToken hcolon]
  rw [hwords, Site.ternary, hps]
  refine (h.children a (by simp [hps])).doc.bind fun d₁ h₁ => ?_
  refine (h.children b (by simp [hps])).doc.bind fun d₂ h₂ => ?_
  refine (h.children c (by simp [hps])).doc.bind fun d₃ h₃ => .pure (sets_grouped fun e he => ?_)
  have hbranches : ∀ e, SetsAll letters e [space, .text "? ", d₂, space, .text ": ", d₃]
      (⟨"?", false⟩ :: (b.node.words ++ ⟨":", false⟩ :: c.node.words)) :=
    fun e => .gap lays_space (.mark hmark' (.cons h₂.free (.gap lays_space
      (.mark hcolon' (.single h₃.free)))))
  exact .cons (h₁ e he.left) (.single (hbranches _).indented)

/-- An expression between parentheses. -/
theorem parenthesized (h : s.Apart letters)
    (hs : Shape.Allowed .parenthesizedExpression s.node.children) :
    Ensures s.parenthesized (Sets letters · (wordsOf s.children)) := by
  obtain ⟨first, inner, last, hc, hfirst, hinner, hlast⟩ := hs
  obtain ⟨p, q, r, hps, rfl, rfl, rfl⟩ := Site.exists_triple h.nodes hc
  have hq := h.children q (by simp [hps])
  have hnamed : s.named = [q] := by
    rw [Site.named, hps]
    simp [Tree.isNamed_of_isToken hfirst, Tree.isNamed_of_isToken hlast, hinner]
  have hwords : wordsOf s.children = ⟨"(", false⟩ :: (q.node.words ++ [⟨")", false⟩]) := by
    rw [hps]
    simp [Tree.words_of_isToken hfirst, Tree.words_of_isToken hlast]
  rw [hwords, Site.parenthesized, hnamed]
  refine (apart_docs (List.forall_mem_singleton.mpr hq)).bind fun ds hds => .pure ?_
  obtain ⟨d, rfl, hd⟩ : ∃ d, ds = [d] ∧ Sets letters d q.node.words := by
    cases hds with
    | cons hd hnil =>
      cases hnil
      exact ⟨_, rfl, hd⟩
  exact sets_framed (by decide) (by decide) false hd hq.words_ne_nil

/-- A sign keeps apart from an operand that begins with the same sign. -/
theorem unary (h : s.Apart letters) (hs : Shape.Allowed .unaryExpression s.node.children)
    (hw : Shape.Written .unaryExpression s.node.children) :
    Ensures s.unary (Sets letters · (Tree.markSign (wordsOf s.children))) := by
  obtain ⟨operator, operand, hc, hk⟩ := hs
  obtain ⟨p, q, hps, rfl, rfl⟩ := Site.exists_pair h.nodes hc
  have hp := h.children p (by simp [hps])
  have hq := h.children q (by simp [hps])
  obtain ⟨w, ws, hwords, htext⟩ := hq.lexed.exists_words
  have hclose : Text.closesOff p.text = true := by
    rw [hc] at hw
    obtain ⟨_, _, heq, hsign⟩ := hw
    obtain ⟨rfl, rfl⟩ := List.cons_eq_cons.mp heq
    simp only [signs, List.mem_cons, List.not_mem_nil, or_false] at hsign
    have hsign : p.text = "+" ∨ p.text = "-" ∨ p.text = "!" ∨ p.text = "~" := hsign
    rcases hsign with h | h | h | h <;> rw [h] <;> decide
  have hmarked : Tree.markSign (wordsOf s.children) = ⟨p.text, true⟩ :: q.node.words := by
    rw [hps]
    simp [hp.words_of_token hk, Tree.markSign]
  rw [hmarked, Site.unary, hps]
  refine hq.doc.bind fun d hd => .pure (sets_cat fun b hb => ?_)
  refine SetsAll.text (w := ⟨p.text, true⟩) (joins_cons.mp hb) ?_
  cases hfuse : wouldFuse p.text q.node.firstLeaf.text with
  | true => exact .gap lays_blank (.single hd.free)
  | false =>
    have hjoins : Joins letters (some ⟨p.text, true⟩) q.node.words := by
      rw [hwords]
      refine joins_cons.mpr ?_
      rintro _ ⟨⟩
      rw [Word.fuses, Text.endsWord_of_closesOff hclose, htext, Bool.false_and, Bool.false_or,
        Bool.true_and]
      exact hfuse
    exact .separated lays_nothing (.single (hd _ hjoins)) hq.words_ne_nil

end Site.Apart

/-! ## Chains of operators -/

/-- Nothing is shown of no comments. -/
theorem silent_cat_nil : Silent letters (cat []) := fun _ => LaysAll.nil.cat

/-- Documents that show nothing in front of others. -/
theorem LaysAll.silent {b e : Option Word} {ds es : List Doc} {ws : List Word}
    (hds : ∀ d ∈ ds, Silent letters d) (hes : LaysAll letters b es ws e) :
    LaysAll letters b (ds ++ es) ws e := by
  induction ds with
  | nil => exact hes
  | cons d ds ih =>
    obtain ⟨hd, hds⟩ := List.forall_mem_cons.mp hds
    exact LaysAll.skip (hd b) (ih hds)

/-- An operator with its operand goes on with a line. -/
theorem follows_operation {operator : String} {d : Doc} {ws : List Word}
    (hd : Sets letters d ws) : Follows letters (operation operator d) (⟨operator, false⟩ :: ws) :=
  fun _ => (SetsAll.gap lays_blank (SetsAll.text (w := ⟨operator, false⟩) (by simp)
    (.gap lays_space (.single hd.free)))).cat

/-- A link that is not the last one goes on with a line. -/
theorem OperatorLink.Sets.doc {l : OperatorLink} {ws : List Word} (h : l.Sets letters ws) :
    Ensures l.doc (Follows letters · ws) := by
  refine h.parts.bind ?_
  rintro ⟨operator, operand⟩ ⟨vs, rfl, hoperand⟩
  exact .pure (follows_operation (sets_cat fun b hb => .pair (hoperand b hb) (h.trailing _)))

section Operators

variable {left operator right : Piece}

/-- The link that a binary expression ends with. -/
theorem sets_operatorLink (ho : operator.kind = .token) (hp : operator.Apart letters)
    (hr : right.Apart letters) :
    (operatorLink {} [left, operator, right]).Sets letters
      (operator.node.words ++ right.node.words) where
  parts := by
    rw [hp.words_of_token ho]
    exact hr.doc.bind fun d hd => .pure ⟨right.node.words, rfl, hd⟩
  leading := silent_cat_nil
  trailing := silent_cat_nil

/-- A chain of operators has the words of the expression that it is. -/
theorem apart_operatorChain (ho : operator.kind = .token) (hp : operator.Apart letters)
    (hl : left.Apart letters) (hr : right.Apart letters) :
    Ensures (operatorChain {} [left, operator, right])
      (OperatorChain.Sets letters · (wordsOf [left, operator, right])) := by
  have hlink : (operatorLink {} [left, operator, right]).Sets letters _ :=
    sets_operatorLink ho hp hr
  have hstart : ∀ level, OperatorChain.Sets letters
      ⟨level, left.doc, [], operatorLink {} [left, operator, right]⟩
      (wordsOf [left, operator, right]) :=
    fun level => ⟨left.node.words, [], _, by simp, hl.doc, .nil, hlink⟩
  unfold operatorChain
  dsimp only
  split
  · rename_i level _
    unfold extendChain
    split
    · exact .pure (hstart level)
    · rename_i found hfound
      refine (hl.operators found hfound).bind ?_
      rintro chain ⟨vs, wss, us, hwords, hfirst, hinner, hlast⟩
      split
      · have hall := List.rel_append hinner (.cons hlast .nil)
        exact .pure ⟨vs, wss ++ [us], _, by simp [hwords], hfirst, hall, hlink⟩
      · exact .pure (hstart level)
  · exact .throw _

/-- The chain that a binary expression is. -/
theorem Site.Apart.operatorChain (h : s.Apart letters)
    (hs : Shape.Allowed .binaryExpression s.node.children) :
    Ensures (operatorChain {} s.children) (OperatorChain.Sets letters · (wordsOf s.children)) := by
  obtain ⟨l, o, r, hc, -, hk, -⟩ := hs
  obtain ⟨l, o, r, hps, rfl, rfl, rfl⟩ := Site.exists_triple h.nodes hc
  have hchildren := h.children
  rw [hps] at hchildren ⊢
  exact apart_operatorChain hk (hchildren o (by simp)) (hchildren l (by simp))
    (hchildren r (by simp))

/-- A binary expression. -/
theorem Site.Apart.binary (h : s.Apart letters)
    (hs : Shape.Allowed .binaryExpression s.node.children) :
    Ensures s.binary (Sets letters · (wordsOf s.children)) := by
  unfold Site.binary
  rw [h.comments]
  refine (h.operatorChain hs).bind ?_
  rintro chain ⟨vs, wss, us, hwords, hfirst, hinner, hlast⟩
  rw [hwords]
  refine hfirst.bind fun first hfirst => ?_
  refine (ensures_mapM_forall₂ (hinner.imp fun _ _ hl => hl.doc)).bind fun inner hinner' => ?_
  refine hlast.parts.bind ?_
  rintro ⟨operator, operand⟩ ⟨ws, rfl, hoperand⟩
  have hleading : ∀ d ∈ chain.inner.reverse.map OperatorLink.leading, Silent letters d := by
    have hlinks := ((List.forall₂_and_left _ _).mp (hinner.imp fun _ _ hl => ⟨hl.leading, hl⟩)).1
    simpa using hlinks
  have hrest : List.Forall₂ (Follows letters) (inner ++ [operation operator operand])
      (wss ++ [⟨operator, false⟩ :: ws]) :=
    List.rel_append hinner' (.cons (follows_operation hoperand) .nil)
  have hbehind := setsAll_of_follows hrest
  rw [List.flatten_append, List.flatten_singleton] at hbehind
  dsimp only
  split
  · exact .pure (sets_cat fun b hb => .silent hleading
      (.single (SetsAll.cons (hfirst b hb.left) (hbehind _)).grouped))
  · exact .pure (sets_cat fun b hb => .silent hleading
      (.single (SetsAll.cons (hfirst b hb.left) (.single (hbehind _).indented)).grouped))

end Operators

/-! ## Calls -/

/-- Neighbours do not meet like identifiers. -/
abbrev Parted (letters : Char → Bool) (ps : List Piece) : Prop :=
  ps.IsChain fun p q => p.node.meets letters q.node = false

/-- The parts of a call stand one after the other; no comments go in front of its dot. -/
theorem apart_callParts (h : ∀ p ∈ ps, p.Apart letters) (hparted : Parted letters ps) :
    Ensures (callParts ps) fun parts => parts.1 = [] ∧
      ∀ b, Joins letters b (wordsOf ps) → SetsAll letters b parts.2 (wordsOf ps) := by
  induction ps with
  | nil => exact .pure ⟨rfl, fun _ _ => .nil⟩
  | cons p ps ih =>
    obtain ⟨hp, hps⟩ := List.forall_mem_cons.mp h
    have hleading : ¬(p.kind = .identifier && !p.comments.leading.isEmpty) = true := by
      simp [hp.comments]
    unfold callParts
    rw [if_neg hleading]
    refine hp.doc.bind fun d hd => (ih hps hparted.tail).bind ?_
    rintro ⟨hoisted, parts⟩ ⟨rfl, hparts⟩
    refine .pure ⟨rfl, fun b hb => .cons (hd b hb.left) (hparts _ ?_)⟩
    cases ps with
    | nil => simp [Joins]
    | cons q qs =>
      have hjoins := hp.joins_of_meets b (List.isChain_cons_cons.mp hparted).1
      exact hjoins.extend (hps q (by simp)).words_ne_nil

/-- A call without its receiver follows anything: it begins with a dot. -/
theorem apart_callDoc {object dot : Piece} (hdot : dot.isToken "." = true)
    (h : ∀ p ∈ dot :: ps, p.Apart letters) (hparted : Parted letters (dot :: ps)) :
    Ensures (callDoc (object :: dot :: ps)) (Follows letters · (wordsOf (dot :: ps))) := by
  refine (apart_callParts h hparted).bind ?_
  rintro ⟨hoisted, parts⟩ ⟨rfl, hparts⟩
  refine .pure fun b => (hparts b ?_).cat
  rw [wordsOf_cons, Tree.words_of_isToken hdot]
  exact joins_of_standsOff (by decide)

/-- The chain that a call with a receiver is has the words of the call. -/
theorem sets_callChain (h : ∀ p ∈ ps, p.Apart letters) (hparted : Parted letters ps)
    {chain : CallChain} (hchain : callChain? {} ps = some chain) :
    chain.Sets letters (wordsOf ps) := by
  obtain ⟨receiver, dot, rest, rfl, hdot, hchain⟩ := exists_receiver hchain
  have hreceiver := h receiver (by simp)
  have hlink : (callLink {} (receiver :: dot :: rest)).Sets letters (wordsOf (dot :: rest)) :=
    ⟨apart_callDoc hdot (fun p hp => h p (List.mem_cons_of_mem _ hp)) hparted.tail,
      silent_cat_nil, silent_cat_nil⟩
  rcases hchain with ⟨chain, hcalls, rfl⟩ | rfl
  · obtain ⟨vs, wss, us, hwords, hhead, hinner, hlast⟩ := hreceiver.calls chain hcalls
    have hall := List.rel_append hinner (.cons hlast .nil)
    exact ⟨vs, wss ++ [us], _, by simp [hwords], hhead, hall, hlink⟩
  · exact ⟨receiver.node.words, [], _, by simp, hreceiver.doc, .nil, hlink⟩

/-- A link that is not the last one follows anything. -/
theorem CallLink.Sets.wrapped {l : CallLink} {ws : List Word} (h : l.Sets letters ws) :
    Ensures l.wrapped (Follows letters · ws) :=
  h.doc.bind fun _ hd => .pure fun b => (LaysAll.pair (hd b) (h.trailing _)).cat

/-- A receiver and its calls, one a line or not. -/
theorem sets_brokenCalls (headKind : NodeKind) {head : Doc} {vs : List Word}
    (hhead : Sets letters head vs) {links : List Doc} {wss : List (List Word)}
    (hlinks : List.Forall₂ (Follows letters) links wss) :
    Sets letters (brokenCalls headKind head links) (vs ++ wss.flatten) := by
  have hbroken : ∀ n b, Lays letters b
      (indented ((links.drop n).map fun link => cat [softline, link])) (wss.drop n).flatten
      (after b (wss.drop n).flatten) := by
    intro n b
    have hdropped : List.Forall₂ (Follows letters)
        ((links.drop n).map fun link => cat [softline, link]) (wss.drop n) := by
      rw [List.forall₂_map_left_iff]
      refine (List.forall₂_drop n hlinks).imp fun d ws hd b => ?_
      exact (LaysAll.skip lays_softline (.single (hd b))).cat
    exact (setsAll_of_follows hdropped b).indented
  unfold brokenCalls
  split
  · have hkept : Sets letters (cat (head :: links.take 1)) (vs ++ (wss.take 1).flatten) :=
      sets_cat fun b hb =>
        .cons (hhead b hb.left) (setsAll_of_follows (List.forall₂_take 1 hlinks) _)
    have hwords : vs ++ wss.flatten = vs ++ (wss.take 1).flatten ++ (wss.drop 1).flatten := by
      rw [List.append_assoc, ← List.flatten_append, List.take_append_drop]
    rw [hwords]
    exact sets_grouped fun b hb => .cons (hkept b hb.left) (.single (hbroken 1 _))
  · exact sets_grouped fun b hb => .cons (hhead b hb.left) (.single (hbroken 0 _))

/-- A chain of calls. -/
theorem CallChain.Sets.doc {c : CallChain} {ws : List Word} (h : c.Sets letters ws) :
    Ensures c.doc (Layout.Sets letters · ws) := by
  obtain ⟨vs, wss, us, rfl, hhead, hinner, hlast⟩ := h
  have hleading : ∀ d ∈ c.inner.reverse.map CallLink.leading, Silent letters d := by
    have hlinks := ((List.forall₂_and_left _ _).mp (hinner.imp fun _ _ hl => ⟨hl.leading, hl⟩)).1
    simpa using hlinks
  refine (ensures_mapM_forall₂ (hinner.imp fun _ _ hl => hl.wrapped)).bind fun inner hinner => ?_
  refine hlast.doc.bind fun last hlast => hhead.bind fun head hhead => .pure ?_
  have hall := sets_brokenCalls c.headKind hhead (List.rel_append hinner (.cons hlast .nil))
  rw [List.flatten_append, List.flatten_singleton] at hall
  exact sets_cat fun b hb => .silent hleading (.single (hall b hb))

/-- A call. -/
theorem Site.Apart.methodInvocation (h : s.Apart letters) (hparted : Parted letters s.children) :
    Ensures s.methodInvocation (Sets letters · (wordsOf s.children)) := by
  have htight := apart_tight h.children (hparted.imp fun p q hpq hmeets => by simp [hpq] at hmeets)
  unfold Site.methodInvocation
  rw [h.comments]
  split
  · rename_i chain hchain
    split
    · exact htight
    · exact (sets_callChain h.children hparted hchain).doc
  · exact htight

/-! ## Control flow -/

/-- A continuation lays out no words. -/
theorem lays_continuation (previous : Piece) (b : Option Word) :
    Lays letters b (continuation previous) [] none := by
  unfold continuation
  split
  · exact lays_hardline
  · exact lays_blank

/-- What stands in front of a keyword lays out no words. -/
theorem lays_beforeKeyword (body : Piece) (b : Option Word) :
    Lays letters b (beforeKeyword body) [] none := by
  unfold beforeKeyword
  split
  · exact lays_continuation body b
  · exact lays_hardline

/-- The statement that a header is for stands behind a gap or is a semicolon. -/
theorem apart_headedBody (header : List Piece) (h : p.Apart letters) :
    Ensures (headedBody header p) (Follows letters · p.node.words) := by
  unfold headedBody
  split
  · split
    · exact .throw _
    · rename_i last _
      exact h.doc.bind fun d hd =>
        .pure fun b => (SetsAll.gap (lays_continuation last b) (.single hd.free)).cat
  · split
    · rename_i hsemicolon
      rw [Tree.words_of_isToken hsemicolon]
      exact .pure fun b => lays_text (w := ⟨";", false⟩) fun _ _ =>
        Word.fuses_of_standsOff (by decide)
    · refine h.doc.bind fun d hd => ?_
      split
      · exact .pure fun b => (SetsAll.gap lays_hardline (.single hd.free)).indented
      · have hinside := fun b => (SetsAll.gap (lays_space (b := b)) (.single hd.free)).indented
        exact .pure fun b => (LaysAll.single (hinside b)).grouped

/-- What follows an `else`. -/
theorem apart_alternativeParts (keyword : Piece) {alternative : Piece}
    (h : alternative.Apart letters) :
    Ensures (alternativeParts keyword alternative) fun ds =>
      ∀ b, SetsAll letters b ds alternative.node.words := by
  unfold alternativeParts
  split
  · exact h.doc.bind fun d hd => .pure fun b => .gap lays_blank (.single hd.free)
  · exact (apart_headedBody [keyword] h).bind fun d hd => .pure fun b => .single (hd b)

namespace Site.Apart

/-- A conditional statement. -/
theorem ifStatement (h : s.Apart letters) (hs : Shape.Allowed .ifStatement s.node.children) :
    Ensures s.ifStatement (Sets letters · (wordsOf s.children)) := by
  obtain ⟨k, c, t, more, hps, helse⟩ := Site.exists_conditional h.nodes hs
  have hchildren := h.children
  rw [hps] at hchildren
  have hrest : Ensures (elseParts t more) fun ds => ∀ b, SetsAll letters b ds (wordsOf more) := by
    rcases helse with rfl | ⟨further, alternative, rfl⟩
    · exact .pure fun b => .nil
    · refine (hchildren further (by simp)).doc.bind fun d hd => ?_
      refine (apart_alternativeParts further (hchildren alternative (by simp))).bind
        fun ds hds => .pure fun b => ?_
      have hwords : wordsOf [further, alternative] =
          further.node.words ++ alternative.node.words := by simp
      rw [hwords]
      exact .gap (lays_beforeKeyword t b) (.cons hd.free (hds _))
  rw [Site.ifStatement, hps]
  refine (hchildren k (by simp)).doc.bind fun first hfirst => ?_
  refine (hchildren c (by simp)).doc.bind fun test htest => ?_
  refine (apart_headedBody [k, c] (hchildren t (by simp))).bind fun body hbody => ?_
  refine hrest.bind fun rest hrest => .pure (sets_cat fun b hb => ?_)
  exact .cons (hfirst b hb.left) (.gap lays_blank (.cons htest.free (.cons (hbody _) (hrest _))))

/-- A loop with its condition in front. -/
theorem loop (h : s.Apart letters) : Ensures s.loop (Sets letters · (wordsOf s.children)) := by
  unfold Site.loop
  split
  · exact .throw _
  · rename_i body hbody
    have hps : s.children = s.children.dropLast ++ [body] :=
      (List.dropLast_append_getLast? body hbody).symm
    have hheader : ∀ p ∈ s.children.dropLast, p.Apart letters :=
      fun p hp => h.children p (List.mem_of_mem_dropLast hp)
    have hstatement := h.children body (List.mem_of_getLast? hbody)
    refine (apart_sequence s.node.kind Spacing.sane_standard hheader).bind fun head hhead => ?_
    refine (apart_headedBody s.children.dropLast hstatement).bind fun d hd => .pure ?_
    rw [hps, wordsOf_append, wordsOf_cons, wordsOf_nil, List.append_nil]
    exact sets_cat fun b hb => .cons (hhead b hb.left) (.single (hd _))

/-- A loop with its condition behind. -/
theorem doLoop (h : s.Apart letters) : Ensures s.doLoop (Sets letters · (wordsOf s.children)) := by
  have hchildren := h.children
  unfold Site.doLoop
  split
  · rename_i keyword body tail hps
    rw [hps] at hchildren ⊢
    refine (hchildren keyword (by simp)).doc.bind fun first hfirst => ?_
    refine (apart_headedBody [keyword] (hchildren body (by simp))).bind
      fun statement hstatement => ?_
    refine (apart_sequence s.node.kind Spacing.sane_standard
      (fun p hp => hchildren p (by simp [hp]))).bind fun rest hrest => ?_
    refine .pure (sets_cat fun b hb => ?_)
    exact .cons (hfirst b hb.left) (.cons (hstatement _)
      (.gap (lays_beforeKeyword body _) (.single hrest.free)))
  · exact .throw _

end Site.Apart

/-- What is read off the children of a group: labels that set their words, the last one first,
and the statements behind them. -/
def SwitchGroup.Sets (letters : Char → Bool) (g : SwitchGroup) (ws : List Word) : Prop :=
  ∃ vss, Rows letters g.labels vss ∧ (∀ p ∈ g.statements, p.Apart letters) ∧
    ws = vss.reverse.flatten ++ wordsOf g.statements

/-- The labels and statements of a group keep their words apart. -/
theorem apart_switchLabels {labels : List Doc} {wss : List (List Word)} (lastLabel : Option Piece)
    (hlabels : Rows letters labels wss) (h : ∀ p ∈ ps, p.Apart letters) :
    Ensures (switchLabels labels lastLabel ps)
      (SwitchGroup.Sets letters · (wss.reverse.flatten ++ wordsOf ps)) := by
  induction ps generalizing labels wss lastLabel with
  | nil =>
    unfold switchLabels
    exact .pure ⟨wss, hlabels, by simp, rfl⟩
  | cons p ps ih =>
    obtain ⟨hp, hps⟩ := List.forall_mem_cons.mp h
    rcases switchLabels_cons labels lastLabel p ps with
      ⟨label, before, rfl, hcolon, heq⟩ | ⟨-, ⟨-, heq⟩ | ⟨-, heq⟩⟩
    all_goals rw [heq]
    · obtain ⟨ws, vss, hfirst, hbefore, rfl⟩ := List.forall₂_cons_left_iff.mp hlabels
      have hclosed : Sets letters (cat [label, .text ":"]) (ws ++ [⟨":", false⟩]) :=
        sets_cat fun b hb => .cons (hfirst b hb.left) (.token (by decide) .nil)
      simpa [Tree.words_of_isToken hcolon] using ih lastLabel (.cons hclosed hbefore) hps
    · refine hp.doc.bind fun d hd => ?_
      simpa using ih (some p) (.cons hd hlabels) hps
    · exact .pure ⟨wss, hlabels, h, rfl⟩

/-- Labels one a line and the statements below them. -/
theorem Site.Apart.switchGroup (h : s.Apart letters) :
    Ensures s.switchGroup (Sets letters · (wordsOf s.children)) := by
  refine (apart_switchLabels none List.Forall₂.nil h.children).bind ?_
  rintro g ⟨vss, hlabels, hstatements, hwords⟩
  rw [List.reverse_nil, List.flatten_nil, List.nil_append] at hwords
  rw [hwords]
  have hhead : Sets letters (join hardline g.labels.reverse) vss.reverse.flatten :=
    Rows.join (fun _ => lays_hardline) (List.forall₂_reverse_iff.mpr hlabels)
  have hgap : ∀ (breaks : Bool) b,
      Lays letters b (if breaks then hardline else .text " ") [] none := by
    intro breaks b
    split
    · exact lays_hardline
    · exact lays_blank
  have hbelow : ∀ d, Sets letters d (wordsOf g.statements) →
      Sets letters (cat [join hardline g.labels.reverse, indented [hardline, d]])
        (vss.reverse.flatten ++ wordsOf g.statements) := fun d hd =>
    sets_cat fun b hb => .cons (hhead b hb.left)
      (.single (SetsAll.gap lays_hardline (.single hd.free)).indented)
  have hmembers := apart_members s.source Gap.none hstatements
  dsimp only
  split
  · rename_i hnone
    rw [hnone, wordsOf_nil, List.append_nil]
    exact .pure hhead
  · rename_i statement hsingle
    split
    · have hstatement : statement.Apart letters := hstatements statement (by simp [hsingle])
      refine hstatement.doc.bind fun d hd => .pure (sets_cat fun b hb => ?_)
      rw [hsingle, wordsOf_cons, wordsOf_nil, List.append_nil]
      exact .cons (hhead b hb.left) (.gap (hgap _ _) (.single hd.free))
    · rw [hsingle] at hmembers hbelow ⊢
      exact hmembers.bind fun d hd => .pure (hbelow d hd)
  · exact hmembers.bind fun d hd => .pure (hbelow d hd)

end JavaFormat.Layout
