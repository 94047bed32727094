import JavaFormat.Layout.Calls
import JavaFormat.Proofs.Layout.Delimited
import JavaFormat.Proofs.Layout.Spacing

/-!
# Calls lose nothing

Both ways of printing arguments have all of them, so it does not matter which one is
picked. A chain of calls takes the place of its receivers, and the comments in front
of a name are moved in front of the dot.
-/

namespace JavaFormat.Layout

open Doc

variable {share : Tree → Multiset Remark}

/-! ## Arguments -/

/-- It can be told of every node whether it may stay next to the parentheses: a node
that may has children. -/
theorem exists_isHuggable {t : Tree} (h : t.Regular) : ∃ b, isHuggable t = .ok b := by
  have hlambda : t.kind = .lambdaExpression → t.children ≠ [] := by
    intro hk
    have ha := h.allowed (by simp [hk]) (by rw [hk]; rfl)
    rw [hk] at ha
    exact ha
  have hcreation : t.kind = .objectCreationExpression → t.children ≠ [] := by
    intro hk
    have ha := h.allowed (by simp [hk]) (by rw [hk]; rfl)
    rw [hk] at ha
    exact ha
  by_cases hchildren : t.children = []
  · have hlambda : t.kind ≠ .lambdaExpression := fun hk => hlambda hk hchildren
    have hcreation : t.kind ≠ .objectCreationExpression := fun hk => hcreation hk hchildren
    refine ⟨false, ?_⟩
    simp only [isHuggable]
    rfl
  · unfold isHuggable
    rw [List.getLast?_eq_some_getLast hchildren]
    dsimp only
    split <;> exact ⟨_, rfl⟩

/-- Whether one of some complete arguments is huggable can be told. -/
theorem exists_anyHuggable {ps : List Piece} (h : ∀ p ∈ ps, p.Inner share) :
    ∃ b, anyHuggable ps = .ok b := by
  induction ps with
  | nil => exact ⟨false, rfl⟩
  | cons p ps ih =>
    obtain ⟨hp, hps⟩ := List.forall_mem_cons.mp h
    obtain ⟨b, hb⟩ := exists_isHuggable hp.regular
    obtain ⟨c, hc⟩ := ih hps
    rw [anyHuggable, hb]
    cases b with
    | true => exact ⟨true, rfl⟩
    | false => exact ⟨c, hc⟩

/-- Whether the last of some complete arguments is hugged can be told. -/
theorem exists_hugsLast {ps : List Piece} (h : ∀ p ∈ ps, p.Inner share) :
    ∃ b, hugsLast ps = .ok b := by
  unfold hugsLast
  cases hlast : ps.getLast? with
  | none => exact ⟨false, rfl⟩
  | some last =>
    obtain ⟨b, hb⟩ := exists_isHuggable (h last (List.mem_of_getLast? hlast)).regular
    obtain ⟨c, hc⟩ := exists_anyHuggable fun p hp => h p (List.dropLast_subset _ hp)
    dsimp only
    rw [hb]
    cases b with
    | false => exact ⟨false, rfl⟩
    | true =>
      refine ⟨!c && !ps.any Piece.hasComments, ?_⟩
      rw [hc]
      rfl

/-- Grouping the last item changes nothing that is printed. -/
theorem Listed.groupLast {separator : String} {ds : List Doc} {ls : List String}
    {cs : Multiset Remark} (h : Listed separator ds ls cs) :
    Listed separator (groupLast ds) ls cs := by
  induction h with
  | last hd => exact .last ((Each.single hd).grouped)
  | @more d ds ls₁ ls₂ cs₁ cs₂ hd h ih =>
    cases ds with
    | nil => exact absurd rfl h.ne_nil
    | cons f fs => exact .more hd ih

/-- The arguments of a call are printed in both states of the choice. -/
theorem Site.Ready.yields_arguments {s : Site} (h : s.Ready share)
    (hs : Shape.Delimited "(" ")" "," false s.node.children) :
    Yields s.arguments (texts s.children)
      (remarks s.comments.dangling + shares share s.children) := by
  have hlisted := h.yields_delimited .parenthesized hs
  have hnamed : ∀ p ∈ s.named, p.Inner share := fun p hp => h.inner p (List.mem_of_mem_filter hp)
  obtain ⟨hugs, hhugs⟩ := exists_hugsLast hnamed
  unfold Site.arguments
  rw [hhugs]
  cases hugs with
  | false => exact hlisted
  | true =>
    obtain ⟨first, ps, last, hc, hopen, hclose, hnamed, hps⟩ := Site.exists_delimited h.nodes hs
    obtain ⟨ht, hsh⟩ := h.texts_delimited hc hopen hclose
    have hne : s.named ≠ [] := by
      intro hnil
      rw [hnil] at hhugs
      cases hhugs
    rcases hps with rfl | ⟨b, hb, hps, -⟩
    · exact absurd hnamed hne
    · have hb : b = false := Bool.eq_false_of_le_false hb
      obtain ⟨ls, hls, hdocs⟩ := succeeds_listed hps rfl fun p hp => h.inner p (by simp [hc, hp])
      have hls : texts ps = ls := by simpa [hb] using hls
      rw [← hnamed] at hdocs
      have hseparator : Weaves (.text ", ") [","] 0 := weaves_text_blank ","
      refine hdocs.bind fun ds hds => hlisted.bind fun listed hlisted => .pure ?_
      have hhugged := (Each.cons (weaves_text "(") (.cons (hds.groupLast.join hseparator)
        (.single (weaves_text ")")))).cat
      refine Weaves.choice (hhugged.congr ?_ ?_) hlisted
      · rw [ht, hls]
        simp
      · rw [h.remarks_dangling_eq_zero hne, hsh]
        simp

/-! ## Chains -/

/-- The parts of a call behind its receiver, with the comments moved in front of
them. -/
theorem succeeds_callParts {ps : List Piece} (h : ∀ p ∈ ps, p.Complete share) :
    Succeeds (callParts ps) fun x => ∃ front rest, WeavesAll x.1 [] front ∧
      WeavesAll x.2 (texts ps) rest ∧ shares share ps = front + rest := by
  induction ps with
  | nil => exact .pure ⟨0, 0, .nil, .nil, by simp⟩
  | cons p ps ih =>
    obtain ⟨hp, hps⟩ := List.forall_mem_cons.mp h
    unfold callParts
    split
    · obtain ⟨rest₁, hshare, hdoc⟩ := hp.headless
      refine hdoc.bind fun d hd => (ih hps).bind ?_
      rintro ⟨hoisted, parts⟩ ⟨front, rest, hhoisted, hparts, hcs⟩
      have hfront := hhoisted.append (.single (weaves_leadingDoc p.comments))
      refine .pure ⟨_, _, hfront, .cons hd hparts, ?_⟩
      rw [shares_cons, hshare, hcs]
      ac_rfl
    · refine hp.doc.bind fun d hd => (ih hps).bind ?_
      rintro ⟨hoisted, parts⟩ ⟨front, rest, hhoisted, hparts, hcs⟩
      refine .pure ⟨_, _, hhoisted, .cons hd hparts, ?_⟩
      rw [shares_cons, hcs]
      ac_rfl

/-- A call without its receiver. -/
theorem yields_callDoc {children : List Piece}
    (h : ∀ p ∈ children, p.Complete share) :
    Yields (callDoc children) (texts (children.drop 1)) (shares share (children.drop 1)) := by
  refine (succeeds_callParts fun p hp => h p (List.mem_of_mem_drop hp)).bind ?_
  rintro ⟨hoisted, parts⟩ ⟨front, rest, hhoisted, hparts, hcs⟩
  rw [hcs]
  exact .pure (hhoisted.append hparts).cat

/-- A call as a link, with the comments around it. -/
theorem linked_callLink (comments : NodeComments) {children : List Piece}
    (h : ∀ p ∈ children, p.Complete share) :
    Linked CallLink.leading CallLink.wrapped (callLink comments children)
      (texts (children.drop 1))
      (remarks comments.leading +
        (shares share (children.drop 1) + remarks comments.trailing)) := by
  refine ⟨_, _, weaves_leadingDoc comments, ?_, rfl⟩
  refine (yields_callDoc h).bind fun d hd => .pure ?_
  have hboth := (Each.cons hd (.single (weaves_trailingDoc comments.trailing))).cat
  exact hboth.congr (by simp) rfl

/-- The chain of a call: its receiver in front of its own link, whether or not the
receiver is a chain. -/
theorem chained_of_callChain? {comments : NodeComments} {children : List Piece}
    (h : ∀ p ∈ children, p.Complete share) {c : CallChain}
    (hc : callChain? comments children = some c) :
    ∃ object rest, children = object :: rest ∧ c.last = callLink comments children ∧
      Chained CallLink.leading CallLink.wrapped c.head c.inner object.node.leafTexts
        (share object.node) := by
  obtain ⟨object, dot, rest, rfl, -, hchain⟩ := exists_receiver hc
  have hhead := h object (by simp)
  refine ⟨object, dot :: rest, rfl, ?_⟩
  rcases hchain with ⟨inner, hcalls, rfl⟩ | rfl
  · exact ⟨rfl, hhead.calls inner hcalls⟩
  · exact ⟨rfl, .start hhead.doc⟩

/-- Breaking a chain in front of its calls changes nothing that is printed. -/
theorem weaves_brokenCalls (headKind : NodeKind) {head : Doc} {links : List Doc}
    {ls₁ ls₂ : List String} {cs₁ cs₂ : Multiset Remark} (hh : Weaves head ls₁ cs₁)
    (hl : WeavesAll links ls₂ cs₂) :
    Weaves (brokenCalls headKind head links) (ls₁ ++ ls₂) (cs₁ + cs₂) := by
  have hbreak : ∀ {d ls cs}, Weaves d ls cs → Weaves (cat [softline, d]) ls cs :=
    fun hd => (Each.skip empty_softline (.single hd)).cat.congr (by simp) (by simp)
  unfold brokenCalls
  cases keepsFirstCall headKind with
  | false =>
    have hrest := (hl.map hbreak).indented
    exact (Each.cons hh (.single hrest)).grouped
  | true =>
    cases hl with
    | nil =>
      have hrest : Weaves (indented []) [] 0 := Each.nil.indented
      exact (Each.cons (Each.single hh).cat (.single hrest)).grouped
    | cons hlink hlinks =>
      have hfirst := (Each.cons hh (.single hlink)).cat
      have hrest := (hlinks.map hbreak).indented
      have hall := (Each.cons hfirst (.single hrest)).grouped
      exact hall.congr (by simp) (by simp [add_assoc])

namespace Site.Ready

variable {s : Site}

/-- What a call offers its parent as a chain has all of its leaves and comments. -/
theorem weaves_calls (h : s.Ready share) {c : CallChain}
    (hc : callChain? s.comments s.children = some c) :
    c.Weaves (texts s.children)
      (remarks s.comments.leading + remarks s.comments.trailing + shares share s.children) := by
  have hlink := linked_callLink s.comments h.complete
  obtain ⟨object, rest, hchildren, hlast, hchain⟩ := chained_of_callChain? h.complete hc
  rw [← hlast, hchildren, List.drop_one, List.tail_cons] at hlink
  have hall := hchain.extend hlink
  have hcs : share object.node + (remarks s.comments.leading +
      (shares share rest + remarks s.comments.trailing)) =
      remarks s.comments.leading + remarks s.comments.trailing +
        shares share (object :: rest) := by
    rw [shares_cons]
    ac_rfl
  rw [hcs] at hall
  rw [hchildren]
  exact hall

/-- A chain of calls prints its receiver, its calls, and the comments around the calls
at its left end. -/
theorem yields_callChain (h : s.Ready share) {c : CallChain}
    (hc : callChain? s.comments s.children = some c) :
    Yields c.doc (texts s.children) (shares share s.children) := by
  have hdoc := yields_callDoc h.complete
  obtain ⟨object, rest, hchildren, hlast, hchain⟩ := chained_of_callChain? h.complete hc
  obtain ⟨ls₁, ls₂, cs₁, cs₂, hhead, hlinks, hls, hcs⟩ := hchain
  obtain ⟨front, back, hleads, hinner, rfl⟩ := hlinks.unlink
  have ht : texts s.children = ls₁ ++ ls₂ ++ texts (s.children.drop 1) := by
    rw [hchildren, texts_cons, hls]
    rfl
  have hsh : shares share s.children =
      front + (cs₁ + (back + shares share (s.children.drop 1))) := by
    rw [hchildren, shares_cons, hcs, List.drop_one, List.tail_cons]
    ac_rfl
  rw [ht, hsh, CallChain.doc, hlast]
  refine hinner.bind fun inner hinner => hdoc.bind fun last hlast => hhead.bind fun head hhead =>
    .pure ?_
  have hbroken := weaves_brokenCalls c.headKind hhead (hinner.append (.single hlast))
  exact (hleads.append (.single hbroken)).cat.congr (by simp) rfl

/-- A call prints its receiver, its name and its arguments. -/
theorem yields_methodInvocation (h : s.Ready share) :
    Yields s.methodInvocation (texts s.children) (shares share s.children) := by
  have htight := yields_tight h.complete
  unfold Site.methodInvocation
  split
  · rename_i c hc
    split
    · exact htight
    · exact h.yields_callChain hc
  · exact htight

end Site.Ready

end JavaFormat.Layout
