import JavaFormat.Layout.Rule
import JavaFormat.Proofs.Syntax.Shape
import Mathlib.Data.List.Basic

/-!
# Sites shaped by the grammar

The pieces of a site are those of the children of its node. Where the grammar says what the
children are, this says what the pieces are, in the form in which the rules take them apart.
-/

namespace JavaFormat.Layout

open Doc

/-! ## Separated items -/

/-- A list that has separators has an item. -/
theorem exists_isNamed_of_separated {separator : String} {b : Bool} {ts : List Tree}
    (h : Shape.Separated separator b ts) : ∃ t ∈ ts, t.isNamed = true := by
  cases h with
  | single ht => exact ⟨_, by simp, ht⟩
  | closed ht _ => exact ⟨_, by simp, ht⟩
  | more ht _ _ => exact ⟨_, by simp, ht⟩

/-- A separated list has a named piece. -/
theorem filter_isNamed_ne_nil {separator : String} {b : Bool} {ps : List Piece}
    (h : Shape.Separated separator b (ps.map Piece.node)) :
    ps.filter (·.node.isNamed) ≠ [] := by
  obtain ⟨t, ht, hnamed⟩ := exists_isNamed_of_separated h
  obtain ⟨p, hp, rfl⟩ := List.mem_map.mp ht
  exact List.ne_nil_of_mem (List.mem_filter.mpr ⟨hp, hnamed⟩)

/-- A node that the grammar names is no token. -/
theorem isToken_eq_false_of_isNamed {t : Tree} (ht : t.isNamed = true) (text : String) :
    t.isToken text = false := by
  by_contra h
  have hnot := Tree.isNamed_of_isToken (by simpa using h)
  rw [ht] at hnot
  cases hnot

/-- A list ends in a separator or in an item. -/
theorem isToken_last_of_separated {separator : String} {b : Bool} {ts : List Tree}
    (h : Shape.Separated separator b ts) : ∃ before t, ts = before ++ [t] ∧
      t.isToken separator = b := by
  induction h with
  | @single t ht => exact ⟨[], t, rfl, isToken_eq_false_of_isNamed ht separator⟩
  | @closed t s ht hs => exact ⟨[t], s, rfl, hs⟩
  | @more b t s ts _ _ _ ih =>
    obtain ⟨before, u, rfl, hu⟩ := ih
    exact ⟨t :: s :: before, u, rfl, hu⟩

/-- Whether a separator stands behind the last item is seen from the last child but one. -/
theorem hasTrailingSeparator_of_separated {node first last : Tree} {body : List Tree}
    {separator : String} {b : Bool} (hc : node.children = first :: (body ++ [last]))
    (hbody : Shape.Separated separator b body) : hasTrailingSeparator node separator = b := by
  obtain ⟨before, t, rfl, ht⟩ := isToken_last_of_separated hbody
  have hrev : node.children.reverse = last :: t :: (before.reverse ++ [first]) := by
    rw [hc]
    simp
  rw [hasTrailingSeparator, hrev]
  exact ht

/-! ## Pieces by the shapes of their nodes -/

namespace Site

variable {s : Site} (hnodes : s.children.map Piece.node = s.node.children)

include hnodes

/-- The pieces of two children. -/
theorem exists_pair {t u : Tree} (hc : s.node.children = [t, u]) :
    ∃ p q, s.children = [p, q] ∧ p.node = t ∧ q.node = u := by
  rw [← hnodes] at hc
  obtain ⟨p, rest, hp, ht, hrest⟩ := List.map_eq_cons_iff.mp hc
  obtain ⟨q, rfl, hu⟩ := List.map_eq_singleton_iff.mp hrest
  exact ⟨p, q, hp, ht, hu⟩

/-- The pieces of three children. -/
theorem exists_triple {t u v : Tree} (hc : s.node.children = [t, u, v]) :
    ∃ p q r, s.children = [p, q, r] ∧ p.node = t ∧ q.node = u ∧ r.node = v := by
  rw [← hnodes] at hc
  obtain ⟨p, rest, hp, ht, hrest⟩ := List.map_eq_cons_iff.mp hc
  obtain ⟨q, rest, rfl, hu, hrest⟩ := List.map_eq_cons_iff.mp hrest
  obtain ⟨r, rfl, hv⟩ := List.map_eq_singleton_iff.mp hrest
  exact ⟨p, q, r, hp, ht, hu, hv⟩

/-- The pieces of a list are its delimiters around nothing, or around items with separators
between them. -/
theorem exists_delimited {opening closing separator : String} {closable : Bool}
    (hs : Shape.Delimited opening closing separator closable s.node.children) :
    ∃ first ps last, s.children = first :: (ps ++ [last]) ∧ first.isToken opening = true ∧
      last.isToken closing = true ∧ s.named = ps.filter (·.node.isNamed) ∧
      (ps = [] ∨ ∃ closed ≤ closable, Shape.Separated separator closed (ps.map Piece.node) ∧
        hasTrailingSeparator s.node separator = closed) := by
  obtain ⟨first, body, last, hc, hopen, hclose, hbody⟩ := hs
  have htrees := hc
  rw [← hnodes] at hc
  obtain ⟨f, rest, hcf, rfl, hrest⟩ := List.map_eq_cons_iff.mp hc
  obtain ⟨ps, qs, rfl, rfl, hqs⟩ := List.map_eq_append_iff.mp hrest
  obtain ⟨l, rfl, rfl⟩ := List.map_eq_singleton_iff.mp hqs
  refine ⟨f, ps, l, hcf, hopen, hclose, ?_, ?_⟩
  · rw [Site.named, hcf]
    simp [Tree.isNamed_of_isToken hopen, Tree.isNamed_of_isToken hclose]
  · rcases hbody with hempty | ⟨closed, hclosed, hseparated⟩
    · exact .inl (List.map_eq_nil_iff.mp hempty)
    · exact .inr ⟨closed, hclosed, hseparated, hasTrailingSeparator_of_separated htrees hseparated⟩

/-- The pieces of a body are braces around what is printed between them. -/
theorem exists_braced {first last : Tree} {items : List Tree}
    (hc : s.node.children = first :: (items ++ [last])) (hopen : first.isToken "\x7b" = true)
    (hclose : last.isToken "\x7d" = true) (hitems : Shape.Unbraced items) :
    s.unbraced.map Piece.node = items ∧ ∃ f l, s.children = f :: (s.unbraced ++ [l]) ∧
      f.isToken "\x7b" = true ∧ l.isToken "\x7d" = true := by
  rw [← hnodes] at hc
  obtain ⟨f, rest, hcf, rfl, hrest⟩ := List.map_eq_cons_iff.mp hc
  obtain ⟨ps, qs, rfl, rfl, hqs⟩ := List.map_eq_append_iff.mp hrest
  obtain ⟨l, rfl, rfl⟩ := List.map_eq_singleton_iff.mp hqs
  have hf : f.node.text? = some "\x7b" := Tree.text?_of_isToken hopen
  have hl : l.node.text? = some "\x7d" := Tree.text?_of_isToken hclose
  have hps : ∀ p ∈ ps, p.node.text? ≠ some "\x7b" ∧ p.node.text? ≠ some "\x7d" :=
    fun p hp => hitems p.node (List.mem_map_of_mem hp)
  have hu : s.unbraced = ps := by
    rw [Site.unbraced, hcf]
    simpa [hf, hl] using hps
  rw [hu]
  exact ⟨rfl, f, l, hcf, hopen, hclose⟩

/-- The pieces of the body of an enumeration: constants and what is declared behind them. -/
theorem exists_enumBraced (hs : Shape.EnumBraced s.node.children) :
    ∃ ps qs, s.unbraced = ps ++ qs ∧ (∀ p ∈ ps, p.kind ≠ .enumBodyDeclarations) ∧
      (qs = [] ∨ ∃ q, qs = [q] ∧ q.kind = .enumBodyDeclarations) ∧
      ∃ f l, s.children = f :: (s.unbraced ++ [l]) ∧ f.isToken "\x7b" = true ∧
        l.isToken "\x7d" = true := by
  obtain ⟨first, constants, declarations, last, hc, hopen, hclose, hitems, hkinds, hdeclared⟩ := hs
  obtain ⟨hunbraced, hframe⟩ := exists_braced hnodes hc hopen hclose hitems
  obtain ⟨ps, qs, hps, rfl, rfl⟩ := List.map_eq_append_iff.mp hunbraced
  refine ⟨ps, qs, hps, fun p hp => hkinds p.node (List.mem_map_of_mem hp), ?_, hframe⟩
  rcases hdeclared with hnil | ⟨t, hdeclared, hkind⟩
  · exact .inl (List.map_eq_nil_iff.mp hnil)
  · obtain ⟨q, rfl, rfl⟩ := List.map_eq_singleton_iff.mp hdeclared
    exact .inr ⟨q, rfl, hkind⟩

/-- The pieces of a declaration: modifiers if there are any, a head, clauses and a body. -/
theorem exists_typeDeclared (hs : Shape.TypeDeclared s.node.children) :
    ∃ ms hs ks body, s.children = ms ++ (hs ++ (ks ++ [body])) ∧
      (ms = [] ∨ ∃ m, ms = [m] ∧ m.kind = .modifiers) ∧
      (∀ p ∈ hs, p.kind ≠ .modifiers ∧ p.kind.isHeaderClause = false ∧
        p.kind.isTypeBody = false) ∧
      (∀ p ∈ ks, p.kind.isHeaderClause = true) ∧ body.kind.isTypeBody = true := by
  obtain ⟨modifiers, head, clauses, body, hc, hmodifiers, hhead, hclauses, hbody⟩ := hs
  rw [← hnodes] at hc
  obtain ⟨ms, tail₁, hps, rfl, htail₁⟩ := List.map_eq_append_iff.mp hc
  obtain ⟨hs, tail₂, rfl, rfl, htail₂⟩ := List.map_eq_append_iff.mp htail₁
  obtain ⟨ks, tail₃, rfl, rfl, htail₃⟩ := List.map_eq_append_iff.mp htail₂
  obtain ⟨body, rfl, rfl⟩ := List.map_eq_singleton_iff.mp htail₃
  refine ⟨ms, hs, ks, body, hps, ?_, fun p hp => hhead p.node (List.mem_map_of_mem hp),
    fun p hp => hclauses p.node (List.mem_map_of_mem hp), hbody⟩
  rcases hmodifiers with hnil | ⟨m, hm, hkind⟩
  · exact .inl (List.map_eq_nil_iff.mp hnil)
  · obtain ⟨p, rfl, rfl⟩ := List.map_eq_singleton_iff.mp hm
    exact .inr ⟨p, rfl, hkind⟩

/-- The pieces of a variable: what is in front of its sign, and its initializer. -/
theorem exists_declarator (hs : Shape.Declarator s.node.children) :
    ∃ left right, s.children = left ++ right ∧
      s.children.takeWhile (fun p => !p.isToken "=") = left ∧
      s.children.dropWhile (fun p => !p.isToken "=") = right ∧
      (right = [] ∨ ∃ sign value, right = [sign, value] ∧ sign.isToken "=" = true) := by
  obtain ⟨left, right, hc, hleft, hright⟩ := hs
  rw [← hnodes] at hc
  obtain ⟨ls, rs, hps, rfl, rfl⟩ := List.map_eq_append_iff.mp hc
  have hsign : rs = [] ∨ ∃ sign value, rs = [sign, value] ∧ sign.isToken "=" = true := by
    rcases hright with hnil | ⟨sign, value, hsign, htoken⟩
    · exact .inl (List.map_eq_nil_iff.mp hnil)
    · obtain ⟨p, rest, rfl, rfl, hrest⟩ := List.map_eq_cons_iff.mp hsign
      obtain ⟨q, rfl, -⟩ := List.map_eq_singleton_iff.mp hrest
      exact .inr ⟨p, q, rfl, htoken⟩
  have hlefts : ∀ p ∈ ls, (!p.isToken "=") = true := by
    intro p hp
    rw [Bool.not_eq_true']
    exact hleft p.node (List.mem_map_of_mem hp)
  have hrights : rs.takeWhile (fun p => !p.isToken "=") = [] ∧
      rs.dropWhile (fun p => !p.isToken "=") = rs := by
    rcases hsign with rfl | ⟨sign, value, rfl, htoken⟩
    · exact ⟨rfl, rfl⟩
    · exact ⟨List.takeWhile_cons_of_neg (by simp [htoken]),
        List.dropWhile_cons_of_neg (by simp [htoken])⟩
  refine ⟨ls, rs, hps, ?_, ?_, hsign⟩
  · rw [hps, List.takeWhile_append_of_pos hlefts, hrights.1, List.append_nil]
  · rw [hps, List.dropWhile_append_of_pos hlefts, hrights.2]

/-- The pieces of a choice: three expressions with two signs between them. -/
theorem exists_ternary (hs : Shape.Allowed .ternaryExpression s.node.children) :
    ∃ condition mark consequence colon alternative,
      s.children = [condition, mark, consequence, colon, alternative] ∧
        mark.isToken "?" = true ∧ colon.isToken ":" = true := by
  obtain ⟨_, _, _, _, _, hc, hmark, hcolon⟩ := hs
  rw [← hnodes] at hc
  obtain ⟨a, tail₁, hps, rfl, htail₁⟩ := List.map_eq_cons_iff.mp hc
  obtain ⟨m, tail₂, rfl, rfl, htail₂⟩ := List.map_eq_cons_iff.mp htail₁
  obtain ⟨b, tail₃, rfl, rfl, htail₃⟩ := List.map_eq_cons_iff.mp htail₂
  obtain ⟨n, tail₄, rfl, rfl, htail₄⟩ := List.map_eq_cons_iff.mp htail₃
  obtain ⟨c, rfl, rfl⟩ := List.map_eq_singleton_iff.mp htail₄
  exact ⟨a, m, b, n, c, hps, hmark, hcolon⟩

/-- The pieces of a conditional statement, with or without an alternative. -/
theorem exists_conditional (hs : Shape.Allowed .ifStatement s.node.children) :
    ∃ keyword condition consequence more,
      s.children = keyword :: condition :: consequence :: more ∧
        (more = [] ∨ ∃ further alternative, more = [further, alternative]) := by
  obtain ⟨keyword, condition, consequence, hc | ⟨further, alternative, hc⟩⟩ := hs
  · obtain ⟨k, c, t, hps, -⟩ := exists_triple hnodes hc
    exact ⟨k, c, t, [], hps, .inl rfl⟩
  · rw [← hnodes] at hc
    obtain ⟨k, tail₁, hps, -, htail₁⟩ := List.map_eq_cons_iff.mp hc
    obtain ⟨c, tail₂, rfl, -, htail₂⟩ := List.map_eq_cons_iff.mp htail₁
    obtain ⟨t, tail₃, rfl, -, htail₃⟩ := List.map_eq_cons_iff.mp htail₂
    obtain ⟨f, tail₄, rfl, -, htail₄⟩ := List.map_eq_cons_iff.mp htail₃
    obtain ⟨a, rfl, -⟩ := List.map_eq_singleton_iff.mp htail₄
    exact ⟨k, c, t, [f, a], hps, .inr ⟨f, a, rfl⟩⟩

end Site

/-! ## Chains -/

/-- The chain of operators that a node offers its parent is that of a binary expression. -/
theorem operators_piece {s : Site} {found : Except ShapeError OperatorChain}
    (h : s.piece.operators = some found) :
    s.node.kind = .binaryExpression ∧ operatorChain s.comments s.children = found := by
  have hpiece : (if s.node.kind = .binaryExpression then
      some (operatorChain s.comments s.children) else none) = some found := h
  split at hpiece
  · rename_i hk
    exact ⟨hk, Option.some.inj hpiece⟩
  · cases hpiece

/-- The chain of calls that a node offers its parent is that of a call. -/
theorem calls_piece {s : Site} {chain : CallChain} (h : s.piece.calls = some chain) :
    s.node.kind = .methodInvocation ∧ callChain? s.comments s.children = some chain := by
  have hpiece : (if s.node.kind = .methodInvocation then
      callChain? s.comments s.children else none) = some chain := h
  split at hpiece
  · rename_i hk
    exact ⟨hk, hpiece⟩
  · cases hpiece

/-- A chain of calls is that of a receiver with a dot behind it, and goes on where the calls of
the receiver end, if it has any. -/
theorem exists_receiver {comments : NodeComments} {ps : List Piece} {chain : CallChain}
    (h : callChain? comments ps = some chain) :
    ∃ receiver dot rest, ps = receiver :: dot :: rest ∧ dot.isToken "." = true ∧
      ((∃ c, receiver.calls = some c ∧ chain =
          ⟨c.headKind, c.head, c.inner ++ [c.last], callLink comments ps⟩) ∨
        chain = ⟨receiver.kind, receiver.doc, [], callLink comments ps⟩) := by
  obtain ⟨object, hobject, rfl⟩ := Option.map_eq_some_iff.mp h
  unfold receiver? at hobject
  split at hobject
  · rename_i receiver dot rest
    split at hobject
    · rename_i hdot
      obtain rfl := Option.some.inj hobject
      refine ⟨receiver, dot, rest, rfl, hdot, ?_⟩
      cases hcalls : receiver.calls with
      | none => exact .inr rfl
      | some c => exact .inl ⟨c, rfl, rfl⟩
    · cases hobject
  · cases hobject

/-! ## Constants -/

/-- Among constants there is nothing that is declared behind them. -/
theorem find?_declarations {ps : List Piece} (h : ∀ p ∈ ps, p.kind ≠ .enumBodyDeclarations) :
    ps.reverse.find? (·.kind == .enumBodyDeclarations) = none := by
  rw [List.find?_eq_none]
  intro p hp
  simpa using h p (List.mem_reverse.mp hp)

/-- The declarations of an enum are no constants. -/
theorem enumConstants_cons_of_declarations (source : Source) (current : Option Doc) {p : Piece}
    (ps : List Piece) (hk : p.kind = .enumBodyDeclarations) :
    enumConstants source current (p :: ps) = enumConstants source current ps := by
  conv_lhs => unfold enumConstants
  rw [if_pos hk]

/-- What is declared behind the constants adds none. -/
theorem enumConstants_of_declarations (source : Source) (current : Option Doc) {qs : List Piece}
    (hqs : ∀ q ∈ qs, q.kind = .enumBodyDeclarations) :
    enumConstants source current qs = .ok current.toList := by
  induction qs with
  | nil => rfl
  | cons q qs ih =>
    obtain ⟨hq, hqs⟩ := List.forall_mem_cons.mp hqs
    rw [enumConstants_cons_of_declarations source current qs hq, ih hqs]

/-- A comma goes behind the constant in front of it, and anything else that is not declared behind
the constants is one. -/
theorem enumConstants_cons (source : Source) (current : Option Doc) {p : Piece} (ps : List Piece)
    (hk : p.kind ≠ .enumBodyDeclarations) :
    (∃ d, current = some d ∧ p.isToken "," = true ∧
      enumConstants source current (p :: ps) =
        enumConstants source (some (cat [d, .text ","])) ps) ∨
    (current.isSome = true → p.isToken "," = false) ∧
      enumConstants source current (p :: ps) = (do
        let d ← p.doc
        let d := if current.isSome && hasBlankLineBefore source p then cat [hardline, d] else d
        let rest ← enumConstants source (some d) ps
        return current.toList ++ rest) := by
  cases current with
  | none =>
    refine .inr ⟨by simp, ?_⟩
    conv_lhs => unfold enumConstants
    rw [if_neg hk]
  | some d =>
    cases hcomma : p.isToken "," with
    | false =>
      refine .inr ⟨fun _ => rfl, ?_⟩
      conv_lhs => unfold enumConstants
      rw [if_neg hk, hcomma]
    | true =>
      refine .inl ⟨d, rfl, rfl, ?_⟩
      conv_lhs => unfold enumConstants
      rw [if_neg hk, hcomma]

/-! ## Labels -/

/-- A colon goes with the label in front of it, a label comes to the others, and anything else is
the first statement. -/
theorem switchLabels_cons (labels : List Doc) (last : Option Piece) (p : Piece)
    (ps : List Piece) :
    (∃ label before, labels = label :: before ∧ p.isToken ":" = true ∧
      switchLabels labels last (p :: ps) =
        switchLabels (cat [label, .text ":"] :: before) last ps) ∨
    (labels ≠ [] → p.isToken ":" = false) ∧
      (p.kind = .switchLabel ∧ switchLabels labels last (p :: ps) =
          (p.doc >>= fun d => switchLabels (d :: labels) (some p) ps) ∨
        p.kind ≠ .switchLabel ∧
          switchLabels labels last (p :: ps) = .ok ⟨labels, last, p :: ps⟩) := by
  cases labels with
  | nil =>
    refine .inr ⟨by simp, ?_⟩
    rw [switchLabels]
    by_cases hk : p.kind = .switchLabel
    · exact .inl ⟨hk, if_pos hk⟩
    · exact .inr ⟨hk, if_neg hk⟩
  | cons label before =>
    rw [switchLabels]
    cases hcolon : p.isToken ":" with
    | true => exact .inl ⟨label, before, rfl, rfl, if_pos rfl⟩
    | false =>
      refine .inr ⟨fun _ => rfl, ?_⟩
      rw [if_neg Bool.false_ne_true]
      by_cases hk : p.kind = .switchLabel
      · exact .inl ⟨hk, if_pos hk⟩
      · exact .inr ⟨hk, if_neg hk⟩

/-! ## Sorting the children of a declaration -/

section TypeParts

variable {hs ks : List Piece} {body : Piece}

/-- The body of a declaration of a type is sorted as such. -/
theorem sort_of_isTypeBody {k : NodeKind} (h : k.isTypeBody = true) :
    k ≠ .modifiers ∧ k.isHeaderClause = false := by
  unfold NodeKind.isTypeBody at h
  split at h
  · exact ⟨by simp, rfl⟩
  · exact ⟨by simp, rfl⟩
  · exact ⟨by simp, rfl⟩
  · exact ⟨by simp, rfl⟩
  · cases h

/-- A clause is no list of modifiers. -/
theorem ne_modifiers_of_isHeaderClause {k : NodeKind} (h : k.isHeaderClause = true) :
    k ≠ .modifiers := by
  rintro rfl
  cases h

/-- A declaration has no list of modifiers but in front of its head. -/
theorem ne_modifiers_of_typeDeclared (hhead : ∀ p ∈ hs, p.kind ≠ .modifiers ∧
      p.kind.isHeaderClause = false ∧ p.kind.isTypeBody = false)
    (hclauses : ∀ p ∈ ks, p.kind.isHeaderClause = true) (hbody : body.kind.isTypeBody = true) :
    ∀ p ∈ hs ++ (ks ++ [body]), p.kind ≠ .modifiers := by
  intro p hp
  simp only [List.mem_append, List.mem_singleton] at hp
  rcases hp with hp | hp | rfl
  · exact (hhead p hp).1
  · exact ne_modifiers_of_isHeaderClause (hclauses p hp)
  · exact (sort_of_isTypeBody hbody).1

/-- The clauses of a declaration and its body. -/
theorem typeParts_clauses (kind : NodeKind) (hclauses : ∀ p ∈ ks, p.kind.isHeaderClause = true)
    (hbody : body.kind.isTypeBody = true) : typeParts kind (ks ++ [body]) = (do
      let clauses ← docs ks
      let d ← body.doc
      return { clauses := clauses, body := some d }) := by
  induction ks with
  | nil =>
    obtain ⟨hmodifiers, hclause⟩ := sort_of_isTypeBody hbody
    rw [List.nil_append, typeParts, if_neg hmodifiers, if_neg (by simp [hclause]), if_pos hbody]
    rfl
  | cons p ps ih =>
    obtain ⟨hclause, hclauses⟩ := List.forall_mem_cons.mp hclauses
    rw [List.cons_append, typeParts, if_neg (ne_modifiers_of_isHeaderClause hclause),
      if_pos hclause, ih hclauses, docs, docs, List.mapM_cons]
    simp

/-- The children of a declaration without modifiers are sorted into a head, clauses and a
body. -/
theorem typeParts_unmodified (kind : NodeKind)
    (hhead : ∀ p ∈ hs, p.kind ≠ .modifiers ∧ p.kind.isHeaderClause = false ∧
      p.kind.isTypeBody = false) (hclauses : ∀ p ∈ ks, p.kind.isHeaderClause = true)
    (hbody : body.kind.isTypeBody = true) : typeParts kind (hs ++ (ks ++ [body])) = (do
      let clauses ← docs ks
      let d ← body.doc
      return { head := hs, clauses := clauses, body := some d }) := by
  induction hs with
  | nil => exact typeParts_clauses kind hclauses hbody
  | cons p ps ih =>
    obtain ⟨⟨hmodifiers, hclause, hinside⟩, hhead⟩ := List.forall_mem_cons.mp hhead
    rw [List.cons_append, typeParts, if_neg hmodifiers, if_neg (by simp [hclause]),
      if_neg (by simp [hinside]), ih hhead]
    simp

/-- Modifiers come in front, with what goes behind them. -/
theorem typeParts_modified (kind : NodeKind) {p next : Piece} {rest : List Piece}
    (hk : p.kind = .modifiers) : typeParts kind (p :: next :: rest) = (do
      let d ← p.doc
      let parts ← typeParts kind (next :: rest)
      let gap := separator (some kind) .standard (some next.node) p next
      return { parts with modifiers := d :: gap :: parts.modifiers }) := by
  rw [typeParts, if_pos hk]

end TypeParts

end JavaFormat.Layout
