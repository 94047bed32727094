import JavaFormat.Layout.Rule
import JavaFormat.Proofs.Layout.Firm
import JavaFormat.Proofs.Layout.Laid

/-!
# Pieces that keep their words apart

Without comments a piece is the document of its node. It keeps its words apart if the document
sets them behind any word that the first of them does not fuse with, and so does what a parent
may use in its place, the chain of operators or calls that ends with the node.

Whether neighbours on a line are separated by a space is decided from their kinds and tokens.
Where they are not, the one in front ends or the one behind begins with punctuation.
-/

namespace JavaFormat.Layout

open Doc

variable {letters : Char → Bool}

/-! ## Chains -/

/-- A document that goes on with a line behind any word: it sets the words `ws`, the first of
which fuses with nothing. -/
def Follows (letters : Char → Bool) (d : Doc) (ws : List Word) : Prop :=
  ∀ b, Lays letters b d ws (after b ws)

/-- A document that shows nothing. -/
def Silent (letters : Char → Bool) (d : Doc) : Prop := ∀ b, Lays letters b d [] b

/-- A link with an operator and an operand. -/
structure OperatorLink.Sets (letters : Char → Bool) (l : OperatorLink) (ws : List Word) : Prop where
  parts : Ensures l.parts fun parts =>
    ∃ vs, ws = ⟨parts.1, false⟩ :: vs ∧ Layout.Sets letters parts.2 vs
  leading : Silent letters l.leading
  trailing : Silent letters l.trailing

/-- The words of a chain of operators are those of its leftmost operand and of its links. -/
def OperatorChain.Sets (letters : Char → Bool) (c : OperatorChain) (ws : List Word) : Prop :=
  ∃ vs wss us, ws = vs ++ (wss.flatten ++ us) ∧ Ensures c.first (Layout.Sets letters · vs) ∧
    List.Forall₂ (OperatorLink.Sets letters) c.inner wss ∧ c.last.Sets letters us

/-- A link with a call. -/
structure CallLink.Sets (letters : Char → Bool) (l : CallLink) (ws : List Word) : Prop where
  doc : Ensures l.doc (Follows letters · ws)
  leading : Silent letters l.leading
  trailing : Silent letters l.trailing

/-- The words of a chain of calls are those of its leftmost receiver and of its links. -/
def CallChain.Sets (letters : Char → Bool) (c : CallChain) (ws : List Word) : Prop :=
  ∃ vs wss us, ws = vs ++ (wss.flatten ++ us) ∧ Ensures c.head (Layout.Sets letters · vs) ∧
    List.Forall₂ (CallLink.Sets letters) c.inner wss ∧ c.last.Sets letters us

/-! ## Pieces -/

/-- All that a parent may ask of a piece keeps the words of its node apart. -/
structure Piece.Apart (letters : Char → Bool) (p : Piece) : Prop where
  lexed : p.node.Lexed
  comments : p.comments = {}
  bare : Ensures p.bare (Sets letters · p.node.words)
  operators : ∀ found, p.operators = some found →
    Ensures found (OperatorChain.Sets letters · p.node.words)
  calls : ∀ chain, p.calls = some chain → chain.Sets letters p.node.words

/-- The words of several pieces. -/
def wordsOf (ps : List Piece) : List Word := ps.flatMap fun p => p.node.words

/-- No pieces have no words. -/
@[simp] theorem wordsOf_nil : wordsOf [] = [] := rfl

/-- The words of the first piece are in front of those of the others. -/
@[simp] theorem wordsOf_cons (p : Piece) (ps : List Piece) :
    wordsOf (p :: ps) = p.node.words ++ wordsOf ps := rfl

/-- The words of two lists of pieces together. -/
@[simp] theorem wordsOf_append (ps qs : List Piece) :
    wordsOf (ps ++ qs) = wordsOf ps ++ wordsOf qs := List.flatMap_append

/-- The words of pieces are those of their nodes. -/
theorem wordsOf_eq_flatMap (ps : List Piece) :
    wordsOf ps = (ps.map Piece.node).flatMap Tree.words := by
  rw [List.flatMap_map]
  rfl

/-- Without comments there is nothing to be put around a document. -/
theorem wrap_of_comments {p : Piece} (h : p.comments = {}) (leading : Bool) (d : Doc) :
    p.wrap leading d = d := by
  rw [Piece.wrap, h]
  rfl

namespace Piece.Apart

variable {p q : Piece}

/-- The document of a piece lays out its words, apart. -/
theorem doc (h : p.Apart letters) : Ensures p.doc (Sets letters · p.node.words) :=
  h.bare.map fun d hd => by rwa [wrap_of_comments h.comments]

/-- A piece has a word. -/
theorem words_ne_nil (h : p.Apart letters) : p.node.words ≠ [] := h.lexed.words_ne_nil

/-- Nothing fuses with a node that begins with punctuation. -/
theorem joins_of_standsOff (h : p.Apart letters) (hp : Text.standsOff p.node.firstLeaf.text = true)
    (b : Option Word) : Joins letters b p.node.words := by
  obtain ⟨w, ws, hw, htext⟩ := h.lexed.exists_words
  rw [hw]
  exact Layout.joins_of_standsOff (by rwa [htext])

/-- Two nodes that do not meet like identifiers do not fuse. -/
theorem joins_of_meets (hp : p.Apart letters) (b : Option Word)
    (h : p.node.meets letters q.node = false) :
    Joins letters (after b p.node.words) q.node.words := by
  intro v hv w hw
  rw [after_of_ne_nil b hp.words_ne_nil] at hv
  have hsign := hp.lexed.isSign_of_getLast? v hv
  rw [Tree.meets, ← Tree.map_text_words, ← Tree.map_text_words, List.getLast?_map, List.head?_map,
    hv, hw] at h
  rw [Word.fuses, hsign, Bool.false_and, Bool.or_false]
  exact h

end Piece.Apart

/-! ## Children on one line -/

/-- The names of the kinds that no space is printed in front of. -/
def attachedNames : List String :=
  [NodeKind.argumentList.name, NodeKind.formalParameters.name, NodeKind.dimensions.name,
    NodeKind.dimensionsExpr.name, NodeKind.annotationArgumentList.name,
    NodeKind.typeParameters.name]

/-- The tokens that some spacing has no space in front of or behind. -/
def tightTokens : List String := ["(", ")", "[", "]", ".", "...", "::", ",", ";", ":", "@"]

/-- The attached names are names of attached kinds. -/
theorem exists_isAttached {name : String} (h : name ∈ attachedNames) :
    ∃ k : NodeKind, k.isAttached = true ∧ k.name = name := by
  simp only [attachedNames, List.mem_cons, List.not_mem_nil, or_false] at h
  rcases h with rfl | rfl | rfl | rfl | rfl | rfl
  all_goals exact ⟨_, rfl, rfl⟩

/-- Only attached kinds have the names of attached kinds. -/
theorem isAttached_of_name {k : NodeKind} (h : k.name ∈ attachedNames) : k.isAttached = true := by
  simp only [attachedNames, List.mem_cons, List.not_mem_nil, or_false] at h
  cases k <;> first | rfl | simp [NodeKind.name] at h

/-- No kind has the name of a token. -/
theorem name_not_mem_tightTokens (k : NodeKind) : k.name ∉ tightTokens := by
  intro h
  simp only [tightTokens, List.mem_cons, List.not_mem_nil, or_false] at h
  cases k <;> simp [NodeKind.name] at h

/-- A tight token stands off and closes off. -/
theorem punctuation_of_mem_tightTokens {s : String} (h : s ∈ tightTokens) :
    Text.standsOff s = true ∧ Text.closesOff s = true := by
  simp only [tightTokens, List.mem_cons, List.not_mem_nil, or_false] at h
  rcases h with rfl | rfl | rfl | rfl | rfl | rfl | rfl | rfl | rfl | rfl | rfl
  all_goals decide

/-- What is tight in front is punctuation or attached, and what is tight behind is
punctuation. -/
structure Spacing.Sane (s : Spacing) : Prop where
  before : ∀ key ∈ s.tightBefore, key ∈ tightTokens ∨ key ∈ attachedNames
  behind : ∀ key ∈ s.tightAfter, key ∈ tightTokens

/-- The standard spacing is sane. -/
theorem Spacing.sane_standard : standard.Sane where
  before := by simp [standard, tightTokens, attachedNames]
  behind := by simp [standard, tightTokens]

/-- More tokens may be tight in front. -/
theorem Spacing.Sane.withTightBefore {s : Spacing} (h : s.Sane) {keys : List String}
    (hkeys : ∀ key ∈ keys, key ∈ tightTokens ∨ key ∈ attachedNames) :
    (s.withTightBefore keys).Sane where
  before := List.forall_mem_append.mpr ⟨hkeys, h.before⟩
  behind := h.behind

/-- The spacing of a method is sane. -/
theorem Spacing.sane_ofMethod : ofMethod.Sane :=
  sane_standard.withTightBefore (by simp [tightTokens])

/-- The spacing of the head of a type is sane. -/
theorem Spacing.sane_ofTypeHead : ofTypeHead.Sane :=
  sane_standard.withTightBefore (by simp [attachedNames])

/-- The spacing of a label is sane. -/
theorem Spacing.sane_ofLabel : ofLabel.Sane :=
  sane_standard.withTightBefore (by simp [tightTokens])

section Spacing

variable {spacing : Spacing} {p q : Piece} {ps : List Piece}

/-- A node that is called like a token is that token. -/
theorem eq_leaf_of_spacingKey {t : Tree} (h : spacingKey t ∈ tightTokens) :
    ∃ info, t = .leaf info (spacingKey t) := by
  cases t with
  | leaf info written =>
    unfold spacingKey at h ⊢
    dsimp only at h ⊢
    split at h
    · rename_i hk
      rw [if_pos hk]
      exact ⟨info, rfl⟩
    · exact absurd h (name_not_mem_tightTokens _)
  | branch info ts => exact absurd h (name_not_mem_tightTokens _)

/-- A node that is called like an attached kind is of an attached kind. -/
theorem isAttached_of_spacingKey {t : Tree} (ht : t.Written) (h : spacingKey t ∈ attachedNames) :
    t.kind.isAttached = true := by
  cases t with
  | leaf info written =>
    unfold spacingKey at h
    dsimp only at h
    split at h
    · rename_i hk
      obtain ⟨k, hattached, hname⟩ := exists_isAttached h
      exact absurd hname.symm (ht.token hk k hattached)
    · exact isAttached_of_name h
  | branch info ts => exact isAttached_of_name h

/-- What is tight in front begins with punctuation. -/
theorem Spacing.Sane.joins (hs : spacing.Sane) (hp : p.Apart letters)
    (h : spacing.tightBefore.contains (spacingKey p.node) = true) (b : Option Word) :
    Joins letters b p.node.words := by
  refine hp.joins_of_standsOff ?_ b
  rcases hs.before _ (List.contains_iff_mem.mp h) with htoken | hname
  · obtain ⟨info, hleaf⟩ := eq_leaf_of_spacingKey htoken
    rw [hleaf]
    exact (punctuation_of_mem_tightTokens htoken).1
  · exact hp.lexed.standsOff_of_isAttached (isAttached_of_spacingKey hp.lexed.written hname)

/-- What is tight behind ends with punctuation. -/
theorem Spacing.Sane.joins_behind (hs : spacing.Sane)
    (h : spacing.tightAfter.contains (spacingKey p.node) = true) (b : Option Word)
    (ws : List Word) : Joins letters (after b p.node.words) ws := by
  have htoken := hs.behind _ (List.contains_iff_mem.mp h)
  obtain ⟨info, hleaf⟩ := eq_leaf_of_spacingKey htoken
  rw [hleaf, Tree.words_leaf]
  exact joins_of_closesOff rfl (punctuation_of_mem_tightTokens htoken).2

/-- What separates modifiers from what follows lays out no words. -/
theorem lays_modifiersSeparator (b : Option Word) (owner : Option NodeKind) (modifiers : Tree)
    (comments : NodeComments) (following : Option Tree) :
    Lays letters b (modifiersSeparator owner modifiers comments following) [] none := by
  unfold modifiersSeparator
  split
  · exact lays_blank
  · split
    · exact lays_hardline
    · exact lays_blank

/-- Between two neighbours on a line there is a gap, or they do not fuse. -/
theorem exists_separator (owner : Option NodeKind) (hs : spacing.Sane) (sibling : Option Tree)
    (hq : q.Apart letters) (b : Option Word) :
    ∃ c, Lays letters (after b p.node.words) (separator owner spacing sibling p q) [] c ∧
      Joins letters c q.node.words := by
  unfold separator
  split
  · rename_i hbefore
    exact ⟨_, lays_nothing, hs.joins hq hbefore _⟩
  · split
    · exact ⟨none, lays_hardline, joins_none⟩
    · split
      · exact ⟨none, lays_modifiersSeparator _ _ _ _ _, joins_none⟩
      · split
        · rename_i hbehind
          exact ⟨_, lays_nothing, hs.joins_behind hbehind b _⟩
        · exact ⟨none, lays_blank, joins_none⟩

/-- A sequence behind a piece keeps its words apart. -/
theorem apart_sequenceAfter (owner : NodeKind) (hs : spacing.Sane)
    (h : ∀ q ∈ ps, q.Apart letters) :
    Ensures (sequenceAfter owner spacing p ps)
      fun ds => ∀ b, SetsAll letters (after b p.node.words) ds (wordsOf ps) := by
  induction ps generalizing p with
  | nil => exact .pure fun _ => .nil
  | cons q ps ih =>
    obtain ⟨hq, hps⟩ := List.forall_mem_cons.mp h
    unfold sequenceAfter
    refine hq.doc.bind fun d hd => (ih hps).bind fun ds hds => .pure fun b => ?_
    obtain ⟨c, hseparator, hjoins⟩ :=
      exists_separator (p := p) (some owner) hs (some q.node) hq b
    have hne : wordsOf (q :: ps) ≠ [] := by simp [hq.words_ne_nil]
    exact .separated hseparator (.cons (hd c hjoins) (hds c)) hne

/-- Children on one line. -/
theorem apart_sequence (owner : NodeKind) (hs : spacing.Sane) (h : ∀ p ∈ ps, p.Apart letters) :
    Ensures (sequence owner spacing ps) (Sets letters · (wordsOf ps)) := by
  cases ps with
  | nil => exact .pure (sets_cat fun _ _ => .nil)
  | cons p ps =>
    obtain ⟨hp, hps⟩ := List.forall_mem_cons.mp h
    refine hp.doc.bind fun d hd => (apart_sequenceAfter owner hs hps).bind fun ds hds => .pure ?_
    exact sets_cat fun b hb => .cons (hd b hb.left) (hds b)

end Spacing

/-! ## Children without anything between them -/

section Tight

variable {p q : Piece} {ps : List Piece}

/-- Neighbours meet like identifiers only next to an annotation. -/
def MeetByAnnotations (letters : Char → Bool) (p q : Piece) : Prop :=
  p.node.meets letters q.node = true →
    p.node.kind.isAnnotationUse = true ∨ q.node.kind.isAnnotationUse = true

/-- A dot does not meet anything like an identifier. -/
theorem meets_of_isToken {t u : Tree} {text : String} (ht : t.isToken text = true)
    (hclose : Text.closesOff text = true) : t.meets letters u = false := by
  obtain ⟨info, rfl, -⟩ := Tree.isToken_iff.mp ht
  have hends : Text.endsWord letters text = false := Text.endsWord_of_closesOff hclose
  simp [Tree.meets, hends]

/-- Neighbours in a tight construct without a space between them do not meet like
identifiers. -/
theorem meets_of_not_isSpaced (hmeet : MeetByAnnotations letters p q)
    (h : isSpacedByAnnotation p q = false) : p.node.meets letters q.node = false := by
  simp only [ isSpacedByAnnotation, Bool.or_eq_false_iff, Bool.and_eq_false_iff,
    Bool.not_eq_false'] at h
  obtain ⟨hp, hq⟩ := h
  by_contra hmeets
  rw [Bool.not_eq_false] at hmeets
  have hp : p.node.kind.isAnnotationUse = false := hp
  rcases hmeet hmeets with hannotation | hannotation
  · rw [hp] at hannotation
    cases hannotation
  · rcases hq with hq | hdot
    · have hq : q.node.kind.isAnnotationUse = false := hq
      rw [hq] at hannotation
      cases hannotation
    · rw [meets_of_isToken hdot (by decide)] at hmeets
      cases hmeets

/-- Pieces that are printed tight keep their words apart if they may meet. -/
theorem apart_tightAfter (hp : p.Apart letters) (h : ∀ q ∈ ps, q.Apart letters)
    (hmeet : (p :: ps).IsChain (MeetByAnnotations letters)) :
    Ensures (tightAfter p ps)
      fun ds => ∀ b, SetsAll letters (after b p.node.words) ds (wordsOf ps) := by
  induction ps generalizing p with
  | nil => exact .pure fun _ => .nil
  | cons q ps ih =>
    obtain ⟨hq, hps⟩ := List.forall_mem_cons.mp h
    obtain ⟨hpq, hmeet⟩ := List.isChain_cons_cons.mp hmeet
    unfold tightAfter
    refine hq.doc.bind fun d hd => (ih hq hps hmeet).bind fun ds hds => .pure fun b => ?_
    cases hspaced : isSpacedByAnnotation p q with
    | true => exact .gap lays_blank (.cons hd.free (hds none))
    | false =>
      have hjoins := hp.joins_of_meets b (meets_of_not_isSpaced hpq hspaced)
      exact .cons (hd _ hjoins) (hds _)

/-- Children of a tight construct. -/
theorem apart_tight (h : ∀ p ∈ ps, p.Apart letters)
    (hmeet : ps.IsChain (MeetByAnnotations letters)) :
    Ensures (tight ps) (Sets letters · (wordsOf ps)) := by
  cases ps with
  | nil => exact .pure (sets_cat fun _ _ => .nil)
  | cons p ps =>
    obtain ⟨hp, hps⟩ := List.forall_mem_cons.mp h
    refine hp.doc.bind fun d hd => (apart_tightAfter hp hps hmeet).bind fun ds hds => .pure ?_
    exact sets_cat fun b hb => .cons (hd b hb.left) (hds b)

end Tight

end JavaFormat.Layout
