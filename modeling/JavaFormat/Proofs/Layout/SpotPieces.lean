import JavaFormat.Layout.Rule
import JavaFormat.Proofs.Layout.LaidPieces
import JavaFormat.Proofs.Layout.SpotComments

/-!
# Pieces and the spots of their leaves

A piece is the document of its node with the comments in front of it and behind it, and all that a
parent may use in its place shows the same leaves and comments. The number of line breaks is fixed
in front of a child only where the layout looks at the source: in front of members and constants,
and behind annotations.
-/

namespace JavaFormat.Layout

open Doc

/-- Documents that go on behind a leaf and end with one. -/
abbrev Onward (ds : List Doc) (ws : List Spot) : Prop := StringsAll (some 0) ds ws (some 0)

/-- A document that goes on behind any number of breaks and ends with a leaf. -/
def Trails (d : Doc) (ws : List Spot) : Prop := ∀ b, Strings b d ws (some 0)

/-- A document that shows nothing. -/
def Mute (d : Doc) : Prop := ∀ b, Strings b d [] b

/-! ## Chains -/

/-- A link with an operator and an operand. -/
structure OperatorLink.Places (l : OperatorLink) (ws : List Spot) : Prop where
  parts : Ensures l.parts fun parts =>
    ∃ vs, ws = ⟨none, parts.1⟩ :: vs ∧ Layout.Places parts.2 vs
  leading : Mute l.leading
  trailing : Mute l.trailing

/-- The spots of a chain of operators are those of its leftmost operand and of its links. -/
def OperatorChain.Places (c : OperatorChain) (ws : List Spot) : Prop :=
  ∃ vs wss us, ws = vs ++ (wss.flatten ++ us) ∧ Ensures c.first (Layout.Places · vs) ∧
    List.Forall₂ OperatorLink.Places c.inner wss ∧ c.last.Places us

/-- A link with a call. -/
structure CallLink.Places (l : CallLink) (ws : List Spot) : Prop where
  doc : Ensures l.doc (Trails · ws)
  leading : Mute l.leading
  trailing : Mute l.trailing

/-- The spots of a chain of calls are those of its leftmost receiver and of its links. -/
def CallChain.Places (c : CallChain) (ws : List Spot) : Prop :=
  ∃ vs wss us, ws = vs ++ (wss.flatten ++ us) ∧ Ensures c.head (Layout.Places · vs) ∧
    List.Forall₂ CallLink.Places c.inner wss ∧ c.last.Places us

/-! ## Pieces -/

/-- All that a parent may ask of a piece shows the spots `ws`, in front of a line break if comments
behind the node wait for one. -/
structure Piece.Lined (p : Piece) (ws : List Spot) : Prop where
  ne_nil : ws ≠ []
  modifiers : p.kind = .modifiers → p.comments.dangling = []
  token : p.kind = .token → ws = [⟨none, p.text⟩]
  precedes : Ensures p.doc (Precedes p.hasBreakingTrailing [·] ws)
  operators : ∀ found, p.operators = some found → Ensures found (OperatorChain.Places · ws)
  calls : ∀ chain, p.calls = some chain → chain.Places ws

/-- A piece without comments behind it, which shows the spots `ws`. -/
structure Piece.Spotted (p : Piece) (ws : List Spot) : Prop extends p.Lined ws where
  trailing : p.comments.trailing = []

/-- No comment ends the line behind a piece without comments there. -/
theorem Piece.hasBreakingTrailing_of_nil {p : Piece} (h : p.comments.trailing = []) :
    p.hasBreakingTrailing = false := by
  rw [Piece.hasBreakingTrailing, NodeComments.hasBreakingTrailing, h, List.any_nil]

/-- The document of a piece places the spots of the piece. -/
theorem Piece.Spotted.doc {p : Piece} {ws : List Spot} (h : p.Spotted ws) :
    Ensures p.doc (Places · ws) :=
  h.precedes.mono fun d hd => by
    rw [Piece.hasBreakingTrailing_of_nil h.trailing] at hd
    exact hd.places

/-- The only spot of a token is its text. -/
theorem Piece.Lined.of_isToken {p : Piece} {ws : List Spot} (h : p.Lined ws) {text : String}
    (ht : p.isToken text = true) : ws = [⟨none, text⟩] := by
  obtain ⟨info, hleaf, hk⟩ := Tree.isToken_iff.mp ht
  have hkind : p.kind = .token := by rw [Piece.kind, hleaf, ← hk]; rfl
  rw [h.token hkind, Piece.text, hleaf]
  rfl

/-- Spots in a row. In front of the first of each of them there are as many breaks as are given for
it, if a number is given. -/
def splice : List (Option Nat) → List (List Spot) → List Spot
  | _, [] => []
  | [], ws :: wss => ws ++ splice [] wss
  | k :: ks, ws :: wss => Spot.behind k ws ++ splice ks wss

/-- The texts are those of the spots, whatever is in front of them. -/
theorem map_text_splice (ks : List (Option Nat)) (wss : List (List Spot)) :
    (splice ks wss).map Spot.text = wss.flatMap fun ws => ws.map Spot.text := by
  induction wss generalizing ks with
  | nil => cases ks <;> rfl
  | cons ws wss ih => cases ks <;> simp [splice, ih]

/-- Spots of pieces in a row, `spots` being those of each piece. -/
def knit (spots : Piece → List Spot) (ks : List (Option Nat)) (ps : List Piece) : List Spot :=
  splice ks (ps.map spots)

section Knit

variable {spots : Piece → List Spot} {k : Option Nat} {ks : List (Option Nat)} {p : Piece}
  {ps qs : List Piece}

/-- No pieces have no spots. -/
@[simp] theorem knit_nil : knit spots ks [] = [] := by
  cases ks <;> rfl

/-- The first piece has its spots behind the first breaks, in front of those of the others. -/
@[simp] theorem knit_cons :
    knit spots (k :: ks) (p :: ps) = Spot.behind k (spots p) ++ knit spots ks ps := rfl

/-- Without breaks in front the first piece has its own spots. -/
@[simp] theorem knit_cons_of_nil :
    knit spots [] (p :: ps) = spots p ++ knit spots [] ps := rfl

/-- A number that is not given need not be written. -/
@[simp] theorem knit_none : knit spots (none :: []) ps = knit spots [] ps := by
  cases ps <;> rfl

/-- Pieces have a spot if the first of them has one. -/
theorem knit_ne_nil (hne : spots p ≠ []) : knit spots ks (p :: ps) ≠ [] := by
  cases ks <;> simp [hne]

/-- The breaks in front of pieces are those in front of the first one. -/
theorem behind_knit (hne : spots p ≠ []) (k : Option Nat) :
    Spot.behind k (knit spots (none :: ks) (p :: ps)) = knit spots (k :: ks) (p :: ps) := by
  rw [knit_cons, knit_cons, Spot.behind_none, Spot.behind_append hne]

/-- What is in front of the first pieces and what is in front of the rest. -/
theorem knit_append (h : ks.length ≤ ps.length) :
    knit spots ks (ps ++ qs) = knit spots ks ps ++ knit spots [] qs := by
  induction ps generalizing ks with
  | nil =>
    obtain rfl : ks = [] := List.length_eq_zero_iff.mp (Nat.le_zero.mp h)
    simp
  | cons p ps ih =>
    cases ks with
    | nil => simp [ih]
    | cons k ks => simp [ih (Nat.le_of_succ_le_succ h)]

/-- Without breaks in front the spots of two lists of pieces are those of each. -/
@[simp] theorem knit_append_of_nil :
    knit spots [] (ps ++ qs) = knit spots [] ps ++ knit spots [] qs :=
  knit_append (Nat.zero_le _)

end Knit

/-! ## Children on one line -/

/-- The number of breaks behind a list of modifiers. -/
def listBreaks (owner : Option NodeKind) (modifiers following : Tree) : Nat :=
  if modifiers.children.getLast?.any (annotationOnOwnLine owner · (some following)) then 1 else 0

/-- The number of breaks between two neighbours on a line, if it is fixed. -/
def separatorBreaks (owner : NodeKind) (spacing : Spacing) (previous following : Piece) :
    Option Nat :=
  if previous.kind = .modifiers ∧ spacing.tightBefore.contains (spacingKey following.node) = false
  then some (listBreaks (some owner) previous.node following.node)
  else none

/-- The numbers of breaks in front of the pieces that follow `previous` on a line. -/
def sequenceBreaks (owner : NodeKind) (spacing : Spacing) (previous : Piece) :
    List Piece → List (Option Nat)
  | [] => []
  | p :: ps => separatorBreaks owner spacing previous p :: sequenceBreaks owner spacing p ps

/-- The numbers of breaks in front of the pieces of a line. -/
def lineBreaks (owner : NodeKind) (spacing : Spacing) : List Piece → List (Option Nat)
  | [] => []
  | p :: ps => none :: sequenceBreaks owner spacing p ps

/-- A sequence has one number of breaks for each piece. -/
theorem length_lineBreaks (owner : NodeKind) (spacing : Spacing) (ps : List Piece) :
    (lineBreaks owner spacing ps).length = ps.length := by
  cases ps with
  | nil => rfl
  | cons p ps =>
    rw [lineBreaks, List.length_cons, List.length_cons]
    congr 1
    induction ps generalizing p with
    | nil => rfl
    | cons q ps ih => rw [sequenceBreaks, List.length_cons, List.length_cons, ih]

section Sequence

variable {spots : Piece → List Spot} {p q : Piece} {ps : List Piece}

/-- What separates modifiers from what follows has the breaks of the list. -/
theorem strings_modifiersSeparator (owner : Option NodeKind) (modifiers following : Tree)
    {comments : NodeComments} (h : comments.dangling = []) :
    Strings (some 0) (modifiersSeparator owner modifiers comments (some following)) []
      (some (listBreaks owner modifiers following)) := by
  unfold modifiersSeparator listBreaks
  cases modifiers.children.getLast? with
  | none => exact strings_blank
  | some item =>
    have hcomments : endsWithLineComment comments item = false := by
      rw [endsWithLineComment, h]
      rfl
    simp only [hcomments, Bool.false_or, Option.any_some]
    split
    · exact strings_hardline
    · exact strings_blank

/-- Between two neighbours on a line there are as many breaks as are fixed. -/
theorem exists_strings_separator (owner : NodeKind) (spacing : Spacing) {ws : List Spot}
    (hp : p.Spotted ws) :
    ∃ c, Strings (some 0) (separator (some owner) spacing (some q.node) p q) [] c ∧
      ∀ n ∈ separatorBreaks owner spacing p q, c = some n := by
  have hbreaking := Piece.hasBreakingTrailing_of_nil hp.trailing
  unfold separator separatorBreaks
  cases htight : spacing.tightBefore.contains (spacingKey q.node) with
  | true => exact ⟨some 0, strings_nothing, by simp⟩
  | false =>
    simp only [Bool.false_eq_true, if_false, hbreaking, and_true]
    split
    · rename_i hk
      exact ⟨_, strings_modifiersSeparator _ _ _ (hp.modifiers hk), fun n hn => hn⟩
    · refine ⟨some 0, ?_, by simp⟩
      split
      · exact strings_nothing
      · exact strings_blank

/-- Without modifiers no break is fixed on a line. -/
theorem knit_sequenceBreaks (owner : NodeKind) (spacing : Spacing) (hp : p.kind ≠ .modifiers)
    (h : ∀ q ∈ ps, q.kind ≠ .modifiers) :
    knit spots (sequenceBreaks owner spacing p ps) ps = knit spots [] ps := by
  induction ps generalizing p with
  | nil => simp
  | cons q ps ih =>
    obtain ⟨hq, hps⟩ := List.forall_mem_cons.mp h
    have hfree : separatorBreaks owner spacing p q = none := if_neg fun hk => hp hk.1
    rw [sequenceBreaks, hfree, knit_cons, ih hq hps, knit_cons_of_nil, Spot.behind_none]

/-- A sequence behind a piece goes on to its spots. -/
theorem onward_sequenceAfter (owner : NodeKind) (spacing : Spacing)
    (hp : p.Spotted (spots p)) (h : ∀ q ∈ ps, q.Spotted (spots q)) :
    Ensures (sequenceAfter owner spacing p ps)
      (Onward · (knit spots (sequenceBreaks owner spacing p ps) ps)) := by
  induction ps generalizing p with
  | nil => exact .pure .nil
  | cons q ps ih =>
    obtain ⟨hq, hps⟩ := List.forall_mem_cons.mp h
    unfold sequenceAfter
    refine hq.doc.bind fun d hd => (ih hq hps).bind fun ds hds => .pure ?_
    obtain ⟨c, hseparator, hc⟩ := exists_strings_separator (q := q) owner spacing hp
    exact .skip hseparator (.cons (hd.strings c _ hc) hds)

/-- Children on one line. -/
theorem places_sequence (owner : NodeKind) (spacing : Spacing)
    (h : ∀ p ∈ ps, p.Spotted (spots p)) (hne : ps ≠ []) :
    Ensures (sequence owner spacing ps)
      (Places · (knit spots (lineBreaks owner spacing ps) ps)) := by
  obtain ⟨p, ps, rfl⟩ := List.exists_cons_of_ne_nil hne
  obtain ⟨hp, hps⟩ := List.forall_mem_cons.mp h
  refine hp.doc.bind fun d hd => ?_
  refine (onward_sequenceAfter owner spacing hp hps).bind fun ds hds => .pure ?_
  exact (hd.cons hds).cat

end Sequence

/-! ## Children without anything between them -/

section Tight

variable {spots : Piece → List Spot} {p : Piece} {ps : List Piece}

/-- Pieces that are printed tight go on to their spots. -/
theorem onward_tightAfter (h : ∀ q ∈ ps, q.Spotted (spots q)) :
    Ensures (tightAfter p ps) (Onward · (knit spots [] ps)) := by
  induction ps generalizing p with
  | nil => exact .pure .nil
  | cons q ps ih =>
    obtain ⟨hq, hps⟩ := List.forall_mem_cons.mp h
    unfold tightAfter
    refine hq.doc.bind fun d hd => (ih hps).bind fun ds hds => .pure ?_
    have hrest : Onward (d :: ds) (knit spots [] (q :: ps)) := hd.then hds
    split
    · exact .skip strings_blank hrest
    · exact hrest

/-- Children of a tight construct. -/
theorem places_tight (h : ∀ p ∈ ps, p.Spotted (spots p)) (hne : ps ≠ []) :
    Ensures (tight ps) (Places · (knit spots [] ps)) := by
  obtain ⟨p, ps, rfl⟩ := List.exists_cons_of_ne_nil hne
  obtain ⟨hp, hps⟩ := List.forall_mem_cons.mp h
  refine hp.doc.bind fun d hd => (onward_tightAfter hps).bind fun ds hds => .pure ?_
  exact (hd.cons hds).cat

end Tight

end JavaFormat.Layout
