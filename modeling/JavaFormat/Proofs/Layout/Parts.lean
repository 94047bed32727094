import JavaFormat.Proofs.Layout.Firm

/-!
# Parts of documents

A part is within a document if each script of the document has a script of the part in
one stretch, whatever stands on both sides. Putting documents together keeps what is
within one of them. A piece carries a part if the part is within all that a parent may ask
of the piece, so that it does not matter whether the parent goes on with a chain.
-/

namespace JavaFormat

namespace Doc

/-- Each script of the document has a script of the part in one stretch. -/
def Within (part d : Doc) : Prop :=
  ∀ q, d.Scripts q → ∃ before b after, part.Scripts b ∧ q = before ++ (b ++ after)

/-- The part is within one of several documents. -/
def Among (part : Doc) (ds : List Doc) : Prop := ∃ d ∈ ds, part.Within d

section Within

variable {part d e : Doc} {ds es : List Doc}

/-- A document is within itself. -/
theorem within_self (d : Doc) : d.Within d := fun q hq => ⟨[], q, [], hq, by simp⟩

/-- A part that is among some documents is among any that contain these. -/
theorem Among.mono (h : part.Among ds) (hsub : ∀ d ∈ ds, d ∈ es) : part.Among es := by
  obtain ⟨d, hd, hwithin⟩ := h
  exact ⟨d, hsub d hd, hwithin⟩

/-- A part that is among some documents is among these and others behind them. -/
theorem Among.append_left (h : part.Among ds) (es : List Doc) : part.Among (ds ++ es) :=
  h.mono fun _ hd => List.mem_append_left es hd

/-- A part that is among some documents is among these and others in front of them. -/
theorem Among.append_right (ds : List Doc) (h : part.Among es) : part.Among (ds ++ es) :=
  h.mono fun _ hd => List.mem_append_right ds hd

/-- A part that is among some documents is among these and one in front of them. -/
theorem Among.cons (d : Doc) (h : part.Among ds) : part.Among (d :: ds) :=
  h.mono fun _ he => List.mem_cons_of_mem d he

/-- A part that is within a document is among this one and others behind it. -/
theorem Within.head (h : part.Within d) (ds : List Doc) : part.Among (d :: ds) :=
  ⟨d, List.mem_cons_self, h⟩

/-- A part that is within a document is among it alone. -/
theorem Within.single (h : part.Within d) : part.Among [d] := h.head []

/-- The first of some documents or the others have the part. -/
theorem among_cons_iff : part.Among (d :: ds) ↔ part.Within d ∨ part.Among ds := by
  simp [Among]

/-- Documents that are each changed around what is within them. -/
theorem Among.map {f : Doc → Doc} (hf : ∀ {d}, part.Within d → part.Within (f d))
    (h : part.Among ds) : part.Among (ds.map f) := by
  obtain ⟨d, hd, hwithin⟩ := h
  exact ⟨f d, List.mem_map_of_mem hd, hf hwithin⟩

/-- A part is in one stretch of what stands one after the other. -/
theorem Among.exists_of_scriptsAll (h : part.Among ds) {q : List Cue} (hq : ScriptsAll ds q) :
    ∃ before b after, part.Scripts b ∧ q = before ++ (b ++ after) := by
  induction ds generalizing q with
  | nil => obtain ⟨_, hd, -⟩ := h; cases hd
  | cons d ds ih =>
    obtain ⟨x, y, hx, hy, rfl⟩ := hq
    rcases among_cons_iff.mp h with hd | hds
    · obtain ⟨before, b, after, hb, rfl⟩ := hd x hx
      exact ⟨before, b, after ++ y, hb, by simp⟩
    · obtain ⟨before, b, after, hb, rfl⟩ := ih hds hy
      exact ⟨x ++ before, b, after, hb, by simp⟩

/-- A part that is among some documents is within them when they are joined. -/
theorem Among.cat (h : part.Among ds) : part.Within (cat ds) :=
  fun _ hq => h.exists_of_scriptsAll (scripts_cat.mp hq)

/-- A part that is among some documents is within their group. -/
theorem Among.grouped (h : part.Among ds) : part.Within (grouped ds) :=
  fun _ hq => h.exists_of_scriptsAll (scripts_grouped.mp hq)

/-- A part that is among some documents is within them when they are indented. -/
theorem Among.indented (h : part.Among ds) : part.Within (indented ds) :=
  fun _ hq => h.exists_of_scriptsAll (scripts_indented.mp hq)

/-- A part that is among some documents is within their fill. -/
theorem Among.fill (h : part.Among ds) : part.Within (.fill ds) :=
  fun _ hq => h.exists_of_scriptsAll hq

/-- A part is within a choice if it is within both of its states. -/
theorem Within.choice (hd : part.Within d) (he : part.Within e) : part.Within (.choice [d, e]) := by
  rintro q (hq | hq | hq)
  · exact hd q hq
  · exact he q hq
  · exact hq.elim

/-- Separators leave what is within the documents. -/
theorem Among.interleave (separator : Doc) (h : part.Among ds) :
    part.Among (interleave separator ds) := by
  induction ds with
  | nil => exact h
  | cons d ds ih =>
    cases ds with
    | nil => exact h
    | cons e es =>
      rcases among_cons_iff.mp h with hd | hes
      · exact hd.head _
      · exact ((ih hes).cons separator).cons d

/-- A part that is among some documents is within them when they have a separator between them. -/
theorem Among.join (separator : Doc) (h : part.Among ds) : part.Within (join separator ds) :=
  (h.interleave separator).cat

end Within

end Doc

namespace Layout

open Doc

/-! ## Pieces -/

section Ensures

variable {α β : Type} {R : β → Prop}

/-- A result of which nothing is known. -/
theorem ensures_true (e : Except ShapeError α) : Ensures e fun _ => True := fun _ _ => trivial

/-- One of the results for several things. -/
theorem ensures_mapM_mem {f : α → Except ShapeError β} {as : List α} {a : α} (ha : a ∈ as)
    (h : Ensures (f a) R) : Ensures (as.mapM f) fun bs => ∃ b ∈ bs, R b := by
  induction as with
  | nil => cases ha
  | cons c cs ih =>
    rw [List.mapM_cons]
    rcases List.mem_cons.mp ha with rfl | ha
    · exact h.bind fun b hb => (ensures_true _).bind fun bs _ => .pure ⟨b, List.mem_cons_self, hb⟩
    · refine (ensures_true _).bind fun b _ => (ih ha).bind ?_
      rintro bs ⟨found, hfound, hR⟩
      exact .pure ⟨found, List.mem_cons_of_mem b hfound, hR⟩

end Ensures

variable {part : Doc}

/-- The part is within the operand of the link. -/
def OperatorLink.Carries (part : Doc) (l : OperatorLink) : Prop :=
  Ensures l.parts fun parts => part.Within parts.2

/-- The part is within the leftmost operand of the chain or in one of its links. -/
def OperatorChain.Carries (part : Doc) (c : OperatorChain) : Prop :=
  Ensures c.first part.Within ∨ ∃ l ∈ c.inner ++ [c.last], l.Carries part

/-- The part is within the receiver of the chain or in one of its calls. -/
def CallChain.Carries (part : Doc) (c : CallChain) : Prop :=
  Ensures c.head part.Within ∨ ∃ l ∈ c.inner ++ [c.last], Ensures l.doc part.Within

/-- The part is within all that a parent may ask of the piece, and the node is no leaf. -/
structure Piece.Carries (part : Doc) (p : Piece) : Prop where
  named : p.node.isNamed = true
  branch : p.node.text? = none
  bare : Ensures p.bare part.Within
  operators : ∀ found, p.operators = some found → Ensures found (OperatorChain.Carries part)
  calls : ∀ chain, p.calls = some chain → chain.Carries part

/-- The comments of a node are put around its document. -/
theorem within_wrap {p : Piece} {d : Doc} (leading : Bool) (h : part.Within d) :
    part.Within (p.wrap leading d) := by
  unfold Piece.wrap
  split
  · exact h
  · exact (((h.single.append_right _).append_left _).append_left _).cat

namespace Piece.Carries

variable {p : Piece}

/-- A part that a piece carries is within its document. -/
theorem doc (h : p.Carries part) : Ensures p.doc part.Within :=
  h.bare.map fun _ hd => within_wrap true hd

/-- What is no leaf is no token. -/
theorem isToken_eq_false (h : p.Carries part) (text : String) : p.isToken text = false := by
  simp [Piece.isToken, Tree.isToken, h.branch]

/-- A part that a piece carries is within its document without the comments in front. -/
theorem docWithoutLeading (h : p.Carries part) : Ensures p.docWithoutLeading part.Within :=
  h.bare.map fun _ hd => within_wrap false hd

end Piece.Carries

/-- One of some pieces carries the part. -/
def Carried (part : Doc) (ps : List Piece) : Prop := ∃ p ∈ ps, p.Carries part

/-- The first of some pieces carries the part, or one of the others. -/
theorem carried_cons_iff {p : Piece} {ps : List Piece} :
    Carried part (p :: ps) ↔ p.Carries part ∨ Carried part ps := by
  simp [Carried]

/-- Where there are no pieces no part is carried. -/
theorem not_carried_nil : ¬Carried part [] := by simp [Carried]

/-- The named ones of the children are those that carry a part. -/
theorem Carried.named {s : Site} (h : Carried part s.children) : Carried part s.named := by
  obtain ⟨p, hp, hcarries⟩ := h
  exact ⟨p, List.mem_filter.mpr ⟨hp, hcarries.named⟩, hcarries⟩

/-- A brace carries no part. -/
theorem Carried.unbraced {s : Site} (h : Carried part s.children) : Carried part s.unbraced := by
  obtain ⟨p, hp, hcarries⟩ := h
  exact ⟨p, List.mem_filter.mpr ⟨hp, by simp [hcarries.branch]⟩, hcarries⟩

/-- The documents of some pieces, one of which carries the part. -/
theorem among_docs {ps : List Piece} (h : Carried part ps) : Ensures (docs ps) part.Among := by
  obtain ⟨p, hp, hcarries⟩ := h
  exact ensures_mapM_mem hp hcarries.doc

end Layout

end JavaFormat
