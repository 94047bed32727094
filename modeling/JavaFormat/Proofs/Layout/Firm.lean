import JavaFormat.Proofs.Doc.Pace
import JavaFormat.Proofs.Layout.Complete
import JavaFormat.Proofs.Layout.Verbatim
import JavaFormat.Proofs.Text.Strip

/-!
# Firm pieces

The document of a node is firm: it may stand behind a blank line and ends visibly, whatever
is picked of its choices and whichever of its breaks are taken. Comments behind a node are
put off at a place where this does no harm, and comments in front of it may leave a blank
line, in front of which the node is visible again. A piece is firm if this holds of all that
a parent may ask of it.
-/

namespace JavaFormat

open Doc

/-! ## Texts -/

/-- A text whose first character is no white space. -/
def Text.BeginsVisibly (s : String) : Prop := ∃ c cs, s.toList = c :: cs ∧ Text.isBlank c = false

/-- A text that begins and ends with a character that is no white space. -/
structure Text.Solid (s : String) : Prop where
  begins : BeginsVisibly s
  ends : EndsVisibly s

/-- A text on one line that begins and ends visibly. -/
structure Text.Inline (s : String) : Prop extends Text.Solid s where
  single : isMultiline s = false

namespace Text

/-- A text begins visibly if its first character is no blank. -/
theorem beginsVisibly_iff {s : String} :
    BeginsVisibly s ↔ (s.toList.head?.any fun c => !isBlank c) = true := by
  constructor
  · rintro ⟨c, cs, hs, hc⟩
    simp [hs, hc]
  · intro h
    obtain ⟨c, hhead, hc⟩ := (Option.any_eq_true _ _).mp h
    obtain ⟨cs, hs⟩ := List.head?_eq_some_iff.mp hhead
    exact ⟨c, cs, hs, by simpa using hc⟩

/-- A text ends visibly if its last character is no blank. -/
theorem endsVisibly_iff {s : String} :
    EndsVisibly s ↔ (s.toList.getLast?.any fun c => !isBlank c) = true := by
  constructor
  · rintro ⟨cs, c, hs, hc⟩
    simp [hs, hc]
  · intro h
    obtain ⟨c, hlast, hc⟩ := (Option.any_eq_true _ _).mp h
    obtain ⟨cs, hs⟩ := List.getLast?_eq_some_iff.mp hlast
    exact ⟨cs, c, hs, by simpa using hc⟩

/-- A text is solid if it begins and ends visibly. -/
theorem solid_iff {s : String} : Solid s ↔ BeginsVisibly s ∧ EndsVisibly s :=
  ⟨fun h => ⟨h.begins, h.ends⟩, fun h => ⟨h.1, h.2⟩⟩

/-- Whether a text begins visibly can be decided. -/
instance (s : String) : Decidable (BeginsVisibly s) := decidable_of_iff _ beginsVisibly_iff.symm

/-- Whether a text ends visibly can be decided. -/
instance (s : String) : Decidable (EndsVisibly s) := decidable_of_iff _ endsVisibly_iff.symm

/-- Whether a text is solid can be decided. -/
instance (s : String) : Decidable (Solid s) := decidable_of_iff _ solid_iff.symm

/-- A text is inline if it is solid and has one line. -/
theorem inline_iff {s : String} : Inline s ↔ Solid s ∧ isMultiline s = false :=
  ⟨fun h => ⟨h.toSolid, h.single⟩, fun h => ⟨h.1, h.2⟩⟩

/-- Whether a text is inline can be decided. -/
instance (s : String) : Decidable (Inline s) := decidable_of_iff _ inline_iff.symm

/-- What ends visibly and has no line feed is gone through to its end. -/
theorem EndsVisibly.run {s : String} (h : EndsVisibly s) (hs : '\n' ∉ s.toList) (t : Pace) :
    t.run s.toList = some (.clear 0) := by
  obtain ⟨cs, c, hlist, hc⟩ := h
  rw [hlist] at hs ⊢
  obtain ⟨u, hu⟩ := Pace.exists_run (fun hmem => hs (List.mem_append_left _ hmem)) t
  simp [hu, Pace.step_of_visible hc]

/-- A text in which something is seen ends visibly once its last blanks are gone. -/
theorem endsVisibly_dropEndWhile {cs : List Char} (h : ∃ c ∈ cs, isBlank c = false) :
    EndsVisibly (String.ofList (dropEndWhile isBlank cs)) := by
  obtain ⟨c, hmem, hc⟩ := h
  unfold EndsVisibly dropEndWhile
  rw [String.toList_ofList]
  cases hkept : cs.reverse.dropWhile isBlank with
  | nil =>
    have hblank := List.dropWhile_eq_nil_iff.mp hkept c (List.mem_reverse.mpr hmem)
    rw [hc] at hblank
    cases hblank
  | cons d ds =>
    have hd := List.head?_dropWhile_not isBlank cs.reverse
    rw [hkept] at hd
    exact ⟨ds.reverse, d, by simp, by simpa using hd⟩

/-- The first line of a text that begins visibly does so itself. -/
theorem BeginsVisibly.of_lines {s first : String} {rest : List String} (h : BeginsVisibly s)
    (hlines : lines s = first :: rest) : BeginsVisibly first := by
  obtain ⟨c, cs, hs, hc⟩ := h
  have hfeed : (c == '\n') = false := by
    rw [beq_eq_false_iff_ne]
    rintro rfl
    cases hc
  obtain ⟨m, ms, hsplit⟩ := List.exists_cons_of_ne_nil (List.splitOn_ne_nil '\n' cs)
  rw [lines, hs, List.splitOn_cons_eq_if_modifyHead, hsplit] at hlines
  obtain ⟨rfl, -⟩ : String.ofList (c :: m) = first ∧ ms.map String.ofList = rest := by
    simpa [hfeed] using hlines
  exact ⟨c, m, by simp, hc⟩

end Text

/-- A text on one line that ends visibly. -/
theorem firm_of_endsVisibly {s : String} (h : Text.EndsVisibly s) (hs : '\n' ∉ s.toList) :
    Firm (.text s) :=
  firm_text hs fun k _ => h.run hs (.clear k)

/-- A text on one line is firm. -/
theorem firm_inline {w : String} (h : Text.Inline w) : Firm (.text w) :=
  firm_of_endsVisibly h.ends (by simpa [Text.isMultiline] using h.single)

/-- A text on one line, printed line by line. -/
theorem firm_ofLines {s : String} (h : Text.EndsVisibly s) (hs : '\n' ∉ s.toList) :
    Firm (ofLines s) := by
  intro q hq
  rw [scripts_ofLines, Layout.map_ofChar hs] at hq
  exact firm_of_endsVisibly h hs q hq

/-! ## Comments -/

/-- A comment that begins and ends visibly and whose further lines, if it has any, are
indented anew. -/
structure Comment.Neat (c : Comment) : Prop where
  solid : Text.Solid c.text
  lines : Text.isMultiline c.text = false ∨ c.isReindented = true

/-- Whether a comment is neat can be decided. -/
instance (c : Comment) : Decidable c.Neat :=
  decidable_of_iff
    (Text.Solid c.text ∧ (Text.isMultiline c.text = false ∨ c.isReindented = true))
    ⟨fun h => ⟨h.1, h.2⟩, fun h => ⟨h.solid, h.lines⟩⟩

/-- A line of a starred comment is visible to its end. -/
theorem firm_starredLine {line : String} (hline : '\n' ∉ line.toList)
    (hstar : (Text.trimStart line).toList.head? = some '*') : Firm (.text (starredLine line)) := by
  rw [Text.trimStart, String.toList_ofList] at hstar
  have hseen : ∃ c ∈ line.toList.dropWhile Text.isBlank, Text.isBlank c = false :=
    ⟨'*', List.mem_of_head? hstar, by decide⟩
  have hfeed : '\n' ∉ (Text.trim line).toList := by
    rw [Text.trim, String.toList_ofList]
    exact Text.not_mem_dropEndWhile fun hmem => hline ((List.dropWhile_sublist _).mem hmem)
  obtain ⟨cs, c, hlist, hc⟩ := Text.endsVisibly_dropEndWhile hseen
  have htrim : (Text.trim line).toList = cs ++ [c] := hlist
  refine firm_of_endsVisibly ⟨' ' :: cs, c, ?_, hc⟩ ?_
  · simp [starredLine, htrim]
  · simpa [starredLine] using hfeed

/-- The document of a comment is firm. -/
theorem Comment.Neat.firm {c : Comment} (h : c.Neat) : Firm c.doc := by
  have hsingle : '\n' ∉ c.text.toList → Firm (.text c.text) :=
    fun hs => firm_of_endsVisibly h.solid.ends hs
  rcases h.lines with hlines | hstarred
  · have hs : '\n' ∉ c.text.toList := by simpa [Text.isMultiline] using hlines
    unfold Comment.doc
    split
    · exact hsingle hs
    · split
      · rename_i first second rest hsplit
        have hlong := Text.unlines_lines c.text
        rw [hsplit] at hlong
        rw [← hlong] at hs
        simp [Text.unlines, List.intercalate] at hs
      · exact hsingle hs
  · simp only [Comment.isReindented, Bool.and_eq_true, Bool.not_eq_true', decide_eq_true_eq] at hstarred
    obtain ⟨⟨hblock, hmany⟩, hstarred⟩ := hstarred
    unfold Comment.doc
    rw [if_neg (by simp [hblock])]
    split
    · rename_i first second rest hlines
      rw [hlines, List.tail_cons] at hstarred
      have hfeed : ∀ l ∈ first :: second :: rest, '\n' ∉ l.toList := by
        rw [← hlines]
        exact fun l hl => Text.not_mem_of_mem_lines hl
      obtain ⟨hfirst, hrest⟩ := List.forall_mem_cons.mp hfeed
      rw [if_pos hstarred]
      refine Firm.join keeps_hardline (by decide) ?_ (by simp)
      rw [List.map_cons]
      refine List.forall_mem_cons.mpr ⟨?_, fun d hd => ?_⟩
      · obtain ⟨x, xs, hlist, hx⟩ := h.solid.begins.of_lines hlines
        refine firm_of_endsVisibly (Text.endsVisibly_dropEndWhile ⟨x, by simp [hlist], hx⟩) ?_
        rw [Text.trimEnd, String.toList_ofList]
        exact Text.not_mem_dropEndWhile hfirst
      · obtain ⟨line, hline, rfl⟩ := List.mem_map.mp hd
        obtain ⟨l, hl, rfl⟩ := List.mem_map.mp hline
        have hstar := List.all_eq_true.mp hstarred l hl
        exact firm_starredLine (hrest l hl) (by simpa using hstar)
    · rename_i hshort
      cases hlines : Text.lines c.text with
      | nil => simp [hlines] at hmany
      | cons first rest =>
        cases rest with
        | nil => simp [hlines] at hmany
        | cons second rest => exact absurd hlines (hshort first second rest)

/-- The comments of a node, each with a firm document. -/
structure NodeComments.Firm (c : NodeComments) : Prop where
  leading : ∀ a ∈ c.leading, Doc.Firm a.comment.doc
  trailing : ∀ a ∈ c.trailing, Doc.Firm a.comment.doc
  dangling : ∀ a ∈ c.dangling, Doc.Firm a.comment.doc

section Comments

variable {a : AttachedComment} {as : List AttachedComment} {c : NodeComments}

/-- Parts that keep the count for each comment keep it for all of them. -/
theorem keepsAll_flatMap {parts : AttachedComment → List Doc} {n : Nat}
    (h : ∀ a ∈ as, KeepsAll n n (parts a)) : KeepsAll n n (as.flatMap parts) := by
  induction as with
  | nil => exact .nil
  | cons a as ih =>
    obtain ⟨ha, has⟩ := List.forall_mem_cons.mp h
    exact ha.append (ih has)

/-- A comment in front of a node and the breaks below it may stand anywhere. -/
theorem keepsAll_leadingParts (h : Doc.Firm a.comment.doc) : KeepsAll 2 2 a.leadingParts := by
  unfold AttachedComment.leadingParts
  split
  · split
    · exact (KeepsAll.cons h (.single keeps_hardline)).mono le_rfl (by decide)
    · exact .cons h (.cons keeps_hardline (.single keeps_blankLine))
  · exact (KeepsAll.cons h (.single keeps_blank)).mono le_rfl (by decide)

/-- The comments in front of a node may end with a blank line. -/
theorem NodeComments.Firm.keeps_leadingDoc (h : c.Firm) : Keeps 2 2 c.leadingDoc :=
  keeps_cat.mpr (keepsAll_flatMap fun a ha => keepsAll_leadingParts (h.leading a ha))

/-- A comment behind a node stays behind something visible. -/
theorem keepsAll_trailingParts (h : Doc.Firm a.comment.doc) : KeepsAll 0 0 a.trailingParts := by
  unfold AttachedComment.trailingParts
  split
  · have hblank : Keeps 1 2 (if a.blankLinesBefore = 0 then Doc.text "" else hardline) := by
      split
      · exact Paced.mono (keeps_empty (n := 1)) le_rfl (by decide)
      · exact keeps_blankLine
    exact .cons (keeps_suffixed (.cons keeps_hardline (.cons hblank (.single h))))
      (.single keeps_breakParent)
  · split
    · exact .cons (keeps_suffixed (.cons keeps_blank (.single h.behind))) (.single keeps_breakParent)
    · exact .cons keeps_blank (.single h.behind)

/-- Comments behind a node end visibly, or are put off behind something visible. -/
theorem keeps_trailingDoc (h : ∀ a ∈ as, Doc.Firm a.comment.doc) : Keeps 0 0 (trailingDoc as) :=
  keeps_cat.mpr (keepsAll_flatMap fun a ha => keepsAll_trailingParts (h a ha))

/-- A comment inside a node stays behind something visible. -/
theorem keepsAll_danglingParts (h : Doc.Firm a.comment.doc) : KeepsAll 0 0 a.danglingParts := by
  unfold AttachedComment.danglingParts
  split
  · exact .cons keeps_hardline (.single h.below)
  · exact .cons keeps_hardline (.cons keeps_blankLine (.single h))

/-- The comments inside a node on lines of their own. -/
theorem NodeComments.Firm.firm_danglingBlock (h : c.Firm) :
    ∀ d ∈ c.danglingBlock?.toList, Doc.Firm d := by
  have hdangling := h.dangling
  unfold NodeComments.danglingBlock?
  cases hc : c.dangling with
  | nil => simp
  | cons a as =>
    rw [hc] at hdangling
    obtain ⟨ha, has⟩ := List.forall_mem_cons.mp hdangling
    have hparts := KeepsAll.cons ha (keepsAll_flatMap fun b hb => keepsAll_danglingParts (has b hb))
    simpa using hparts

/-- Comments on one line stay behind at most one line feed. -/
theorem keepsAll_inlineParts (h : ∀ a ∈ as, Doc.Firm a.comment.doc) :
    KeepsAll 1 1 (inlineParts as) := by
  induction as with
  | nil => exact .nil
  | cons a as ih =>
    obtain ⟨ha, has⟩ := List.forall_mem_cons.mp h
    have hgap : KeepsAll 0 1
        (if a.comment.isLine then [hardline] else if as.isEmpty then [] else [.text " "]) := by
      split
      · exact .single keeps_hardline
      · split
        · exact KeepsAll.nil.mono le_rfl (by decide)
        · exact (KeepsAll.single keeps_blank).mono le_rfl (by decide)
    exact .cons ha.below (hgap.append (ih has))

/-- The comments inside a node on one line may end with a line feed. -/
theorem NodeComments.Firm.keeps_danglingInline (h : c.Firm) : Keeps 1 1 c.danglingInline :=
  keeps_cat.mpr (keepsAll_inlineParts h.dangling)

end Comments

namespace Layout

/-! ## Layout that may fail -/

/-- A property of the result of a computation, if it succeeds. -/
def Ensures {α : Type} (e : Except ShapeError α) (P : α → Prop) : Prop := ∀ a, e = .ok a → P a

section Ensures

variable {α β : Type} {e : Except ShapeError α} {P Q : α → Prop} {R : β → Prop}

/-- A result that is given ensures what holds of it. -/
theorem Ensures.pure {a : α} (h : P a) : Ensures (Pure.pure a) P := by
  rintro _ ⟨⟩
  exact h

/-- A refusal ensures anything. -/
theorem Ensures.throw (error : ShapeError) : Ensures (MonadExcept.throw error) P := by
  rintro _ ⟨⟩

/-- What is ensured ensures anything weaker. -/
theorem Ensures.mono (h : Ensures e P) (hPQ : ∀ a, P a → Q a) : Ensures e Q :=
  fun a ha => hPQ a (h a ha)

/-- What the first step ensures is what the second one may rely on. -/
theorem Ensures.bind {f : α → Except ShapeError β} (h : Ensures e P)
    (hf : ∀ a, P a → Ensures (f a) R) : Ensures (e >>= f) R := by
  cases e with
  | error error => exact Ensures.throw error
  | ok a => exact hf a (h a rfl)

/-- What is ensured of a result is carried over to its image. -/
theorem Ensures.map {f : α → β} (h : Ensures e P) (hf : ∀ a, P a → R (f a)) :
    Ensures (e.map f) R := by
  cases e with
  | error error => exact Ensures.throw error
  | ok a => exact Ensures.pure (hf a (h a rfl))

/-- Results for several things, as many as there are. -/
theorem ensures_mapM {f : α → Except ShapeError β} {as : List α} (h : ∀ a ∈ as, Ensures (f a) R) :
    Ensures (as.mapM f) fun bs => bs.length = as.length ∧ ∀ b ∈ bs, R b := by
  induction as with
  | nil =>
    rw [List.mapM_nil]
    exact .pure ⟨rfl, by simp⟩
  | cons a as ih =>
    obtain ⟨ha, has⟩ := List.forall_mem_cons.mp h
    rw [List.mapM_cons]
    refine ha.bind fun b hb => (ih has).bind fun bs hbs => .pure ⟨?_, ?_⟩
    · rw [List.length_cons, List.length_cons, hbs.1]
    · exact List.forall_mem_cons.mpr ⟨hb, hbs.2⟩

/-- Results for several things, one for each. -/
theorem ensures_mapM_forall₂ {γ : Type} {f : α → Except ShapeError β} {R : β → γ → Prop}
    {as : List α} {cs : List γ} (h : List.Forall₂ (fun a c => Ensures (f a) (R · c)) as cs) :
    Ensures (as.mapM f) (List.Forall₂ R · cs) := by
  induction h with
  | nil => exact .pure .nil
  | cons ha _ ih =>
    rw [List.mapM_cons]
    exact ha.bind fun b hb => ih.bind fun bs hbs => .pure (.cons hb hbs)

end Ensures

/-! ## Pieces -/

/-- A link whose operand is firm, between comments that are printed elsewhere. -/
structure OperatorLink.Firm (l : OperatorLink) : Prop where
  parts : Ensures l.parts fun parts => Keeps 0 0 (.text parts.1) ∧ Doc.Firm parts.2
  leading : Keeps 2 2 l.leading
  trailing : Keeps 0 0 l.trailing

/-- A chain of operators with a firm first operand and firm links. -/
structure OperatorChain.Firm (c : OperatorChain) : Prop where
  first : Ensures c.first Doc.Firm
  inner : ∀ l ∈ c.inner, l.Firm
  last : c.last.Firm

/-- A link whose call is firm, between comments that are printed elsewhere. -/
structure CallLink.Firm (l : CallLink) : Prop where
  doc : Ensures l.doc Doc.Firm
  leading : Keeps 2 2 l.leading
  trailing : Keeps 0 0 l.trailing

/-- A chain of calls with a firm receiver and firm links. -/
structure CallChain.Firm (c : CallChain) : Prop where
  head : Ensures c.head Doc.Firm
  inner : ∀ l ∈ c.inner, l.Firm
  last : c.last.Firm

/-- All that a parent may ask of a piece is firm. -/
structure Piece.Firm (p : Piece) : Prop where
  bare : Ensures p.bare Doc.Firm
  comments : p.comments.Firm
  text : p.text = "" ∨ Doc.Firm (.text p.text)
  operators : ∀ found, p.operators = some found → Ensures found OperatorChain.Firm
  calls : ∀ chain, p.calls = some chain → chain.Firm

/-- The comments of a node around its document. -/
theorem firm_wrap {p : Piece} {d : Doc} (h : p.comments.Firm) (leading : Bool) (hd : Firm d) :
    Firm (p.wrap leading d) := by
  unfold Piece.wrap
  split
  · exact hd
  · have hfront : KeepsAll 2 2
        (if leading && !p.comments.leading.isEmpty then [p.comments.leadingDoc] else []) := by
      split
      · exact .single h.keeps_leadingDoc
      · exact .nil
    have hmiddle : KeepsAll 0 0 (if !p.comments.dangling.isEmpty && !printsDangling p.kind then
        [trailingDoc p.comments.dangling] else []) := by
      split
      · exact .single (keeps_trailingDoc h.dangling)
      · exact .nil
    have hback : KeepsAll 0 0
        (if p.comments.trailing.isEmpty then [] else [trailingDoc p.comments.trailing]) := by
      split
      · exact .nil
      · exact .single (keeps_trailingDoc h.trailing)
    exact keeps_cat.mpr (((hfront.append (.single hd)).append hmiddle).append hback)

namespace Piece.Firm

variable {p : Piece}

/-- The document of a firm piece is firm. -/
theorem doc (h : p.Firm) : Ensures p.doc Doc.Firm :=
  h.bare.map fun _ hd => firm_wrap h.comments true hd

/-- The document of a firm piece is firm without the comments in front. -/
theorem docWithoutLeading (h : p.Firm) : Ensures p.docWithoutLeading Doc.Firm :=
  h.bare.map fun _ hd => firm_wrap h.comments false hd

/-- The text of a node, which is empty unless the node is a leaf, keeps the count. -/
theorem keeps_text (h : p.Firm) {n : Nat} (hn : n ≤ 2) :
    Keeps n n (.text p.text) := by
  rcases h.text with hempty | hfirm
  · rw [hempty]
    exact keeps_empty
  · exact hfirm.mono hn (Nat.zero_le n)

end Piece.Firm

/-- The documents of firm pieces, one for each. -/
theorem ensures_docs {ps : List Piece} (h : ∀ p ∈ ps, p.Firm) :
    Ensures (docs ps) fun ds => ds.length = ps.length ∧ ∀ d ∈ ds, Firm d :=
  ensures_mapM fun p hp => (h p hp).doc

end Layout

end JavaFormat
