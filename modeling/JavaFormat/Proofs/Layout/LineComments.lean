import JavaFormat.Proofs.Layout.Waiting

/-!
# Line comments end their lines

A line comment has a certain break behind it, or it waits for the next break itself. In
both cases comments that wait can come in between: line comments, each behind a space, up
to the first one that begins a line of its own. Code never does. The one exception are the
comments inside a list of modifiers that another comment follows in front of the next modifier,
which may go on behind them.
-/

namespace JavaFormat

/-- What line comments are printed as behind others. -/
def linedUp (cs : List Comment) : List Char := cs.flatMap fun c => ' ' :: c.text.toList

/-- A comment that is found in the output with nothing behind it on its line but other
line comments among the comments `cs`. -/
def Ended (c : Comment) (cs : List Comment) (out : List Char) : Prop :=
  ∃ before after, ∃ others : List Comment,
    out = before ++ (c.text.toList ++ linedUp others ++ after) ∧
      (∀ e ∈ others, e.isLine = true) ∧ (c :: others).Subperm cs ∧ ∀ x ∈ after.head?, x = '\n'

namespace Layout

open Doc

/-! ## Line comments among glyphs -/

/-- The comments of remarks. -/
abbrev comments (as : List Remark) : List Comment := as.map Remark.comment

/-- What waits begins with line comments, behind which there is nothing or a break. -/
theorem Waits.exists_line {as : List Remark} {w : List Glyph} (h : Waits as w) :
    ∃ line rest after, w = (linedUp (comments line)).map .char ++ after ∧ as = line ++ rest ∧
      (∀ a ∈ line, a.comment.isLine = true) ∧ AtBreak after := by
  induction h with
  | nil => exact ⟨[], [], [], rfl, rfl, by simp, by simp [AtBreak]⟩
  | @cons a as gs hs ha _ ih =>
    cases ha with
    | behind hline =>
      obtain ⟨line, rest, after, rfl, rfl, hlines, hafter⟩ := ih
      refine ⟨a :: line, rest, after, ?_, rfl, List.forall_mem_cons.mpr ⟨hline, hlines⟩, hafter⟩
      simp [linedUp, typed]
    | below => exact ⟨[], a :: as, _, rfl, rfl, by simp, atBreak_cons (.inl rfl) _⟩

/-- A line comment that stands among glyphs with nothing behind it on its line but other
line comments among the comments `cs`. -/
def Ends (a : Remark) (cs : Multiset Remark) (gs : List Glyph) : Prop :=
  ∃ before line after,
    gs = before ++ ((a.comment.text.toList ++ linedUp (comments line)).map .char ++ after) ∧
      (∀ b ∈ line, b.comment.isLine = true) ∧ a ::ₘ (line : Multiset Remark) ≤ cs ∧
      AtBreak after

/-- What waits behind a line comment leaves it at the end of its line. -/
theorem Waits.ends {as : List Remark} {w : List Glyph} (h : Waits as w) (a : Remark)
    (before : List Glyph) {after : List Glyph} (hafter : AtBreak after)
    {cs : Multiset Remark} (hle : a ::ₘ (as : Multiset Remark) ≤ cs) :
    Ends a cs (before ++ (typed a.comment.text ++ (w ++ after))) := by
  obtain ⟨line, rest, behind, rfl, rfl, hlines, hbehind⟩ := h.exists_line
  refine ⟨before, line, behind ++ after, by simp [typed], hlines, ?_, hbehind.append hafter⟩
  refine (Multiset.cons_le_cons a ?_).trans hle
  rw [← Multiset.coe_add]
  exact Multiset.le_add_right _ _

/-- A bound line comment of a stitched script ends its line. It is printed in its place and a break
follows, or it waits, and what is put off later comes behind it. -/
theorem Stitched.ends {ls : List String} {cs : Multiset Remark} {q : List Cue}
    (h : Stitched ls cs q) {a : Remark} (ha : a ∈ cs) (hline : a.EndsLine) :
    Ends a cs (settle [] q) := by
  obtain ⟨r, w, as, ls', cs', c, q', hr, hw, hq', hle, hplace⟩ := h.exists_comment .nil ha
  have hall : as + a ::ₘ cs' ≤ cs := by simpa using hle
  rw [hr]
  rcases hplace with ⟨gs, rfl, hgs, hend⟩ | ⟨gs, rfl, hgs⟩
  · obtain rfl := (scripts_of_isLine hline.2.1).mp hgs
    obtain ⟨q'', rfl⟩ := hend hline
    rw [settle_unbroken not_isBreak_of_mem_typed, settle_of_isBreak (.inl rfl)]
    refine hw.ends a r (atBreak_cons (.inl rfl) _) (le_trans ?_ hall)
    rw [Multiset.add_cons]
    exact Multiset.cons_le_cons a (Multiset.le_add_right _ _)
  · obtain ⟨front, hs, rfl, hscript⟩ := hgs.exists_scripts
    obtain rfl := (scripts_of_isLine hline.2.1).mp hscript
    obtain ⟨before, more, bs, after, hflush, hmore, hbs, hafter⟩ :=
      hq'.flushes (w ++ (front ++ typed a.comment.text))
    have hends := hmore.ends a (r ++ (before ++ (w ++ front))) hafter
      ((Multiset.cons_le_cons a hbs).trans ((Multiset.le_add_left _ _).trans hall))
    rw [List.singleton_append, settle, hflush]
    simpa using hends

/-! ## Line comments in the output -/

/-- Line comments one behind the other close the output. -/
theorem closed_of_linedUp {c : Comment} {cs : List Comment} (hc : Text.EndsVisibly c.text)
    (hcs : ∀ e ∈ cs, Text.EndsVisibly e.text) (out : List Char) :
    Closed ((c.text.toList ++ linedUp cs).reverse ++ out) := by
  rcases List.eq_nil_or_concat cs with rfl | ⟨cs, e, rfl⟩
  · simpa [linedUp] using closed_of_endsVisibly hc out
  · have hlast := closed_of_endsVisibly (hcs e (by simp))
      (' ' :: (linedUp cs).reverse ++ (c.text.toList.reverse ++ out))
    simpa [linedUp] using hlast

/-- At the end of a line nothing more is printed, or a line feed comes first. What closes the output
is no padding, so a break takes nothing of it away. -/
theorem exists_feed {gs : List Glyph} (hgs : AtBreak gs) {closed out : List Char}
    (hclosed : Closed closed) (h : Emits closed gs out) :
    ∃ more, out = more ++ closed ∧ ∀ x ∈ more.reverse.head?, x = '\n' := by
  have hnext : ∀ pad : List Char, Emits (pad ++ '\n' :: closed) gs.tail out →
      ∃ more, out = more ++ closed ∧ ∀ x ∈ more.reverse.head?, x = '\n' := by
    intro pad h
    have hfeed : Closed ('\n' :: closed) := by simp [Closed, Text.isPadding]
    obtain ⟨more, rfl, -⟩ := exists_behind pad hfeed h
    exact ⟨more ++ ['\n'], by simp, by simp⟩
  cases gs with
  | nil =>
    cases h
    exact ⟨[], rfl, by simp⟩
  | cons g gs =>
    rcases hgs g rfl with rfl | rfl
    · generalize hbefore : closed = before at h
      cases h with
      | @stop pad out' _ _ width hpad h =>
        have hsplit : pad ++ out' = [] ++ closed := hbefore.symm
        obtain ⟨gap, hnone, -⟩ := exists_gap_of_padding hsplit hpad hclosed
        obtain ⟨rfl, -⟩ := List.append_eq_nil_iff.mp hnone.symm
        obtain rfl : closed = out' := hbefore
        exact hnext _ h
    · cases h with
      | feed h => exact hnext [] h

/-- A line comment that ends its line among glyphs does so in what is printed for them. -/
theorem ended_of_ends {a : Remark} {cs : Multiset Remark} {all : List Comment} {gs : List Glyph}
    {out : List Char} (hall : cs.map Remark.comment = all)
    (hvisible : ∀ c ∈ all, c.isLine = true → Text.EndsVisibly c.text)
    (ha : a.comment.isLine = true) (h : Ends a cs gs) (he : Emits [] gs out) :
    Ended a.comment all out.reverse := by
  obtain ⟨before, line, after, rfl, hlines, hle, hafter⟩ := h
  have hsub : (comments (a :: line)).Subperm all := by
    rw [← Multiset.coe_le, ← hall, ← Multiset.map_coe]
    exact Multiset.map_le_map hle
  obtain ⟨hhere, hbehind⟩ := List.forall_mem_cons.mp fun c hc => hvisible c (hsub.subset hc)
  have hothers : ∀ e ∈ comments line, e.isLine = true := List.forall_mem_map.mpr hlines
  obtain ⟨front, -, hcomment⟩ := he.exists_between
  have hline := hcomment.of_chars (readOff_map_of_forall (fun _ => rfl) _)
  have hclosed := closed_of_linedUp (hhere ha) (fun e he => hbehind e he (hothers e he)) front
  obtain ⟨more, rfl, hfeed⟩ := exists_feed hafter hclosed hline
  exact ⟨front.reverse, more.reverse, comments line, by simp, hothers, hsub, hfeed⟩

end Layout

namespace Formatter

open Layout Doc

/-- A line comment ends its line, for every width and wherever it is put: nothing comes behind it
but other line comments. Inside a list of modifiers this holds of the last comment in front of a
modifier. -/
theorem ended_render_layOut (options : Options) {p : Parsed} (h : p.WellShaped)
    (hvisible : ∀ c ∈ p.comments, c.isLine = true → Text.EndsVisibly c.text) :
    ∃ as d out, p.attach options.tieBreak = .ok as ∧ layOut options p = .ok d ∧
      renderDoc options d = .ok out ∧
      ∀ a ∈ as, a.comment.isLine = true → ¬a.Crowded as p.roots →
        Ended a.comment p.comments out.toList := by
  obtain ⟨as, cs, d, hattach, hlayOut, hremarked, hweaves⟩ := exists_layOut options h
  obtain ⟨out, q, hrender, hq, he⟩ := exists_settled options hweaves.sound hweaves.shallow
  refine ⟨as, d, out, hattach, hlayOut, ?_, fun a ha hline hcrowded => ?_⟩
  · rw [renderDoc, hrender]
  · obtain ⟨place, hplace⟩ := hremarked.placed a ha
    have hbound := hremarked.bound a ha hcrowded
    have hends := (hweaves.stitched q hq).ends hbound ⟨rfl, hline, hplace.ends hline⟩
    have hended := ended_of_ends hremarked.map_comment hvisible (a := ⟨a, true⟩) hline hends he
    rwa [List.reverse_reverse] at hended

/-- Two keywords. -/
def twoKeywords (source : Source) : Tree :=
  .branch ⟨2, .modifiers, none, source.span 0 17⟩ [
    .leaf ⟨0, .token, none, source.span 0 5⟩ "final",
    .leaf ⟨1, .token, none, source.span 11 17⟩ "static"]

/-- A field with a line comment between its two keywords. -/
def remarkedField : Parsed :=
  let source := Source.ofText "final // a\nstatic int x;"
  let field := .branch ⟨7, .fieldDeclaration, none, source.span 0 24⟩ [
    twoKeywords source,
    .leaf ⟨3, .integralType, none, source.span 18 21⟩ "int",
    .branch ⟨5, .variableDeclarator, none, source.span 22 23⟩ [
      .leaf ⟨4, .identifier, none, source.span 22 23⟩ "x"],
    .leaf ⟨6, .token, none, source.span 23 24⟩ ";"]
  let body := .branch ⟨8, .classBody, none, source.span 0 24⟩ [field]
  ⟨body, [field], some .classBody, [⟨"// a", true, source.span 6 10⟩], source⟩

/-- The field has the shape of one. -/
theorem wellShaped_remarkedField : remarkedField.WellShaped where
  roots_ne_nil := List.cons_ne_nil _ _
  shaped := by
    have hverbatim : NodeKind.identifier.isVerbatim = true := rfl
    have htype : NodeKind.integralType.isVerbatim = true := rfl
    have hmodifiers : NodeKind.modifiers.isVerbatim = false := rfl
    have hfield : NodeKind.fieldDeclaration.isVerbatim = false := rfl
    have hdeclarator : NodeKind.variableDeclarator.isVerbatim = false := rfl
    simp [remarkedField, twoKeywords, Tree.Regular, Shape.Allowed, hverbatim, htype, hmodifiers,
      hfield, hdeclarator]
    exact ⟨[_], [], rfl, List.forall_mem_singleton.mpr rfl, .inl rfl⟩
  numbered := by
    simp [remarkedField, twoKeywords, Tree.nodesOfAll, Tree.nodes, Tree.index, Tree.info]

/-- The comment at its place, inside the list of modifiers. -/
def betweenKeywords : AttachedComment :=
  ⟨⟨"// a", true, remarkedField.source.span 6 10⟩, .dangling, 2, 0, 0, false, true⟩

/-- No other comment follows it in front of the second keyword. -/
theorem not_crowded_betweenKeywords :
    ¬betweenKeywords.Crowded [betweenKeywords] remarkedField.roots := by
  rintro ⟨-, u, hu, -, hk, hgap⟩
  have hlist : u = twoKeywords remarkedField.source := by
    simp only [remarkedField, twoKeywords, Tree.nodesOfAll, Tree.nodes, List.append_nil,
      List.cons_append, List.nil_append, List.mem_cons, List.not_mem_nil, or_false] at hu
    rcases hu with rfl | rfl | rfl | rfl | rfl | rfl | rfl | rfl <;> first | rfl | cases hk
  subst hlist
  exact hgap ⟨[], [], [], _, [], rfl, rfl, by decide, by simp⟩

/-- The comment ends its line although a keyword follows it. -/
theorem ended_render_layOut_remarkedField :
    remarkedField.WellShaped ∧
      (∀ c ∈ remarkedField.comments, c.isLine = true → Text.EndsVisibly c.text) ∧
      remarkedField.attach .trailing = .ok [betweenKeywords] ∧
      betweenKeywords.comment.isLine = true ∧
      ¬betweenKeywords.Crowded [betweenKeywords] remarkedField.roots ∧
      ∃ d out, layOut {} remarkedField = .ok d ∧ renderDoc {} d = .ok out ∧
        Ended betweenKeywords.comment remarkedField.comments out.toList := by
  have hvisible : ∀ c ∈ remarkedField.comments, c.isLine = true → Text.EndsVisibly c.text :=
    List.forall_mem_singleton.mpr fun _ => ⟨"// ".toList, 'a', by decide, by decide⟩
  have hattached : remarkedField.attach ({} : Options).tieBreak = .ok [betweenKeywords] := by decide
  obtain ⟨as, d, out, hattach, hlayOut, hrender, hended⟩ :=
    ended_render_layOut {} wellShaped_remarkedField hvisible
  obtain rfl := Except.ok.inj (hattach.symm.trans hattached)
  exact ⟨wellShaped_remarkedField, hvisible, hattached, rfl, not_crowded_betweenKeywords, d, out,
    hlayOut, hrender, hended _ (List.mem_singleton_self _) rfl not_crowded_betweenKeywords⟩

end Formatter

end JavaFormat
