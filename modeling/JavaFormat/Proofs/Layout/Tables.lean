import JavaFormat.Proofs.Doc.Tables
import JavaFormat.Proofs.Layout.Rule
import JavaFormat.Proofs.Layout.Separators

/-!
# Tables of literals

The initializer of an array that holds nothing but literals is filled. Its separators are put
to the items in front of them, so they are measured with these; only the separator behind the
last item, which the source may have, stands behind the fill. So no line between the broken
braces is too long, but for the last one if it ends in such a separator.
-/

namespace JavaFormat.Layout

open Doc

/-! ## The items of a fill -/

/-- The documents of a fill, each but the last with its separator. -/
def fillItems (separator : String) : List Doc → List Doc
  | [] => []
  | [d] => [d]
  | d :: ds => cat [d, separator] :: fillItems separator ds

/-- The words of a filled list, each but the last with its separator. -/
def separated (separator : String) : List String → List String
  | [] => []
  | [w] => [w]
  | w :: ws => (w ++ separator) :: separated separator ws

/-- The parts of a fill are its items with spaces between them. -/
theorem fillParts_eq_interleave (separator : String) : ∀ ds : List Doc,
    fillParts separator ds = interleave space (fillItems separator ds)
  | [] => rfl
  | [_] => rfl
  | d :: e :: es => by
    rw [fillParts, fillParts_eq_interleave separator (e :: es)]
    · cases es <;> rfl
    · exact List.cons_ne_nil e es

/-- Two texts that are joined, of which the second is not empty. -/
theorem cat_texts (v : String) {w : String} (hw : w ≠ "") :
    cat [.text v, .text w] = if v = "" then .text w else .concat [.text v, .text w] := by
  split <;> rename_i hv <;> simp [cat, flatten, ofParts, hv, hw]

/-- A text with another behind it is written as both. -/
theorem writtenAs_cat (v : String) {w : String} (hw : w ≠ "") :
    WrittenAs (cat [.text v, .text w]) (v ++ w) := by
  rw [cat_texts v hw]
  split
  · rename_i hv
    rw [hv, String.empty_append]
    exact writtenAs_text w
  · refine ⟨fun strict mode width => ?_, fun options l m s => ?_⟩
    · simp only [fit, fitAll, String.length_append]
      by_cases hfits : v.length ≤ width
      · by_cases hrest : w.length ≤ width - v.length
        · have hboth : v.length + w.length ≤ width := by omega
          simp [hfits, hrest, hboth, Nat.sub_sub]
        · have hover : ¬v.length + w.length ≤ width := by omega
          simp [hfits, hrest, hover]
      · have hover : ¬v.length + w.length ≤ width := by omega
        simp [hfits, hover]
    · rw [← State.print_append]
      exact .head rfl (.head rfl (.single rfl))

/-- The items of a fill of texts are written as the words of the list. -/
theorem forall₂_writtenAs_fillItems {separator : String} (hseparator : separator ≠ "") :
    ∀ ws : List String, List.Forall₂ WrittenAs (fillItems separator (ws.map .text))
      (separated separator ws)
  | [] => .nil
  | [w] => .cons (writtenAs_text w) .nil
  | v :: w :: ws =>
    .cons (writtenAs_cat v hseparator) (forall₂_writtenAs_fillItems hseparator (w :: ws))

/-- The items of a fill of words have no forced break. -/
theorem breaksAny_fillItems {separator : String} (hseparator : separator ≠ "") :
    ∀ ws : List String, breaksAny (fillItems separator (ws.map .text)) = false
  | [] => rfl
  | [_] => rfl
  | v :: w :: ws => by
    have hfirst : (cat [.text v, .text separator]).breaks = false := by
      rw [cat_texts v hseparator]
      split <;> rfl
    exact Bool.or_eq_false_iff.mpr ⟨hfirst, breaksAny_fillItems hseparator (w :: ws)⟩

/-- Separated words are some words. -/
theorem separated_ne_nil (separator w : String) (ws : List String) :
    separated separator (w :: ws) ≠ [] := by
  cases ws <;> exact List.cons_ne_nil _ _

/-- Every word but the last ends in its separator. -/
theorem exists_of_mem_dropLast_separated {separator : String} : ∀ {ws : List String} {u : String},
    u ∈ (separated separator ws).dropLast → ∃ w, u = w ++ separator
  | v :: w :: ws, u, h => by
    rw [separated, List.dropLast_cons_of_ne_nil (separated_ne_nil separator w ws)] at h
    · rcases List.mem_cons.mp h with rfl | h
      · exact ⟨v, rfl⟩
      · exact exists_of_mem_dropLast_separated h
    · exact List.cons_ne_nil w ws

/-- Words that a break may follow end in a comma. -/
theorem endsUnpadded_of_mem_dropLast {ws : List String} {u : String}
    (h : u ∈ (separated "," ws).dropLast) : EndsUnpadded u := by
  obtain ⟨w, rfl⟩ := exists_of_mem_dropLast_separated h
  exact ⟨w.toList, ',', by rw [String.toList_append]; rfl, by decide⟩

/-- A word is an item of the list, with its separator or without. -/
theorem exists_of_mem_separated {separator : String} : ∀ {ws : List String} {u : String},
    u ∈ separated separator ws → ∃ w ∈ ws, u = w ∨ u = w ++ separator
  | [w], u, h => ⟨w, by simp, .inl (List.mem_singleton.mp h)⟩
  | v :: w :: ws, u, h => by
    rcases List.mem_cons.mp h with rfl | h
    · exact ⟨v, by simp, .inr rfl⟩
    · obtain ⟨x, hx, hu⟩ := exists_of_mem_separated h
      exact ⟨x, List.mem_cons_of_mem _ hx, hu⟩

/-! ## The document of a table -/

/-- An array initializer without comments whose items are literals without line feeds. -/
structure LiteralTable (scene : Scene) (t : Tree) : Prop where
  shaped : t.WellShaped
  kind : t.kind = .arrayInitializer
  items : t.namedChildren ≠ []
  literal : ∀ u ∈ t.namedChildren, u.kind.isLiteral = true ∧ '\n' ∉ u.text.toList
  uncommented : ∀ u ∈ t :: t.namedChildren, (scene.attachments.at u.index).isEmpty = true

/-- A literal is printed as it was written. -/
theorem isVerbatim_of_isLiteral {k : NodeKind} (h : k.isLiteral = true) : k.isVerbatim = true := by
  unfold NodeKind.isLiteral at h
  split at h <;> first | rfl | cases h

section Table

variable {scene : Scene} {t : Tree}

/-- A piece without comments has the document of its rule. -/
theorem doc_eq_bare {p : Piece} (h : p.comments.isEmpty = true) : p.doc = p.bare := by
  have hwrap : p.wrap true = id := funext fun d => by rw [Piece.wrap, if_pos h, id]
  rw [Piece.doc, hwrap]
  cases p.bare <;> rfl

/-- A literal without comments and line feeds is printed as it is written. -/
theorem doc_layOut_literal (parent : Option NodeKind) {u : Tree} (hu : u.kind.isLiteral = true)
    (hline : '\n' ∉ u.text.toList) (hcomments : (scene.attachments.at u.index).isEmpty = true) :
    (layOut scene parent u).doc = .ok (.text u.text) := by
  rw [doc_eq_bare (by rw [comments_layOut]; exact hcomments)]
  have hbare : ∀ ps, (scene.site parent u ps).bare = .ok (.text u.text) := by
    intro ps
    have hlines : ofLines u.text = .text u.text := by simp [ofLines, Text.isMultiline, hline]
    exact (Site.bare_of_isVerbatim (isVerbatim_of_isLiteral hu)).trans (congrArg _ hlines)
  cases u with
  | leaf info text => exact hbare []
  | branch info children => exact hbare _

/-- The documents of several trees of which all named ones are literals. -/
theorem docs_layOutAll_literals (parent : Option NodeKind) {ts : List Tree}
    (hts : ∀ u ∈ ts.filter Tree.isNamed, u.kind.isLiteral = true ∧ '\n' ∉ u.text.toList)
    (hcomments : ∀ u ∈ ts.filter Tree.isNamed, (scene.attachments.at u.index).isEmpty = true) :
    docs ((layOutAll scene parent ts).filter (·.node.isNamed)) =
      .ok ((ts.filter Tree.isNamed).map fun u => .text u.text) := by
  induction ts with
  | nil => rfl
  | cons u us ih =>
    rw [layOutAll, List.filter_cons, node_layOut]
    cases hu : u.isNamed with
    | false =>
      rw [List.filter_cons_of_neg (by simp [hu])] at hts hcomments ⊢
      exact ih hts hcomments
    | true =>
      rw [List.filter_cons_of_pos hu] at hts hcomments ⊢
      obtain ⟨⟨hliteral, hline⟩, hts⟩ := List.forall_mem_cons.mp hts
      obtain ⟨hempty, hcomments⟩ := List.forall_mem_cons.mp hcomments
      have hrest := ih hts hcomments
      simp only [docs] at hrest
      rw [if_pos rfl, docs, List.mapM_cons, doc_layOut_literal parent hliteral hline hempty, hrest]
      rfl

/-- The children of a table are separated items between braces. -/
theorem LiteralTable.exists_separated (h : LiteralTable scene t) : ∃ first body last,
    t.children = first :: (body ++ [last]) ∧
      Shape.Separated "," (hasTrailingSeparator t ",") body := by
  have hallowed : Shape.Allowed t.kind t.children :=
    (h.shaped t (Tree.mem_nodes_self t)).allowed (by rw [h.kind]; decide) (by rw [h.kind]; decide)
  rw [h.kind] at hallowed
  obtain ⟨first, body, last, hchildren, hfirst, hlast, hbody⟩ := hallowed
  rcases hbody with rfl | ⟨closed, -, hseparated⟩
  · refine absurd ?_ h.items
    rw [Tree.namedChildren, hchildren]
    simp [Tree.isNamed_of_isToken hfirst, Tree.isNamed_of_isToken hlast]
  · refine ⟨first, body, last, hchildren, ?_⟩
    rwa [hasTrailingSeparator_of_separated hchildren hseparated]

/-- A list between braces with a filled body. -/
theorem grouped_eq_bracedFill (closed : Bool) (items : List Doc) :
    grouped ["\x7b", indented [space, if closed then cat [.fill (interleave space items), ","]
      else .fill (interleave space items)], space, "\x7d"] =
        .group false (bracedFill closed items) := by
  cases closed <;> rfl

/-- The document of a table of literals: a fill between braces. -/
theorem doc_layOut_literalTable (h : LiteralTable scene t) (parent : Option NodeKind) :
    (layOut scene parent t).doc = .ok (.group false (bracedFill (hasTrailingSeparator t ",")
      (fillItems "," ((t.namedChildren.map Tree.text).map .text)))) := by
  obtain ⟨hown, hcomments⟩ := List.forall_mem_cons.mp h.uncommented
  rw [doc_eq_bare (by rw [comments_layOut]; exact hown)]
  cases t with
  | leaf info text => exact absurd rfl h.items
  | branch info ts =>
    let s := scene.site parent (.branch info ts) (layOutAll scene (some info.kind) ts)
    have hkind : s.node.kind = .arrayInitializer := h.kind
    have hnodes : s.named.map Piece.node = ts.filter Tree.isNamed := by
      have hmap := map_node_layOutAll scene (some info.kind) ts
      conv_rhs => rw [← hmap, List.filter_map]
      rfl
    have hpieces : ∀ p ∈ s.named, p.kind.isLiteral = true ∧ p.hasComments = false := by
      intro p hp
      have hnode : p.node ∈ ts.filter Tree.isNamed := hnodes ▸ List.mem_map_of_mem hp
      obtain ⟨u, -, rfl⟩ := exists_of_mem_layOutAll (List.mem_of_mem_filter hp)
      rw [node_layOut] at hnode
      refine ⟨?_, ?_⟩
      · rw [Piece.kind, node_layOut]
        exact (h.literal u hnode).1
      · rw [Piece.hasComments, comments_layOut, hcomments u hnode]
        rfl
    have hdocs : docs s.named = .ok _ :=
      docs_layOutAll_literals (some info.kind) h.literal hcomments
    have hne : s.named ≠ [] := by
      intro hnil
      rw [hnil] at hnodes
      exact h.items hnodes.symm
    have hfilled : s.named.all (·.kind.isLiteral) = true :=
      List.all_eq_true.mpr fun p hp => (hpieces p hp).1
    have hcommented : s.named.any Piece.hasComments = false :=
      List.any_eq_false.mpr fun p hp => by simp [(hpieces p hp).2]
    obtain ⟨first, body, last, hchildren, hseparated⟩ := h.exists_separated
    have hbare : s.bare = s.arrayInitializer := by
      unfold Site.bare
      rw [hkind]
    refine hbare.trans ?_
    rw [Site.arrayInitializer, hfilled]
    refine (delimited_of_separated hne hdocs hchildren hseparated).trans ?_
    have hbody : ∀ ds, listBody { ListStyle.braced with filled := true } s.named ds =
        .fill (interleave space (fillItems "," ds)) := by
      intro ds
      rw [listBody, hcommented, ← fillParts_eq_interleave]
      rfl
    rw [hbody, List.map_map, ← grouped_eq_bracedFill]
    rfl

/-- A table has words. -/
theorem LiteralTable.separated_ne_nil (h : LiteralTable scene t) :
    separated "," (t.namedChildren.map Tree.text) ≠ [] := by
  obtain ⟨u, us, hus⟩ := List.exists_cons_of_ne_nil h.items
  rw [hus]
  exact Layout.separated_ne_nil "," u.text (us.map Tree.text)

/-- If every item has room with a separator behind it, so has every word. -/
theorem LiteralTable.words_fit (h : LiteralTable scene t) {margin width : Nat}
    (hroom : ∀ u ∈ t.namedChildren, margin + u.text.length + 1 ≤ width) :
    ∀ v ∈ separated "," (t.namedChildren.map Tree.text),
      '\n' ∉ v.toList ∧ margin + v.length ≤ width := by
  intro v hv
  obtain ⟨w, hw, hvw⟩ := exists_of_mem_separated hv
  obtain ⟨u, hu, rfl⟩ := List.mem_map.mp hw
  have hline := (h.literal u hu).2
  have hlength := hroom u hu
  rcases hvw with rfl | rfl
  · exact ⟨hline, by omega⟩
  · refine ⟨by simp [hline], ?_⟩
    rw [String.length_append]
    exact hlength

/-- No line between the broken braces of a table of literals is too long, but for one case. When
the braces are broken, the output goes on with the opening brace, what waits, and the lines of
the table: its items, each but the last with its separator, as greedy line filling puts them,
and the separator behind the last item if the source has it. If every item has room on a line
of its own with a separator behind it, each of these lines is at most `printWidth` long; only
the last one may be longer, by that separator. -/
theorem literal_table_lines {scene : Scene} {t : Tree} (h : LiteralTable scene t)
    (parent : Option NodeKind) :
    ∃ contents, (layOut scene parent t).doc = .ok (.group false contents) ∧
      (group false contents).markBreaks = .group false contents ∧
      ∀ (options : Options) (e : Doc), e.Sound True →
        ∀ (s s' : State) (l : Nat) (m : Mode) (rest : List Command),
          State.Steps options (.initial e.markBreaks) s →
          s.stack = ⟨l, m, .group false contents⟩ :: rest →
          s.step options = .next s' → s'.stack = ⟨l, .broken, contents⟩ :: rest →
          (∀ u ∈ t.namedChildren,
            (l + 1) * options.tabWidth + u.text.length + 1 ≤ options.printWidth) →
          ∃ waited table init last after, (s.suffixes = [] → waited = []) ∧
            table = Text.dropEndWhile Text.isPadding (tableText options l
              (hasTrailingSeparator t ",") (separated "," (t.namedChildren.map Tree.text))).toList ∧
            render? options e = some (String.ofList (s.printed.reverse ++ '\x7b' :: waited ++
              '\n' :: table ++ '\n' :: List.replicate (l * options.tabWidth) ' ' ++
                '\x7d' :: after)) ∧
            Text.lines (String.ofList table) = init ++ [last] ∧
            (∀ line ∈ init, line.length ≤ options.printWidth) ∧
            last.length ≤ options.printWidth + (hasTrailingSeparator t ",").toNat := by
  refine ⟨_, doc_layOut_literalTable h parent,
    markBreaks_bracedFill _ (breaksAny_fillItems (by decide) _), ?_⟩
  intro options e he s s' l m rest hs hstack hstep hstack' hroom
  have hinitial : (State.initial e.markBreaks).Sound True :=
    ⟨⟨sound_markBreaks he, trivial⟩, trivial⟩
  have hsound := hinitial.steps (hs.tail hstep)
  obtain ⟨cs, again, -, rfl⟩ := (move_of_step hstep).exists_expansion hstack trivial
  have hcomma : "," ≠ "" := by decide
  have hwritten := forall₂_writtenAs_fillItems hcomma (t.namedChildren.map Tree.text)
  have hends : ∀ v ∈ (separated "," (t.namedChildren.map Tree.text)).dropLast, EndsUnpadded v :=
    fun v hv => endsUnpadded_of_mem_dropLast hv
  have hwords := h.words_fit hroom
  have hne := h.separated_ne_nil
  generalize fillItems "," ((t.namedChildren.map Tree.text).map .text) = items at hwritten hstack'
  generalize separated "," (t.namedChildren.map Tree.text) = words at *
  cases hwritten with
  | nil => exact absurd rfl hne
  | cons hw hws =>
    obtain ⟨u, waited, hsteps, -, hnothing, hprinted⟩ :=
      exists_steps_table options hsound hstack' hw hws hends
    obtain ⟨after, hrender⟩ :=
      exists_render_of_steps options he ((hs.tail hstep).trans hsteps) hprinted (by decide)
    obtain ⟨init, last, hlines, hinit, hlast⟩ :=
      length_lines_tableText (hasTrailingSeparator t ",") hwords
    refine ⟨waited.reverse, _, init, last, after, fun hs => by rw [hnothing hs]; rfl, rfl, ?_,
      hlines, hinit, hlast⟩
    rw [hrender]
    simp

end Table

/-- The initializer `{ 1, 2, }`. -/
def closedTable : Tree :=
  .branch ⟨6, .arrayInitializer, none, (Source.ofText "\x7b 1, 2, \x7d").span 0 9⟩
    closedInitializer

/-- A source without comments. -/
def bareScene : Scene := ⟨Source.ofText "\x7b 1, 2, \x7d", [], []⟩

/-- The closed table is a table of literals. -/
theorem literalTable_closedTable : LiteralTable bareScene closedTable where
  shaped := by
    have hbody : Shape.Separated "," true (closedInitializer.drop 1).dropLast :=
      .more (by decide) (by decide) (.closed (by decide) (by decide))
    refine Tree.wellShaped_branch_iff.mpr ⟨⟨by decide, by decide, ?_⟩, ?_⟩
    · exact ⟨_, _, _, rfl, by decide, by decide, .inr ⟨true, le_refl _, hbody⟩⟩
    · simp [closedInitializer, Tree.Regular, NodeKind.isVerbatim]
  kind := rfl
  items := by decide
  literal := by decide
  uncommented := by decide

/-- On a width of six columns the last line of the table takes seven. -/
theorem literal_table_lines_closedTable :
    LiteralTable bareScene closedTable ∧ ∃ contents s',
      (layOut bareScene none closedTable).doc = .ok (.group false contents) ∧
      (group false contents).Sound True ∧
      (State.initial (group false contents).markBreaks).step { printWidth := 6 } = .next s' ∧
      s'.stack = [⟨0, .broken, contents⟩] ∧
      (∀ u ∈ closedTable.namedChildren, (0 + 1) * 2 + u.text.length + 1 ≤ 6) ∧
      ∃ init last after, render? { printWidth := 6 } (group false contents) =
          some (String.ofList ('\x7b' :: '\n' :: "  1, 2,".toList ++ '\n' :: '\x7d' :: after)) ∧
        Text.lines "  1, 2," = init ++ [last] ∧ (∀ line ∈ init, line.length ≤ 6) ∧
        last.length ≤ 6 + 1 := by
  obtain ⟨contents, hdoc, hmarks, hlines⟩ := literal_table_lines literalTable_closedTable none
  obtain rfl : contents = bracedFill true [.concat ["1", ","], "2"] := by
    rw [doc_layOut_literalTable literalTable_closedTable none] at hdoc
    cases hdoc
    rfl
  have hsound : (group false (bracedFill true [.concat ["1", ","], "2"])).Sound True := by
    simp [bracedFill, interleave, space]
  have hroom : ∀ u ∈ closedTable.namedChildren, (0 + 1) * 2 + u.text.length + 1 ≤ 6 := by decide
  refine ⟨literalTable_closedTable, _, _, hdoc, hsound, rfl, rfl, hroom, ?_⟩
  obtain ⟨waited, table, init, last, after, hnothing, htable, hrender, hsplit, hinit, hlast⟩ :=
    hlines { printWidth := 6 } _ hsound _ _ 0 .broken [] .refl (by rw [hmarks]; rfl) rfl rfl hroom
  obtain rfl : waited = [] := hnothing rfl
  obtain rfl : table = "  1, 2,".toList := htable.trans (by decide)
  exact ⟨init, last, after, hrender, hsplit, hinit, hlast⟩

end JavaFormat.Layout
