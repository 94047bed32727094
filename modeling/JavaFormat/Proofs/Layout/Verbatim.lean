import JavaFormat.Proofs.Layout.Waiting

/-!
# Texts of several lines

A leaf, and a comment that is not indented anew, is printed character for character
(`Kept.whole`) unless comments wait when its first line ends: these come in behind its
first line, in front of the line feed, and the rest of it goes on below (`Kept.parted`).
Nothing else comes in, and nothing comes in further down, because nothing waits behind a
line break. What a run does to a script is `settle`, so both cases are read off it word
by word.
-/

namespace JavaFormat

/-- Whether the lines of a comment are indented anew: it has several, and each but the
first begins with an asterisk. -/
def Comment.isReindented (c : Comment) : Bool :=
  !c.isLine && decide (1 < (Text.lines c.text).length) && isStarred (Text.lines c.text).tail

/-- A text that is found in the output as it is, or with some of the comments `cs` behind
its first line. -/
inductive Kept (s : String) (cs : List Comment) (out : List Char) : Prop
  | whole (h : s.toList <:+: out)
  | parted {first inside rest : List Char} {waiting : List Comment}
    (hs : s.toList = first ++ '\n' :: rest) (hfirst : '\n' ∉ first)
    (hwaiting : waiting.Subperm cs) (hne : waiting ≠ [])
    (hinside : Text.seen inside = waiting.flatMap fun c => Text.visible c.text)
    (h : Text.dropEndWhile Text.isBlank first ++ inside ++ '\n' :: rest <:+: out)

namespace Layout

open Doc

/-! ## Words among glyphs -/

/-- The glyphs of a comment that is not indented anew. -/
theorem spells_of_scripts {c : Comment} (hc : c.isReindented = false) {gs : List Glyph}
    (h : c.doc.Scripts (prompt gs)) : Spells c.text gs := by
  unfold Comment.doc at h
  split at h
  · exact .inl (prompt_inj.mp h)
  · rename_i hblock
    split at h
    · rename_i first second rest hlines
      split at h
      · rename_i hstarred
        simp [Comment.isReindented, hblock, hlines, hstarred] at hc
      · exact .inr (prompt_inj.mp (scripts_ofLines.mp h))
    · exact .inl (prompt_inj.mp h)

/-- A word that stands among glyphs as it is, or with some of the comments `cs` behind its
first line. -/
inductive Stands (s : String) (cs : Multiset Remark) (gs : List Glyph) : Prop
  | whole {hs} (before after : List Glyph) (hspells : Spells s hs)
    (h : gs = before ++ (hs ++ after))
  | parted {first rest : List Char} {inside : List Glyph} {waiting : List Remark}
    (before after : List Glyph) (hs : s.toList = first ++ '\n' :: rest) (hfirst : '\n' ∉ first)
    (hwaiting : (waiting : Multiset Remark) ≤ cs) (hne : waiting ≠ [])
    (hinside : Waits waiting inside)
    (h : gs = before ++ (first.map .char ++ (inside ++ .feed :: (rest.map .ofChar ++ after))))

/-- What stands in a part stands in all. -/
theorem Stands.append {s : String} {cs cs' : Multiset Remark} {gs : List Glyph}
    (h : Stands s cs gs) (hcs : cs ≤ cs') (front : List Glyph) : Stands s cs' (front ++ gs) := by
  cases h with
  | whole before after hspells h =>
    refine .whole (front ++ before) after hspells ?_
    rw [h, List.append_assoc]
  | parted before after hs hfirst hwaiting hne hinside h =>
    refine .parted (front ++ before) after hs hfirst (hwaiting.trans hcs) hne hinside ?_
    rw [h, List.append_assoc]

/-- The line feeds of a text that is printed line by line are its breaks. -/
theorem isBreak_ofChar_iff {c : Char} : (Glyph.ofChar c).IsBreak ↔ c = '\n' := by
  unfold Glyph.ofChar Glyph.IsBreak
  split <;> simp [*]

/-- Without a line feed a text is printed the same either way. -/
theorem map_ofChar {cs : List Char} (h : '\n' ∉ cs) : cs.map Glyph.ofChar = cs.map .char := by
  refine List.map_congr_left fun c hc => ?_
  rw [Glyph.ofChar, if_neg]
  rintro rfl
  exact h hc

/-- A word that is reached while comments wait stands in what is printed. -/
theorem stands_of_spells {s : String} {gs w : List Glyph} {as : List Remark}
    (hspells : Spells s gs) (hw : Waits as w) (q : List Cue) :
    Stands s as (settle w (prompt gs ++ q)) := by
  by_cases has : as = []
  · subst has
    cases hw
    exact .whole [] _ hspells (settle_prompt gs q)
  · rcases settle_prompt_cases gs w q with h | ⟨gs₁, g, gs₂, hgs, hgs₁, hg, h⟩
    · exact .whole [] _ hspells h
    · rcases hspells with rfl | rfl
      · have hmem : g ∈ typed s := by simp [hgs]
        exact absurd hg (not_isBreak_of_mem_typed g hmem)
      · obtain ⟨first, _, hs, rfl, hrest⟩ := List.map_eq_append_iff.mp hgs
        obtain ⟨c, rest, rfl, rfl, rfl⟩ := List.map_eq_cons_iff.mp hrest
        obtain rfl := isBreak_ofChar_iff.mp hg
        have hfirst : '\n' ∉ first := by
          intro hmem
          exact hgs₁ _ (List.mem_map_of_mem hmem) (isBreak_ofChar_iff.mpr rfl)
        rw [map_ofChar hfirst] at h
        exact .parted [] _ hs hfirst le_rfl has hw h

/-- What is printed as it is: a leaf, or a comment that is not indented anew. -/
def IsWord (ls : List String) (cs : Multiset Comment) (s : String) : Prop :=
  s ∈ ls ∨ ∃ c ∈ cs, c.isReindented = false ∧ c.text = s

/-- Every word of a stitched script stands in what is printed for it. -/
theorem stands_of_stitched {ls : List String} {cs : Multiset Remark} {q : List Cue}
    (h : Stitched ls cs q) {s : String}
    (hs : IsWord ls (cs.map Remark.comment) s) : Stands s cs (settle [] q) := by
  rcases hs with hs | ⟨c, hc, hplain, rfl⟩
  · obtain ⟨r, w, as, gs, q', hr, hw, hle, hspells⟩ := h.exists_leaf .nil hs
    rw [hr]
    exact (stands_of_spells hspells hw q').append (by simpa using hle) r
  · obtain ⟨a, ha, rfl⟩ := Multiset.mem_map.mp hc
    obtain ⟨r, w, as, ls', cs', c, q', hr, hw, hq', hle, hplace⟩ := h.exists_comment .nil ha
    have has : (as : Multiset Remark) ≤ cs := by
      refine (Multiset.le_add_right _ _).trans (hle.trans (le_of_eq ?_))
      simp
    rw [hr]
    rcases hplace with ⟨gs, rfl, hgs, -⟩ | ⟨gs, rfl, hgs⟩
    · exact (stands_of_spells (spells_of_scripts hplain hgs) hw q').append has r
    · obtain ⟨front, hs, rfl, hscript⟩ := hgs.exists_scripts
      obtain ⟨before, more, bs, after, hflush, -⟩ := hq'.flushes (w ++ (front ++ hs))
      have hspells := spells_of_scripts hplain hscript
      refine .whole (r ++ (before ++ (w ++ front))) (more ++ after) hspells ?_
      rw [List.singleton_append, settle, hflush]
      simp

/-! ## Words in the output -/

/-- The characters of comments are seen in what is woven from them. -/
theorem Woven.exists_comments {ls : List String} {cs : Multiset Remark} {gs : List Glyph}
    (h : Woven ls cs gs) (hls : ls = []) :
    ∃ as : List Remark, (as : Multiset Remark) = cs ∧
      visible (readOff gs) = as.flatMap fun a => Text.visible a.comment.text := by
  induction h with
  | done => exact ⟨[], rfl, rfl⟩
  | gap _ ih | stop _ ih =>
    obtain ⟨as, has, hseen⟩ := ih hls
    exact ⟨as, has, by rw [readOff_cons, Glyph.reading, visible_none, hseen]⟩
  | blank _ ih =>
    obtain ⟨as, has, hseen⟩ := ih hls
    exact ⟨as, has, by rw [readOff_cons, Glyph.reading, visible_blank, hseen]⟩
  | leaf s _ _ _ => cases hls
  | comment a ha _ ih =>
    obtain ⟨as, rfl, hseen⟩ := ih hls
    refine ⟨a :: as, rfl, ?_⟩
    rw [readOff_append, visible_append, visible_of_scripts ha, hseen, List.flatMap_cons]

/-- Without the blanks at its end, a line closes the output, or it was blank and what
comes before it without the blanks there does. -/
theorem exists_closed (line out : List Char) :
    ∃ gap out', line.reverse ++ out =
        gap ++ ((Text.dropEndWhile Text.isBlank line).reverse ++ out') ∧
      Text.seen gap = [] ∧ Closed ((Text.dropEndWhile Text.isBlank line).reverse ++ out') := by
  have hdropped : ∃ out', (line.reverse ++ out).dropWhile Text.isBlank =
      (Text.dropEndWhile Text.isBlank line).reverse ++ out' := by
    rw [Text.dropEndWhile, List.reverse_reverse, List.dropWhile_append]
    split
    · rename_i hempty
      rw [List.isEmpty_iff.mp hempty]
      exact ⟨_, rfl⟩
    · exact ⟨out, rfl⟩
  obtain ⟨out', hout'⟩ := hdropped
  refine ⟨(line.reverse ++ out).takeWhile Text.isBlank, out', ?_, ?_, ?_⟩
  · rw [← hout', List.takeWhile_append_dropWhile]
  · exact Text.seen_eq_nil fun c hc => List.mem_takeWhile_imp hc
  · rw [← hout']
    refine closed_of_visible fun c hc => ?_
    have hhead := List.head?_dropWhile_not Text.isBlank (line.reverse ++ out)
    rw [Option.mem_def.mp hc] at hhead
    exact hhead

/-- The last character of a text closes the output behind the first of its lines. -/
theorem closed_of_rest {s : String} (hs : Text.EndsVisibly s) {first rest : List Char}
    (hsplit : s.toList = first ++ '\n' :: rest) (out : List Char) :
    Closed (rest.reverse ++ out) := by
  obtain ⟨cs, c, hlast, hc⟩ := hs
  have hends : cs ++ [c] = first ++ '\n' :: rest := hlast.symm.trans hsplit
  rcases List.eq_nil_or_concat rest with rfl | ⟨rest, e, rfl⟩
  · obtain ⟨-, hfeed⟩ := List.append_inj' hends rfl
    obtain rfl : c = '\n' := by simpa using hfeed
    exact absurd hc (by decide)
  · have hconcat : cs ++ [c] = (first ++ '\n' :: rest) ++ [e] := by simpa using hends
    obtain ⟨-, he⟩ := List.append_inj' hconcat rfl
    obtain rfl : c = e := by simpa using he
    refine closed_of_visible fun x hx => ?_
    obtain rfl : c = x := by simpa using hx
    exact hc

/-- A word that stands among glyphs and ends visibly is found in what is printed for
them. -/
theorem kept_of_stands {s : String} {cs : Multiset Remark} {comments : List Comment}
    {gs : List Glyph} {out : List Char} (hs : Text.EndsVisibly s) (h : Stands s cs gs)
    (hcs : cs.map Remark.comment = comments) (he : Emits [] gs out) :
    Kept s comments out.reverse := by
  cases h with
  | whole _ _ hspells h =>
    rw [h] at he
    obtain ⟨before, -, hword⟩ := he.exists_between
    obtain ⟨more, rfl, -⟩ :=
      exists_behind [] (closed_of_endsVisibly hs before) (hword.of_inked hspells.readOff)
    exact .whole ⟨before.reverse, more.reverse, by simp⟩
  | @parted first rest _ _ _ after hsplit hfirst hwaiting hne hinside h =>
    rw [h] at he
    obtain ⟨before, -, hword⟩ := he.exists_between
    have hline := hword.of_chars (readOff_map_of_forall (fun _ => rfl) first)
    obtain ⟨between, hcomments, hrest⟩ := hline.exists_between
    obtain ⟨gap, before', hgap, hblank, hclosed⟩ := exists_closed first before
    rw [hgap] at hcomments
    obtain ⟨more, rfl, hseen⟩ := exists_behind gap hclosed hcomments
    have hlast : Emits (('\n' :: rest).reverse ++ _) after out :=
      Emits.of_chars (readOff_map_of_forall Glyph.reading_ofChar ('\n' :: rest)) hrest
    rw [List.reverse_cons, List.append_assoc] at hlast
    obtain ⟨last, rfl, -⟩ := exists_behind [] (closed_of_rest hs hsplit _) hlast
    obtain ⟨as, has, hvisible⟩ := hinside.woven.exists_comments rfl
    have hne' : as.map Remark.comment ≠ [] := by
      intro hnil
      rw [List.map_eq_nil_iff.mp hnil] at has
      exact hne (Multiset.coe_eq_zero _ |>.mp has.symm)
    have hshown : Text.seen more.reverse =
        (as.map Remark.comment).flatMap fun c => Text.visible c.text := by
      rw [Text.seen_reverse, hseen, hblank, List.append_nil, List.reverse_reverse, hvisible,
        List.flatMap_map]
    have hsub : (as.map Remark.comment).Subperm comments := by
      rw [← Multiset.coe_le, ← hcs, ← Multiset.map_coe, has]
      exact Multiset.map_le_map hwaiting
    refine .parted hsplit hfirst hsub hne' hshown ?_
    exact ⟨before'.reverse, last.reverse, by simp⟩

end Layout

namespace Formatter

open Layout Doc

/-- Every leaf, and every comment that is not indented anew, is printed as it is, for
every width and however the comments lie, but for comments that wait for the end of its
first line: these come in there. -/
theorem kept_render_layOut (options : Options) {p : Parsed} (h : p.WellShaped) :
    ∃ d out, layOut options p = .ok d ∧ renderDoc options d = .ok out ∧
      ∀ s, IsWord p.leafTexts p.comments s → Text.EndsVisibly s →
        Kept s p.comments out.toList := by
  obtain ⟨as, cs, d, -, hlayOut, hremarked, hweaves⟩ := exists_layOut options h
  obtain ⟨out, q, hrender, hq, he⟩ := exists_settled options hweaves.sound hweaves.shallow
  have hall := hremarked.map_comment
  refine ⟨d, out, hlayOut, ?_, fun s hs hvisible => ?_⟩
  · rw [renderDoc, hrender]
  · rw [← hall] at hs
    have hkept := kept_of_stands hvisible (stands_of_stitched (hweaves.stitched q hq) hs) hall he
    rwa [List.reverse_reverse] at hkept

/-- A declarator with a text block, and a comment in front of the block. -/
def remarkedBlock : Parsed :=
  let source := Source.ofText "s = // c\n\"\"\"\na\n\"\"\""
  let declarator := .branch ⟨3, .variableDeclarator, none, source.span 0 18⟩ [
    .leaf ⟨0, .identifier, none, source.span 0 1⟩ "s",
    .leaf ⟨1, .token, none, source.span 2 3⟩ "=",
    .leaf ⟨2, .stringLiteral, none, source.span 9 18⟩ "\"\"\"\na\n\"\"\""]
  ⟨declarator, [declarator], none, [⟨"// c", true, source.span 4 8⟩], source⟩

/-- The lines of the text block are printed, with nothing between them but the comment. -/
theorem kept_render_layOut_remarkedBlock :
    remarkedBlock.WellShaped ∧ ∃ d out, layOut {} remarkedBlock = .ok d ∧
      renderDoc {} d = .ok out ∧
      Kept "\"\"\"\na\n\"\"\"" remarkedBlock.comments out.toList := by
  have hshape : remarkedBlock.WellShaped := by
    refine ⟨List.cons_ne_nil _ _, List.forall_mem_singleton.mpr ?_, ?_⟩
    · refine Tree.wellShaped_branch_iff.mpr ⟨⟨by simp, rfl, ?_⟩, ?_⟩
      · exact ⟨[_], [_, _], rfl, List.forall_mem_singleton.mpr rfl, .inr ⟨_, _, rfl, rfl⟩⟩
      · have hname : NodeKind.identifier.isVerbatim = true := rfl
        have hblock : NodeKind.stringLiteral.isVerbatim = true := rfl
        simp [Tree.Regular, hname, hblock]
    · simp [remarkedBlock, Tree.nodesOfAll, Tree.nodes, Tree.index, Tree.info]
  have hvisible : Text.EndsVisibly "\"\"\"\na\n\"\"\"" :=
    ⟨"\"\"\"\na\n\"\"".toList, '"', by decide, by decide⟩
  obtain ⟨d, out, hlayOut, hrender, hkept⟩ := kept_render_layOut {} hshape
  refine ⟨hshape, d, out, hlayOut, hrender, hkept _ (.inl ?_) hvisible⟩
  simp [remarkedBlock, Parsed.leafTexts]

end Formatter

end JavaFormat
