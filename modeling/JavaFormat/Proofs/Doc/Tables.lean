import JavaFormat.Proofs.Doc.Filling
import JavaFormat.Proofs.Doc.Renoted
import JavaFormat.Proofs.Doc.Trimming

/-!
# Filled tables

A filled table is a fill between braces, with a place to break inside of each brace and
perhaps a separator behind the fill. When the braces are broken, what waits is printed behind
the opening brace, and the lines between the braces are those of greedy line filling. An item
is put on a line only if it ends within the width there, so no line is too long as long as
every item has room on a line of its own. But the separator behind the fill is not measured
with the last item: that one line may be one character too long.
-/

namespace JavaFormat.Doc

open Text (isPadding dropEndWhile)

/-! ## What is on top comes first -/

section Above

variable {options : Options} {s s' t : State} {c : Command} {above below rest : List Command}

/-- A move leaves alone what is below the command on top. -/
theorem Move.exists_above (h : Move options s s') (hs : s.stack = c :: above ++ below) :
    ∃ above', s'.stack = above' ++ below := by
  have hrest : ∀ {c' rest}, s.stack = c' :: rest → rest = above ++ below := fun h =>
    (List.cons_eq_cons.mp (h.symm.trans hs)).2
  cases h with
  | @expand c' cs rest hstack hc again =>
    exact ⟨cs ++ above, by rw [hrest hstack, List.append_assoc]⟩
  | text hstack | defer hstack | glue hstack | blank hstack => exact ⟨above, hrest hstack⟩
  | newline hstack =>
    rw [State.breakLine_stack]
    exact ⟨above, hrest hstack⟩
  | flush hstack =>
    refine ⟨s.suffixes ++ c :: above, ?_⟩
    rw [List.append_assoc, ← hs]
  | last hstack =>
    rw [hs] at hstack
    cases hstack

/-- No step adds weight. -/
theorem State.Steps.weight_le (h : State.Steps options s t) : t.weight ≤ s.weight := by
  induction h with
  | refl => exact Nat.le_refl _
  | tail _ hstep ih => exact Nat.le_trans (Nat.le_of_lt (move_of_step hstep).weight_lt) ih

/-- What stands on top of the stack is worked off, with all that it puts there, before what is
below. -/
theorem exists_steps_below {p : Prop} (options : Options) (hsound : s.Sound p)
    (hs : s.stack = above ++ below) : ∃ t, State.Steps options s t ∧ t.stack = below := by
  induction hw : s.weight using Nat.strongRecOn generalizing s above with
  | ind n ih =>
    subst hw
    cases above with
    | nil => exact ⟨s, .refl, hs⟩
    | cons c above =>
      rcases hsound.step options with ⟨hnil, -⟩ | ⟨s', hstep⟩
      · rw [hs] at hnil
        cases hnil
      · have hmove := move_of_step hstep
        obtain ⟨above', hs'⟩ := hmove.exists_above hs
        obtain ⟨t, hsteps, ht⟩ := ih _ hmove.weight_lt (hmove.sound hsound) hs' rfl
        exact ⟨t, .head hstep hsteps, ht⟩

/-- In front of a break that is taken all suffixes are printed, those that they put off
themselves included. -/
theorem exists_steps_flushed {p : Prop} (options : Options) {l : Nat} {style : LineStyle}
    (hsound : s.Sound p) (hs : s.stack = ⟨l, .broken, .line style⟩ :: rest) :
    ∃ t, State.Steps options s t ∧ t.stack = s.stack ∧ t.suffixes = [] ∧
      (s.suffixes = [] → t = s) := by
  induction hw : s.weight using Nat.strongRecOn generalizing s with
  | ind n ih =>
    subst hw
    by_cases hwaiting : s.suffixes = []
    · exact ⟨s, .refl, rfl, hwaiting, fun _ => rfl⟩
    · have hstep : s.step options =
          .next { s with stack := s.suffixes ++ s.stack, suffixes := [] } := by
        obtain ⟨c, cs, hcs⟩ := List.exists_cons_of_ne_nil hwaiting
        rw [State.step, hs]
        simp [State.execute, State.takeBreak, hcs]
      have hmove := move_of_step hstep
      obtain ⟨u, hsteps, hu⟩ := exists_steps_below options (hmove.sound hsound) rfl
      have hlt := hmove.weight_lt
      have hle := State.Steps.weight_le hsteps
      obtain ⟨t, hsteps', ht, hsuffixes, -⟩ :=
        ih _ (by omega) ((hmove.sound hsound).steps hsteps) (hu.trans hs) rfl
      exact ⟨t, .head hstep (hsteps.trans hsteps'), ht.trans hu, hsuffixes,
        fun h => absurd h hwaiting⟩

end Above

/-! ## What is left by marking -/

mutual

/-- A document that breaks no group around it has no group to be marked. -/
theorem markBreaks_of_not_breaks : ∀ {d : Doc}, d.breaks = false → d.markBreaks = d
  | .text _, _ | .line _, _ | .suffix _, _ => rfl
  | .concat _, h => congrArg Doc.concat (markBreaksAll_of_not_breaksAny h)
  | .group marked contents, h => by
    obtain ⟨rfl, hcontents⟩ := Bool.or_eq_false_iff.mp h
    rw [markBreaks, markBreaks_of_not_breaks hcontents, hcontents]
    rfl
  | .choice _, h => congrArg Doc.choice (markBreaksAll_of_not_breaksAny h)
  | .indent contents, h => congrArg Doc.indent (markBreaks_of_not_breaks (d := contents) h)
  | .fill _, h => congrArg Doc.fill (markBreaksAll_of_not_breaksAny h)

/-- Without forced breaks nothing is marked in a list. -/
theorem markBreaksAll_of_not_breaksAny : ∀ {ds : List Doc}, breaksAny ds = false →
    markBreaksAll ds = ds
  | [], _ => rfl
  | d :: ds, h => by
    obtain ⟨hd, hds⟩ := Bool.or_eq_false_iff.mp h
    rw [markBreaksAll, markBreaks_of_not_breaks hd, markBreaksAll_of_not_breaksAny hds]

end

/-- Documents without forced breaks have none with a separator between them that has none. -/
theorem breaksAny_interleave {separator : Doc} (hseparator : separator.breaks = false) :
    ∀ {ds : List Doc}, breaksAny ds = false → breaksAny (interleave separator ds) = false
  | [], _ => rfl
  | [_], h => h
  | d :: e :: es, h => by
    obtain ⟨hd, hes⟩ := Bool.or_eq_false_iff.mp h
    simp [interleave, breaksAny, hd, hseparator, breaksAny_interleave hseparator hes]

/-! ## A table -/

/-- What is between braces on broken lines: a fill of items with, perhaps, a separator behind
it. -/
def bracedFill (closed : Bool) (items : List Doc) : Doc :=
  .concat [.text "\x7b", .indent (.concat (space :: .fill (interleave space items) ::
    if closed then [.text ","] else [])), space, .text "\x7d"]

/-- A table whose items break nothing is left as it is by marking. -/
theorem markBreaks_bracedFill (closed : Bool) {items : List Doc} (h : breaksAny items = false) :
    (group false (bracedFill closed items)).markBreaks = .group false (bracedFill closed items) := by
  refine markBreaks_of_not_breaks ?_
  have hspace : space.breaks = false := rfl
  cases closed <;> simp [bracedFill, breaks, breaksAny, hspace, breaksAny_interleave hspace h]

/-- The lines of a table between its braces: greedy line filling, with the separator behind it
if there is one. -/
def tableText (options : Options) (level : Nat) (closed : Bool) (words : List String) : String :=
  let margin := (level + 1) * options.tabWidth
  greedyFill options.printWidth margin (String.ofList (List.replicate margin ' ')) words ++
    if closed then "," else ""

section Table

variable {options : Options} {l column : Nat} {rest : List Command} {printed : List Char}
  {remeasure closed : Bool}

/-- A place to break in broken mode begins a line when nothing waits. -/
theorem step_space : State.step options
    ⟨⟨l, .broken, space⟩ :: rest, [], printed, column, remeasure⟩ =
      .next ⟨rest, [], List.replicate (l * options.tabWidth) ' ' ++
        '\n' :: printed.dropWhile isPadding, l * options.tabWidth, remeasure⟩ := rfl

/-- A fill begins a line of its own. -/
theorem exists_steps_filled {d : Doc} {ds : List Doc} {w : String} {ws : List String}
    (hw : WrittenAs d w) (hws : List.Forall₂ WrittenAs ds ws)
    (hends : ∀ v ∈ (w :: ws).dropLast, EndsUnpadded v) : ∃ column',
    State.Steps options
      ⟨⟨l, .broken, space⟩ :: ⟨l, .broken, .fill (interleave space (d :: ds))⟩ :: rest, [],
        printed, column, remeasure⟩
      ⟨rest, [], (greedyFill options.printWidth (l * options.tabWidth)
        (String.ofList (List.replicate (l * options.tabWidth) ' ')) (w :: ws)).toList.reverse ++
          '\n' :: printed.dropWhile isPadding, column', remeasure⟩ := by
  obtain ⟨column', hfill⟩ := exists_steps_fill l .broken remeasure rest hws hw hends
    (List.replicate (l * options.tabWidth) ' ' ++ '\n' :: printed.dropWhile isPadding)
    (l * options.tabWidth)
  exact ⟨column', .head step_space (by simpa [greedyFill] using hfill)⟩

/-- The separator behind a fill, the break in front of the closing brace, and the brace. -/
theorem exists_steps_closed (body : List Char) (before : List Char) : ∃ column',
    State.Steps options
      ⟨(if closed then [.text ","] else []).map (⟨l + 1, .broken, ·⟩) ++
        ⟨l, .broken, space⟩ :: ⟨l, .broken, .text "\x7d"⟩ :: rest, [],
        body.reverse ++ '\n' :: before, column, remeasure⟩
      ⟨rest, [], '\x7d' :: (List.replicate (l * options.tabWidth) ' ' ++ '\n' ::
        ((dropEndWhile isPadding (body ++ (if closed then "," else "").toList)).reverse ++
          '\n' :: before)), column', remeasure⟩ := by
  refine ⟨l * options.tabWidth + 1, ?_⟩
  have hend : ∀ (body : List Char) (column : Nat), State.Steps options
      ⟨⟨l, .broken, space⟩ :: ⟨l, .broken, .text "\x7d"⟩ :: rest, [],
        body.reverse ++ '\n' :: before, column, remeasure⟩
      ⟨rest, [], '\x7d' :: (List.replicate (l * options.tabWidth) ' ' ++ '\n' ::
        ((dropEndWhile isPadding body).reverse ++ '\n' :: before)), l * options.tabWidth + 1,
        remeasure⟩ := by
    intro body column
    refine .head step_space (.single ?_)
    rw [dropWhile_isPadding_append (by decide), dropEndWhile, List.reverse_reverse]
    rfl
  cases closed with
  | false => simpa using hend body column
  | true =>
    refine .head rfl ?_
    simpa [State.print] using hend (body ++ [',']) (column + ",".length)

/-- A table in broken mode is printed on lines of its own, behind what waits. -/
theorem exists_steps_table (options : Options) {p : Prop} {s : State} (hsound : s.Sound p)
    {d : Doc} {ds : List Doc} {w : String} {ws : List String}
    (hs : s.stack = ⟨l, .broken, bracedFill closed (d :: ds)⟩ :: rest)
    (hw : WrittenAs d w) (hws : List.Forall₂ WrittenAs ds ws)
    (hends : ∀ v ∈ (w :: ws).dropLast, EndsUnpadded v) :
    ∃ t waited, State.Steps options s t ∧ t.stack = rest ∧ (s.suffixes = [] → waited = []) ∧
      t.printed = '\x7d' :: (List.replicate (l * options.tabWidth) ' ' ++ '\n' ::
        ((dropEndWhile isPadding (tableText options l closed (w :: ws)).toList).reverse ++
          '\n' :: (waited ++ '\x7b' :: s.printed))) := by
  obtain ⟨stack, suffixes, printed, column, remeasure⟩ := s
  obtain rfl : stack = ⟨l, .broken, bracedFill closed (d :: ds)⟩ :: rest := hs
  have hopen : State.Steps options
      ⟨⟨l, .broken, bracedFill closed (d :: ds)⟩ :: rest, suffixes, printed, column, remeasure⟩
      ⟨⟨l + 1, .broken, space⟩ :: ⟨l + 1, .broken, .fill (interleave space (d :: ds))⟩ ::
        ((if closed then [.text ","] else []).map (⟨l + 1, .broken, ·⟩) ++
          ⟨l, .broken, space⟩ :: ⟨l, .broken, .text "\x7d"⟩ :: rest), suffixes,
        '\x7b' :: printed, column + "\x7b".length, remeasure⟩ :=
    .head rfl (.head rfl (.head rfl (.single rfl)))
  obtain ⟨u, hflushed, hu, hsuffixes, hnone⟩ :=
    exists_steps_flushed options (hsound.steps hopen) rfl
  obtain ⟨stack, _, printed', column', remeasure'⟩ := u
  obtain rfl : stack = _ := hu
  obtain rfl : _ = [] := hsuffixes
  obtain ⟨waited, rfl⟩ : ∃ waited, printed' = waited ++ '\x7b' :: printed :=
    hflushed.exists_later (by decide) (List.nil_append ('\x7b' :: printed)).symm
  obtain ⟨column'', hfill⟩ := @exists_steps_filled options (l + 1) column'
    ((if closed then [.text ","] else []).map (⟨l + 1, .broken, ·⟩) ++
      ⟨l, .broken, space⟩ :: ⟨l, .broken, .text "\x7d"⟩ :: rest)
    (waited ++ '\x7b' :: printed) remeasure' _ _ _ _ hw hws hends
  rw [dropWhile_isPadding_append (by decide)] at hfill
  obtain ⟨_, hclose⟩ := @exists_steps_closed options l column'' rest remeasure' closed _ _
  refine ⟨_, waited.dropWhile isPadding, hopen.trans (hflushed.trans (hfill.trans hclose)), rfl,
    fun hnothing => ?_, ?_⟩
  · have hprinted : waited ++ '\x7b' :: printed = [] ++ '\x7b' :: printed :=
      congrArg State.printed (hnone hnothing)
    rw [List.append_cancel_right hprinted]
    rfl
  · rw [tableText, String.toList_append]

end Table

/-- What has been printed up to a character that is no blank of a line is how the output
begins. -/
theorem exists_render_of_steps {p : Prop} (options : Options) {e : Doc} (he : e.Sound p)
    {t : State} (ht : State.Steps options (.initial e.markBreaks) t) {c : Char}
    {before : List Char} (hprinted : t.printed = c :: before) (hc : isPadding c = false) :
    ∃ after, render? options e = some (String.ofList (before.reverse ++ c :: after)) := by
  have hsound : (State.initial e.markBreaks).Sound p := ⟨⟨sound_markBreaks he, trivial⟩, trivial⟩
  obtain ⟨u, hrun, -, hstack, hsuffixes⟩ := exists_run options (hsound.steps ht) (Nat.le_refl _)
  have hrest := steps_of_run _ hrun
  obtain ⟨later, hlater⟩ : ∃ later, u.printed = later ++ c :: before :=
    hrest.exists_later hc (hprinted.trans (List.nil_append _).symm)
  refine ⟨later.reverse, ?_⟩
  have hall := State.Steps.run (ht.trans hrest) hstack hsuffixes (Nat.le_refl _)
  rw [render?, hall, Option.map_some, hlater]
  simp

/-! ## How long the lines are -/

section Lines

variable {width indentation : Nat}

/-- The first of two texts with a line feed between them has the first lines. -/
theorem splitOn_append_cons (before after : List Char) :
    (before ++ '\n' :: after).splitOn '\n' = before.splitOn '\n' ++ after.splitOn '\n' :=
  List.splitOnP_append_cons before after (by decide)

/-- More characters behind a text make its last line longer. -/
theorem exists_splitOn_append {added : List Char} (hadded : '\n' ∉ added) (cs : List Char) :
    ∃ init last, cs.splitOn '\n' = init ++ [last] ∧
      (cs ++ added).splitOn '\n' = init ++ [last ++ added] := by
  induction cs with
  | nil => exact ⟨[], [], rfl, List.splitOn_eq_singleton hadded⟩
  | cons c cs ih =>
    obtain ⟨init, last, hcs, happended⟩ := ih
    rw [List.cons_append, List.splitOn_cons_eq_if_modifyHead, List.splitOn_cons_eq_if_modifyHead,
      hcs, happended]
    split
    · exact ⟨[] :: init, last, rfl, rfl⟩
    · cases init with
      | nil => exact ⟨[], c :: last, rfl, rfl⟩
      | cons line init => exact ⟨(c :: line) :: init, last, rfl, rfl⟩

/-- An indented word is as long as its indentation and the word. -/
theorem length_indented (n : Nat) (w : String) :
    (List.replicate n ' ' ++ w.toList).length = n + w.length := by
  rw [List.length_append, List.length_replicate, String.length_toList]

/-- Greedy line filling behind a line that is not too long makes no line too long, if every
word has room on a line of its own. -/
theorem length_le_of_mem_greedyAfter {ws : List String}
    (hws : ∀ w ∈ ws, '\n' ∉ w.toList ∧ indentation + w.length ≤ width) {line : List Char}
    (hline : '\n' ∉ line) (hwidth : line.length ≤ width) :
    ∀ l ∈ (line ++ (greedyAfter width indentation line.length ws).toList).splitOn '\n',
      l.length ≤ width := by
  induction ws generalizing line with
  | nil => simp [greedyAfter, List.splitOn_eq_singleton hline, hwidth]
  | cons w ws ih =>
    obtain ⟨⟨hw, hroom⟩, hothers⟩ := List.forall_mem_cons.mp hws
    rw [greedyAfter]
    split
    · rename_i hfits
      have hlength : (line ++ ' ' :: w.toList).length = line.length + 1 + w.length := by
        rw [List.length_append, List.length_cons, String.length_toList]
        omega
      have hafter := ih hothers (by simp [hline, hw]) (hlength.trans_le hfits)
      rw [hlength] at hafter
      simpa using hafter
    · have hafter := ih hothers (by simp [hw]) ((length_indented indentation w).trans_le hroom)
      rw [length_indented] at hafter
      have hlines : line ++ ("\n" ++ String.ofList (List.replicate indentation ' ') ++ w ++
          greedyAfter width indentation (indentation + w.length) ws).toList =
          line ++ '\n' :: (List.replicate indentation ' ' ++ w.toList ++
            (greedyAfter width indentation (indentation + w.length) ws).toList) := by
        simp
      rw [hlines, splitOn_append_cons, List.splitOn_eq_singleton hline]
      exact List.forall_mem_append.mpr ⟨List.forall_mem_singleton.mpr hwidth, hafter⟩

/-- Dropping blanks at the end of a text makes its last line shorter. -/
theorem exists_splitOn_dropEndWhile (cs : List Char) : ∃ init last dropped,
    cs.splitOn '\n' = init ++ [last ++ dropped] ∧
      (dropEndWhile isPadding cs).splitOn '\n' = init ++ [last] := by
  have hsplit : dropEndWhile isPadding cs ++ cs.rtakeWhile isPadding = cs :=
    List.rdropWhile_append_rtakeWhile
  have hdropped : '\n' ∉ cs.rtakeWhile isPadding := fun h =>
    Bool.false_ne_true (List.mem_rtakeWhile_imp h)
  obtain ⟨init, last, hkept, hall⟩ := exists_splitOn_append hdropped (dropEndWhile isPadding cs)
  rw [hsplit] at hall
  exact ⟨init, last, _, hall, hkept⟩

/-- A table begins with its first word, indented. -/
theorem toList_tableText (options : Options) (l : Nat) (closed : Bool) (w : String)
    (ws : List String) :
    (tableText options l closed (w :: ws)).toList =
      List.replicate ((l + 1) * options.tabWidth) ' ' ++ w.toList ++
        (greedyAfter options.printWidth ((l + 1) * options.tabWidth)
          ((l + 1) * options.tabWidth + w.length) ws).toList ++
        (if closed then "," else "").toList := by
  simp [tableText, greedyFill]

/-- No line of a table is too long, but for the last one if a separator stands behind it: that
one may be one character too long. -/
theorem length_lines_tableText {options : Options} {l : Nat} {w : String} {ws : List String}
    (closed : Bool) (hws : ∀ v ∈ w :: ws, '\n' ∉ v.toList ∧
      (l + 1) * options.tabWidth + v.length ≤ options.printWidth) :
    ∃ init last, Text.lines (String.ofList
        (dropEndWhile isPadding (tableText options l closed (w :: ws)).toList)) = init ++ [last] ∧
      (∀ line ∈ init, line.length ≤ options.printWidth) ∧
      last.length ≤ options.printWidth + closed.toNat := by
  obtain ⟨⟨hw, hroom⟩, hothers⟩ := List.forall_mem_cons.mp hws
  have hbody := length_le_of_mem_greedyAfter hothers (by simp [hw])
    ((length_indented _ w).trans_le hroom)
  rw [length_indented] at hbody
  have hseparator : '\n' ∉ (if closed then "," else "").toList := by cases closed <;> decide
  have hone : (if closed then "," else "").toList.length = closed.toNat := by
    cases closed <;> rfl
  obtain ⟨init, last, hlines, hclosed⟩ := exists_splitOn_append hseparator
    (List.replicate ((l + 1) * options.tabWidth) ' ' ++ w.toList ++
      (greedyAfter options.printWidth ((l + 1) * options.tabWidth)
        ((l + 1) * options.tabWidth + w.length) ws).toList)
  rw [hlines] at hbody
  obtain ⟨hinit, hlast⟩ := List.forall_mem_append.mp hbody
  obtain ⟨init', last', dropped, hall, hkept⟩ :=
    exists_splitOn_dropEndWhile (tableText options l closed (w :: ws)).toList
  rw [toList_tableText, hclosed] at hall
  obtain ⟨rfl, hends⟩ := List.append_inj' hall rfl
  have hshorter : last'.length ≤ last.length + closed.toNat := by
    have := congrArg List.length (List.singleton_inj.mp hends)
    rw [List.length_append, List.length_append, hone] at this
    omega
  have hwidth := List.forall_mem_singleton.mp hlast
  refine ⟨init.map String.ofList, String.ofList last', ?_, ?_, ?_⟩
  · rw [Text.lines, String.toList_ofList, hkept, List.map_append, List.map_singleton]
  · exact List.forall_mem_map.mpr fun line hline => by simpa using hinit line hline
  · rw [String.length_ofList]
    omega

end Lines

end JavaFormat.Doc
