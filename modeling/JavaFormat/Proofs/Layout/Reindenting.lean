import JavaFormat.Proofs.Doc.Spelling
import JavaFormat.Proofs.Layout.Firm
import JavaFormat.Proofs.Text.Strip
import JavaFormat.Retention

/-!
# Comments indented anew

A block comment whose lines begin with asterisks is printed with other blanks in front of
them. Three notions of a blank meet here: the comment is stripped of white space of every kind,
the renderer takes spaces and tabs from the ends of lines, and comments are compared by their
lines without white space of every kind. What is printed is a comment that is printed the same,
and the same for the comparison, because stripping a line again takes nothing away
(`trim_trim`), and because a line that was stripped begins or ends with something that no
notion takes for a blank.
-/

namespace JavaFormat

open Doc

namespace Text

/-- Lines that all end visibly make a text that does. -/
theorem endsVisibly_unlines {ls : List String} (hne : ls ≠ []) (h : ∀ l ∈ ls, EndsVisibly l) :
    EndsVisibly (unlines ls) := by
  induction ls with
  | nil => exact absurd rfl hne
  | cons l ls ih =>
    obtain ⟨hl, hls⟩ := List.forall_mem_cons.mp h
    cases ls with
    | nil => simpa [unlines, List.intercalate] using hl
    | cons m ms =>
      obtain ⟨cs, c, hcs, hc⟩ := ih (by simp) hls
      refine ⟨l.toList ++ '\n' :: cs, c, ?_, hc⟩
      rw [unlines, String.toList_ofList] at hcs ⊢
      simpa [List.intercalate] using hcs

/-- So many blanks. -/
def indentation (width : Nat) : String := String.ofList (List.replicate width ' ')

/-- Indentation is blank. -/
theorem isBlank_of_mem_indentation {width : Nat} :
    ∀ c ∈ (indentation width).toList, isBlank c = true := by
  intro c hc
  rw [indentation, String.toList_ofList] at hc
  rw [List.eq_of_mem_replicate hc]
  rfl

end Text

/-! ## What is printed for a comment -/

/-- A text in front of the first part is in front of what is put together. -/
theorem intercalate_append_cons {α : Type} (separator x a : List α) (ls : List (List α)) :
    separator.intercalate ((x ++ a) :: ls) = x ++ separator.intercalate (a :: ls) := by
  cases ls <;> simp [List.intercalate]

/-- What stands behind every separator can be taken to stand in front of every further list. -/
theorem intercalate_append {α : Type} (separator x first : List α) (rest : List (List α)) :
    (separator ++ x).intercalate (first :: rest) =
      separator.intercalate (first :: rest.map (x ++ ·)) := by
  induction rest generalizing first with
  | nil => simp [List.intercalate]
  | cons a ls ih =>
    have hrest := ih (x ++ a)
    rw [intercalate_append_cons] at hrest
    simp only [List.intercalate, List.map_cons, List.intersperse_cons_cons, List.flatten_cons,
      List.append_assoc] at hrest ⊢
    rw [hrest]

/-- Blanks behind each line break stand in front of the lines. -/
theorem intercalate_indentation (width : Nat) (first : String) (rest : List String) :
    ('\n' :: List.replicate width ' ').intercalate ((first :: rest).map String.toList) =
      (Text.unlines (first :: rest.map (Text.indentation width ++ ·))).toList := by
  have hmap : (rest.map (Text.indentation width ++ ·)).map String.toList =
      (rest.map String.toList).map (List.replicate width ' ' ++ ·) := by
    simp [Text.indentation]
  rw [Text.unlines, String.toList_ofList, List.map_cons, List.map_cons, hmap,
    ← intercalate_append]
  rfl

/-- A line of a starred comment that is printed behind blanks is printed the same again. -/
theorem starredLine_indented (width : Nat) (line : String) :
    starredLine (Text.indentation width ++ starredLine line) = starredLine line := by
  rw [starredLine, starredLine, Text.trim_eq, Text.trimStart_append Text.isBlank_of_mem_indentation,
    Text.trimStart_space, ← Text.trim_eq, Text.trim_trim]

/-- It begins with an asterisk again. -/
theorem isStarred_indented (width : Nat) {rest : List String} (h : isStarred rest = true) :
    isStarred (rest.map fun line => Text.indentation width ++ starredLine line) = true := by
  rw [isStarred, List.all_eq_true] at h ⊢
  intro line hline
  obtain ⟨l, hl, rfl⟩ := List.mem_map.mp hline
  have hstar : (Text.trimStart l).toList.head? = some '*' := by simpa using h l hl
  rw [Text.trimStart_append Text.isBlank_of_mem_indentation, starredLine,
    Text.trimStart_space, Text.trimStart_trim,
    Text.head?_trim hstar (by decide)]
  rfl

/-- A line break behind a text that ends visibly. -/
theorem spell_hardline {width : Nat} {s : String} (hs : Text.EndsVisibly s)
    (printed : List Char) : spell width (s.toList.reverse ++ printed) hardline =
      List.replicate width ' ' ++ '\n' :: (s.toList.reverse ++ printed) := by
  obtain ⟨cs, c, hlast, hc⟩ := hs
  have hpadding : Text.isPadding c = false := by
    cases hpadding : Text.isPadding c with
    | false => rfl
    | true => exact absurd (Text.isBlank_of_isPadding hpadding) (by simp [hc])
  have hbreak : spell width (s.toList.reverse ++ printed) hardline = List.replicate width ' ' ++
      '\n' :: (s.toList.reverse ++ printed).dropWhile Text.isPadding := rfl
  rw [hbreak, dropWhile_isPadding hlast hpadding]

/-- A rigid document between two line breaks, if what is printed for it ends visibly. -/
theorem render_between (options : Options) (k : Nat) {d : Doc} (hd : d.Rigid) {r : String}
    (hspell : ∀ printed, spell (k * options.tabWidth) printed d = r.toList.reverse ++ printed)
    (hr : Text.EndsVisibly r) :
    render? options (Doc.indent^[k] (cat [hardline, d, hardline])) =
      some ("\n" ++ Text.indentation (k * options.tabWidth) ++ r ++ "\n" ++
        Text.indentation (k * options.tabWidth)) := by
  have hrigid : (cat [hardline, d, hardline]).Rigid := rigid_cat (by simp [hardline, hd])
  have hfirst : spell (k * options.tabWidth) [] hardline =
      List.replicate (k * options.tabWidth) ' ' ++ ['\n'] := rfl
  rw [render_of_rigid options k hrigid, spell_cat, spellAll, spellAll, spellAll, spellAll, hspell,
    hfirst, spell_hardline hr]
  simp [Text.indentation, String.ext_iff]

/-- A text that is printed line by line is spelled as it is. -/
theorem spell_ofLines (width : Nat) (s : String) (printed : List Char) :
    spell width printed (ofLines s) = s.toList.reverse ++ printed := by
  unfold ofLines
  split
  · have hlines : ['\n'].intercalate ((Text.lines s).map String.toList) = s.toList := by
      have htext := congrArg String.toList (Text.unlines_lines s)
      rwa [Text.unlines, String.toList_ofList] at htext
    have hbreaks := @spellAll_interleave width literalline ['\n'] (Text.lines s)
      (fun _ _ _ => rfl) printed
    rw [if_pos rfl, join, spell_cat, hbreaks, hlines]
  · rfl

/-- A text of several lines is rigid. -/
theorem rigid_ofLines (s : String) : (ofLines s).Rigid := by
  unfold ofLines
  split
  · exact rigid_join (by simp [literalline]) _
  · trivial

/-- A starred comment is printed line by line, each line behind the first with its star. -/
theorem Comment.doc_of_isStarred {c : Comment} {first : String} {more : List String}
    (hblock : c.isLine = false) (hlines : Text.lines c.text = first :: more) (hmore : more ≠ [])
    (hstarred : isStarred more = true) :
    c.doc = join hardline ((Text.trimEnd first :: more.map starredLine).map .text) := by
  cases more with
  | nil => exact absurd rfl hmore
  | cons second rest =>
    rw [Comment.doc, if_neg (by simp [hblock]), hlines]
    exact if_pos hstarred

/-- A block comment has further lines that all begin with asterisks, or is printed line by
line. -/
theorem Comment.doc_cases {c : Comment} (hblock : c.isLine = false) :
    (∃ first more, Text.lines c.text = first :: more ∧ more ≠ [] ∧ isStarred more = true) ∨
      c.doc = ofLines c.text := by
  unfold Comment.doc
  rw [if_neg (by simp [hblock])]
  split
  · rename_i first second rest hlines
    split
    · rename_i hstarred
      exact .inl ⟨first, second :: rest, hlines, by simp, hstarred⟩
    · exact .inr rfl
  · rename_i hshort
    refine .inr ?_
    have hsingle : '\n' ∉ c.text.toList := by
      rw [← Text.unlines_lines c.text]
      cases hlines : Text.lines c.text with
      | nil => simp [Text.unlines, List.intercalate]
      | cons first rest =>
        cases rest with
        | nil =>
          have hfirst : '\n' ∉ first.toList :=
            Text.not_mem_of_mem_lines (hlines ▸ List.mem_cons_self)
          simpa [Text.unlines, List.intercalate] using hfirst
        | cons second rest => exact absurd hlines (hshort first second rest)
    simp [ofLines, Text.isMultiline, hsingle]

/-! ## Comments with asterisks -/

section Starred

variable {width : Nat} {first line : String} {more : List String}

/-- A text that ends visibly does so behind any other. -/
theorem Text.EndsVisibly.append {s : String} (h : Text.EndsVisibly s) (b : String) :
    Text.EndsVisibly (b ++ s) := by
  obtain ⟨cs, c, hcs, hc⟩ := h
  exact ⟨b.toList ++ cs, c, by simp [hcs], hc⟩

/-- A line with a star ends visibly. -/
theorem endsVisibly_starredLine (hstar : (Text.trimStart line).toList.head? = some '*') :
    Text.EndsVisibly (starredLine line) := by
  rw [Text.trimStart, String.toList_ofList] at hstar
  exact (Text.endsVisibly_dropEndWhile ⟨'*', List.mem_of_head? hstar, by decide⟩).append " "

/-- A line with a star is one line. -/
theorem feed_not_mem_starredLine (hline : '\n' ∉ line.toList) :
    '\n' ∉ (starredLine line).toList := by
  have htrim : '\n' ∉ (Text.trim line).toList := by
    rw [Text.trim, String.toList_ofList]
    exact Text.not_mem_dropEndWhile fun hmem => hline ((List.dropWhile_sublist _).mem hmem)
  simpa [starredLine] using htrim

/-- The text that is printed for a comment with asterisks. -/
def starredText (width : Nat) (first : String) (more : List String) : String :=
  Text.unlines (Text.trimEnd first ::
    more.map fun line => Text.indentation width ++ starredLine line)

/-- The lines of a starred text are its first one and the indented lines with stars. -/
theorem lines_starredText (hfeed : ∀ l ∈ first :: more, '\n' ∉ l.toList) :
    Text.lines (starredText width first more) = Text.trimEnd first ::
      more.map fun line => Text.indentation width ++ starredLine line := by
  obtain ⟨hfirst, hmore⟩ := List.forall_mem_cons.mp hfeed
  refine Text.lines_unlines (by simp) (List.forall_mem_cons.mpr ⟨?_, fun l hl => ?_⟩)
  · rw [Text.trimEnd, String.toList_ofList]
    exact Text.not_mem_dropEndWhile hfirst
  · obtain ⟨line, hline, rfl⟩ := List.mem_map.mp hl
    have hblank : '\n' ∉ (Text.indentation width).toList := by simp [Text.indentation]
    simpa [hblank] using feed_not_mem_starredLine (hmore line hline)

/-- A starred text ends visibly. -/
theorem endsVisibly_starredText (hfirst : Text.EndsVisibly (Text.trimEnd first))
    (hstarred : isStarred more = true) : Text.EndsVisibly (starredText width first more) := by
  refine Text.endsVisibly_unlines (by simp) (List.forall_mem_cons.mpr ⟨hfirst, fun l hl => ?_⟩)
  obtain ⟨line, hline, rfl⟩ := List.mem_map.mp hl
  have hstar := List.all_eq_true.mp hstarred line hline
  exact (endsVisibly_starredLine (by simpa using hstar)).append _

/-- The document of a comment with asterisks is spelled as its text. -/
theorem spell_starred (hfirst : Text.EndsVisibly (Text.trimEnd first))
    (hstarred : isStarred more = true) (printed : List Char) :
    spell width printed (join hardline ((Text.trimEnd first :: more.map starredLine).map .text)) =
      (starredText width first more).toList.reverse ++ printed := by
  have hends : ∀ l ∈ Text.trimEnd first :: more.map starredLine, Text.EndsVisibly l := by
    refine List.forall_mem_cons.mpr ⟨hfirst, fun l hl => ?_⟩
    obtain ⟨line, hline, rfl⟩ := List.mem_map.mp hl
    have hstar := List.all_eq_true.mp hstarred line hline
    exact endsVisibly_starredLine (by simpa using hstar)
  have hbreaks := @spellAll_interleave width hardline ('\n' :: List.replicate width ' ') _
    (fun l hl printed => by simpa using spell_hardline (hends l hl) printed) printed
  rw [join, spell_cat, hbreaks, intercalate_indentation, starredText, List.map_map]
  rfl

/-- Stripping the lines of the text gives what stripping the lines of the comment gives. -/
theorem map_trim_starredText (hfeed : ∀ l ∈ first :: more, '\n' ∉ l.toList) :
    (Text.lines (starredText width first more)).map Text.trim =
      (first :: more).map Text.trim := by
  rw [lines_starredText hfeed, List.map_cons, List.map_cons, Text.trim_trimEnd, List.map_map]
  congr 1
  refine List.map_congr_left fun line _ => ?_
  rw [Function.comp_apply, Text.trim_eq, Text.trimStart_append Text.isBlank_of_mem_indentation,
    starredLine, Text.trimStart_space, ← Text.trim_eq, Text.trim_trim]

end Starred

/-- What is printed for a block comment that begins and ends visibly is a text of as many lines
with the same key, and the document of the comment with that text is printed the same. -/
theorem Comment.exists_reindented (options : Options) (k : Nat) {c : Comment}
    (hblock : c.isLine = false) (hsolid : Text.Solid c.text) :
    ∃ r, render? options (Doc.indent^[k] (cat [hardline, c.doc, hardline])) =
        some ("\n" ++ Text.indentation (k * options.tabWidth) ++ r ++ "\n" ++
          Text.indentation (k * options.tabWidth)) ∧
      (Text.lines r).length = (Text.lines c.text).length ∧ { c with text := r }.key = c.key ∧
      { c with text := r }.doc = c.doc := by
  rcases c.doc_cases hblock with ⟨first, more, hlines, hmore, hstarred⟩ | hdoc
  · have hfeed : ∀ l ∈ first :: more, '\n' ∉ l.toList := by
      rw [← hlines]
      exact fun l hl => Text.not_mem_of_mem_lines hl
    have hfirst : Text.EndsVisibly (Text.trimEnd first) := by
      obtain ⟨x, xs, hlist, hx⟩ := hsolid.begins.of_lines hlines
      exact Text.endsVisibly_dropEndWhile ⟨x, by simp [hlist], hx⟩
    have hdoc := c.doc_of_isStarred hblock hlines hmore hstarred
    have hagain := @lines_starredText (k * options.tabWidth) _ _ hfeed
    refine ⟨starredText (k * options.tabWidth) first more, ?_, ?_, ?_, ?_⟩
    · rw [hdoc]
      exact render_between options k (rigid_join (by simp [hardline]) _)
        (spell_starred hfirst hstarred) (endsVisibly_starredText hfirst hstarred)
    · rw [hagain, hlines, List.length_cons, List.length_cons, List.length_map]
    · rw [Comment.key, Comment.key, map_trim_starredText hfeed, hlines]
    · have hprinted := Comment.doc_of_isStarred
        (c := { c with text := starredText (k * options.tabWidth) first more }) hblock hagain
        (by simpa using hmore) (isStarred_indented _ hstarred)
      rw [hdoc, hprinted, Text.trimEnd_trimEnd, List.map_map]
      simp only [Function.comp_def, starredLine_indented]
  · refine ⟨c.text, ?_, rfl, rfl, rfl⟩
    rw [hdoc]
    exact render_between options k (rigid_ofLines c.text) (spell_ofLines _ c.text) hsolid.ends

/-- Indenting a block comment anew is idempotent and changes nothing that comments are compared
by: what is printed for it between two line breaks, at any depth, has as many lines and the same
key, and is printed as it is at the same place. -/
theorem Comment.reindented_again (options : Options) (k : Nat) {c : Comment}
    (hblock : c.isLine = false) (hbegin : "/*".toList <+: c.text.toList)
    (hend : "*/".toList <:+ c.text.toList) :
    ∃ r, render? options (Doc.indent^[k] (cat [hardline, c.doc, hardline])) =
        some ("\n" ++ Text.indentation (k * options.tabWidth) ++ r ++ "\n" ++
          Text.indentation (k * options.tabWidth)) ∧
      (Text.lines r).length = (Text.lines c.text).length ∧ { c with text := r }.key = c.key ∧
      render? options (Doc.indent^[k] (cat [hardline, { c with text := r }.doc, hardline])) =
        some ("\n" ++ Text.indentation (k * options.tabWidth) ++ r ++ "\n" ++
          Text.indentation (k * options.tabWidth)) := by
  have hsolid : Text.Solid c.text := by
    obtain ⟨behind, hbehind⟩ := hbegin
    obtain ⟨before, hbefore⟩ := hend
    exact ⟨⟨'/', '*' :: behind, hbehind.symm, by decide⟩,
      ⟨before ++ ['*'], '/', by rw [← hbefore]; simp, by decide⟩⟩
  obtain ⟨r, hprinted, hlines, hkey, hdoc⟩ := c.exists_reindented options k hblock hsolid
  exact ⟨r, hprinted, hlines, hkey, hdoc ▸ hprinted⟩

/-- A comment with an asterisk on each line, too far to the left and with a tab behind it. -/
def shiftedComment : Comment where
  text := "/** \n* a\t\n\t*/"
  isLine := false
  span := ⟨⟨0, 0, 0⟩, ⟨14, 2, 3⟩⟩

/-- Inside one level of indentation its asterisks are put under the first one. -/
theorem Comment.reindented_again_shifted :
    shiftedComment.isLine = false ∧ "/*".toList <+: shiftedComment.text.toList ∧
      "*/".toList <:+ shiftedComment.text.toList ∧
      (∃ r, render? {} (Doc.indent^[1] (cat [hardline, shiftedComment.doc, hardline])) =
          some ("\n" ++ Text.indentation 2 ++ r ++ "\n" ++ Text.indentation 2) ∧
        (Text.lines r).length = 3 ∧ { shiftedComment with text := r }.key = shiftedComment.key ∧
        render? {} (Doc.indent^[1]
            (cat [hardline, { shiftedComment with text := r }.doc, hardline])) =
          some ("\n" ++ Text.indentation 2 ++ r ++ "\n" ++ Text.indentation 2)) ∧
      render? {} (Doc.indent^[1] (cat [hardline, shiftedComment.doc, hardline])) =
        some "\n  /**\n   * a\n   */\n  " := by
  have hbegin : "/*".toList <+: shiftedComment.text.toList := by decide
  have hend : "*/".toList <:+ shiftedComment.text.toList := by decide
  exact ⟨rfl, hbegin, hend, Comment.reindented_again {} 1 rfl hbegin hend, by decide +kernel⟩

end JavaFormat
