import JavaFormat.Proofs.Layout.SpotComments
import JavaFormat.Proofs.Layout.Standing

/-!
# Comments in a printed text

A comment that is indented anew is printed row by row, so in a printed text its rows are found
one behind the other like other texts: a source that bears a comment bears the rows of it. The
rows of the comments and the leaves of a tree stretch from the first comment in front of the
tree to the last one behind it.
-/

namespace JavaFormat

open Layout

namespace Text

/-- Lines in front of others end with a line feed. -/
theorem toList_unlines_cons {l : String} {ls : List String} (h : ls ≠ []) :
    (unlines (l :: ls)).toList = l.toList ++ '\n' :: (unlines ls).toList := by
  obtain ⟨m, ms, rfl⟩ := List.exists_cons_of_ne_nil h
  simp [unlines, List.intercalate]

/-- A single line is what it is. -/
theorem unlines_singleton (l : String) : unlines [l] = l := by
  simp [unlines, List.intercalate]

/-- Lines in front of others take a byte for their line feed. -/
theorem length_encode_unlines_cons {l : String} {ls : List String} (h : ls ≠ []) :
    (Utf8.encode (unlines (l :: ls))).length =
      (Utf8.encode l).length + 1 + (Utf8.encode (unlines ls)).length := by
  have hfeed : (String.utf8EncodeChar '\n').length = 1 := by decide
  rw [Utf8.encode, toList_unlines_cons h, List.flatMap_append, List.flatMap_cons,
    List.length_append, List.length_append, hfeed, ← Nat.add_assoc]
  rfl

/-- No blanks stand in front of a text that begins visibly. -/
theorem BeginsVisibly.takeWhile_eq_nil {s : String} (h : BeginsVisibly s) :
    s.toList.takeWhile isBlank = [] := by
  obtain ⟨c, cs, hs, hc⟩ := h
  rw [hs, List.takeWhile_cons_of_neg (by simp [hc])]

/-- No blanks stand at the end of a text that ends visibly. -/
theorem EndsVisibly.eq_nil_of_append {s : String} {cs blanks : List Char} (h : EndsVisibly s)
    (hs : s.toList = cs ++ blanks) (hblanks : ∀ c ∈ blanks, isBlank c = true) : blanks = [] := by
  obtain ⟨front, c, hfront, hc⟩ := h
  rcases List.eq_nil_or_concat' blanks with rfl | ⟨more, d, rfl⟩
  · rfl
  · rw [hfront, ← List.append_assoc] at hs
    obtain rfl := List.singleton_inj.mp (List.append_inj' hs rfl).2
    rw [hblanks c (by simp)] at hc
    cases hc

/-- A text that ends visibly does so without its first line. -/
theorem EndsVisibly.of_unlines_cons {l : String} {ls : List String} (hne : ls ≠ [])
    (h : EndsVisibly (unlines (l :: ls))) : EndsVisibly (unlines ls) := by
  have hlist := toList_unlines_cons (l := l) hne
  rcases List.eq_nil_or_concat' (unlines ls).toList with hnil | ⟨front, d, hlast⟩
  · rw [hnil] at hlist
    cases h.eq_nil_of_append hlist (by simp; decide)
  · obtain ⟨cs, c, hs, hc⟩ := h
    rw [hlast, hs, ← List.cons_append, ← List.append_assoc] at hlist
    obtain rfl := List.singleton_inj.mp (List.append_inj' hlist rfl).2
    exact ⟨front, c, hlast, hc⟩

end Text

/-! ## Rows -/

/-- The mark of a line without the blanks around it, the line standing at an offset. -/
def Source.lineMark (source : Source) (o : Nat) (line : String) : Mark :=
  let start := o + ((line.toList.takeWhile Text.isBlank).flatMap String.utf8EncodeChar).length
  ⟨Text.trim line, source.span start (start + (Text.Utf8.encode (Text.trim line)).length)⟩

/-- The marks of lines without the blanks around them, the first line standing at an offset. -/
def Source.lineMarks (source : Source) : Nat → List String → List Mark
  | _, [] => []
  | o, line :: lines =>
    source.lineMark o line :: source.lineMarks (o + (Text.Utf8.encode line).length + 1) lines

section Lines

variable {source : Source} {o : Nat} {l : String} {ls : List String} {cs : List Char}
  {ms : List Mark}

/-- Blanks in front of marks are a gap. -/
theorem Source.Bears.blanks {blanks : List Char} (hblanks : ∀ c ∈ blanks, Text.isBlank c = true)
    (h : source.Bears (o + (blanks.flatMap String.utf8EncodeChar).length) cs ms) :
    source.Bears o (blanks ++ cs) ms := by
  induction blanks generalizing o with
  | nil => exact h
  | cons c blanks ih =>
    obtain ⟨hc, hblanks⟩ := List.forall_mem_cons.mp hblanks
    rw [List.flatMap_cons, List.length_append, ← Nat.add_assoc] at h
    exact .gap hc (ih hblanks h)

/-- A line stands where it does without the blanks around it. -/
theorem Source.Bears.line (h : source.Bears (o + (Text.Utf8.encode l).length) cs ms) :
    source.Bears o (l.toList ++ cs) (source.lineMark o l :: ms) := by
  have hline := Text.toList_eq_trim l
  have hlength := congrArg (fun s => (s.flatMap String.utf8EncodeChar).length) hline
  simp only [List.flatMap_append, List.length_append] at hlength
  rw [hline, List.append_assoc, List.append_assoc]
  refine .blanks (fun c hc => List.mem_takeWhile_imp hc) (.text (.blanks
    (fun c hc => List.mem_rtakeWhile_imp hc) ?_))
  rw [Text.Utf8.encode, hlength, ← Nat.add_assoc, ← Nat.add_assoc] at h
  exact h

/-- Lines stand where they do without the blanks around them. -/
theorem Source.Bears.lines (hne : ls ≠ [])
    (h : source.Bears (o + (Text.Utf8.encode (Text.unlines ls)).length) cs ms) :
    source.Bears o ((Text.unlines ls).toList ++ cs) (source.lineMarks o ls ++ ms) := by
  induction ls generalizing o with
  | nil => exact absurd rfl hne
  | cons l ls ih =>
    by_cases hlast : ls = []
    · subst hlast
      rw [Text.unlines_singleton] at h ⊢
      exact h.line
    · rw [Text.length_encode_unlines_cons hlast, ← Nat.add_assoc, ← Nat.add_assoc] at h
      rw [Text.toList_unlines_cons hlast, List.append_assoc, List.cons_append]
      exact .line (.gap (c := '\n') (by decide) (ih hlast h))

/-- The marks of lines have their texts without the blanks around them. -/
theorem Source.map_text_lineMarks : (source.lineMarks o ls).map Mark.text =
    ls.map Text.trim := by
  induction ls generalizing o with
  | nil => rfl
  | cons l ls ih => rw [lineMarks, List.map_cons, List.map_cons, ih, lineMark]

end Lines

/-! ## From the start of a span to its end -/

/-- Marks from the start of a span to its end. -/
structure Span.Filled (s : Span) (ms : List Mark) : Prop where
  start : ms.head?.map (·.span.start) = some s.start
  stop : ms.getLast?.map (·.span.stop) = some s.stop

section Filled

variable {source : Source} {o : Nat} {ls : List String}

/-- A mark fills its span. -/
theorem Mark.filled (m : Mark) : m.span.Filled [m] := ⟨rfl, rfl⟩

/-- The last line of a text that ends visibly ends where the text does. -/
theorem Source.stop_lineMarks (hne : ls ≠ []) (h : Text.EndsVisibly (Text.unlines ls)) :
    (source.lineMarks o ls).getLast?.map (·.span.stop) =
      some (source.position (o + (Text.Utf8.encode (Text.unlines ls)).length)) := by
  induction ls generalizing o with
  | nil => exact absurd rfl hne
  | cons l ls ih =>
    by_cases hlast : ls = []
    · subst hlast
      rw [Text.unlines_singleton] at h ⊢
      have hline := Text.toList_eq_trim l
      rw [← List.append_assoc] at hline
      rw [h.eq_nil_of_append hline fun c hc => List.mem_rtakeWhile_imp hc, List.append_nil] at hline
      rw [Text.Utf8.encode, hline, List.flatMap_append, List.length_append, ← Nat.add_assoc]
      rfl
    · have hrest := ih (o := o + (Text.Utf8.encode l).length + 1) hlast (h.of_unlines_cons hlast)
      have hmarks : source.lineMarks (o + (Text.Utf8.encode l).length + 1) ls ≠ [] := by
        intro hnil
        rw [hnil] at hrest
        cases hrest
      rw [lineMarks, List.getLast?_cons_of_ne_nil hmarks, hrest,
        Text.length_encode_unlines_cons hlast, ← Nat.add_assoc, ← Nat.add_assoc]

/-- The lines of a text that begins and ends visibly fill it. -/
theorem Source.filled_lineMarks {text : String} (h : Text.Solid text) :
    (source.span o (o + (Text.Utf8.encode text).length)).Filled
      (source.lineMarks o (Text.lines text)) where
  start := by
    obtain ⟨first, more, hlines⟩ := List.exists_cons_of_ne_nil (Text.lines_ne_nil text)
    rw [hlines, lineMarks, List.head?_cons, Option.map_some, lineMark,
      (h.begins.of_lines hlines).takeWhile_eq_nil]
    simp only [List.flatMap_nil, List.length_nil, Nat.add_zero, span]
  stop := by
    have hends := h.ends
    rw [← Text.unlines_lines text] at hends
    rw [Source.stop_lineMarks (Text.lines_ne_nil text) hends, Text.unlines_lines]
    rfl

end Filled

/-! ## Leaves and comments -/

/-- The text of a leaf or a comment and where it stands. -/
def Item.mark : Item → Mark
  | .leaf t => ⟨t.text, t.span⟩
  | .comment c => ⟨c.text, c.span⟩

/-- The texts that are shown of a leaf or a comment and where they stand. -/
def Item.marks (source : Source) : Item → List Mark
  | .leaf t => [⟨t.text, t.span⟩]
  | .comment c =>
    if c.isReindented then source.lineMarks c.span.start.offset (Text.lines c.text)
    else [⟨c.text, c.span⟩]

/-- A leaf or a comment that begins and ends visibly and stands in a source. -/
structure Item.Stands (source : Source) (i : Item) : Prop where
  solid : Text.Solid i.mark.text
  span : ∃ o, i.mark.span = source.span o (o + (Text.Utf8.encode i.mark.text).length)

section Items

variable {source : Source} {o : Nat} {cs : List Char} {i : Item} {is : List Item}

/-- Marks that a source bears stand in it. -/
theorem Source.Bears.exists_span {ms : List Mark} (h : source.Bears o cs ms) : ∀ m ∈ ms,
    ∃ o, m.span = source.span o (o + (Text.Utf8.encode m.text).length) := by
  induction h with
  | done => simp
  | gap _ _ ih => exact ih
  | @mark o _ _ _ hspan _ ih => exact List.forall_mem_cons.mpr ⟨⟨o, hspan⟩, ih⟩

/-- A source that bears leaves and comments bears all that is shown of them. -/
theorem Source.Bears.marks (h : source.Bears o cs (is.map Item.mark)) :
    source.Bears o cs (is.flatMap (Item.marks source)) := by
  generalize hms : is.map Item.mark = ms at h
  induction h generalizing is with
  | done =>
    rw [List.map_eq_nil_iff.mp hms]
    exact .done
  | gap hc _ ih => exact .gap hc (ih hms)
  | @mark o m cs ms hspan _ ih =>
    obtain ⟨i, is, rfl, rfl, hrest⟩ := List.map_eq_cons_iff.mp hms
    rw [List.flatMap_cons]
    cases i with
    | leaf t => exact .mark (m := ⟨t.text, t.span⟩) hspan (ih hrest)
    | comment c =>
      rw [Item.marks]
      split
      · have hoffset : c.span.start.offset = o := congrArg (·.start.offset) hspan
        have hbehind : source.Bears
            (o + (Text.Utf8.encode (Text.unlines (Text.lines c.text))).length) cs
            (is.flatMap (Item.marks source)) := by
          rw [Text.unlines_lines]
          exact ih hrest
        have hlines := hbehind.lines (Text.lines_ne_nil c.text)
        rw [Text.unlines_lines] at hlines
        rw [hoffset]
        exact hlines
      · exact .mark (m := ⟨c.text, c.span⟩) hspan (ih hrest)

/-- What is shown of an item that stands in a source stretches from its start to its end. -/
theorem Item.Stands.filled (h : i.Stands source) : i.mark.span.Filled (i.marks source) := by
  obtain ⟨hsolid, o, hspan⟩ := h
  cases i with
  | leaf t => exact Mark.filled ⟨t.text, t.span⟩
  | comment c =>
    rw [Item.marks]
    split
    · have hoffset : c.span.start.offset = o := congrArg (·.start.offset) hspan
      rw [hspan, hoffset]
      exact Source.filled_lineMarks hsolid
    · exact Mark.filled ⟨c.text, c.span⟩

/-- The texts that are shown of an item are its rows. -/
theorem Item.map_text_marks (h : Text.BeginsVisibly i.mark.text) :
    (i.marks source).map Mark.text = i.rows := by
  cases i with
  | leaf t => rfl
  | comment c =>
    rw [Item.marks, Item.rows, Comment.rows]
    split
    · obtain ⟨first, more, hlines⟩ := List.exists_cons_of_ne_nil (Text.lines_ne_nil c.text)
      have hfirst : Text.trimStart first = first := by
        obtain ⟨d, ds, hd, hblank⟩ := Text.BeginsVisibly.of_lines h hlines
        rw [Text.trimStart, hd, List.dropWhile_cons_of_neg (by simp [hblank]), ← hd,
          String.ofList_toList]
      rw [Source.map_text_lineMarks, hlines, List.map_cons, List.headD_cons, List.tail_cons,
        Text.trim_eq, hfirst]
    · rfl

end Items

/-! ## Trees -/

section Frames

variable {source : Source} {c : NodeComments} {s : Span} {is : List Item}

/-- Marks in front of others start where these and the others start. -/
theorem start_append {p : Position} {ms ns : List Mark}
    (h : ms.head?.map (·.span.start) = some p) : (ms ++ ns).head?.map (·.span.start) = some p := by
  obtain ⟨m, hm, rfl⟩ := Option.map_eq_some_iff.mp h
  rw [List.head?_append, hm]
  rfl

/-- Marks behind others stop where these and the others stop. -/
theorem stop_append {p : Position} {ms ns : List Mark}
    (h : ns.getLast?.map (·.span.stop) = some p) :
    (ms ++ ns).getLast?.map (·.span.stop) = some p := by
  obtain ⟨m, hm, rfl⟩ := Option.map_eq_some_iff.mp h
  rw [List.getLast?_append, hm]
  rfl

/-- The comments around a node stretch from the first one in front of it to the last one behind
it. -/
theorem Span.Filled.frame (hleading : ∀ a ∈ c.leading, (Item.comment a.comment).Stands source)
    (htrailing : ∀ a ∈ c.trailing, (Item.comment a.comment).Stands source)
    (h : s.Filled (is.flatMap (Item.marks source))) : (c.extent s).Filled
      ((c.frame (fun c => [.comment c]) is).flatMap (Item.marks source)) where
  start := by
    rw [NodeComments.frame, List.flatMap_append, List.flatMap_append, NodeComments.extent]
    cases hlist : c.leading with
    | nil =>
      rw [List.flatMap_nil, List.flatMap_nil, List.nil_append]
      exact start_append h.start
    | cons a as =>
      rw [List.flatMap_cons, List.singleton_append, List.flatMap_cons]
      exact start_append (start_append (hleading a (by simp [hlist])).filled.start)
  stop := by
    rw [NodeComments.frame, List.flatMap_append, List.flatMap_append, NodeComments.extent]
    refine stop_append ?_
    rcases List.eq_nil_or_concat' c.trailing with hlist | ⟨as, a, hlist⟩
    · rw [hlist, List.flatMap_nil, List.flatMap_nil, List.append_nil]
      exact h.stop
    · rw [hlist, List.flatMap_append, List.flatMap_append, List.flatMap_singleton,
        List.flatMap_singleton, List.getLast?_concat]
      exact stop_append (stop_append (htrailing a (by simp [hlist])).filled.stop)

end Frames

end JavaFormat
