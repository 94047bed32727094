import JavaFormat.Doc.Dump
import JavaFormat.Proofs.Text.Quoted

/-!
# The readable form determines the document

Behind its margin, the readable form of a document is a name and what the name stands in
front of: nothing, a quoted text, one child in parentheses or several in brackets. The name
ends where no letter follows, what comes next says which of the four it is, and a child ends
at a comma or a line feed of the form around it. A form in front of one of these, or of
nothing, can therefore be read in one way only. Documents that are built have a different
name for each kind of line break and no group that is marked, so no two of them have the same
form (`Built.eq_of_dump_eq`).
-/

namespace JavaFormat

/-- Whether a style is the only one of its name among those for which this holds: only a hard
break is literal, and none is hard and soft. -/
def LineStyle.Named (style : LineStyle) : Prop :=
  (style.literal = true → style.hard = true) ∧ ¬(style.hard = true ∧ style.soft = true)

namespace Doc

/-! ## Documents that are built -/

/-- Documents made by the functions and constants that layout code builds documents with. -/
inductive Built : Doc → Prop
  | text (s : String) : Built (.text s)
  | space : Built space
  | softline : Built softline
  | hardline : Built hardline
  | literalline : Built literalline
  | breakParent : Built .breakParent
  | cat {parts : List Doc} (h : ∀ d ∈ parts, Built d) : Built (cat parts)
  | join {separator : Doc} {docs : List Doc} (hs : Built separator) (h : ∀ d ∈ docs, Built d) :
    Built (join separator docs)
  | ofLines (s : String) (literal : Bool) : Built (ofLines s literal)
  | grouped {parts : List Doc} (h : ∀ d ∈ parts, Built d) : Built (grouped parts)
  | choice {states : List Doc} (h : ∀ d ∈ states, Built d) : Built (.choice states)
  | indented {parts : List Doc} (h : ∀ d ∈ parts, Built d) : Built (indented parts)
  | fill {parts : List Doc} (h : ∀ d ∈ parts, Built d) : Built (.fill parts)
  | suffixed {parts : List Doc} (h : ∀ d ∈ parts, Built d) : Built (suffixed parts)

mutual

/-- Every line break has a name of its own, and no group is marked. -/
def Named : Doc → Prop
  | .text _ => True
  | .concat parts => NamedAll parts
  | .group marked contents => marked = false ∧ Named contents
  | .choice states => NamedAll states
  | .indent contents => Named contents
  | .fill parts => NamedAll parts
  | .line style => style.Named
  | .suffix contents => Named contents
  | .breakParent => True

/-- The same of several documents. -/
def NamedAll : List Doc → Prop
  | [] => True
  | d :: ds => Named d ∧ NamedAll ds

end

/-- The documents of a list are named if each of them is. -/
theorem namedAll_iff {ds : List Doc} : NamedAll ds ↔ ∀ d ∈ ds, d.Named := by
  induction ds with
  | nil => simp [NamedAll]
  | cons d ds ih => simp [NamedAll, ih]

/-- The parts that a named document is taken apart into are named. -/
theorem Named.flatten {d : Doc} (h : d.Named) : ∀ e ∈ d.flatten, e.Named := by
  rcases flatten_cases d with ⟨rfl, hflat⟩ | ⟨parts, rfl, hflat⟩ | hflat
  · simp [hflat]
  · rw [hflat]
    exact namedAll_iff.mp h
  · rw [hflat]
    exact List.forall_mem_singleton.mpr h

/-- Joined named documents are named. -/
theorem named_cat {ds : List Doc} (h : ∀ d ∈ ds, d.Named) : (cat ds).Named := by
  have hparts : ∀ e ∈ ds.flatMap flatten, e.Named := by
    intro e he
    obtain ⟨d, hd, hed⟩ := List.mem_flatMap.mp he
    exact (h d hd).flatten e hed
  unfold cat ofParts
  split
  · rename_i d heq
    rw [heq] at hparts
    exact hparts d (List.mem_singleton_self d)
  · exact namedAll_iff.mpr hparts

/-- Named documents are named with a named separator between them. -/
theorem named_interleave {separator : Doc} {ds : List Doc} (hs : separator.Named)
    (h : ∀ d ∈ ds, d.Named) : ∀ d ∈ interleave separator ds, d.Named := by
  intro d hd
  rcases mem_interleave hd with rfl | hd
  · exact hs
  · exact h d hd

/-- A hard line break is named. -/
theorem named_hardline : hardline.Named := by simp [hardline, Named, NamedAll, LineStyle.Named]

/-- A literal line break is named. -/
theorem named_literalline : literalline.Named := by
  simp [literalline, Named, NamedAll, LineStyle.Named]

/-- A text of several lines is named. -/
theorem named_ofLines (s : String) (literal : Bool) : (ofLines s literal).Named := by
  have htexts : ∀ d ∈ (Text.lines s).map Doc.text, d.Named := by
    intro d hd
    obtain ⟨l, -, rfl⟩ := List.mem_map.mp hd
    trivial
  unfold ofLines
  split
  · refine named_cat (named_interleave ?_ htexts)
    split
    · exact named_literalline
    · exact named_hardline
  · trivial

/-- Documents that are built have names for their line breaks, and no group is marked. -/
theorem Built.named {d : Doc} (h : d.Built) : d.Named := by
  induction h with
  | text s => trivial
  | space => simp [Doc.space, Named, LineStyle.Named]
  | softline => simp [Doc.softline, Named, LineStyle.Named]
  | hardline => exact named_hardline
  | literalline => exact named_literalline
  | breakParent => trivial
  | cat _ ih => exact named_cat ih
  | join _ _ ihs ih => exact named_cat (named_interleave ihs ih)
  | ofLines s literal => exact named_ofLines s literal
  | grouped _ ih => exact ⟨rfl, named_cat ih⟩
  | choice _ ih => exact namedAll_iff.mpr ih
  | indented _ ih => exact named_cat ih
  | fill _ ih => exact namedAll_iff.mpr ih
  | suffixed _ ih => exact named_cat ih

/-! ## Names and what they stand in front of -/

/-- What the name of a document stands in front of. -/
inductive Body where
  | nothing
  | quoted (s : String)
  | child (d : Doc)
  | children (ds : List Doc)

/-- The readable form of a document, but for its margin. -/
@[ext]
structure Form where
  name : String
  body : Body

/-- The form of a document. -/
def form : Doc → Form
  | .text s => ⟨"", .quoted s⟩
  | .concat [.line { hard := true, soft := false, literal := false }, .breakParent] =>
    ⟨"hardline", .nothing⟩
  | .concat [.line { hard := true, soft := false, literal := true }, .breakParent] =>
    ⟨"literalline", .nothing⟩
  | .concat parts => ⟨"", .children parts⟩
  | .group _ contents => ⟨"group", .child contents⟩
  | .choice states => ⟨"conditional_group", .children states⟩
  | .indent contents => ⟨"indent", .child contents⟩
  | .fill parts => ⟨"fill", .children parts⟩
  | .line style => ⟨style.name, .nothing⟩
  | .suffix contents => ⟨"line_suffix", .child contents⟩
  | .breakParent => ⟨"break_parent", .nothing⟩

/-- The document of a form. -/
def Form.doc : Form → Doc
  | ⟨_, .quoted s⟩ => .text s
  | ⟨name, .children ds⟩ =>
    if name = "fill" then .fill ds
    else if name = "conditional_group" then .choice ds
    else .concat ds
  | ⟨name, .child d⟩ =>
    if name = "group" then .group false d
    else if name = "indent" then .indent d
    else .suffix d
  | ⟨name, .nothing⟩ =>
    if name = "hardline" then hardline
    else if name = "literalline" then literalline
    else if name = "break_parent" then .breakParent
    else if name = "line" then space
    else if name = "softline" then softline
    else .line { hard := true, literal := name = "literalline_without_break_parent" }

/-- The documents that a form is put together from. -/
def Body.docs : Body → List Doc
  | .nothing => []
  | .quoted _ => []
  | .child d => [d]
  | .children ds => ds

/-- The text of what a name stands in front of. -/
def Body.shown (depth : Int) : Body → List Char
  | .nothing => []
  | .quoted s => (Text.quote s).toList
  | .child d =>
    '(' :: '\n' :: ((d.dump (depth + 1)).toList ++ '\n' :: ((margin depth).toList ++ [')']))
  | .children ds =>
    '[' :: '\n' :: ((String.intercalate ",\n" (dumpAll (depth + 1) ds)).toList ++
      '\n' :: ((margin depth).toList ++ [']']))

/-- A document is shown as its form behind its margin. -/
theorem toList_dump (depth : Int) (d : Doc) : (d.dump depth).toList =
    (margin depth).toList ++ (d.form.name.toList ++ d.form.body.shown depth) := by
  fun_cases form d <;> simp [dump, Body.shown, bracketed, called, *]

/-- A line break with a name of its own is the one of that name. -/
theorem doc_form_line {style : LineStyle} (h : style.Named) :
    (form (.line style)).doc = .line style := by
  obtain ⟨hard, soft, literal⟩ := style
  obtain ⟨hliteral, hsoft⟩ := h
  cases hard <;> cases soft <;> cases literal <;>
    simp [form, Form.doc, LineStyle.name, space, softline] at hliteral hsoft ⊢

/-- A document whose line breaks have names of their own is the one of its form. -/
theorem Named.doc_form {d : Doc} (h : d.Named) : d.form.doc = d := by
  fun_cases form d with
  | case5 marked contents =>
    obtain ⟨rfl, -⟩ := h
    rfl
  | case9 style => exact doc_form_line h
  | _ => simp [Form.doc, hardline, literalline]

/-- What a document is put together from is smaller, and named if the document is. -/
theorem Named.of_mem_docs {d : Doc} (h : d.Named) :
    ∀ c ∈ d.form.body.docs, c.Named ∧ sizeOf c < sizeOf d := by
  fun_cases form d with
  | case4 ds | case6 ds | case8 ds =>
    intro c (hc : c ∈ ds)
    have hsize := List.sizeOf_lt_of_mem hc
    refine ⟨namedAll_iff.mp h c hc, ?_⟩
    simp only [concat.sizeOf_spec, choice.sizeOf_spec, fill.sizeOf_spec]
    omega
  | case5 marked contents =>
    exact List.forall_mem_singleton.mpr ⟨h.2, by simp⟩
  | case7 contents | case10 contents =>
    exact List.forall_mem_singleton.mpr ⟨h, by simp⟩
  | _ => exact List.forall_mem_nil _

/-! ## Reading a form -/

/-- What can stand behind the form of a document: nothing, or what begins with the comma or
the line feed that ends it. -/
inductive Ends : List Char → Prop
  | nil : Ends []
  | comma (s : List Char) : Ends (',' :: s)
  | feed (s : List Char) : Ends ('\n' :: s)

/-- Whether a character may belong to the name of a form. -/
def isNameLetter (c : Char) : Bool := c.isAlpha || c == '_'

/-- A name is made of letters. -/
theorem all_isNameLetter_name (d : Doc) : d.form.name.toList.all isNameLetter = true := by
  fun_cases form d with
  | case9 style =>
    unfold LineStyle.name
    split_ifs <;> decide
  | _ => dsimp only; decide

/-- What comes behind a name, as a number. -/
def Body.sort : Body → Nat
  | .nothing => 0
  | .quoted _ => 1
  | .child _ => 2
  | .children _ => 3

/-- What comes behind a name, told by the next character. -/
def sortAhead : List Char → Nat
  | '\'' :: _ => 1
  | '"' :: _ => 1
  | '(' :: _ => 2
  | '[' :: _ => 3
  | _ => 0

section Body

variable {depth : Int} {s t : List Char}

/-- The next character tells what comes behind a name, and belongs to no name. -/
theorem Body.ahead (b : Body) (hs : Ends s) :
    sortAhead (b.shown depth ++ s) = b.sort ∧
      ∀ c ∈ (b.shown depth ++ s).head?, isNameLetter c = false := by
  cases b with
  | nothing => cases hs <;> simp [shown, sortAhead, sort] <;> decide
  | quoted x =>
    obtain ⟨mark, rest, hquote, hmark⟩ := Text.exists_quote_cons x
    rw [shown, hquote]
    rcases hmark with rfl | rfl <;> simp [sortAhead, sort] <;> decide
  | child d => simp [shown, sortAhead, sort]; decide
  | children ds => simp [shown, sortAhead, sort]; decide

/-- A list in front of what it cannot go on with is told from it. -/
theorem append_inj_of_all {p : Char → Bool} {xs ys : List Char} (hx : xs.all p = true)
    (hy : ys.all p = true) (hs : ∀ c ∈ s.head?, p c = false) (ht : ∀ c ∈ t.head?, p c = false)
    (h : xs ++ s = ys ++ t) : xs = ys ∧ s = t := by
  have hnone (r : List Char) (hr : ∀ c ∈ r.head?, p c = false) : r.takeWhile p = [] := by
    cases r with
    | nil => rfl
    | cons c r => rw [List.takeWhile_cons, hr c rfl]; rfl
  have htake := congrArg (List.takeWhile p) h
  rw [List.takeWhile_append_of_pos (List.all_eq_true.mp hx),
    List.takeWhile_append_of_pos (List.all_eq_true.mp hy), hnone s hs, hnone t ht,
    List.append_nil, List.append_nil] at htake
  subst htake
  exact ⟨rfl, List.append_cancel_left h⟩

end Body

/-- Whether the form of a document can be read in one way only, if something that ends it
stands behind it. -/
def OneWay (depth : Int) (d : Doc) : Prop :=
  ∀ ⦃e : Doc⦄ ⦃s t : List Char⦄, e.Named → Ends s → Ends t →
    (d.dump depth).toList ++ s = (e.dump depth).toList ++ t → d = e ∧ s = t

section Children

variable {depth : Int} {s t : List Char} {ds es : List Doc}

/-- Children behind the first one. -/
def furtherRows (depth : Int) (ds : List Doc) : List Char :=
  ds.flatMap fun d => ',' :: '\n' :: (d.dump depth).toList

/-- The first of the further rows is in front of the others. -/
theorem furtherRows_cons (d : Doc) (ds : List Doc) : furtherRows depth (d :: ds) =
    ',' :: '\n' :: ((d.dump depth).toList ++ furtherRows depth ds) := rfl

/-- Children are shown as the first of them and the others, each in a row of its own. -/
theorem toList_rows (d : Doc) :
    (String.intercalate ",\n" (dumpAll depth (d :: ds))).toList =
      (d.dump depth).toList ++ furtherRows depth ds := by
  rw [String.toList_intercalate]
  induction ds generalizing d with
  | nil => simp [dumpAll, furtherRows]
  | cons e es ih =>
    simpa [dumpAll, furtherRows] using ih e

/-- What comes behind the rows of a list cannot be taken for one more row. -/
theorem ends_furtherRows (ds : List Doc) (s : List Char) :
    Ends (furtherRows depth ds ++ '\n' :: s) := by
  cases ds with
  | nil => exact .feed s
  | cons d ds => exact .comma _

/-- Rows end where no comma follows. -/
theorem furtherRows_append_inj (hds : ∀ d ∈ ds, OneWay depth d) (hes : ∀ e ∈ es, e.Named)
    (h : furtherRows depth ds ++ '\n' :: s = furtherRows depth es ++ '\n' :: t) :
    ds = es ∧ s = t := by
  induction ds generalizing es with
  | nil =>
    cases es with
    | nil => exact ⟨rfl, List.tail_eq_of_cons_eq h⟩
    | cons e es => simp [furtherRows] at h
  | cons d ds ih =>
    cases es with
    | nil => simp [furtherRows] at h
    | cons e es =>
      obtain ⟨hd, hmore⟩ := List.forall_mem_cons.mp hds
      obtain ⟨he, hmore'⟩ := List.forall_mem_cons.mp hes
      simp only [furtherRows_cons, List.cons_append, List.append_assoc, List.cons.injEq,
        true_and] at h
      obtain ⟨rfl, hrest⟩ := hd he (ends_furtherRows ds s) (ends_furtherRows es t) h
      obtain ⟨rfl, rfl⟩ := ih hmore hmore' hrest
      exact ⟨rfl, rfl⟩

/-- Behind the margin there is something, and it does not begin with a line feed. -/
theorem exists_form_cons (depth : Int) (d : Doc) :
    ∃ c r, d.form.name.toList ++ d.form.body.shown depth = c :: r ∧ c ≠ '\n' := by
  fun_cases form d with
  | case1 x =>
    obtain ⟨mark, rest, hquote, hmark⟩ := Text.exists_quote_cons x
    refine ⟨mark, rest, by simp [Body.shown, hquote], ?_⟩
    rcases hmark with rfl | rfl <;> decide
  | case9 style =>
    unfold LineStyle.name
    split_ifs <;> simp
  | _ => simp [Body.shown]

/-- The form of a document does not begin with a line feed. -/
theorem dump_append_ne (d : Doc) : (d.dump depth).toList ++ s ≠ '\n' :: t := by
  obtain ⟨c, r, hform, hc⟩ := exists_form_cons depth d
  rw [toList_dump, hform, margin, String.toList_ofList]
  cases (2 * depth).toNat <;> simp [List.replicate_succ, hc]

/-- Children, one in each row, end where no comma follows. -/
theorem rows_append_inj (hds : ∀ d ∈ ds, OneWay depth d) (hes : ∀ e ∈ es, e.Named)
    (h : (String.intercalate ",\n" (dumpAll depth ds)).toList ++ '\n' :: s =
      (String.intercalate ",\n" (dumpAll depth es)).toList ++ '\n' :: t) :
    ds = es ∧ s = t := by
  match ds, es with
  | [], [] => exact ⟨rfl, List.tail_eq_of_cons_eq h⟩
  | [], e :: es =>
    rw [toList_rows, List.append_assoc] at h
    exact (dump_append_ne e h.symm).elim
  | d :: ds, [] =>
    rw [toList_rows, List.append_assoc] at h
    exact (dump_append_ne d h).elim
  | d :: ds, e :: es =>
    rw [toList_rows, toList_rows, List.append_assoc, List.append_assoc] at h
    apply furtherRows_append_inj hds hes
    simp only [furtherRows_cons, List.cons_append, List.append_assoc, h]

/-- What comes behind a name can be read in one way only if this holds of the documents in it. The
four sorts of bodies differ in what they begin with. -/
theorem Body.shown_append_inj {b c : Body} (hb : ∀ d ∈ b.docs, OneWay (depth + 1) d)
    (hc : ∀ e ∈ c.docs, e.Named) (hs : Ends s) (ht : Ends t)
    (h : b.shown depth ++ s = c.shown depth ++ t) : b = c ∧ s = t := by
  have hsort : b.sort = c.sort := by rw [← (b.ahead hs).1, ← (c.ahead ht).1, h]
  cases b with
  | nothing =>
    cases c with
    | nothing => exact ⟨rfl, h⟩
    | _ => cases hsort
  | quoted x =>
    cases c with
    | quoted y =>
      obtain ⟨rfl, rfl⟩ := Text.quote_append_inj h
      exact ⟨rfl, rfl⟩
    | _ => cases hsort
  | child d =>
    cases c with
    | child e =>
      simp only [shown, List.cons_append, List.append_assoc, List.cons.injEq, true_and] at h
      obtain ⟨rfl, hrest⟩ := hb d List.mem_cons_self (hc e List.mem_cons_self) (.feed _) (.feed _) h
      exact ⟨rfl, by simpa using hrest⟩
    | _ => cases hsort
  | children ds =>
    cases c with
    | children es =>
      simp only [shown, List.cons_append, List.append_assoc, List.cons.injEq, true_and] at h
      obtain ⟨rfl, hrest⟩ := rows_append_inj hb hc h
      exact ⟨rfl, by simpa using hrest⟩
    | _ => cases hsort

end Children

/-- The form of a document whose line breaks have names of their own, and in which no group is
marked, can be read in one way only. The margins are the same, and the names end at the same
letter. -/
theorem Named.oneWay {d : Doc} (hd : d.Named) (depth : Int) : OneWay depth d := by
  intro e s t he hs ht h
  rw [toList_dump, toList_dump, List.append_assoc, List.append_assoc, List.append_assoc,
    List.append_assoc] at h
  obtain ⟨hname, hrest⟩ := append_inj_of_all (all_isNameLetter_name d) (all_isNameLetter_name e)
    (d.form.body.ahead hs).2 (e.form.body.ahead ht).2 (List.append_cancel_left h)
  have hdocs : ∀ c ∈ d.form.body.docs, OneWay (depth + 1) c := by
    intro c hc
    obtain ⟨hnamed, hsize⟩ := hd.of_mem_docs c hc
    exact hnamed.oneWay (depth + 1)
  obtain ⟨hbody, hst⟩ := Body.shown_append_inj hdocs (fun c hc => (he.of_mem_docs c hc).1) hs ht
    hrest
  have hform : d.form = e.form := Form.ext (String.toList_inj.mp hname) hbody
  refine ⟨?_, hst⟩
  rw [← hd.doc_form, hform, he.doc_form]
termination_by sizeOf d

/-- Documents that are built and have the same readable form at some depth are the same. -/
theorem Built.eq_of_dump_eq {d e : Doc} (hd : d.Built) (he : e.Built) (depth : Int)
    (h : d.dump depth = e.dump depth) : d = e := by
  have hlists : (d.dump depth).toList ++ [] = (e.dump depth).toList ++ [] := by rw [h]
  exact (hd.named.oneWay depth he.named .nil .nil hlists).1

/-- A text that looks like the end of a row, in a list whose second part is empty. -/
def falseRow : Doc := join hardline ["x',\n]", cat []]

/-- The text and the break behind it, without a part that is empty. -/
def falseRow' : Doc := cat ["x',\n]", hardline]

/-- An empty part leaves no trace in the readable form, because it leaves none in the
document. -/
theorem Built.eq_of_dump_eq_falseRow :
    falseRow.Built ∧ falseRow'.Built ∧ falseRow.dump 1 = falseRow'.dump 1 ∧
      falseRow = falseRow' := by
  have hrow : falseRow.Built := by
    refine .join .hardline (List.forall_mem_cons.mpr ⟨.text _, ?_⟩)
    exact List.forall_mem_singleton.mpr (.cat (List.forall_mem_nil _))
  have hrow' : falseRow'.Built :=
    .cat (List.forall_mem_cons.mpr ⟨.text _, List.forall_mem_singleton.mpr .hardline⟩)
  exact ⟨hrow, hrow', rfl, hrow.eq_of_dump_eq hrow' 1 rfl⟩

/-- A break that is hard and soft, which no function builds, has the form of a hard one. -/
example : dump 0 (.line { hard := true, soft := true }) = dump 0 (.line { hard := true }) := rfl

end Doc

end JavaFormat
