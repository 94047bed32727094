import JavaFormat.Formatter
import JavaFormat.Proofs.Comments.ByNode
import JavaFormat.Proofs.Syntax.Faults
import JavaFormat.Proofs.Syntax.Spans

/-!
# Comments without a node

A fragment that holds nothing but comments has no node to put them to, and the first of them
is reported. Its line is that of the whole scaffold: other than the line of a syntax error, it
counts the lines in front of the fragment.
-/

namespace JavaFormat

namespace Concrete

variable {source : Source}

/-- The comments found in a source lie between two of its offsets. -/
def PlacesComments (source : Source) (h : Harvest) : Prop :=
  ∀ c ∈ h.comments, ∃ start stop, c.span = source.span start stop

mutual

/-- The comments that one tree is stripped of stand where they do in the source. -/
theorem placesComments_harvest : ∀ {t : Concrete} {next : Nat} {h : Harvest},
    t.harvest source next = .ok h → PlacesComments source h
  | .node info children, next, h, hok => by
    cases yields_of_harvest hok with
    | comment _ hfound =>
      rw [PlacesComments, List.forall_mem_singleton]
      exact ⟨info.start, info.stop, hfound.span⟩
    | leaf _ _ _ _ => simp [PlacesComments]
    | branch _ _ _ hbelow => exact fun c hc => placesComments_harvestAll hbelow c hc

/-- The comments that several trees are stripped of stand where they do in the source. -/
theorem placesComments_harvestAll : ∀ {ts : List Concrete} {next : Nat} {h : Harvest},
    harvestAll source next ts = .ok h → PlacesComments source h
  | [], next, h, hok => by
    rw [harvestAll] at hok
    obtain rfl := Except.ok.inj hok
    simp [PlacesComments]
  | t :: ts, next, h, hok => by
    obtain ⟨first, rest, hfirst, hrest, rfl⟩ := exists_harvests_of_cons hok
    exact List.forall_mem_append.mpr
      ⟨placesComments_harvest hfirst, placesComments_harvestAll hrest⟩

end

end Concrete

namespace Parsed

variable {source : Source} {entry : EntryPoint} {t : Concrete} {p : Parsed}

/-- A comment begins at a position of the source that it was read in. -/
theorem start_of_mem_comments (h : ofConcrete source entry t = .ok p) {c : Comment}
    (hc : c ∈ p.comments) : c.span.start = source.position c.span.start.offset := by
  obtain ⟨below, kind, hbelow, -, -, hcomments⟩ :=
    Concrete.exists_harvest_of_convert (convert_of_ofConcrete h)
  obtain ⟨start, stop, hspan⟩ :=
    Concrete.placesComments_harvestAll hbelow c ((Text.sort_perm _ _).mem_iff.mp (hcomments ▸ hc))
  rw [hspan]
  rfl

/-- Only members and statements can be without a root. -/
theorem openingLines_of_roots_eq_nil (h : ofConcrete source entry t = .ok p) (hroots : p.roots = []) :
    (entry = .classBodyDeclarations ∧ entry.openingLines = 1) ∨
      (entry = .blockStatements ∧ entry.openingLines = 2) := by
  have hfound := roots?_of_ofConcrete h
  rw [hroots] at hfound
  cases entry with
  | compilationUnit => cases hfound
  | classBodyDeclarations => exact .inl ⟨rfl, by decide⟩
  | blockStatements => exact .inr ⟨rfl, by decide⟩
  | expression =>
    obtain ⟨body, -, hrest⟩ := Option.bind_eq_some_iff.mp hfound
    obtain ⟨field, -, hrest⟩ := Option.bind_eq_some_iff.mp hrest
    obtain ⟨declarator, -, hrest⟩ := Option.bind_eq_some_iff.mp hrest
    obtain ⟨value, -, hvalue⟩ := Option.bind_eq_some_iff.mp hrest
    cases hvalue

/-- Without a root the first comment is reported. -/
theorem attach_of_roots_eq_nil (policy : TieBreak) (hroots : p.roots = []) {c : Comment}
    {cs : List Comment} (hcomments : p.comments = c :: cs) :
    p.attach policy = .error (.unattachedComment c.text (c.span.start.line + 1)) := by
  rw [attach, hcomments, List.mapM_cons, attachComment_of_roots_eq_nil policy hroots]
  rfl

end Parsed

/-- A source with comments and no root is one of members or of statements. Its first comment is
reported, and if that begins in the fragment, the line that is told is its line there and as
many more as the scaffold has in front of the fragment: one for members, two for statements. -/
theorem Formatter.format_unattached {grammar : Grammar} {entry : EntryPoint} {text : String}
    {p : Parsed} (hparse : grammar.parse text entry = .ok p) (hroots : p.roots = []) {c : Comment}
    {cs : List Comment} (hcomments : p.comments = c :: cs) (options : Options) :
    (ofGrammar grammar).format options entry text =
        .error (.unattachedComment c.text (c.span.start.line + 1)) ∧
      ((entry = .classBodyDeclarations ∧ entry.openingLines = 1) ∨
        (entry = .blockStatements ∧ entry.openingLines = 2)) ∧
      ∀ k ≤ (EntryPoint.fragment text).bytes.length,
        c.span.start.offset = entry.fragmentStart + k →
          c.span.start.line + 1 =
            entry.openingLines + (((EntryPoint.fragment text).position k).line + 1) := by
  refine ⟨?_, Parsed.openingLines_of_roots_eq_nil hparse hroots, fun k hk hoffset => ?_⟩
  · have hattach := Parsed.attach_of_roots_eq_nil options.tieBreak hroots hcomments
    simp only [format, build, ofGrammar, hparse, layOut, hattach, bind, Except.bind]
  · have hstart := Parsed.start_of_mem_comments hparse (c := c) (by simp [hcomments])
    rw [hstart, hoffset, (entry.position_scaffolded text hk).1, Nat.add_assoc]

/-! ## A comment alone -/

namespace Unattached

/-- A blank line and a comment, as members of a class. -/
def remark : String := "\n// c"

/-- The source that they are read in. -/
def remarkSource : Source := Source.ofText (EntryPoint.classBodyDeclarations.scaffolded remark)

/-- The comment. -/
def remarkComment : Comment := ⟨"// c", true, remarkSource.span 32 36⟩

/-- The body of the scaffold's class. -/
def remarkBody : Concrete :=
  .node ⟨"class_body", true, 29, 38, some "body", false, false⟩ [
    .node ⟨"\x7b", false, 29, 30, none, false, false⟩ [],
    .node ⟨"line_comment", true, 32, 36, none, false, false⟩ [],
    .node ⟨"\x7d", false, 37, 38, none, false, false⟩ []]

/-- What the body is converted to. -/
def remarkBodyTree : Tree :=
  .branch ⟨4, .classBody, some "body", remarkSource.span 29 38⟩ [
    .leaf ⟨2, .token, none, remarkSource.span 29 30⟩ "\x7b",
    .leaf ⟨3, .token, none, remarkSource.span 37 38⟩ "\x7d"]

/-- The tree that a parser finds there. -/
def remarkTree : Concrete :=
  .node ⟨"program", true, 0, 39, none, false, false⟩ [
    .node ⟨"class_declaration", true, 0, 38, none, false, false⟩ [
      .node ⟨"class", false, 0, 5, none, false, false⟩ [],
      .node ⟨"identifier", true, 6, 28, some "name", false, false⟩ [],
      remarkBody]]

/-- The comment is taken out of the body. -/
theorem harvest_remarkBody :
    remarkBody.harvest remarkSource 2 = .ok ⟨[remarkBodyTree], [remarkComment], 5⟩ := by
  have hopen : remarkSource.slice 29 30 = .ok "\x7b" := rfl
  have hremark : remarkSource.slice 32 36 = .ok "// c" := rfl
  have hclose : remarkSource.slice 37 38 = .ok "\x7d" := rfl
  have htrim : Text.trimEnd "// c" = "// c" := by decide
  have hbranch : ConcreteInfo.part ⟨"class_body", true, 29, 38, some "body", false, false⟩ =
      .branch .classBody := rfl
  have hcomment : ConcreteInfo.part ⟨"line_comment", true, 32, 36, none, false, false⟩ =
      .comment true := rfl
  have hbrace : ConcreteInfo.part ⟨"\x7b", false, 29, 30, none, false, false⟩ = .leaf .token := rfl
  have hend : ConcreteInfo.part ⟨"\x7d", false, 37, 38, none, false, false⟩ = .leaf .token := rfl
  simp [remarkBody, Concrete.harvest, Concrete.harvestAll, hbranch, hcomment, hbrace, hend,
    ConcreteInfo.text, hopen, hremark, hclose, htrim, bind, Except.bind, pure, Except.pure,
    Harvest.append, Harvest.enclose, Harvest.spanOver, remarkBodyTree, remarkComment]
  rfl

/-- What the tree is converted to. -/
def remarkWhole : Tree :=
  .branch ⟨6, .program, none, remarkSource.span 0 38⟩ [
    .branch ⟨5, .classDeclaration, none, remarkSource.span 0 38⟩ [
      .leaf ⟨0, .token, none, remarkSource.span 0 5⟩ "class",
      .leaf ⟨1, .identifier, some "name", remarkSource.span 6 28⟩ "__JavaLayoutFragment__",
      remarkBodyTree]]

/-- The body is read without members. -/
theorem parse_remark : Grammar.parse (fun _ => remarkTree) remark .classBodyDeclarations =
    .ok ⟨remarkWhole, [], some .classBody, [remarkComment], remarkSource⟩ := by
  have hkeyword : remarkSource.slice 0 5 = .ok "class" := rfl
  have hname : remarkSource.slice 6 28 = .ok "__JavaLayoutFragment__" := rfl
  have hclass : ConcreteInfo.part ⟨"class_declaration", true, 0, 38, none, false, false⟩ =
      .branch .classDeclaration := rfl
  have hword : ConcreteInfo.part ⟨"class", false, 0, 5, none, false, false⟩ = .leaf .token := rfl
  have hidentifier : ConcreteInfo.part
      ⟨"identifier", true, 6, 28, some "name", false, false⟩ = .leaf .identifier := rfl
  have hprogram : NodeKind.ofName? "program" = some .program := rfl
  have hconvert : remarkTree.convert remarkSource = .ok (remarkWhole, [remarkComment]) := by
    simp [remarkTree, Concrete.convert, Concrete.harvest, Concrete.harvestAll, hclass, hword,
      hidentifier, hprogram, harvest_remarkBody, ConcreteInfo.text, hkeyword, hname, bind,
      Except.bind, pure, Except.pure, Harvest.append, Harvest.enclose, Harvest.spanOver,
      remarkWhole]
    exact ⟨⟨rfl, rfl⟩, rfl⟩
  have hparse : Grammar.parse (fun _ => remarkTree) remark .classBodyDeclarations =
      Parsed.ofConcrete remarkSource .classBodyDeclarations remarkTree := rfl
  have hfaulty : remarkTree.info.faulty = false := rfl
  simp only [hparse, Parsed.ofConcrete, hfaulty, hconvert, bind, Except.bind]
  rfl

end Unattached

/-- The comment is on the second line, and the third is told. -/
theorem Formatter.format_unattached_remark :
    (ofGrammar fun _ => Unattached.remarkTree).format {} .classBodyDeclarations "\n// c" =
        .error (.unattachedComment "// c" 3) ∧
      ((EntryPoint.fragment "\n// c").position 1).line + 1 = 2 := by
  obtain ⟨hformat, -, hline⟩ := format_unattached Unattached.parse_remark rfl rfl {}
  have hthird := hline 1 (by decide) (by decide)
  have hsecond : ((EntryPoint.fragment "\n// c").position 1).line + 1 = 2 := by decide
  have hopening : EntryPoint.classBodyDeclarations.openingLines = 1 := by decide
  refine ⟨?_, hsecond⟩
  rw [hthird, hopening] at hformat
  exact hformat

end JavaFormat
