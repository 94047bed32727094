import JavaFormat.Proofs.Layout.Document
import JavaFormat.Proofs.Text.Strip
import Mathlib.Data.List.Count
import Mathlib.Data.Multiset.Count

/-!
# What a formatter promises for any parser and any renderer

A text is handed out only if it is what the renderer makes of the document of the
source, it is Java again, and it has the comments of the source. What stands in the
way otherwise is told by the error: the fault of the source, that of the output, or
the comments that are not there equally often. Two comments count as one if the lines of the
one are those of the other up to the white space around them.
-/

namespace JavaFormat

/-- Two comments have the same lines up to the white space around them. -/
def Comment.SameLines (c d : Comment) : Prop :=
  List.Forall₂ (fun l m => ∃ core, Text.StripsTo l core ∧ Text.StripsTo m core)
    (Text.lines c.text) (Text.lines d.text)

/-- Comments are compared by their lines up to the white space around them. -/
theorem Comment.key_eq_key_iff {c d : Comment} : c.key = d.key ↔ c.SameLines d := by
  have hsame : ∀ l m : String, (∃ core, Text.StripsTo l core ∧ Text.StripsTo m core) ↔
      Text.trim l = Text.trim m := by
    intro l m
    constructor
    · rintro ⟨core, hl, hm⟩
      rw [Text.trim_eq_iff.mpr hl, Text.trim_eq_iff.mpr hm]
    · intro h
      exact ⟨Text.trim l, Text.trim_eq_iff.mp rfl, Text.trim_eq_iff.mp h.symm⟩
  have hne (s : String) : (Text.lines s).map Text.trim ≠ [] := by
    simpa using Text.lines_ne_nil s
  rw [key, key, Text.unlines_inj (hne _) (hne _) (fun l => Text.not_mem_of_mem_trimmedLines)
    fun l => Text.not_mem_of_mem_trimmedLines, SameLines]
  simp only [hsame]
  rw [← List.forall₂_eq_eq_eq, List.forall₂_map_left_iff, List.forall₂_map_right_iff]

namespace Retention

/-- A key is left over as often as it is lacking on the right. -/
theorem count_surplus (left right : List String) (key : String) :
    (surplus left right).count key = left.count key - right.count key := by
  rw [surplus, ← List.diff_eq_foldl, List.count_diff]

/-- A key is mismatched as often as the difference of its counts says. -/
theorem count_mismatch (before after : List String) (key : String) :
    (mismatch before after).count key =
      ((before.count key : ℤ) - after.count key).natAbs := by
  have hcount : (mismatch before after).count key =
      (before.count key - after.count key) + (after.count key - before.count key) := by
    rw [mismatch, (Text.sort_perm _ _).count_eq, List.count_append, count_surplus, count_surplus]
  omega

/-- Nothing is mismatched just when both sides have the same keys equally often. -/
theorem mismatch_eq_nil_iff {before after : List String} :
    mismatch before after = [] ↔ (before : Multiset String) = after := by
  rw [List.eq_nil_iff_forall_not_mem, Multiset.ext]
  refine forall_congr' fun key => ?_
  rw [← List.count_eq_zero, count_mismatch, Multiset.coe_count, Multiset.coe_count]
  omega

/-- Mismatched keys are told in alphabetical order. -/
theorem pairwise_mismatch (before after : List String) :
    (mismatch before after).Pairwise (· ≤ ·) := by
  have htotal (a b : String) : decide (a ≤ b) || decide (b ≤ a) := by
    simpa using String.le_total a b
  have htrans (a b c : String) (hab : decide (a ≤ b)) (hbc : decide (b ≤ c)) : decide (a ≤ c) :=
    decide_eq_true (String.le_trans (of_decide_eq_true hab) (of_decide_eq_true hbc))
  exact (Text.pairwise_sort htotal htrans _).imp of_decide_eq_true

/-- The comparison passes just when both texts have the same comments equally often. -/
theorem check_eq_ok_iff {before after : Parsed} :
    check before after = .ok () ↔ (before.commentKeys : Multiset String) = after.commentKeys := by
  rw [← mismatch_eq_nil_iff, check]
  split <;> simp_all

/-- A comparison that does not pass reports all mismatched keys. -/
theorem check_eq_error {before after : Parsed}
    (h : (before.commentKeys : Multiset String) ≠ after.commentKeys) :
    check before after = .error (.lostComments (mismatch before.commentKeys after.commentKeys)) := by
  rw [Ne, ← mismatch_eq_nil_iff] at h
  rw [check]
  split
  · contradiction
  · rfl

end Retention

namespace Formatter

variable {f : Formatter} {options : Options} {entry : EntryPoint} {source output : String}
  {before after : Parsed}

/-- The source is Java, and the output is what the renderer makes of its document. -/
def Prints (f : Formatter) (options : Options) (entry : EntryPoint) (source : String)
    (before : Parsed) (output : String) : Prop :=
  f.parse source entry = .ok before ∧ ∃ as d, before.attach options.tieBreak = .ok as ∧
    Layout.document before as = .ok d ∧ f.render options d = .ok output

/-- An output that is handed out was printed for the source. -/
theorem exists_prints (h : f.format options entry source = .ok output) :
    ∃ before, f.Prints options entry source before output := by
  simp only [format, build, bind, Except.bind, pure, Except.pure] at h
  cases hparse : f.parse source entry with
  | error e => simp [hparse] at h
  | ok before =>
    cases hlayOut : layOut options before with
    | error e => simp [hparse, hlayOut] at h
    | ok d =>
      obtain ⟨as, hattach, hdocument⟩ := layOut_eq_ok_iff.mp hlayOut
      cases hrender : f.render options d with
      | error e => simp [hparse, hlayOut, hrender] at h
      | ok printed =>
        have hprinted : printed = output := by
          simp only [hparse, hlayOut, hrender] at h
          split at h
          · cases h
          · split at h
            · cases h
            · exact Except.ok.inj h
        exact ⟨before, hparse, as, d, hattach, hdocument, hprinted ▸ hrender⟩

/-- Once the output is printed, it is parsed and its comments are compared. -/
theorem format_of_prints (h : f.Prints options entry source before output) :
    f.format options entry source =
      (do let after ← f.reparse entry output; Retention.check before after; return output) := by
  obtain ⟨hparse, as, d, hattach, hdocument, hrender⟩ := h
  have hlayOut := layOut_eq_ok_iff.mpr ⟨as, hattach, hdocument⟩
  simp only [format, build, hparse, hlayOut, hrender, bind, Except.bind, pure, Except.pure]

/-- A printed output that is Java is handed out if no comment is lost. -/
theorem format_of_parsed (h : f.Prints options entry source before output)
    (hparse : f.parse output entry = .ok after) :
    f.format options entry source = (Retention.check before after).map fun _ => output := by
  rw [format_of_prints h, reparse, hparse]
  rfl

/-- A text is handed out just when it was printed for the source and has its comments. -/
theorem format_eq_ok_iff : f.format options entry source = .ok output ↔
    ∃ before after, f.Prints options entry source before output ∧
      f.parse output entry = .ok after ∧
      (before.commentKeys : Multiset String) = after.commentKeys := by
  constructor
  · intro h
    obtain ⟨before, hprints⟩ := exists_prints h
    have hreparse := h
    rw [format_of_prints hprints, reparse] at hreparse
    cases hparse : f.parse output entry with
    | error e => cases e <;> simp [hparse, bind, Except.bind] at hreparse
    | ok after =>
      rw [format_of_parsed hprints hparse] at h
      cases hcheck : Retention.check before after with
      | error e => simp [hcheck, Except.map] at h
      | ok _ => exact ⟨before, after, hprints, rfl, Retention.check_eq_ok_iff.mp hcheck⟩
  · rintro ⟨before, after, hprints, hparse, hkeys⟩
    rw [format_of_parsed hprints hparse, Retention.check_eq_ok_iff.mpr hkeys]
    rfl

/-- The fault of a source is passed on. -/
theorem format_of_parse_error {e : FormatError} (h : f.parse source entry = .error e) :
    f.format options entry source = .error e := by
  simp only [format, build, h, bind, Except.bind]

/-- The fault of an output is one of the formatter. -/
theorem format_of_invalid {e : SyntaxError} (h : f.Prints options entry source before output)
    (hparse : f.parse output entry = .error (.syntaxError e)) :
    f.format options entry source = .error (.invalidOutput e) := by
  rw [format_of_prints h, reparse, hparse]
  rfl

/-- An output with other comments than the source is not handed out. -/
theorem format_of_lost (h : f.Prints options entry source before output)
    (hparse : f.parse output entry = .ok after)
    (hkeys : (before.commentKeys : Multiset String) ≠ after.commentKeys) :
    f.format options entry source =
      .error (.lostComments (Retention.mismatch before.commentKeys after.commentKeys)) := by
  rw [format_of_parsed h hparse, Retention.check_eq_error hkeys]
  rfl

/-- The contract of a formatter, whatever its parser and its renderer do. A text is
handed out just when it was printed for the source, is Java, and has the comments of
the source equally often. The fault of a source is passed on, that of an output is one
of the formatter, and of comments that do not match each is told as often as its counts
differ. Two comments count as one just when they have the same lines up to the white space
around them. -/
theorem format_contract (f : Formatter) (options : Options) (entry : EntryPoint)
    (source : String) :
    (∀ c d : Comment, c.key = d.key ↔ c.SameLines d) ∧
    (∀ output, f.format options entry source = .ok output ↔
      ∃ before after, f.Prints options entry source before output ∧
        f.parse output entry = .ok after ∧
        (before.commentKeys : Multiset String) = after.commentKeys) ∧
    (∀ e, f.parse source entry = .error (.syntaxError e) →
      f.format options entry source = .error (.syntaxError e)) ∧
    ∀ before output, f.Prints options entry source before output →
      (∀ e, f.parse output entry = .error (.syntaxError e) →
        f.format options entry source = .error (.invalidOutput e)) ∧
      ∀ after, f.parse output entry = .ok after →
        (before.commentKeys : Multiset String) ≠ after.commentKeys →
        ∃ keys, f.format options entry source = .error (.lostComments keys) ∧
          keys.Pairwise (· ≤ ·) ∧
          ∀ key, keys.count key =
            ((before.commentKeys.count key : ℤ) - after.commentKeys.count key).natAbs := by
  refine ⟨fun c d => Comment.key_eq_key_iff, fun output => format_eq_ok_iff,
    fun e => format_of_parse_error, fun before output hprints => ⟨fun e => format_of_invalid hprints, ?_⟩⟩
  intro after hparse hkeys
  exact ⟨_, format_of_lost hprints hparse hkeys, Retention.pairwise_mismatch _ _,
    Retention.count_mismatch _ _⟩

/-- A formatter that reads every text but one as a package declaration with a comment,
and prints every document as that one text, which has none. -/
def forgetful : Formatter where
  parse text _ :=
    if text = "package a;" then .ok (.package (Source.ofText "package a;") [])
    else .ok .remarkedPackage
  render _ _ := .ok "package a;"

/-- A block comment of two lines with so many blanks in front of the second one. -/
def blockOf (width : Nat) : Comment :=
  ⟨"/*\n" ++ String.ofList (List.replicate width ' ') ++ "b */", false,
    ⟨⟨11, 0, 11⟩, ⟨18 + width, 1, 4 + width⟩⟩⟩

/-- A formatter that reads every text but one as a package declaration with a block comment,
and prints every document as that one text, in which the comment is indented anew. -/
def reindenting : Formatter where
  parse text _ :=
    if text = "package a; /*\n b */" then .ok (.package (Source.ofText text) [blockOf 1])
    else .ok (.package (Source.ofText text) [blockOf 4])
  render _ _ := .ok "package a; /*\n b */"

/-- What parsing a source comes to is printed if it is a package declaration, whatever comments
it has. -/
theorem prints_package {f : Formatter} {source output : String} {comments : List Comment}
    (hparse : f.parse source .compilationUnit = .ok (.package (Source.ofText source) comments))
    (hrender : ∀ d, f.render {} d = .ok output) :
    f.Prints {} .compilationUnit source (.package (Source.ofText source) comments) output := by
  obtain ⟨as, -, d, hattach, hlayOut, -⟩ :=
    exists_layOut {} (Parsed.wellShaped_package (Source.ofText source) comments)
  obtain ⟨as', hattach', hdocument⟩ := layOut_eq_ok_iff.mp hlayOut
  exact ⟨hparse, as', d, hattach', hdocument, hrender d⟩

/-- A comment that a renderer leaves out is told; one that it indents anew is kept. -/
theorem format_contract_forgetful :
    (∃ keys, forgetful.format {} .compilationUnit "package a; // b" = .error (.lostComments keys) ∧
      keys.Pairwise (· ≤ ·) ∧ keys.count "// b" = 1) ∧
    reindenting.format {} .compilationUnit "package a; /*\n    b */" = .ok "package a; /*\n b */" ∧
    (blockOf 4).text ≠ (blockOf 1).text := by
  refine ⟨?_, ?_, by decide⟩
  · have hprints : forgetful.Prints {} .compilationUnit "package a; // b" .remarkedPackage
        "package a;" := prints_package rfl fun _ => rfl
    obtain ⟨keys, hformat, hsorted, hcount⟩ :=
      ((format_contract forgetful {} .compilationUnit "package a; // b").2.2.2 _ _ hprints).2
        (.package (Source.ofText "package a;") []) rfl (by decide)
    exact ⟨keys, hformat, hsorted, by rw [hcount]; decide⟩
  · obtain ⟨hkeys, hformats, -⟩ :=
      format_contract reindenting {} .compilationUnit "package a; /*\n    b */"
    have hsame : (blockOf 4).SameLines (blockOf 1) := by
      refine .cons ⟨"/*", Text.trim_eq_iff.mp (by decide), Text.trim_eq_iff.mp (by decide)⟩
        (.cons ⟨"b */", Text.trim_eq_iff.mp (by decide), Text.trim_eq_iff.mp (by decide)⟩ .nil)
    refine (hformats _).mpr ⟨_, _, prints_package rfl fun _ => rfl, rfl, ?_⟩
    rw [Parsed.commentKeys, Parsed.commentKeys]
    exact congrArg (fun key => (([key] : List String) : Multiset String)) ((hkeys _ _).mpr hsame)

end Formatter

end JavaFormat
