import JavaFormat.Proofs.Doc.BreakWalk
import JavaFormat.Proofs.Doc.Closing
import JavaFormat.Proofs.Doc.Correspondence

/-!
# Concatenations do not show

How concatenations are nested, where empty texts stand and whether a single part is put
into a concatenation of its own has no influence on what is printed. The atoms of a
document are what is left when all concatenations in it are opened and empty texts are
dropped; documents with the same atoms are marked and measured alike. The renderer opens a
concatenation, and prints an empty text, without anything else being changed, so between
two such steps it does the same for documents with the same atoms (`State.Alike.step`).
-/

namespace JavaFormat.Doc

mutual

/-- The parts of a document that are no concatenations or empty texts, what is inside them
being put together from its own atoms. -/
def atoms : Doc → List Doc
  | .text s => if s.isEmpty then [] else [.text s]
  | .concat parts => atomsAll parts
  | .group marked contents => [.group marked (.concat (atoms contents))]
  | .choice states => [.choice (bundles states)]
  | .indent contents => [.indent (.concat (atoms contents))]
  | .fill parts => [.fill (bundles parts)]
  | .line style => [.line style]
  | .suffix contents => [.suffix (.concat (atoms contents))]
  | .breakParent => [.breakParent]

/-- The atoms of several documents, one after the other. -/
def atomsAll : List Doc → List Doc
  | [] => []
  | d :: ds => atoms d ++ atomsAll ds

/-- Several documents, each of them put together from its own atoms. -/
def bundles : List Doc → List Doc
  | [] => []
  | d :: ds => .concat (atoms d) :: bundles ds

end

/-- Whether two documents have the same atoms. -/
def Alike (d e : Doc) : Prop := d.atoms = e.atoms

/-! ## Building documents -/

/-- The atoms of two lists together. -/
theorem atomsAll_append (ds es : List Doc) : atomsAll (ds ++ es) = atomsAll ds ++ atomsAll es := by
  induction ds with
  | nil => rfl
  | cons d ds ih => rw [List.cons_append, atomsAll, atomsAll, ih, List.append_assoc]

/-- The bundles of two lists together. -/
theorem bundles_append (ds es : List Doc) : bundles (ds ++ es) = bundles ds ++ bundles es := by
  induction ds with
  | nil => rfl
  | cons d ds ih => rw [List.cons_append, bundles, bundles, ih, List.cons_append]

/-- The parts that a document is taken apart into have its atoms. -/
theorem atomsAll_flatten (d : Doc) : atomsAll d.flatten = d.atoms := by
  rcases flatten_cases d with ⟨rfl, h⟩ | ⟨parts, rfl, h⟩ | h
  all_goals simp [h, atomsAll, atoms]

/-- Taking the documents of a list apart changes none of the atoms. -/
theorem atomsAll_flatMap_flatten (ds : List Doc) : atomsAll (ds.flatMap flatten) = atomsAll ds := by
  induction ds with
  | nil => rfl
  | cons d ds ih => rw [List.flatMap_cons, atomsAll_append, atomsAll_flatten, ih, atomsAll]

/-- A document that is put together has the atoms of its parts. -/
theorem atoms_ofParts (ds : List Doc) : (ofParts ds).atoms = atomsAll ds := by
  unfold ofParts
  split
  · rw [atomsAll, atomsAll, List.append_nil]
  · rfl

/-- Documents put together by `cat` have the atoms of their raw concatenation. -/
theorem alike_concat_cat (ds : List Doc) : Alike (.concat ds) (cat ds) := by
  rw [Alike, cat, atoms_ofParts, atomsAll_flatMap_flatten, atoms]

/-- Documents are alike one by one if their bundles are the same. -/
theorem forall₂_alike_iff {ds es : List Doc} :
    List.Forall₂ Alike ds es ↔ bundles ds = bundles es := by
  induction ds generalizing es with
  | nil => cases es <;> simp [bundles]
  | cons d ds ih => cases es <;> simp [bundles, Alike, ih]

/-- Documents that are alike one by one have the same atoms. -/
theorem atomsAll_eq_of_alike {ds es : List Doc} (h : List.Forall₂ Alike ds es) :
    atomsAll ds = atomsAll es := by
  induction h with
  | nil => rfl
  | cons h _ ih => rw [atomsAll, atomsAll, h, ih]

/-! ## Marks -/

/-- Two lists break if one of them does. -/
theorem breaksAny_append (ds es : List Doc) :
    breaksAny (ds ++ es) = (breaksAny ds || breaksAny es) := by
  induction ds with
  | nil => rfl
  | cons d ds ih => rw [List.cons_append, breaksAny, breaksAny, ih, Bool.or_assoc]

/-- The group marks of two lists together. -/
theorem groupMarksAll_append (ds es : List Doc) :
    groupMarksAll (ds ++ es) = groupMarksAll ds ++ groupMarksAll es := by
  induction ds with
  | nil => rfl
  | cons d ds ih => rw [List.cons_append, groupMarksAll, groupMarksAll, ih, List.append_assoc]

mutual

/-- A document breaks the groups around it if one of its atoms does. -/
theorem breaks_eq_atoms : ∀ d : Doc, d.breaks = breaksAny d.atoms
  | .text s => by
    rw [atoms]
    split <;> rfl
  | .concat parts => breaksAny_eq_atomsAll parts
  | .group marked contents => by
    rw [atoms, breaksAny, breaks, breaks, breaks, breaksAny, Bool.or_false,
      breaks_eq_atoms contents]
  | .choice states => by
    rw [atoms, breaksAny, breaks, breaks, breaksAny, Bool.or_false, breaksAny_bundles states]
  | .indent contents => by
    rw [atoms, breaksAny, breaks, breaks, breaks, breaksAny, Bool.or_false,
      breaks_eq_atoms contents]
  | .fill parts => by
    rw [atoms, breaksAny, breaks, breaks, breaksAny, Bool.or_false, breaksAny_bundles parts]
  | .line _ => rfl
  | .suffix _ => rfl
  | .breakParent => rfl

/-- A list breaks if its atoms do. -/
theorem breaksAny_eq_atomsAll : ∀ ds : List Doc, breaksAny ds = breaksAny (atomsAll ds)
  | [] => rfl
  | d :: ds => by
    rw [atomsAll, breaksAny_append, breaksAny, breaks_eq_atoms d, breaksAny_eq_atomsAll ds]

/-- A list breaks if its bundles do. -/
theorem breaksAny_bundles : ∀ ds : List Doc, breaksAny ds = breaksAny (bundles ds)
  | [] => rfl
  | d :: ds => by
    rw [bundles, breaksAny, breaksAny, breaks, breaks_eq_atoms d, breaksAny_bundles ds]

end

mutual

/-- Marking groups marks the groups among the atoms and inside them. -/
theorem atoms_markBreaks : ∀ d : Doc, d.markBreaks.atoms = markBreaksAll d.atoms
  | .text s => by
    rw [markBreaks, atoms]
    split <;> rfl
  | .concat parts => atomsAll_markBreaksAll parts
  | .group marked contents => by
    have hbreaks : contents.markBreaks.breaks = breaksAny (markBreaksAll contents.atoms) := by
      rw [breaks_eq_atoms, atoms_markBreaks contents]
    simp only [markBreaks, atoms, markBreaksAll, breaks, hbreaks, atoms_markBreaks contents]
  | .choice states => by
    simp only [markBreaks, atoms, markBreaksAll, bundles_markBreaksAll states]
  | .indent contents => by
    simp only [markBreaks, atoms, markBreaksAll, atoms_markBreaks contents]
  | .fill parts => by
    simp only [markBreaks, atoms, markBreaksAll, bundles_markBreaksAll parts]
  | .line _ => rfl
  | .suffix _ => rfl
  | .breakParent => rfl

/-- The atoms of marked documents are the atoms, marked. -/
theorem atomsAll_markBreaksAll : ∀ ds : List Doc,
    atomsAll (markBreaksAll ds) = markBreaksAll (atomsAll ds)
  | [] => rfl
  | d :: ds => by
    rw [markBreaksAll, atomsAll, atomsAll, markBreaksAll_append, atoms_markBreaks d,
      atomsAll_markBreaksAll ds]

/-- The bundles of marked documents are the bundles, marked. -/
theorem bundles_markBreaksAll : ∀ ds : List Doc,
    bundles (markBreaksAll ds) = markBreaksAll (bundles ds)
  | [] => rfl
  | d :: ds => by
    rw [markBreaksAll, bundles, bundles, markBreaksAll, markBreaks, atoms_markBreaks d,
      bundles_markBreaksAll ds]

end

mutual

/-- The groups of a document are those of its atoms. -/
theorem groupMarks_eq_atoms : ∀ d : Doc, d.groupMarks = groupMarksAll d.atoms
  | .text s => by
    rw [atoms]
    split <;> rfl
  | .concat parts => groupMarksAll_eq_atomsAll parts
  | .group marked contents => by
    simp only [atoms, groupMarksAll, groupMarks, groupMarks_eq_atoms contents, List.append_nil]
  | .choice states => by
    simp only [atoms, groupMarksAll, groupMarks, groupMarksAll_bundles states, List.append_nil]
  | .indent contents => by
    simp only [atoms, groupMarksAll, groupMarks, groupMarks_eq_atoms contents, List.append_nil]
  | .fill parts => by
    simp only [atoms, groupMarksAll, groupMarks, groupMarksAll_bundles parts, List.append_nil]
  | .line _ => rfl
  | .suffix contents => by
    simp only [atoms, groupMarksAll, groupMarks, groupMarks_eq_atoms contents, List.append_nil]
  | .breakParent => rfl

/-- A list has the group marks of its atoms. -/
theorem groupMarksAll_eq_atomsAll : ∀ ds : List Doc,
    groupMarksAll ds = groupMarksAll (atomsAll ds)
  | [] => rfl
  | d :: ds => by
    rw [atomsAll, groupMarksAll_append, groupMarksAll, groupMarks_eq_atoms d,
      groupMarksAll_eq_atomsAll ds]

/-- A list has the group marks of its bundles. -/
theorem groupMarksAll_bundles : ∀ ds : List Doc, groupMarksAll ds = groupMarksAll (bundles ds)
  | [] => rfl
  | d :: ds => by
    rw [bundles, groupMarksAll, groupMarksAll, groupMarks, groupMarks_eq_atoms d,
      groupMarksAll_bundles ds]

end

/-- Documents with the same atoms are marked alike. -/
theorem Alike.markBreaks {d e : Doc} (h : d.Alike e) : d.markBreaks.Alike e.markBreaks := by
  rw [Alike, atoms_markBreaks, atoms_markBreaks, h]

/-- Documents that are alike have the same group marks. -/
theorem Alike.groupMarks_eq {d e : Doc} (h : d.Alike e) : d.groupMarks = e.groupMarks := by
  rw [groupMarks_eq_atoms, groupMarks_eq_atoms, h]

/-! ## Measuring -/

mutual

/-- A document is measured as its atoms are, one after the other. -/
theorem fit_eq_atoms {strict : Bool} : ∀ (d : Doc) (mode : Mode) (width : Nat),
    fit strict mode width d = fitAll strict mode width d.atoms
  | .text s, mode, width => by
    rw [atoms]
    split
    · rename_i h
      have hlength : s.length = 0 := by simpa using h
      simp [fit, fitAll, hlength]
    · exact fitAll_single.symm
  | .concat parts, mode, width => by
    rw [fit, atoms, fitAll_eq_atomsAll parts]
  | .group marked contents, mode, width => by
    rw [atoms, fitAll_single, fit, fit, fit, fit_eq_atoms contents]
  | .choice states, .broken, width => by
    rw [atoms, fitAll_single, fit, fit, fitLast_bundles states]
  | .choice states, .flat, width => by
    rw [atoms, fitAll_single, fit, fit, fitFirst_bundles states]
  | .indent contents, mode, width => by
    rw [atoms, fitAll_single, fit, fit, fit, fit_eq_atoms contents]
  | .fill parts, mode, width => by
    rw [atoms, fitAll_single, fit, fit, fitAll_bundles parts]
  | .line _, mode, width => fitAll_single.symm
  | .suffix _, mode, width => by
    rw [atoms, fitAll_single, fit, fit]
  | .breakParent, mode, width => fitAll_single.symm

/-- A list fits as its atoms do. -/
theorem fitAll_eq_atomsAll {strict : Bool} : ∀ (ds : List Doc) (mode : Mode) (width : Nat),
    fitAll strict mode width ds = fitAll strict mode width (atomsAll ds)
  | [], _, _ => rfl
  | d :: ds, mode, width => by
    rw [atomsAll, fitAll_append, fitAll_cons, fit_eq_atoms d]
    exact congrArg (Fit.andThen _) (funext fun left => fitAll_eq_atomsAll ds mode left)

/-- A list fits as its bundles do. -/
theorem fitAll_bundles {strict : Bool} : ∀ (ds : List Doc) (mode : Mode) (width : Nat),
    fitAll strict mode width ds = fitAll strict mode width (bundles ds)
  | [], _, _ => rfl
  | d :: ds, mode, width => by
    rw [bundles, fitAll_cons, fitAll_cons, fit, fit_eq_atoms d]
    exact congrArg (Fit.andThen _) (funext fun left => fitAll_bundles ds mode left)

/-- The first of several documents fits as the first of their bundles does. -/
theorem fitFirst_bundles {strict : Bool} : ∀ (ds : List Doc) (mode : Mode) (width : Nat),
    fitFirst strict mode width ds = fitFirst strict mode width (bundles ds)
  | [], _, _ => rfl
  | d :: _, mode, width => by rw [bundles, fitFirst, fitFirst, fit, fit_eq_atoms d]

/-- The last of several documents fits as the last of their bundles does. -/
theorem fitLast_bundles {strict : Bool} : ∀ (ds : List Doc) (mode : Mode) (width : Nat),
    fitLast strict mode width ds = fitLast strict mode width (bundles ds)
  | [], _, _ => rfl
  | [d], mode, width => by
    simp only [bundles, fitLast, fit]
    exact fit_eq_atoms d mode width
  | _ :: e :: es, mode, width => by
    simp only [bundles, fitLast]
    exact fitLast_bundles (e :: es) mode width

end

end JavaFormat.Doc
