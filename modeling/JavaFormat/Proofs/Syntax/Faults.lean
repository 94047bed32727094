import JavaFormat.Proofs.Syntax.Fragment
import JavaFormat.Proofs.Text.Utf8
import JavaFormat.Syntax.FaultSearch
import Mathlib.Data.List.TakeWhile

/-!
# The fault that is reported, and where

The search for a fault looks at the root and the nodes that the marks lead to, each before
the nodes below it, and comes to the first of them that is at fault. Where that node begins
is said in lines and columns of the fragment, not of the scaffold around it: the text in
front of a fragment ends with a line feed, so only the lines have to be counted from another
one.
-/

namespace JavaFormat

/-! ## Places in a scaffold -/

namespace Source

/-- What stands behind whole lines has its own columns, and its own lines when those are not
counted. -/
theorem position_append {front : List UInt8}
    (hfront : front = [] ∨ front.getLast? = some lineFeed) (middle : Source) (back : List UInt8)
    {k : Nat} (hk : k ≤ middle.bytes.length) :
    (position ⟨front ++ middle.bytes ++ back⟩ (front.length + k)).line =
        front.count lineFeed + (middle.position k).line ∧
      (position ⟨front ++ middle.bytes ++ back⟩ (front.length + k)).column =
        (middle.position k).column := by
  have htake : (front ++ middle.bytes ++ back).take (front.length + k) =
      front ++ middle.bytes.take k := by
    rw [List.append_assoc, List.take_length_add_append, List.take_append_of_le_length hk]
  have hstop : front.reverse.takeWhile (· != lineFeed) = [] := by
    rcases hfront with rfl | hlast
    · rfl
    · obtain ⟨init, rfl⟩ := List.getLast?_eq_some_iff.mp hlast
      simp
  constructor
  · simp only [position, htake, List.count_append]
  · simp only [position, htake, List.reverse_append]
    rw [List.takeWhile_append, hstop]
    split <;> simp_all

end Source

namespace EntryPoint

/-- The text of a fragment as it is read. -/
def fragment (source : String) : Source := Source.ofText (Text.unifyNewlines source)

/-- The bytes of a scaffold are those of a fragment between those of its opening and closing. -/
theorem ofText_scaffolded (entry : EntryPoint) (source : String) :
    Source.ofText (entry.scaffolded source) =
      ⟨Text.Utf8.encode entry.opening ++ (fragment source).bytes ++
        Text.Utf8.encode entry.closing⟩ := by
  simp only [Source.ofText, scaffolded, fragment, Text.Utf8.encode_append]

/-- A place in a fragment is on as many more lines of its scaffold as there are in front. -/
theorem position_scaffolded (entry : EntryPoint) (source : String) {k : Nat}
    (hk : k ≤ (fragment source).bytes.length) :
    let p := (Source.ofText (entry.scaffolded source)).position (entry.fragmentStart + k)
    p.line = entry.openingLines + ((fragment source).position k).line ∧
      p.column = ((fragment source).position k).column := by
  have hlast : Text.Utf8.encode entry.opening = [] ∨
      (Text.Utf8.encode entry.opening).getLast? = some Source.lineFeed := by
    cases entry <;> decide
  have hlines : (Text.Utf8.encode entry.opening).count Source.lineFeed = entry.openingLines := by
    cases entry <;> decide
  rw [ofText_scaffolded, fragmentStart, ← hlines]
  exact Source.position_append hlast (fragment source) (Text.Utf8.encode entry.closing) hk

end EntryPoint

/-! ## The first fault -/

namespace Concrete

mutual

/-- The root and the nodes that marks lead to from it, each before the nodes below it. -/
def suspects : Concrete → List ConcreteInfo
  | .node info children => info :: suspectsOfAll children

/-- The marked ones of several trees and the nodes that marks lead to from them. -/
def suspectsOfAll : List Concrete → List ConcreteInfo
  | [] => []
  | t :: ts => (if t.info.isMarked then t.suspects else []) ++ suspectsOfAll ts

end

/-- What a search of a node looks at is the node and what it looks at below. -/
theorem suspects_eq (t : Concrete) : t.suspects = t.info :: suspectsOfAll t.children := by
  cases t with
  | node info children => rfl

/-- What a search looks at below several nodes comes from those that are marked. -/
theorem suspectsOfAll_eq_flatMap (ts : List Concrete) :
    suspectsOfAll ts = (ts.filter (·.info.isMarked)).flatMap suspects := by
  induction ts with
  | nil => rfl
  | cons t ts ih =>
    rw [suspectsOfAll, ih, List.filter_cons]
    split <;> simp

mutual

/-- Following the structure of a tree comes to the first suspect that is at fault. -/
theorem firstFault?_eq_find? : ∀ t : Concrete, t.firstFault? = t.suspects.find? ConcreteInfo.isFault
  | .node info children => by
    rw [firstFault?, suspects, List.find?_cons, firstFaultBelow?_eq_find? children]
    cases info.isFault <;> rfl

/-- The first fault below several nodes is the first among all that the search looks at there. -/
theorem firstFaultBelow?_eq_find? : ∀ ts : List Concrete,
    firstFaultBelow? ts = (suspectsOfAll ts).find? ConcreteInfo.isFault
  | [] => rfl
  | t :: ts => by
    rw [firstFaultBelow?, suspectsOfAll, List.find?_append, firstFault?_eq_find? t,
      firstFaultBelow?_eq_find? ts]
    split
    · cases t.suspects.find? ConcreteInfo.isFault <;> rfl
    · rfl

end

/-- A node that is not at fault gives way to its suspects. -/
theorem flatMap_suspects_searchBelow {stack : List Concrete} {t : Concrete}
    (h : stack.getLast? = some t) : stack.reverse.flatMap suspects =
      t.info :: (searchBelow stack t).reverse.flatMap suspects := by
  obtain ⟨init, rfl⟩ := List.getLast?_eq_some_iff.mp h
  rw [searchBelow, List.dropLast_concat, List.reverse_append, List.reverse_append,
    List.filter_reverse, List.reverse_reverse, List.flatMap_append, List.flatMap_append,
    ← suspectsOfAll_eq_flatMap, List.reverse_singleton, List.flatMap_singleton, suspects_eq,
    List.cons_append]

/-- The search comes to the first fault among the suspects of the nodes on its stack, the last
of which comes first. -/
theorem searchFault?_eq_find? (stack : List Concrete) :
    searchFault? stack = (stack.reverse.flatMap suspects).find? ConcreteInfo.isFault := by
  fun_induction searchFault? stack with
  | case1 stack h =>
    rw [List.getLast?_eq_none_iff.mp h]
    rfl
  | case2 stack t h hfault =>
    rw [flatMap_suspects_searchBelow h, List.find?_cons, hfault]
  | case3 stack t h hfault ih =>
    rw [flatMap_suspects_searchBelow h, List.find?_cons, Bool.eq_false_iff.mpr hfault]
    exact ih

/-! ## The report -/

/-- Whether a syntax error tells of a node of the tree of a scaffolded source. A node that begins
in the fragment is placed by the lines and columns of the fragment, which count from one. -/
structure Told (entry : EntryPoint) (text : String) (info : ConcreteInfo) (e : SyntaxError) :
    Prop where
  fault : e.fault = if info.missing then .missing info.type
    else .unexpected (snippet (Source.ofText (entry.scaffolded text)) info)
  place : ∀ k ≤ (EntryPoint.fragment text).bytes.length, info.start = entry.fragmentStart + k →
    e.line = ((EntryPoint.fragment text).position k).line + 1 ∧
      e.column = ((EntryPoint.fragment text).position k).column + 1

/-- The error of a tree tells of its first fault. -/
theorem told_syntaxError (entry : EntryPoint) (text : String) {t : Concrete} {info : ConcreteInfo}
    (h : t.suspects.find? ConcreteInfo.isFault = some info) :
    Told entry text info (t.syntaxError (Source.ofText (entry.scaffolded text)) entry) := by
  rw [syntaxError, firstFault?_eq_find?, h]
  refine ⟨rfl, fun k hk hstart => ?_⟩
  obtain ⟨hline, hcolumn⟩ := entry.position_scaffolded text hk
  dsimp only
  rw [hstart, hline, hcolumn, Nat.add_sub_cancel_left]
  exact ⟨rfl, rfl⟩

end Concrete

/-- A source whose tree is marked as faulty is refused for the first node at fault among the root
and the nodes that marks lead to from it, which is what the search on a stack comes to; and if
that node begins in the fragment, the error names its line and column there. If there is no
such node the source as a whole is refused. -/
theorem Grammar.parse_first_fault (grammar : Grammar) (text : String) (entry : EntryPoint)
    (h : (grammar (Source.ofText (entry.scaffolded text))).info.faulty = true) :
    let t := grammar (Source.ofText (entry.scaffolded text))
    ∃ e, grammar.parse text entry = .error (.syntaxError e) ∧
      Concrete.searchFault? [t] = t.suspects.find? ConcreteInfo.isFault ∧
      (∀ info, t.suspects.find? ConcreteInfo.isFault = some info →
        Concrete.Told entry text info e) ∧
      (t.suspects.find? ConcreteInfo.isFault = none → e = ⟨.invalid, 1, 1⟩) := by
  intro t
  refine ⟨t.syntaxError (Source.ofText (entry.scaffolded text)) entry, ?_, ?_, ?_, ?_⟩
  · rw [parse, Parsed.ofConcrete, if_pos h]
    rfl
  · rw [Concrete.searchFault?_eq_find?, List.reverse_singleton, List.flatMap_singleton]
  · exact fun info => Concrete.told_syntaxError entry text
  · intro hnone
    rw [Concrete.syntaxError, Concrete.firstFault?_eq_find?, hnone]

/-- A tree of statements: an unmarked node that would be at fault, a marked one with nothing at
fault below it, and a node at fault on the second line. -/
def faultyStatements : Concrete :=
  .node ⟨"program", true, 0, 68, none, false, true⟩
    [.node ⟨"ERROR", true, 53, 55, none, false, false⟩ [],
      .node ⟨"block", true, 53, 56, none, false, true⟩ [],
      .node ⟨"block", true, 53, 60, none, false, true⟩
        [.node ⟨"ERROR", true, 59, 60, none, false, true⟩ []]]

/-- The fault is on the second line of the fragment, behind two blanks. -/
theorem Grammar.parse_first_fault_faultyStatements :
    faultyStatements.info.faulty = true ∧ ∃ e,
      Grammar.parse (fun _ => faultyStatements) "é;
  %" .blockStatements =
        .error (.syntaxError e) ∧ e.fault = .unexpected "%" ∧ e.line = 2 ∧ e.column = 3 := by
  obtain ⟨e, hparse, -, htold, -⟩ :=
    Grammar.parse_first_fault (fun _ => faultyStatements) "é;
  %" .blockStatements rfl
  have hfirst : faultyStatements.suspects.find? ConcreteInfo.isFault =
      some ⟨"ERROR", true, 59, 60, none, false, true⟩ := by decide
  obtain ⟨hfault, hplace⟩ := htold _ hfirst
  obtain ⟨hline, hcolumn⟩ := hplace 6 (by decide) (by decide)
  refine ⟨rfl, e, hparse, hfault.trans ?_, hline.trans ?_, hcolumn.trans ?_⟩
  · decide
  · decide
  · decide

end JavaFormat
