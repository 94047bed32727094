import JavaFormat.Doc.Breaks

/-!
# Going through a document for its breaks

The groups that cannot stay on one line are found in one walk over the document. The walk
works off a stack of visits. A group is visited twice: it is decided when it is left, after
all that is inside it. Two more stacks go with the groups that have been entered and not
left: their places, and for each of them, and for the document around them, whether a break
has been met in it so far. What is inside a suffix is not visited.

A group is told by its place, because the same group may stand in a document more than once.
-/

namespace JavaFormat.Doc

/-- Where a part stands in a document: the number of the part that is gone into at each level,
from the outside in. -/
abbrev Place := List Nat

/-- The documents directly inside a document. -/
def parts : Doc → List Doc
  | .concat parts | .fill parts => parts
  | .choice states => states
  | .group _ contents | .indent contents | .suffix contents => [contents]
  | .text _ | .line _ | .breakParent => []

/-- The documents directly inside a document whose breaks it takes part in: none for a
suffix. -/
def openParts : Doc → List Doc
  | .suffix _ => []
  | d => d.parts

/-- The part of a document at a place, if there is one. -/
def at? : Doc → Place → Option Doc
  | d, [] => some d
  | d, i :: place => d.parts[i]?.bind (at? · place)

/-- The part of a document at a place that is reached without going into a suffix. -/
def reach? : Doc → Place → Option Doc
  | d, [] => some d
  | d, i :: place => d.openParts[i]?.bind (reach? · place)

/-- Something to be done on the walk. -/
inductive Visit where
  /-- Go into the document at a place. -/
  | enter (place : Place) (d : Doc)
  /-- Leave the group that was entered last. -/
  | leave

/-- The state of the walk. -/
structure Walk where
  /-- What is still to be done, the next first. -/
  visits : List Visit
  /-- The groups that have been entered and not left, the innermost first. -/
  groups : List Place := []
  /-- Whether a break has been met in each of these groups, and last in the document. -/
  pending : List Bool := [false]
  /-- The groups found to break. -/
  broken : List Place := []

/-- What a step of the walk came to. -/
inductive Walk.Step where
  | next (w : Walk)
  | done
  /-- One of the two stacks that go with the groups was empty. -/
  | underflow

/-- Visit documents that stand side by side, the first of them being number `i`. -/
def enterAll (place : Place) (i : Nat) : List Doc → List Visit
  | [] => []
  | d :: ds => .enter (place ++ [i]) d :: enterAll place (i + 1) ds

/-- Put visits in front of what is still to be done. -/
def Walk.push (w : Walk) (visits : List Visit) : Walk := { w with visits := visits ++ w.visits }

/-- Note that a break has been met in the group entered last. -/
def Walk.note (w : Walk) : Walk.Step :=
  match w.pending with
  | _ :: outer => .next { w with pending := true :: outer }
  | [] => .underflow

/-- Leave the group entered last. If a break has been met in it, the group breaks, and so does
what is around it. -/
def Walk.leave (w : Walk) : Walk.Step :=
  match w.groups, w.pending with
  | place :: groups, met :: outer =>
    let w := { w with groups := groups, pending := outer }
    if met then { w with broken := place :: w.broken }.note else .next w
  | _, _ => .underflow

/-- Go into a document; `w` is the state without the visit. -/
def Walk.enter (w : Walk) (place : Place) : Doc → Walk.Step
  | .breakParent => w.note
  | .group _ contents =>
    .next ({ w with groups := place :: w.groups, pending := false :: w.pending }.push
      [.enter (place ++ [0]) contents, .leave])
  | .concat parts => .next (w.push (enterAll place 0 parts))
  | .fill parts => .next (w.push (enterAll place 0 parts))
  | .choice states => .next (w.push (enterAll place 0 states))
  | .indent contents => .next (w.push [.enter (place ++ [0]) contents])
  | .text _ => .next w
  | .line _ => .next w
  | .suffix _ => .next w

/-- One step of the walk. -/
def Walk.step (w : Walk) : Walk.Step :=
  match w.visits with
  | [] => .done
  | .leave :: visits => { w with visits := visits }.leave
  | .enter place d :: visits => { w with visits := visits }.enter place d

/-- Go on with the walk to its end. There is no result if an empty stack was popped, or if the
walk takes longer than the fuel lasts. -/
def Walk.run : Nat → Walk → Option (List Place)
  | 0, _ => none
  | fuel + 1, w =>
    match w.step with
    | .next w' => run fuel w'
    | .done => some w.broken
    | .underflow => none

mutual

/-- How many visits there are in a document. -/
def visitCount : Doc → Nat
  | .text _ => 1
  | .concat parts => 1 + visitCountAll parts
  | .group _ contents => 2 + visitCount contents
  | .choice states => 1 + visitCountAll states
  | .indent contents => 1 + visitCount contents
  | .fill parts => 1 + visitCountAll parts
  | .line _ => 1
  | .suffix _ => 1
  | .breakParent => 1

/-- How many visits there are in several documents. -/
def visitCountAll : List Doc → Nat
  | [] => 0
  | d :: ds => visitCount d + visitCountAll ds

end

/-- The places of the groups that a walk over the document finds to break. -/
def breakWalk? (d : Doc) : Option (List Place) :=
  Walk.run (d.visitCount + 1) { visits := [.enter [] d] }

mutual

/-- For each group of a document, those in suffixes included, whether its place is among the
given ones, in the order of `groupMarks`. -/
def marksAt (broken : List Place) (place : Place) : Doc → List Bool
  | .text _ => []
  | .concat parts => marksAtAll broken place 0 parts
  | .group _ contents => broken.contains place :: marksAt broken (place ++ [0]) contents
  | .choice states => marksAtAll broken place 0 states
  | .indent contents => marksAt broken (place ++ [0]) contents
  | .fill parts => marksAtAll broken place 0 parts
  | .line _ => []
  | .suffix contents => marksAt broken (place ++ [0]) contents
  | .breakParent => []

/-- The same for documents that stand side by side. -/
def marksAtAll (broken : List Place) (place : Place) (i : Nat) : List Doc → List Bool
  | [] => []
  | d :: ds => marksAt broken (place ++ [i]) d ++ marksAtAll broken place (i + 1) ds

end

/-- For each group of a document whether the walk finds it to break. -/
def walkedMarks? (d : Doc) : Option (List Bool) :=
  d.breakWalk?.map fun broken => d.marksAt broken []

end JavaFormat.Doc
