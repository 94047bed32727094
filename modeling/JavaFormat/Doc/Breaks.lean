import JavaFormat.Doc.Basic

/-!
# Break propagation

A group that holds a `breakParent` cannot stay on one line, and neither can the
groups around it. `markBreaks` writes this into the marks of the groups before a
document is rendered. What is inside a suffix is printed later and elsewhere, so
it breaks no group and its groups are left as they are.
-/

namespace JavaFormat.Doc

mutual

/-- Whether a document breaks the groups around it. -/
def breaks : Doc → Bool
  | .text _ => false
  | .concat parts => breaksAny parts
  | .group broken contents => broken || breaks contents
  | .choice states => breaksAny states
  | .indent contents => breaks contents
  | .fill parts => breaksAny parts
  | .line _ => false
  | .suffix _ => false
  | .breakParent => true

/-- Whether one of several documents breaks the groups around it. -/
def breaksAny : List Doc → Bool
  | [] => false
  | d :: ds => breaks d || breaksAny ds

end

mutual

/-- The same document with every group marked that cannot stay on one line. -/
def markBreaks : Doc → Doc
  | .text s => .text s
  | .concat parts => .concat (markBreaksAll parts)
  | .group broken contents =>
    let marked := markBreaks contents
    .group (broken || breaks marked) marked
  | .choice states => .choice (markBreaksAll states)
  | .indent contents => .indent (markBreaks contents)
  | .fill parts => .fill (markBreaksAll parts)
  | .line style => .line style
  | .suffix contents => .suffix contents
  | .breakParent => .breakParent

/-- The same documents with their groups marked. -/
def markBreaksAll : List Doc → List Doc
  | [] => []
  | d :: ds => markBreaks d :: markBreaksAll ds

end

mutual

/-- The marks of all groups, those in suffixes included, each group before the
groups inside it. -/
def groupMarks : Doc → List Bool
  | .text _ => []
  | .concat parts => groupMarksAll parts
  | .group broken contents => broken :: groupMarks contents
  | .choice states => groupMarksAll states
  | .indent contents => groupMarks contents
  | .fill parts => groupMarksAll parts
  | .line _ => []
  | .suffix contents => groupMarks contents
  | .breakParent => []

/-- The marks of all groups of several documents, in their order. -/
def groupMarksAll : List Doc → List Bool
  | [] => []
  | d :: ds => groupMarks d ++ groupMarksAll ds

end

end JavaFormat.Doc
