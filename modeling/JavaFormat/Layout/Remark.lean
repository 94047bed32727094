import JavaFormat.Comments.Attachment
import JavaFormat.Doc.Basic

/-!
# Documents of comments

A comment of several lines is printed as it is, byte for byte, unless every line
after its first begins with an asterisk: such a comment is indented anew, each
asterisk one column to the right of the comment's beginning.

Comments behind a node that have to end their line wait for the next line break
as suffixes, so that punctuation after the node still goes in front of them.
-/

namespace JavaFormat

open Doc

/-- Whether every line but the first begins with an asterisk. -/
def isStarred (rest : List String) : Bool :=
  rest.all fun line => (Text.trimStart line).toList.head? == some '*'

/-- A line of a starred comment, without the blanks around it. -/
def starredLine (line : String) : String := " " ++ Text.trim line

/-- The document of a comment. -/
def Comment.doc (c : Comment) : Doc :=
  if c.isLine then c.text
  else
    match Text.lines c.text with
    | first :: second :: rest =>
      if isStarred (second :: rest) then
        join hardline ((Text.trimEnd first :: (second :: rest).map starredLine).map .text)
      else ofLines c.text
    | _ => c.text

namespace AttachedComment

/-- A comment in front of its node, with what separates it from the node. -/
def leadingParts (a : AttachedComment) : List Doc :=
  if a.breaksAfter then
    if a.blankLinesAfter = 0 then [a.comment.doc, hardline]
    else [a.comment.doc, hardline, hardline]
  else [a.comment.doc, " "]

/-- A comment behind its node. -/
def trailingParts (a : AttachedComment) : List Doc :=
  if a.ownLine then
    let blank : Doc := if a.blankLinesBefore = 0 then "" else hardline
    [suffixed [hardline, blank, a.comment.doc], breakParent]
  else if a.comment.isLine then [suffixed [" ", a.comment.doc], breakParent]
  else [" ", a.comment.doc]

/-- A comment on a line of its own below others, with a blank line kept. -/
def danglingParts (a : AttachedComment) : List Doc :=
  if a.blankLinesBefore = 0 then [hardline, a.comment.doc]
  else [hardline, hardline, a.comment.doc]

end AttachedComment

/-- Comments behind a node. -/
def trailingDoc (comments : List AttachedComment) : Doc :=
  cat (comments.flatMap AttachedComment.trailingParts)

/-- Comments between the two tokens of an empty list. -/
def inlineParts : List AttachedComment → List Doc
  | [] => []
  | a :: rest =>
    a.comment.doc ::
      ((if a.comment.isLine then [hardline] else if rest.isEmpty then [] else [" "]) ++
        inlineParts rest)

namespace NodeComments

/-- The comments in front of a node. -/
def leadingDoc (c : NodeComments) : Doc :=
  cat (c.leading.flatMap AttachedComment.leadingParts)

/-- The comments inside a node, one a line. -/
def danglingBlock? (c : NodeComments) : Option Doc :=
  match c.dangling with
  | [] => none
  | first :: rest =>
    some (cat (first.comment.doc :: rest.flatMap AttachedComment.danglingParts))

/-- The comments inside a node, on one line as far as they allow. -/
def danglingInline (c : NodeComments) : Doc := cat (inlineParts c.dangling)

end NodeComments

end JavaFormat
