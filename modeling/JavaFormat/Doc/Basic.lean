import JavaFormat.Text.Lines

/-!
# Layout documents

A document says what is to be printed and where lines may break; the renderer
decides which of the possible breaks are taken for a given width. Documents are
plain trees. The functions below the type are the ones that layout code builds
documents with: they keep concatenations flat and free of empty texts.
-/

namespace JavaFormat

/-- How a line break behaves. -/
structure LineStyle where
  /-- It breaks in every mode. -/
  hard : Bool := false
  /-- It leaves nothing behind when it does not break; otherwise a space. -/
  soft : Bool := false
  /-- When it breaks, the next line begins at its first column and the blanks
  before it stay. -/
  literal : Bool := false
deriving DecidableEq, Repr

/-- What is to be printed, with the breaks that are possible. -/
inductive Doc where
  /-- A text as it stands. -/
  | text (s : String)
  /-- One document after the other. -/
  | concat (parts : List Doc)
  /-- The breaks directly inside are taken all or none; `broken` takes them
  whatever would fit. -/
  | group (broken : Bool) (contents : Doc)
  /-- The first of the states whose first line fits, or the last one broken. -/
  | choice (states : List Doc)
  /-- Lines begun inside are indented by one more level. -/
  | indent (contents : Doc)
  /-- Contents and separators in turn; a separator breaks only where the next
  content does not fit. -/
  | fill (parts : List Doc)
  /-- A possible or certain line break. -/
  | line (style : LineStyle)
  /-- Printed just before the next line break. -/
  | suffix (contents : Doc)
  /-- Breaks every group around it. -/
  | breakParent
deriving Repr

namespace Doc

/-- A text may be written where a document is called for. -/
instance : Coe String Doc := ⟨.text⟩

/-- The empty text, for places where any document will do. -/
instance : Inhabited Doc := ⟨.text ""⟩

/-- A space, or a break. -/
def space : Doc := .line {}

/-- Nothing, or a break. -/
def softline : Doc := .line { soft := true }

/-- A certain break that breaks the groups around it. -/
def hardline : Doc := .concat [.line { hard := true }, .breakParent]

/-- A certain break to the first column that breaks the groups around it. -/
def literalline : Doc := .concat [.line { hard := true, literal := true }, .breakParent]

/-- What one part adds to a flat concatenation. -/
def flatten : Doc → List Doc
  | .concat parts => parts
  | .text s => if s.isEmpty then [] else [.text s]
  | d => [d]

/-- An empty text adds nothing, a concatenation its parts, and any other document itself. -/
theorem flatten_cases (d : Doc) : (d = .text "" ∧ d.flatten = []) ∨
    (∃ parts, d = .concat parts ∧ d.flatten = parts) ∨ d.flatten = [d] := by
  unfold flatten
  split
  · exact .inr (.inl ⟨_, rfl, rfl⟩)
  · split
    · rename_i h
      exact .inl ⟨by rw [String.isEmpty_iff.mp h], rfl⟩
    · exact .inr (.inr rfl)
  · exact .inr (.inr rfl)

/-- A list of parts as one document: a single part stands for itself. -/
def ofParts : List Doc → Doc
  | [d] => d
  | parts => .concat parts

/-- One document after the other, with nested concatenations opened, empty texts
left out and a single part standing for itself. -/
def cat (parts : List Doc) : Doc := ofParts (parts.flatMap flatten)

/-- Documents with a separator between neighbours, not yet put together. -/
def interleave (separator : Doc) : List Doc → List Doc
  | [] => []
  | [d] => [d]
  | d :: ds => d :: separator :: interleave separator ds

/-- Between neighbours there is only the separator. -/
theorem mem_interleave {separator d : Doc} {docs : List Doc}
    (h : d ∈ interleave separator docs) : d = separator ∨ d ∈ docs := by
  fun_induction interleave separator docs with
  | case1 => exact .inr h
  | case2 => exact .inr h
  | case3 e es _ ih =>
    rcases List.mem_cons.mp h with rfl | h
    · exact .inr List.mem_cons_self
    · rcases List.mem_cons.mp h with rfl | h
      · exact .inl rfl
      · exact (ih h).imp_right (List.mem_cons_of_mem e)

/-- Documents with a separator between neighbours. -/
def join (separator : Doc) (docs : List Doc) : Doc := cat (interleave separator docs)

/-- Documents whose breaks are taken all or none. -/
def grouped (parts : List Doc) : Doc := .group false (cat parts)

/-- Documents indented by one more level. -/
def indented (parts : List Doc) : Doc := .indent (cat parts)

/-- Documents printed just before the next line break. -/
def suffixed (parts : List Doc) : Doc := .suffix (cat parts)

/-- A text with line feeds in it, as texts with breaks between them. -/
def ofLines (s : String) (literal : Bool := true) : Doc :=
  if Text.isMultiline s then
    join (if literal then literalline else hardline) ((Text.lines s).map .text)
  else .text s

/-- Whether a document is the empty text or an empty concatenation. -/
def isEmpty : Doc → Bool
  | .text s => s.isEmpty
  | .concat parts => parts.isEmpty
  | _ => false

end Doc

end JavaFormat
