import JavaFormat.Layout.Spacing
import JavaFormat.Proofs.Syntax.Shape
import Mathlib.Data.List.Chain

/-!
# Words

Two leaves printed next to each other may be read as one: if the first ends and the second
begins like an identifier, or if a sign stands in front of the same sign. A leaf as it is
printed is a word, which knows whether it is the operator of a unary expression, and
`Word.fuses` says which words must not touch.

The grammar says where layout may count on more than the kind of a node: which leaf a node
begins with, and which children it has at all.
-/

namespace JavaFormat

/-! ## Texts -/

namespace Text

/-- Whether a character may be part of an identifier. Which characters beyond ASCII are letters
or digits is left to `letters`. -/
def isIdentifierPart (letters : Char → Bool) (c : Char) : Bool :=
  c.isAlphanum || c == '_' || c == '$' || (decide (0x80 ≤ c.toNat) && letters c)

/-- Whether a text begins with a character of identifiers. -/
def beginsWord (letters : Char → Bool) (s : String) : Bool :=
  s.toList.head?.any (isIdentifierPart letters)

/-- Whether a text ends with a character of identifiers. -/
def endsWord (letters : Char → Bool) (s : String) : Bool :=
  s.toList.getLast?.any (isIdentifierPart letters)

end Text

/-! ## Words -/

/-- A leaf as it is printed. -/
structure Word where
  text : String
  /-- Whether it is the operator of a unary expression. -/
  isSign : Bool
deriving DecidableEq

/-- Whether two words next to each other would be read as one. -/
def Word.fuses (letters : Char → Bool) (v w : Word) : Bool :=
  Text.endsWord letters v.text && Text.beginsWord letters w.text ||
    v.isSign && ((v.text == "+" || v.text == "-") && v.text.toList.isPrefixOf w.text.toList)

/-! ## Punctuation -/

namespace Text

/-- Whether a character is one of ASCII that is no part of an identifier, whatever is a letter
elsewhere. -/
def isPunctuation (c : Char) : Bool :=
  decide (c.toNat < 0x80) && !c.isAlphanum && c != '_' && c != '$'

/-- Whether a text begins with punctuation other than a plus or a minus, so that nothing fuses
with it. -/
def standsOff (s : String) : Bool :=
  s.toList.head?.all fun c => isPunctuation c && c != '+' && c != '-'

/-- Whether a text ends with punctuation, so that it fuses with nothing unless it is a sign. -/
def closesOff (s : String) : Bool := s.toList.getLast?.all isPunctuation

variable {letters : Char → Bool}

/-- No punctuation mark is part of an identifier. -/
theorem isIdentifierPart_of_isPunctuation {c : Char} (h : isPunctuation c = true) :
    isIdentifierPart letters c = false := by
  simp only [isPunctuation, Bool.and_eq_true, decide_eq_true_eq, Bool.not_eq_true', bne_iff_ne,
    ne_eq] at h
  obtain ⟨⟨⟨hlow, halnum⟩, hscore⟩, hdollar⟩ := h
  have hascii : ¬0x80 ≤ c.toNat := by omega
  simp [isIdentifierPart, halnum, hscore, hdollar, hascii]

/-- A text that stands off begins no word. -/
theorem beginsWord_of_standsOff {s : String} (h : standsOff s = true) :
    beginsWord letters s = false := by
  unfold standsOff at h
  unfold beginsWord
  cases hs : s.toList.head? with
  | none => rfl
  | some c =>
    rw [hs] at h
    simp only [Option.all_some, Bool.and_eq_true] at h
    exact isIdentifierPart_of_isPunctuation h.1.1

/-- A text that closes off ends no word. -/
theorem endsWord_of_closesOff {s : String} (h : closesOff s = true) :
    endsWord letters s = false := by
  unfold closesOff at h
  unfold endsWord
  cases hs : s.toList.getLast? with
  | none => rfl
  | some c =>
    rw [hs] at h
    exact isIdentifierPart_of_isPunctuation h

end Text

section Fuses

variable {letters : Char → Bool} {v w : Word}

/-- No word fuses with one that stands off. -/
theorem Word.fuses_of_standsOff (hw : Text.standsOff w.text = true) :
    v.fuses letters w = false := by
  have hbegins : Text.beginsWord letters w.text = false := Text.beginsWord_of_standsOff hw
  have hsign :
      ((v.text == "+" || v.text == "-") && v.text.toList.isPrefixOf w.text.toList) = false := by
    by_contra hfused
    rw [Bool.not_eq_false, Bool.and_eq_true, Bool.or_eq_true, beq_iff_eq, beq_iff_eq,
      List.isPrefixOf_iff_prefix] at hfused
    obtain ⟨hv, rest, hrest⟩ := hfused
    rw [Text.standsOff, ← hrest] at hw
    rcases hv with hv | hv <;> rw [hv] at hw <;> cases hw
  simp [fuses, hbegins, hsign]

/-- A word that is no sign and ends with punctuation fuses with no other. -/
theorem Word.fuses_of_closesOff (hv : v.isSign = false) (he : Text.closesOff v.text = true) :
    v.fuses letters w = false := by
  simp [fuses, hv, Text.endsWord_of_closesOff he]

end Fuses

/-- The operators of unary expressions. -/
def signs : List String := ["+", "-", "!", "~"]

namespace Tree

/-- A list of words the first of which is a sign. -/
def markSign : List Word → List Word
  | [] => []
  | w :: ws => { w with isSign := true } :: ws

mutual

/-- The leaves as they are printed, from left to right. -/
def words : Tree → List Word
  | .leaf _ text => [⟨text, false⟩]
  | .branch info ts =>
    if info.kind = .unaryExpression then markSign (wordsOfAll ts) else wordsOfAll ts

/-- The leaves of several trees as they are printed. -/
def wordsOfAll : List Tree → List Word
  | [] => []
  | t :: ts => t.words ++ wordsOfAll ts

end

/-- The words of several trees come one tree after the other. -/
theorem wordsOfAll_eq_flatMap (ts : List Tree) : wordsOfAll ts = ts.flatMap words := by
  induction ts with
  | nil => rfl
  | cons t ts ih => rw [wordsOfAll, ih, List.flatMap_cons]

/-- A leaf is one word, without a sign behind it. -/
@[simp] theorem words_leaf (info : NodeInfo) (text : String) :
    (leaf info text).words = [⟨text, false⟩] := rfl

/-- A token is the word that it is written as. -/
theorem words_of_isToken {t : Tree} {text : String} (h : t.isToken text = true) :
    t.words = [⟨text, false⟩] := by
  obtain ⟨info, rfl, -⟩ := isToken_iff.mp h
  rfl

/-- The words of a node that is no unary expression are those of its children. -/
theorem words_branch {info : NodeInfo} {ts : List Tree} (h : info.kind ≠ .unaryExpression) :
    (branch info ts).words = ts.flatMap words := by
  rw [words, if_neg h, wordsOfAll_eq_flatMap]

/-- The operator of a unary expression is a sign. -/
theorem words_unary {info : NodeInfo} {ts : List Tree} (h : info.kind = .unaryExpression) :
    (branch info ts).words = markSign (ts.flatMap words) := by
  rw [words, if_pos h, wordsOfAll_eq_flatMap]

/-- Marking a sign changes no text. -/
theorem map_text_markSign (ws : List Word) : (markSign ws).map Word.text = ws.map Word.text := by
  cases ws <;> rfl

mutual

/-- The words of a tree are written like its leaves. -/
theorem map_text_words : ∀ t : Tree, t.words.map Word.text = t.leafTexts
  | .leaf info text => rfl
  | .branch info ts => by
    rw [leafTexts_branch, words]
    split
    · rw [map_text_markSign, map_text_wordsOfAll ts]
    · exact map_text_wordsOfAll ts

/-- The texts of the words of several trees are the texts of their leaves. -/
theorem map_text_wordsOfAll : ∀ ts : List Tree,
    (wordsOfAll ts).map Word.text = ts.flatMap leafTexts
  | [] => rfl
  | t :: ts => by
    rw [wordsOfAll, List.map_append, map_text_words t, map_text_wordsOfAll ts, List.flatMap_cons]

end

/-- Whether the leaves in which two trees meet end and begin like identifiers. -/
def meets (letters : Char → Bool) (t u : Tree) : Bool :=
  t.leafTexts.getLast?.any (Text.endsWord letters) &&
    u.leafTexts.head?.any (Text.beginsWord letters)

end Tree

/-! ## What the grammar says -/

/-- Whether the children of a node are printed without spaces between them. -/
def NodeKind.isTight : NodeKind → Bool
  | .genericType | .scopedTypeIdentifier | .scopedIdentifier | .arrayType | .dimensions
  | .dimensionsExpr | .annotationCall | .annotationMarker | .recordPattern | .updateExpression
  | .fieldAccess | .arrayAccess | .methodInvocation | .methodReference | .classLiteral
  | .explicitConstructorInvocation | .templateExpression => true
  | _ => false

/-- Nodes other than tokens that are printed without a space in front of them. -/
def NodeKind.isAttached : NodeKind → Bool
  | .argumentList | .formalParameters | .dimensions | .dimensionsExpr | .annotationArgumentList
  | .typeParameters => true
  | _ => false

/-- What the grammar puts into a node beyond `Allowed`: an annotation begins with its sign, a
dimension with a bracket or an annotation, a unary expression with one of four operators; a
variable has a name and dimensions; and a call is not annotated. -/
def Shape.Written (kind : NodeKind) (ts : List Tree) : Prop :=
  match kind with
  | .annotationCall | .annotationMarker => ∃ sign rest, ts = sign :: rest ∧ sign.isToken "@"
  | .dimensions | .dimensionsExpr =>
    ∃ first rest, ts = first :: rest ∧ (first.isToken "[" ∨ first.kind.isAnnotationUse = true)
  | .unaryExpression => ∃ operator rest, ts = operator :: rest ∧ operator.text ∈ signs
  | .variableDeclarator =>
    ∃ name dimensions, ts.takeWhile (fun t => !t.isToken "=") = name :: dimensions ∧
      (dimensions = [] ∨ ∃ t, dimensions = [t] ∧ t.kind = .dimensions)
  | .methodInvocation => ∀ t ∈ ts, t.kind.isAnnotationUse = false
  | _ => True

/-- A node below a compilation unit that covers a leaf and is written as the grammar says. No
token is written like the name of a kind. -/
structure Tree.Written (t : Tree) : Prop where
  kind : t.kind ≠ .program
  leafTexts : t.leafTexts ≠ []
  token : t.kind = .token → ∀ k : NodeKind, k.isAttached = true → t.text ≠ k.name
  children : Shape.Written t.kind t.children

/-- The children of a node that is printed without spaces meet in two characters of identifiers
only next to an annotation. -/
def Tree.MeetsByAnnotations (letters : Char → Bool) (t : Tree) : Prop :=
  t.kind.isTight = true → t.children.IsChain fun u v =>
    u.meets letters v = true → u.kind.isAnnotationUse = true ∨ v.kind.isAnnotationUse = true

/-- A tree of the shape that the grammar gives it, written as the grammar says. -/
def Tree.Lexed (t : Tree) : Prop := ∀ u ∈ t.nodes, u.Regular ∧ u.Written

namespace Tree.Lexed

variable {t : Tree}

/-- The children of a lexed tree are lexed. -/
theorem child (h : t.Lexed) {u : Tree} (hu : u ∈ t.children) : u.Lexed :=
  fun _ hv => h _ (mem_nodes_trans (mem_nodes_of_mem_children hu) hv)

/-- A lexed tree is regular at its root. -/
theorem regular (h : t.Lexed) : t.Regular := (h t t.mem_nodes_self).1

/-- A lexed tree is written at its root. -/
theorem written (h : t.Lexed) : t.Written := (h t t.mem_nodes_self).2

/-- A lexed tree has a word. -/
theorem words_ne_nil (h : t.Lexed) : t.words ≠ [] := by
  intro hnil
  have htexts := map_text_words t
  rw [hnil] at htexts
  exact h.written.leafTexts htexts.symm

/-- The last word of a tree is no sign: an operand stands behind it. -/
theorem isSign_of_getLast? (h : t.Lexed) : ∀ v ∈ t.words.getLast?, v.isSign = false := by
  induction t using induction_children with
  | step t ih =>
    cases t with
    | leaf info text =>
      rintro v ⟨⟩
      rfl
    | branch info ts =>
      have hchild : ∀ u ∈ ts, ∀ v ∈ u.words.getLast?, v.isSign = false :=
        fun u hu => ih u hu (h.child hu)
      have hlast : ∀ {us : List Tree}, (∀ u ∈ us, u ∈ ts) →
          ∀ v ∈ (us.flatMap words).getLast?, v.isSign = false := by
        intro us hus v hv
        rw [List.getLast?_flatMap] at hv
        obtain ⟨u, hu, hv⟩ := List.exists_of_findSome?_eq_some hv
        exact hchild u (hus u (List.mem_reverse.mp hu)) v hv
      by_cases hk : info.kind = .unaryExpression
      · obtain ⟨-, -, hallowed⟩ := h.regular
        rw [hk] at hallowed
        obtain ⟨operator, operand, rfl, -⟩ := hallowed
        have hoperator := (h.child (u := operator) (by simp [children])).words_ne_nil
        have hoperand := (h.child (u := operand) (by simp [children])).words_ne_nil
        obtain ⟨w, ws, hw⟩ := List.exists_cons_of_ne_nil hoperator
        rw [words_unary hk, List.flatMap_cons, hw, List.cons_append, markSign]
        have htail : ws ++ [operand].flatMap words ≠ [] := by simpa using fun _ => hoperand
        have hrest : ∀ v ∈ ([operator, operand].flatMap words).getLast?, v.isSign = false :=
          hlast fun u hu => hu
        rw [List.flatMap_cons, hw, List.cons_append] at hrest
        rwa [List.getLast?_cons_of_ne_nil htail] at hrest ⊢
      · rw [words_branch hk]
        exact hlast fun u hu => hu

/-- The leaves of a node begin with those of its first child. -/
theorem head?_of_children (h : t.Lexed) (ht : t.kind ≠ .token) (hv : t.kind.isVerbatim = false)
    {first : Tree} {rest : List Tree} (hc : t.children = first :: rest) :
    t.leafTexts.head? = first.leafTexts.head? := by
  have hne := (h.child (u := first) (by simp [hc])).written.leafTexts
  obtain ⟨s, ss, hs⟩ := List.exists_cons_of_ne_nil hne
  rw [h.regular.leafTexts_eq ht hv, hc, List.flatMap_cons, hs]
  rfl

/-- The leaves of a tree begin with the one that is met going down to the left. -/
theorem head?_leafTexts (h : t.Lexed) : t.leafTexts.head? = some t.firstLeaf.text := by
  induction t using induction_children with
  | step t ih =>
    cases t with
    | leaf info text => rfl
    | branch info ts =>
      obtain ⟨ht, hv, -⟩ := h.regular
      cases ts with
      | nil => exact absurd rfl h.written.leafTexts
      | cons first rest =>
        have hchildren : (branch info (first :: rest)).children = first :: rest := rfl
        rw [h.head?_of_children ht hv hchildren,
          ih first List.mem_cons_self (h.child (by simp [children])), firstLeaf]

/-- The first word of a tree is its first leaf. -/
theorem exists_words (h : t.Lexed) : ∃ w ws, t.words = w :: ws ∧ w.text = t.firstLeaf.text := by
  obtain ⟨w, ws, hw⟩ := List.exists_cons_of_ne_nil h.words_ne_nil
  have htexts := h.head?_leafTexts
  rw [← map_text_words, hw] at htexts
  exact ⟨w, ws, hw, Option.some.inj htexts⟩

/-- A tree with children begins with the leaf that its first child begins with. -/
theorem firstLeaf_of_children {first : Tree} {rest : List Tree} (hc : t.children = first :: rest) :
    t.firstLeaf = first.firstLeaf := by
  cases t with
  | leaf info text => cases hc
  | branch info ts =>
    obtain rfl : ts = first :: rest := hc
    rw [firstLeaf]

/-- The first leaf of a node that begins with a token. -/
theorem standsOff_of_isToken {first : Tree} {rest : List Tree} (hc : t.children = first :: rest)
    {text : String} (hfirst : first.isToken text = true) (htext : Text.standsOff text = true) :
    Text.standsOff t.firstLeaf.text = true := by
  obtain ⟨info, rfl, -⟩ := isToken_iff.mp hfirst
  rw [firstLeaf_of_children hc]
  exact htext

/-- An annotation begins with its sign. -/
theorem standsOff_of_isAnnotationUse (h : t.Lexed) (hk : t.kind.isAnnotationUse = true) :
    Text.standsOff t.firstLeaf.text = true := by
  have hchildren := h.written.children
  cases hkind : t.kind <;> rw [hkind] at hk hchildren <;> try cases hk
  all_goals
    obtain ⟨sign, rest, hc, hsign⟩ := hchildren
    exact standsOff_of_isToken hc hsign (by decide)

/-- A node that no space is printed in front of begins with punctuation. -/
theorem standsOff_of_isAttached (h : t.Lexed) (hk : t.kind.isAttached = true) :
    Text.standsOff t.firstLeaf.text = true := by
  have hdelimited : ∀ {opening closing separator closable},
      Shape.Delimited opening closing separator closable t.children →
      Text.standsOff opening = true → Text.standsOff t.firstLeaf.text = true := by
    rintro opening closing separator closable ⟨first, body, last, hc, hopen, -⟩ htext
    exact standsOff_of_isToken hc hopen htext
  have hdimension : (∃ first rest, t.children = first :: rest ∧
      (first.isToken "[" ∨ first.kind.isAnnotationUse = true)) →
      Text.standsOff t.firstLeaf.text = true := by
    rintro ⟨first, rest, hc, hbracket | hannotation⟩
    · exact standsOff_of_isToken hc hbracket (by decide)
    · rw [firstLeaf_of_children hc]
      exact (h.child (by simp [hc])).standsOff_of_isAnnotationUse hannotation
  have hchildren := h.written.children
  have hallowed := h.regular.allowed
  cases hkind : t.kind <;> rw [hkind] at hk hchildren hallowed <;> try cases hk
  case argumentList | formalParameters | annotationArgumentList | typeParameters =>
    exact hdelimited (hallowed (by simp) rfl) (by decide)
  case dimensions | dimensionsExpr => exact hdimension hchildren

end Tree.Lexed

end JavaFormat
