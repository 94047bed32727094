import JavaFormat.Proofs.Syntax.Shape
import JavaFormat.Syntax.Parsed
import Mathlib.Data.List.Basic

/-!
# What is read of a fragment

A fragment is found in its scaffold by going down a fixed way: to the first class, its
body, and in there to the first method and its block or to the first initializer. The
text of a fragment may close what the scaffold has opened and open it anew, and then
the way ends in front of the rest of the fragment. No code is lost exactly if the two
tokens around the roots belong to the scaffold.
-/

namespace JavaFormat

namespace EntryPoint

/-- The offset that a fragment begins at. -/
def fragmentStart (entry : EntryPoint) : Nat := (Text.Utf8.encode entry.opening).length

/-- The offset that a fragment ends at. -/
def fragmentStop (entry : EntryPoint) (text : String) : Nat :=
  (Text.Utf8.encode (entry.opening ++ Text.unifyNewlines text)).length

/-- Whether a node begins in the text in front of a fragment. -/
def opens (entry : EntryPoint) (t : Tree) : Bool := t.span.start.offset < entry.fragmentStart

/-- Whether a node ends in the text behind a fragment. -/
def closes (entry : EntryPoint) (text : String) (t : Tree) : Bool :=
  entry.fragmentStop text < t.span.stop.offset

/-- Whether a node lies inside a fragment. -/
def encloses (entry : EntryPoint) (text : String) (t : Tree) : Bool :=
  entry.fragmentStart ≤ t.span.start.offset && t.span.stop.offset ≤ entry.fragmentStop text

/-- The tokens in front of a fragment. -/
def openingTokens : EntryPoint → List String
  | .compilationUnit => []
  | .classBodyDeclarations => ["class", "__JavaLayoutFragment__", "\x7b"]
  | .blockStatements =>
    ["class", "__JavaLayoutFragment__", "\x7b", "void", "__fragment__", "(", ")", "\x7b"]
  | .expression => ["class", "__JavaLayoutFragment__", "\x7b", "Object", "__fragment__", "="]

/-- The tokens behind a fragment. -/
def closingTokens : EntryPoint → List String
  | .compilationUnit => []
  | .classBodyDeclarations => ["\x7d"]
  | .blockStatements => ["\x7d", "\x7d"]
  | .expression => [";", "\x7d"]

/-- A node lies inside a fragment if it begins and ends in no other text. -/
theorem encloses_eq (entry : EntryPoint) (text : String) (t : Tree) :
    entry.encloses text t = (!entry.opens t && !entry.closes text t) := by
  simp [encloses, opens, closes, ← decide_not]

end EntryPoint

namespace Tree

/-- The leaves of a child stand together among those of its parent. -/
theorem exists_leaves_of_mem {t u : Tree} (h : u ∈ t.children) :
    ∃ before behind, t.leaves = before ++ (u.leaves ++ behind) := by
  obtain ⟨left, right, hchildren⟩ := List.append_of_mem h
  have hne : t.children ≠ [] := List.ne_nil_of_mem h
  refine ⟨left.flatMap leaves, right.flatMap leaves, ?_⟩
  rw [leaves_eq_of_children hne, hchildren, List.flatMap_append, List.flatMap_cons]

/-- What is found among the children is one of them. -/
theorem mem_of_firstOf? {t u : Tree} {kinds : List NodeKind} (h : t.firstOf? kinds = some u) :
    u ∈ t.children ∧ u.kind ∈ kinds := by
  have hkind := List.find?_some (p := fun u : Tree => kinds.contains u.kind) h
  exact ⟨List.mem_of_find?_eq_some h, List.contains_iff_mem.mp hkind⟩

/-- A token is its only leaf. -/
theorem leaves_of_isToken {t : Tree} {text : String} (h : t.isToken text = true) :
    t.leaves = [t] := by
  obtain ⟨info, rfl, -⟩ := isToken_iff.mp h
  rfl

/-- A token has the text that it is asked for. -/
theorem text_of_isToken {t : Tree} {text : String} (h : t.isToken text = true) :
    t.text = text := by
  rw [Tree.text, text?_of_isToken h]
  rfl

end Tree

namespace Parsed

/-- Members with a brace in front of them and one behind. -/
structure Braces (ts : List Tree) (first : Tree) (items : List Tree) (last : Tree) : Prop where
  children : ts = first :: (items ++ [last])
  opens : first.isToken "\x7b"
  closes : last.isToken "\x7d"
  unbraced : Shape.Unbraced items

/-- The tokens that the roots of a fragment stand between: the braces of the body or of
the block, or the sign in front of the first initializer and the mark behind it. -/
inductive Bounds (whole : Tree) : EntryPoint → Tree → Tree → Prop
  | members {body o c : Tree} {items : List Tree} (hbody : scaffoldBody? whole = some body)
    (hitems : Braces body.children o items c) : Bounds whole .classBodyDeclarations o c
  | statements {body method block first last o c : Tree} {members items : List Tree}
    (hbody : scaffoldBody? whole = some body) (hmembers : Braces body.children first members last)
    (hmethod : body.firstOf? [.methodDeclaration] = some method)
    (hblock : method.firstOf? [.block] = some block) (hitems : Braces block.children o items c) :
    Bounds whole .blockStatements o c
  | initializer {body field declarator value o c : Tree} {left before behind : List Tree}
    (hbody : scaffoldBody? whole = some body)
    (hfield : body.firstOf? [.fieldDeclaration] = some field)
    (hdeclarator : field.firstOf? [.variableDeclarator] = some declarator)
    (hvalue : declarator.child? "value" = some value)
    (hleft : declarator.children = left ++ [o, value])
    (hbehind : field.children = before ++ declarator :: c :: behind) (ho : o.isToken "=")
    (hc : c.isToken "," ∨ c.isToken ";") : Bounds whole .expression o c

/-- A tree of a scaffolded text as a parser of the language delivers it. It has the
shape that the grammar gives it, in which every declarator of a field has a comma or a
semicolon behind it and every initializer a sign in front of it; the leaves follow each
other and none is empty; and the text around the fragment is read as its own tokens. -/
structure Framed (entry : EntryPoint) (text : String) (whole : Tree) : Prop where
  shaped : whole.WellShaped
  marked : ∀ t ∈ whole.nodes, t.kind = .fieldDeclaration → ∀ u ∈ t.children,
    u.kind = .variableDeclarator → ∃ before mark behind,
      t.children = before ++ u :: mark :: behind ∧ (mark.isToken "," ∨ mark.isToken ";")
  initialized : ∀ t ∈ whole.nodes, t.kind = .variableDeclarator → ∀ value,
    t.child? "value" = some value → ∃ left sign,
      t.children = left ++ [sign, value] ∧ sign.isToken "="
  ordered : whole.leaves.Pairwise fun a b => a.span.stop.offset ≤ b.span.start.offset
  nonempty : ∀ t ∈ whole.leaves, t.span.start.offset < t.span.stop.offset
  opening : (whole.leaves.filter entry.opens).map Tree.text = entry.openingTokens
  closing : (whole.leaves.filter (entry.closes text)).map Tree.text = entry.closingTokens

section Bounds

variable {whole : Tree} {entry : EntryPoint} {o c : Tree}

/-- What the bounds of a fragment are written as. -/
theorem Bounds.texts (h : Bounds whole entry o c) :
    (entry, o.text, c.text) ∈ [(EntryPoint.classBodyDeclarations, "\x7b", "\x7d"),
      (.blockStatements, "\x7b", "\x7d"), (.expression, "=", ","), (.expression, "=", ";")] := by
  cases h with
  | members _ hitems =>
    rw [Tree.text_of_isToken hitems.opens, Tree.text_of_isToken hitems.closes]
    decide
  | statements _ _ _ _ hitems =>
    rw [Tree.text_of_isToken hitems.opens, Tree.text_of_isToken hitems.closes]
    decide
  | initializer _ _ _ _ _ _ ho hc =>
    rw [Tree.text_of_isToken ho]
    rcases hc with hc | hc
    · rw [Tree.text_of_isToken hc]
      decide
    · rw [Tree.text_of_isToken hc]
      decide

/-- The token in front of the roots is written as the last one of the scaffold's
opening, and as none of its closing. -/
theorem Bounds.opening (h : Bounds whole entry o c) :
    entry.openingTokens.getLast? = some o.text ∧ o.text ∉ entry.closingTokens := by
  have htexts := h.texts
  generalize o.text = first at htexts ⊢
  generalize c.text = last at htexts
  simp only [List.mem_cons, Prod.mk.injEq, List.not_mem_nil, or_false] at htexts
  rcases htexts with ⟨rfl, rfl, -⟩ | ⟨rfl, rfl, -⟩ | ⟨rfl, rfl, -⟩ | ⟨rfl, rfl, -⟩ <;> decide

/-- The token behind the roots is written as the first one of the scaffold's closing
if as any, and as none of its opening. -/
theorem Bounds.closing (h : Bounds whole entry o c) :
    (c.text ∈ entry.closingTokens → entry.closingTokens.head? = some c.text) ∧
      c.text ∉ entry.openingTokens := by
  have htexts := h.texts
  generalize o.text = first at htexts
  generalize c.text = last at htexts ⊢
  simp only [List.mem_cons, Prod.mk.injEq, List.not_mem_nil, or_false] at htexts
  rcases htexts with ⟨rfl, -, rfl⟩ | ⟨rfl, -, rfl⟩ | ⟨rfl, -, rfl⟩ | ⟨rfl, -, rfl⟩ <;> decide

section Braces

variable {ts items : List Tree} {first last : Tree}

/-- Without the braces there are only the members. -/
theorem Braces.withoutBraces_eq (h : Braces ts first items last) : withoutBraces ts = items := by
  have hitems : ∀ t ∈ items, t.isToken "\x7b" = false ∧ t.isToken "\x7d" = false := by
    intro t ht
    obtain ⟨hopen, hclose⟩ := h.unbraced t ht
    have ho : t.isToken "\x7b" = false := by simp [Tree.isToken, hopen]
    have hc : t.isToken "\x7d" = false := by simp [Tree.isToken, hclose]
    exact ⟨ho, hc⟩
  simpa [withoutBraces, h.children, h.opens, h.closes] using hitems

/-- A child that is no token is a member. -/
theorem Braces.mem_items (h : Braces ts first items last) {u : Tree} (hu : u ∈ ts)
    (hkind : u.kind ≠ .token) : u ∈ items := by
  have hnamed : u.isNamed = true := by simp [Tree.isNamed, hkind]
  rw [h.children] at hu
  rcases List.mem_cons.mp hu with rfl | hu
  · rw [Tree.isNamed_of_isToken h.opens] at hnamed
    cases hnamed
  · rcases List.mem_append.mp hu with hu | hu
    · exact hu
    · obtain rfl := List.mem_singleton.mp hu
      rw [Tree.isNamed_of_isToken h.closes] at hnamed
      cases hnamed

/-- The leaves of a node with braces are those of its members with the braces around. -/
theorem Braces.leaves_eq {t : Tree} (h : Braces t.children first items last) :
    t.leaves = first :: (items.flatMap Tree.leaves ++ [last]) := by
  have hne : t.children ≠ [] := by simp [h.children]
  rw [Tree.leaves_eq_of_children hne, h.children, List.flatMap_cons, List.flatMap_append,
    Tree.leaves_of_isToken h.opens, List.flatMap_singleton, Tree.leaves_of_isToken h.closes]
  rfl

end Braces

/-- The leaves of the scaffold's body stand together among those of the whole tree. -/
theorem exists_leaves_of_scaffoldBody? {whole body : Tree} (h : scaffoldBody? whole = some body) :
    ∃ before behind, whole.leaves = before ++ (body.leaves ++ behind) := by
  obtain ⟨declaration, hdeclaration, hbody⟩ := Option.bind_eq_some_iff.mp h
  obtain ⟨hmem, -⟩ := Tree.mem_of_firstOf? hdeclaration
  obtain ⟨hmem', -⟩ := Tree.mem_of_firstOf? hbody
  obtain ⟨before, behind, hwhole⟩ := Tree.exists_leaves_of_mem hmem
  obtain ⟨before', behind', hinner⟩ := Tree.exists_leaves_of_mem hmem'
  refine ⟨before ++ before', behind' ++ behind, ?_⟩
  rw [hwhole, hinner]
  simp

/-- The roots of a fragment stand between its bounds. Where the scaffold has further
braces of the kind, they stand outside. -/
theorem Bounds.exists_leaves (h : Bounds whole entry o c) {roots : List Tree}
    {rootParent : Option NodeKind} (hroots : roots? whole entry = some (roots, rootParent)) :
    ∃ before behind, whole.leaves = before ++ o :: (Tree.leavesOfAll roots ++ c :: behind) ∧
      entry.openingTokens.count o.text ≤ (before.map Tree.text).count o.text + 1 ∧
      entry.closingTokens.count c.text ≤ (behind.map Tree.text).count c.text + 1 := by
  cases h with
  | members hbody hitems =>
    simp only [roots?, hbody, Option.bind_eq_bind, Option.bind_some, pure, Option.some.injEq,
      Prod.mk.injEq] at hroots
    obtain ⟨rfl, -⟩ := hroots
    obtain ⟨before, behind, hwhole⟩ := exists_leaves_of_scaffoldBody? hbody
    refine ⟨before, behind, ?_, ?_, ?_⟩
    · rw [hwhole, hitems.leaves_eq, hitems.withoutBraces_eq, Tree.leavesOfAll_eq_flatMap]
      simp
    · rw [Tree.text_of_isToken hitems.opens]
      exact Nat.le_add_left 1 _
    · rw [Tree.text_of_isToken hitems.closes]
      exact Nat.le_add_left 1 _
  | statements hbody hmembers hmethod hblock hitems =>
    rename_i body method block first last members items
    simp only [roots?, hbody, hmethod, hblock, Option.bind_eq_bind, Option.bind_some, pure,
      Option.some.injEq, Prod.mk.injEq] at hroots
    obtain ⟨rfl, -⟩ := hroots
    obtain ⟨before, behind, hwhole⟩ := exists_leaves_of_scaffoldBody? hbody
    obtain ⟨hmem, hkind⟩ := Tree.mem_of_firstOf? hmethod
    have hne : method.kind ≠ .token := by
      intro hk
      rw [hk] at hkind
      revert hkind
      decide
    obtain ⟨left, right, rfl⟩ := List.append_of_mem (hmembers.mem_items hmem hne)
    obtain ⟨before', behind', hinner⟩ :=
      Tree.exists_leaves_of_mem (Tree.mem_of_firstOf? hblock).1
    refine ⟨before ++ first :: (left.flatMap Tree.leaves ++ before'),
      behind' ++ (right.flatMap Tree.leaves ++ last :: behind), ?_, ?_, ?_⟩
    · rw [hwhole, hmembers.leaves_eq, List.flatMap_append, List.flatMap_cons, hinner,
        hitems.leaves_eq, hitems.withoutBraces_eq, Tree.leavesOfAll_eq_flatMap]
      simp
    · have hfirst : first.text = o.text := by
        rw [Tree.text_of_isToken hmembers.opens, Tree.text_of_isToken hitems.opens]
      have hcount : EntryPoint.blockStatements.openingTokens.count o.text = 2 := by
        rw [Tree.text_of_isToken hitems.opens]
        decide
      simp only [hcount, List.map_append, List.map_cons, List.count_append, hfirst,
        List.count_cons_self]
      omega
    · have hlast : last.text = c.text := by
        rw [Tree.text_of_isToken hmembers.closes, Tree.text_of_isToken hitems.closes]
      have hcount : EntryPoint.blockStatements.closingTokens.count c.text = 2 := by
        rw [Tree.text_of_isToken hitems.closes]
        decide
      simp only [hcount, List.map_append, List.map_cons, List.count_append, hlast,
        List.count_cons_self]
      omega
  | initializer hbody hfield hdeclarator hvalue hleft hbehind ho hc =>
    rename_i body field declarator value left before behind
    simp only [roots?, hbody, hfield, hdeclarator, hvalue, Option.bind_eq_bind, Option.bind_some,
      pure, Option.some.injEq, Prod.mk.injEq] at hroots
    obtain ⟨rfl, -⟩ := hroots
    obtain ⟨front, back, hwhole⟩ := exists_leaves_of_scaffoldBody? hbody
    obtain ⟨front', back', hinner⟩ := Tree.exists_leaves_of_mem (Tree.mem_of_firstOf? hfield).1
    have hmark : c.leaves = [c] := hc.elim Tree.leaves_of_isToken Tree.leaves_of_isToken
    have hdeclared : declarator.leaves = left.flatMap Tree.leaves ++ o :: value.leaves := by
      rw [Tree.leaves_eq_of_children (by simp [hleft]), hleft, List.flatMap_append,
        List.flatMap_cons, Tree.leaves_of_isToken ho, List.flatMap_singleton]
      rfl
    refine ⟨front ++ (front' ++ (before.flatMap Tree.leaves ++ left.flatMap Tree.leaves)),
      behind.flatMap Tree.leaves ++ (back' ++ back), ?_, ?_, ?_⟩
    · rw [hwhole, hinner, Tree.leaves_eq_of_children (by simp [hbehind]), hbehind,
        List.flatMap_append, List.flatMap_cons, List.flatMap_cons, hdeclared, hmark]
      simp [Tree.leavesOfAll]
    · rw [Tree.text_of_isToken ho]
      exact Nat.le_add_left 1 _
    · have hcount : EntryPoint.expression.closingTokens.count c.text ≤ 1 := by
        rcases hc with hc | hc
        · rw [Tree.text_of_isToken hc]
          decide
        · rw [Tree.text_of_isToken hc]
          decide
      omega

/-- A node of a well-shaped tree that is a class body or a block has its members between
braces. -/
theorem exists_braces {t : Tree} (h : whole.WellShaped) (ht : t ∈ whole.nodes)
    (hkind : t.kind = .classBody ∨ t.kind = .block) :
    ∃ first items last, Braces t.children first items last := by
  have hbraced : Shape.Braced t.children := by
    rcases hkind with hkind | hkind
    · have hallowed := (h t ht).allowed (by simp [hkind]) (by rw [hkind]; rfl)
      rw [hkind] at hallowed
      exact hallowed
    · have hallowed := (h t ht).allowed (by simp [hkind]) (by rw [hkind]; rfl)
      rw [hkind] at hallowed
      exact hallowed
  obtain ⟨first, items, last, hchildren, hopens, hcloses, hunbraced⟩ := hbraced
  exact ⟨first, items, last, hchildren, hopens, hcloses, hunbraced⟩

/-- What is found among the children of a node of a tree is a node of it. -/
theorem mem_nodes_of_firstOf? {t u : Tree} {kind : NodeKind} (ht : t ∈ whole.nodes)
    (h : t.firstOf? [kind] = some u) : u ∈ whole.nodes ∧ u.kind = kind := by
  obtain ⟨hmem, hkind⟩ := Tree.mem_of_firstOf? h
  have hu := Tree.mem_nodes_trans ht (Tree.mem_nodes_of_mem_children hmem)
  exact ⟨hu, List.mem_singleton.mp hkind⟩

/-- The bounds of a fragment are found wherever its roots are. -/
theorem Framed.exists_bounds {text : String} (h : Framed entry text whole)
    (hentry : entry ≠ .compilationUnit) {roots : List Tree} {rootParent : Option NodeKind}
    (hroots : roots? whole entry = some (roots, rootParent)) : ∃ o c, Bounds whole entry o c := by
  have hwhole := whole.mem_nodes_self
  have hbodies : ∀ body, scaffoldBody? whole = some body →
      body ∈ whole.nodes ∧ body.kind = .classBody := by
    intro body hbody
    obtain ⟨declaration, hdeclaration, hbody⟩ := Option.bind_eq_some_iff.mp hbody
    exact mem_nodes_of_firstOf? (mem_nodes_of_firstOf? hwhole hdeclaration).1 hbody
  cases entry with
  | compilationUnit => exact absurd rfl hentry
  | classBodyDeclarations =>
    obtain ⟨body, hbody, -⟩ := Option.bind_eq_some_iff.mp hroots
    obtain ⟨hmem, hkind⟩ := hbodies body hbody
    obtain ⟨o, items, c, hitems⟩ := exists_braces h.shaped hmem (.inl hkind)
    exact ⟨o, c, .members hbody hitems⟩
  | blockStatements =>
    obtain ⟨body, hbody, hrest⟩ := Option.bind_eq_some_iff.mp hroots
    obtain ⟨method, hmethod, hrest⟩ := Option.bind_eq_some_iff.mp hrest
    obtain ⟨block, hblock, -⟩ := Option.bind_eq_some_iff.mp hrest
    obtain ⟨hmem, hkind⟩ := hbodies body hbody
    obtain ⟨first, members, last, hmembers⟩ := exists_braces h.shaped hmem (.inl hkind)
    obtain ⟨hmem', hkind'⟩ :=
      mem_nodes_of_firstOf? (mem_nodes_of_firstOf? hmem hmethod).1 hblock
    obtain ⟨o, items, c, hitems⟩ := exists_braces h.shaped hmem' (.inr hkind')
    exact ⟨o, c, .statements hbody hmembers hmethod hblock hitems⟩
  | expression =>
    obtain ⟨body, hbody, hrest⟩ := Option.bind_eq_some_iff.mp hroots
    obtain ⟨field, hfield, hrest⟩ := Option.bind_eq_some_iff.mp hrest
    obtain ⟨declarator, hdeclarator, hrest⟩ := Option.bind_eq_some_iff.mp hrest
    obtain ⟨value, hvalue, -⟩ := Option.bind_eq_some_iff.mp hrest
    obtain ⟨hmem, -⟩ := hbodies body hbody
    obtain ⟨hfieldmem, hfieldkind⟩ := mem_nodes_of_firstOf? hmem hfield
    obtain ⟨hdeclmem, hdeclkind⟩ := mem_nodes_of_firstOf? hfieldmem hdeclarator
    obtain ⟨before, c, behind, hbehind, hc⟩ := h.marked field hfieldmem hfieldkind declarator
      (Tree.mem_of_firstOf? hdeclarator).1 hdeclkind
    obtain ⟨left, o, hleft, ho⟩ := h.initialized declarator hdeclmem hdeclkind value hvalue
    exact ⟨o, c, .initializer hbody hfield hdeclarator hvalue hleft hbehind ho hc⟩

end Bounds

/-- The elements that satisfy `p` are written as some texts. If the first of them end
in `x`, which the last text stands for, and the texts have it no more often than that,
there are no others behind. -/
theorem filter_eq_nil_of_count {α : Type} {p : α → Bool} {f : α → String} {before behind : List α}
    {x : α} {ts : List String} (hbefore : ∀ a ∈ before, p a) (hx : p x)
    (hts : ((before ++ x :: behind).filter p).map f = ts) (hlast : ts.getLast? = some (f x))
    (hcount : ts.count (f x) ≤ (before.map f).count (f x) + 1) : behind.filter p = [] := by
  have hsplit : (before ++ x :: behind).filter p = before ++ x :: behind.filter p := by
    rw [List.filter_append, List.filter_eq_self.mpr hbefore, List.filter_cons_of_pos hx]
  rw [hsplit] at hts
  subst hts
  cases hrest : behind.filter p with
  | nil => rfl
  | cons y ys =>
    rw [hrest, List.map_append, List.map_cons, List.map_cons] at hlast hcount
    rw [List.getLast?_append_cons, List.getLast?_cons_cons] at hlast
    have hmem : f x ∈ f y :: ys.map f := List.mem_of_getLast? hlast
    have hpos : 0 < (f y :: ys.map f).count (f x) := List.count_pos_iff.mpr hmem
    rw [List.count_append, List.count_cons_self] at hcount
    omega

section Framed

variable {whole o c : Tree} {entry : EntryPoint} {text : String} {before behind rest : List Tree}

/-- The leaves of a tree are different from each other, as they stand in different places. -/
theorem Framed.nodup (h : Framed entry text whole) : whole.leaves.Nodup := by
  refine h.ordered.imp_of_mem fun {a b} ha _ hab heq => ?_
  have hlt := h.nonempty a ha
  rw [← heq] at hab
  omega

/-- If the token in front of the roots belongs to the scaffold, it is the last one that
does. -/
theorem Framed.filter_opens_eq_nil (h : Framed entry text whole)
    (hleaves : whole.leaves = before ++ o :: rest) (ho : entry.opens o = true)
    (hlast : entry.openingTokens.getLast? = some o.text)
    (hcount : entry.openingTokens.count o.text ≤ (before.map Tree.text).count o.text + 1) :
    (∀ a ∈ before, entry.opens a = true) ∧ rest.filter entry.opens = [] := by
  have hordered := h.ordered
  rw [hleaves] at hordered
  obtain ⟨-, -, hacross⟩ := List.pairwise_append.mp hordered
  have hbefore : ∀ a ∈ before, entry.opens a = true := by
    intro a ha
    have hlt := h.nonempty a (by simp [hleaves, ha])
    have hle := hacross a ha o List.mem_cons_self
    simp only [EntryPoint.opens, decide_eq_true_eq] at ho ⊢
    omega
  have htexts := h.opening
  rw [hleaves] at htexts
  exact ⟨hbefore, filter_eq_nil_of_count hbefore ho htexts hlast hcount⟩

/-- If the token behind the roots belongs to the scaffold, it is the first one that does. Seen from
the end the scaffold's closing is what its opening is from the start. -/
theorem Framed.filter_closes_eq_nil (h : Framed entry text whole)
    (hleaves : whole.leaves = rest ++ c :: behind) (hc : entry.closes text c = true)
    (hfirst : entry.closingTokens.head? = some c.text)
    (hcount : entry.closingTokens.count c.text ≤ (behind.map Tree.text).count c.text + 1) :
    (∀ a ∈ behind, entry.closes text a = true) ∧ rest.filter (entry.closes text) = [] := by
  have hordered := h.ordered
  rw [hleaves] at hordered
  obtain ⟨-, hfrom, -⟩ := List.pairwise_append.mp hordered
  obtain ⟨hafter, -⟩ := List.pairwise_cons.mp hfrom
  have hbehind : ∀ a ∈ behind, entry.closes text a = true := by
    intro a ha
    have hlt := h.nonempty a (by simp [hleaves, ha])
    have hle := hafter a ha
    simp only [EntryPoint.closes, decide_eq_true_eq] at hc ⊢
    omega
  refine ⟨hbehind, ?_⟩
  have hreverse : whole.leaves.reverse = behind.reverse ++ c :: rest.reverse := by simp [hleaves]
  have htexts : (whole.leaves.reverse.filter (entry.closes text)).map Tree.text =
      entry.closingTokens.reverse := by
    rw [List.filter_reverse, List.map_reverse, h.closing]
  rw [hreverse] at htexts
  have hnone : rest.reverse.filter (entry.closes text) = [] := by
    refine filter_eq_nil_of_count (fun a ha => hbehind a (List.mem_reverse.mp ha)) hc htexts ?_ ?_
    · rw [List.getLast?_reverse, hfirst]
    · rw [List.count_reverse, List.map_reverse, List.count_reverse]
      exact hcount
  rw [List.filter_reverse, List.reverse_eq_nil_iff] at hnone
  exact hnone

end Framed

/-- The roots of a source are those that its tree has. -/
theorem roots?_of_ofConcrete {source : Source} {entry : EntryPoint} {t : Concrete} {p : Parsed}
    (h : ofConcrete source entry t = .ok p) :
    roots? p.whole entry = some (p.roots, p.rootParent) := by
  unfold ofConcrete at h
  split at h
  · cases h
  · cases hconvert : t.convert source with
    | error e =>
      rw [hconvert] at h
      cases h
    | ok converted =>
      rw [hconvert] at h
      cases hroots : roots? converted.1 entry with
      | none =>
        simp only [bind, Except.bind, hroots] at h
        cases h
      | some found =>
        simp only [bind, Except.bind, hroots] at h
        cases h
        exact hroots

section Kept

variable {grammar : Grammar} {entry : EntryPoint} {text : String} {p : Parsed} {o c : Tree}

/-- The leaves below the roots of a fragment are those inside the fragment exactly if the
tokens around the roots are those of the scaffold. -/
theorem Bounds.leavesOfAll_roots_eq_iff (hbounds : Bounds p.whole entry o c)
    (hroots : roots? p.whole entry = some (p.roots, p.rootParent))
    (hframed : Framed entry text p.whole) :
    Tree.leavesOfAll p.roots = p.whole.leaves.filter (entry.encloses text) ↔
      entry.opens o ∧ entry.closes text c := by
  obtain ⟨before, behind, hleaves, hopen, hclose⟩ := hbounds.exists_leaves hroots
  have ho : o ∈ p.whole.leaves := by simp [hleaves]
  have hc : c ∈ p.whole.leaves := by simp [hleaves]
  constructor
  · intro hkept
    have hnodup := hframed.nodup
    rw [hleaves] at hnodup
    have houtside : o ∉ Tree.leavesOfAll p.roots ∧ c ∉ Tree.leavesOfAll p.roots := by
      have hfrom := (List.nodup_append.mp hnodup).2.1
      obtain ⟨hfirst, hinner⟩ := List.nodup_cons.mp hfrom
      have hapart := (List.nodup_append.mp hinner).2.2
      refine ⟨fun hmem => hfirst (List.mem_append_left _ hmem), fun hmem => ?_⟩
      exact hapart c hmem c List.mem_cons_self rfl
    rw [hkept] at houtside
    simp only [List.mem_filter, ho, hc, true_and, EntryPoint.encloses_eq] at houtside
    have hoc : entry.closes text o = false := by
      cases hcloses : entry.closes text o with
      | false => rfl
      | true =>
        have hmem := List.mem_map_of_mem (f := Tree.text) (List.mem_filter.mpr ⟨ho, hcloses⟩)
        rw [hframed.closing] at hmem
        exact absurd hmem hbounds.opening.2
    have hco : entry.opens c = false := by
      cases hopens : entry.opens c with
      | false => rfl
      | true =>
        have hmem := List.mem_map_of_mem (f := Tree.text) (List.mem_filter.mpr ⟨hc, hopens⟩)
        rw [hframed.opening] at hmem
        exact absurd hmem hbounds.closing.2
    simpa [hoc, hco] using houtside
  · rintro ⟨hopens, hcloses⟩
    have hsplit : p.whole.leaves = (before ++ o :: Tree.leavesOfAll p.roots) ++ c :: behind := by
      simp [hleaves]
    have hmem := List.mem_map_of_mem (f := Tree.text) (List.mem_filter.mpr ⟨hc, hcloses⟩)
    rw [hframed.closing] at hmem
    obtain ⟨hbefore, hfront⟩ :=
      hframed.filter_opens_eq_nil hleaves hopens hbounds.opening.1 hopen
    obtain ⟨hbehind, hback⟩ :=
      hframed.filter_closes_eq_nil hsplit hcloses (hbounds.closing.1 hmem) hclose
    rw [List.filter_eq_nil_iff] at hfront hback
    have houter : ∀ a, entry.opens a = true ∨ entry.closes text a = true →
        entry.encloses text a = false := by
      rintro a (ha | ha) <;> simp [EntryPoint.encloses_eq, ha]
    have hkeep : ∀ a ∈ Tree.leavesOfAll p.roots, entry.encloses text a = true := by
      intro a ha
      have hnotopens := hfront a (List.mem_append_left _ ha)
      have hnotcloses := hback a (List.mem_append_right _ (List.mem_cons_of_mem _ ha))
      simp [EntryPoint.encloses_eq, hnotopens, hnotcloses]
    have hbeforenil : before.filter (entry.encloses text) = [] :=
      List.filter_eq_nil_iff.mpr fun a ha => by simp [houter a (.inl (hbefore a ha))]
    have hbehindnil : behind.filter (entry.encloses text) = [] :=
      List.filter_eq_nil_iff.mpr fun a ha => by simp [houter a (.inr (hbehind a ha))]
    rw [hleaves, List.filter_append, List.filter_cons, List.filter_append, List.filter_cons,
      hbeforenil, hbehindnil, List.filter_eq_self.mpr hkeep, houter o (.inl hopens),
      houter c (.inr hcloses)]
    simp

/-- A fragment that is read has its roots between two tokens of its tree, and it is read
without losing code exactly if both of them are the scaffold's. -/
theorem kept_iff_of_parse (hp : grammar.parse text entry = .ok p)
    (hentry : entry ≠ .compilationUnit) (hframed : Framed entry text p.whole) :
    (∃ o c, Bounds p.whole entry o c) ∧ ∀ o c, Bounds p.whole entry o c →
      (Tree.leavesOfAll p.roots = p.whole.leaves.filter (entry.encloses text) ↔
        entry.opens o ∧ entry.closes text c) := by
  have hroots := roots?_of_ofConcrete hp
  exact ⟨hframed.exists_bounds hentry hroots,
    fun o c hbounds => hbounds.leavesOfAll_roots_eq_iff hroots hframed⟩

end Kept

section Reopened

/-- The members that close the class of their scaffold and open another. -/
def reopening : String := "\x7d class B \x7b"

/-- The source that these members are read in. -/
def reopenedSource : Source :=
  Source.ofText (EntryPoint.classBodyDeclarations.scaffolded reopening)

/-- A class without members: where it begins, where its body does, and where it ends. -/
def emptyClass (start brace stop : Nat) : Concrete :=
  .node ⟨"class_declaration", true, start, stop, none, false, false⟩ [
    .node ⟨"class", false, start, start + 5, none, false, false⟩ [],
    .node ⟨"identifier", true, start + 6, brace - 1, some "name", false, false⟩ [],
    .node ⟨"class_body", true, brace, stop, some "body", false, false⟩ [
      .node ⟨"\x7b", false, brace, brace + 1, none, false, false⟩ [],
      .node ⟨"\x7d", false, stop - 1, stop, none, false, false⟩ []]]

/-- What a class without members is converted to. -/
def emptyClassTree (index : Nat) (name : String) (start brace stop : Nat) : Tree :=
  .branch ⟨index + 5, .classDeclaration, none, reopenedSource.span start stop⟩ [
    .leaf ⟨index, .token, none, reopenedSource.span start (start + 5)⟩ "class",
    .leaf ⟨index + 1, .identifier, some "name", reopenedSource.span (start + 6) (brace - 1)⟩ name,
    .branch ⟨index + 4, .classBody, some "body", reopenedSource.span brace stop⟩ [
      .leaf ⟨index + 2, .token, none, reopenedSource.span brace (brace + 1)⟩ "\x7b",
      .leaf ⟨index + 3, .token, none, reopenedSource.span (stop - 1) stop⟩ "\x7d"]]

/-- The two classes that a parser finds there. -/
def reopened : Concrete :=
  .node ⟨"program", true, 0, 45, none, false, false⟩ [emptyClass 0 29 32, emptyClass 33 41 44]

/-- What the two classes are converted to. -/
def reopenedTree : Tree :=
  .branch ⟨12, .program, none, reopenedSource.span 0 44⟩
    [emptyClassTree 0 "__JavaLayoutFragment__" 0 29 32, emptyClassTree 6 "B" 33 41 44]

/-- A class without members is converted to its three parts. -/
theorem harvest_emptyClass {index start brace stop : Nat} {name : String}
    (hkeyword : reopenedSource.slice start (start + 5) = .ok "class")
    (hname : reopenedSource.slice (start + 6) (brace - 1) = .ok name)
    (hopen : reopenedSource.slice brace (brace + 1) = .ok "\x7b")
    (hclose : reopenedSource.slice (stop - 1) stop = .ok "\x7d") :
    (emptyClass start brace stop).harvest reopenedSource index =
      .ok ⟨[emptyClassTree index name start brace stop], [], index + 6⟩ := by
  have hdeclaration : ConcreteInfo.part
      ⟨"class_declaration", true, start, stop, none, false, false⟩ = .branch .classDeclaration := by
    rfl
  have hidentifier : ConcreteInfo.part
      ⟨"identifier", true, start + 6, brace - 1, some "name", false, false⟩ = .leaf .identifier := by
    rfl
  have hbody : ConcreteInfo.part
      ⟨"class_body", true, brace, stop, some "body", false, false⟩ = .branch .classBody := by
    rfl
  have htoken : ∀ text a b, text = "class" ∨ text = "\x7b" ∨ text = "\x7d" → ConcreteInfo.part
      ⟨text, false, a, b, none, false, false⟩ = .leaf .token := by
    rintro text a b (rfl | rfl | rfl) <;> rfl
  simp [emptyClass, Concrete.harvest, Concrete.harvestAll, hdeclaration, hidentifier, hbody, htoken,
    ConcreteInfo.text, hkeyword, hname, hopen, hclose, bind, Except.bind, pure, Except.pure,
    Harvest.append, Harvest.enclose, Harvest.spanOver, emptyClassTree]
  exact ⟨rfl, rfl⟩

/-- The first class has no members, so nothing is read of the fragment. -/
theorem parse_reopening : Grammar.parse (fun _ => reopened) reopening .classBodyDeclarations =
    .ok ⟨reopenedTree, [], some .classBody, [], reopenedSource⟩ := by
  have hscaffold : (emptyClass 0 29 32).harvest reopenedSource 0 =
      .ok ⟨[emptyClassTree 0 "__JavaLayoutFragment__" 0 29 32], [], 6⟩ :=
    harvest_emptyClass rfl rfl rfl rfl
  have hother : (emptyClass 33 41 44).harvest reopenedSource 6 =
      .ok ⟨[emptyClassTree 6 "B" 33 41 44], [], 12⟩ :=
    harvest_emptyClass rfl rfl rfl rfl
  have hconvert : reopened.convert reopenedSource = .ok (reopenedTree, []) := by
    simp only [reopened, Concrete.convert, Concrete.harvestAll, hscaffold, hother, bind, Except.bind]
    rfl
  have hparse : Grammar.parse (fun _ => reopened) reopening .classBodyDeclarations =
      ofConcrete reopenedSource .classBodyDeclarations reopened := rfl
  have hfaulty : reopened.info.faulty = false := rfl
  simp only [hparse, ofConcrete, hfaulty, hconvert, bind, Except.bind]
  rfl

/-- A class without members is well shaped. -/
theorem wellShaped_emptyClassTree (index : Nat) (name : String) (start brace stop : Nat) :
    (emptyClassTree index name start brace stop).WellShaped := by
  have hbody : ∀ first last : NodeInfo, first.kind = .token → last.kind = .token →
      Shape.Braced [Tree.leaf first "\x7b", Tree.leaf last "\x7d"] := by
    intro first last hfirst hlast
    exact ⟨_, [], _, rfl, Tree.isToken_iff.mpr ⟨first, rfl, hfirst⟩,
      Tree.isToken_iff.mpr ⟨last, rfl, hlast⟩, by simp [Shape.Unbraced]⟩
  have hdeclared : ∀ keyword identifier body : Tree, keyword.kind = .token →
      identifier.kind = .identifier → body.kind = .classBody →
      Shape.TypeDeclared [keyword, identifier, body] := by
    intro keyword identifier body hkeyword hidentifier hbody
    refine ⟨[], [keyword, identifier], [], body, rfl, .inl rfl, ?_, by simp, by rw [hbody]; rfl⟩
    simp only [List.forall_mem_cons, hkeyword, hidentifier, List.not_mem_nil, false_imp_iff,
      implies_true, and_true]
    decide
  simp only [emptyClassTree, Tree.wellShaped_branch_iff, Tree.wellShaped_leaf_iff,
    List.forall_mem_cons, Tree.Regular, Shape.Allowed, List.not_mem_nil, false_imp_iff,
    implies_true, and_true]
  exact ⟨⟨by decide, rfl, hdeclared _ _ _ rfl rfl rfl⟩, .inl trivial, .inr rfl,
    ⟨by decide, rfl, hbody _ _ rfl rfl⟩, .inl trivial, .inl trivial⟩

/-- The tree is one that a parser delivers. -/
theorem framed_reopenedTree : Framed .classBodyDeclarations reopening reopenedTree where
  shaped := by
    have hregular : reopenedTree.Regular := ⟨by decide, rfl, trivial⟩
    refine Tree.wellShaped_branch_iff.mpr ⟨hregular, ?_⟩
    simp [wellShaped_emptyClassTree]
  marked := by
    have hnone : ∀ t ∈ reopenedTree.nodes, t.kind ≠ .fieldDeclaration := by decide
    exact fun t ht hkind => absurd hkind (hnone t ht)
  initialized := by
    have hnone : ∀ t ∈ reopenedTree.nodes, t.kind ≠ .variableDeclarator := by decide
    exact fun t ht hkind => absurd hkind (hnone t ht)
  ordered := by decide
  nonempty := by decide
  opening := by rfl
  closing := by rfl

/-- The brace behind the members is their own there, so some code is lost. -/
theorem kept_iff_of_parse_reopening :
    ∃ p, Grammar.parse (fun _ => reopened) reopening .classBodyDeclarations = .ok p ∧
      Framed .classBodyDeclarations reopening p.whole ∧
      Tree.leavesOfAll p.roots ≠
        p.whole.leaves.filter (EntryPoint.classBodyDeclarations.encloses reopening) := by
  refine ⟨_, parse_reopening, framed_reopenedTree, fun hkept => ?_⟩
  have hiff := (kept_iff_of_parse parse_reopening (by decide) framed_reopenedTree).2
  have hbraces : Braces
      [.leaf ⟨2, .token, none, reopenedSource.span 29 30⟩ "\x7b",
        .leaf ⟨3, .token, none, reopenedSource.span 31 32⟩ "\x7d"] _ [] _ :=
    ⟨rfl, rfl, rfl, by simp [Shape.Unbraced]⟩
  have hbounds : Bounds reopenedTree .classBodyDeclarations _ _ := .members rfl hbraces
  have hcloses := ((hiff _ _ hbounds).mp hkept).2
  revert hcloses
  decide

end Reopened

end Parsed

end JavaFormat
