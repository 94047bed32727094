import JavaFormat.Proofs.Layout.Settled
import JavaFormat.Proofs.Layout.Spots
import JavaFormat.Proofs.Layout.Verbatim

/-!
# Comments among leaves

A comment is shown row by row, and the number of line breaks between its rows matters to
nothing. Comments in front of a node stand in front of its leaves. Those behind it stand behind
its leaves, but only in front of a line break if one of them has to end its line: up to the
break it waits, and so do all comments behind it.
-/

namespace JavaFormat

/-- The rows of a comment, with no number of breaks in front of any. -/
def Comment.spots (c : Comment) : List Spot := c.rows.map (⟨none, ·⟩)

/-- Whether a comment behind a node has to end its line. -/
def AttachedComment.waits (a : AttachedComment) : Bool := a.comment.isLine || a.ownLine

namespace NodeComments

variable {α : Type}

/-- What there is of each comment in front of a node, and then of the node and of each comment
behind it. -/
def frame (f : Comment → List α) (c : NodeComments) (inner : List α) : List α :=
  c.leading.flatMap (fun a => f a.comment) ++
    (inner ++ c.trailing.flatMap fun a => f a.comment)

/-- What there is of each child of a node, that of each comment inside the node standing behind the
first child. -/
def tuck (f : Comment → List α) (c : NodeComments) : List (List α) → List (List α)
  | [] => []
  | inner :: rest => (inner ++ c.dangling.flatMap fun a => f a.comment) :: rest

/-- Without comments inside a node there is nothing but its children. -/
theorem tuck_of_nil {f : Comment → List α} {c : NodeComments} (h : c.dangling = [])
    (inners : List (List α)) : c.tuck f inners = inners := by
  cases inners <;> simp [tuck, h]

/-- Without comments around a node there is nothing but the node. -/
theorem frame_of_nil {f : Comment → List α} {c : NodeComments} {inner : List α}
    (hleading : c.leading = []) (htrailing : c.trailing = []) : c.frame f inner = inner := by
  simp [frame, hleading, htrailing]

end NodeComments

namespace Layout

open Doc

/-! ## One comment -/

/-- A comment places its rows. -/
theorem places_comment (c : Comment) : Places c.doc c.spots := by
  cases hc : c.isReindented with
  | false =>
    have hrows : c.spots = [⟨none, c.text⟩] := by simp [Comment.spots, Comment.rows, hc]
    rw [hrows]
    refine ⟨by simp, fun b k hb q hq => ?_⟩
    obtain ⟨gs, rfl⟩ := (sound_comment c).exists_prompt hq
    have hself : Strung b [⟨k, c.text⟩] (prompt gs ++ []) (some 0) :=
      .leaf ⟨k, c.text⟩ hb (spells_of_scripts hc hq) (.done fun n hn => hn)
    rwa [List.append_nil, ← Spot.behind_cons] at hself
  | true =>
    obtain ⟨first, more, hblock, hlines, hmore, hstarred⟩ := Comment.isReindented_iff.mp hc
    have hrows : c.spots = ([⟨none, Text.trimEnd first⟩] ::
        more.map fun line => [⟨none, Text.trim line⟩]).flatten := by
      simp [Comment.spots, Comment.rows, hc, hlines, ← List.flatMap_def]
      exact List.map_eq_flatMap
    rw [Comment.doc_of_isStarred hblock hlines hmore hstarred, hrows]
    refine PlacesEach.join slack_hardline (.cons (places_text _) ?_) (by simp)
    rw [List.map_map, List.forall₂_map_left_iff, List.forall₂_map_right_iff, List.forall₂_same]
    exact fun line _ => places_blank_text (Text.trim line)

/-! ## Comments in front of a node -/

section Leading

variable {waits : Bool} {d : Doc} {ds seps : List Doc} {ws vs : List Spot}

/-- A document that gaps separate from what follows. -/
theorem Precedes.behind (hd : Places d vs) (hseps : ∀ e ∈ seps, Slack e)
    (h : Precedes waits ds ws) : Precedes waits (d :: (seps ++ ds)) (vs ++ ws) where
  ne_nil := by simp [hd.ne_nil]
  strings {b k} hb es us e hes := by
    rw [Spot.behind_append hd.ne_nil, List.append_assoc, List.cons_append]
    refine .cons (hd.strings b k hb) ?_
    have hrest : ∀ b, StringsAll b (ds ++ es) (ws ++ us) e := fun _ =>
      h.strings (k := none) (by simp) hes
    rw [List.append_assoc]
    generalize (some 0 : Option Nat) = c
    induction seps generalizing c with
    | nil => exact hrest c
    | cons sep seps ih =>
      obtain ⟨hsep, hseps⟩ := List.forall_mem_cons.mp hseps
      exact .slack hsep (ih hseps none)

/-- Comments in front of documents that go on. -/
theorem Precedes.behind_leading (h : Precedes waits ds ws) (as : List AttachedComment) :
    Precedes waits (as.flatMap AttachedComment.leadingParts ++ ds)
      (as.flatMap (·.comment.spots) ++ ws) := by
  induction as with
  | nil => exact h
  | cons a as ih =>
    have hparts : ∃ seps : List Doc, a.leadingParts = a.comment.doc :: seps ∧
        ∀ e ∈ seps, Slack e := by
      unfold AttachedComment.leadingParts
      split
      · split
        · exact ⟨[hardline], rfl, by simpa using slack_hardline⟩
        · exact ⟨[hardline, hardline], rfl, by simpa using slack_hardline⟩
      · exact ⟨[.text " "], rfl, by simpa using slack_blank⟩
    obtain ⟨seps, hseps, hslack⟩ := hparts
    rw [List.flatMap_cons, List.flatMap_cons, hseps, List.cons_append, List.cons_append,
      List.append_assoc, List.append_assoc]
    exact Precedes.behind (places_comment a.comment) hslack ih

end Leading

/-! ## Comments behind a node -/

section Trailing

variable {as : List AttachedComment} {b e : Option Nat} {ds : List Doc} {ws vs : List Spot}

/-- Once a comment has to wait, all comments behind it do. -/
abbrev KeepsWaiting (as : List AttachedComment) : Prop :=
  as.Pairwise fun a a' => a.waits = true → a'.waits = true

/-- A group is broken without anything being shown. -/
theorem strings_breakParent : Strings b .breakParent [] b := by
  rintro _ rfl
  exact .done fun n hn => hn

/-- Nothing is printed of comments that all wait before the line breaks. -/
theorem stops_of_waits (has : ∀ a ∈ as, a.waits = true) {q : List Cue}
    (hq : ScriptsAll (as.flatMap AttachedComment.trailingParts ++ hardline :: ds) q) : Stops q := by
  induction as generalizing q with
  | nil =>
    obtain ⟨q₁, q₂, hq₁, -, rfl⟩ := hq
    rw [scripts_hardline.mp hq₁]
    exact .stop q₂
  | cons a as ih =>
    obtain ⟨ha, has⟩ := List.forall_mem_cons.mp has
    have hparts : ∃ es, a.trailingParts = [suffixed es, breakParent] := by
      unfold AttachedComment.trailingParts
      split
      · exact ⟨_, rfl⟩
      · rename_i hown
        split
        · exact ⟨_, rfl⟩
        · rename_i hline
          simp [AttachedComment.waits, hown, hline] at ha
    obtain ⟨es, hes⟩ := hparts
    rw [List.flatMap_cons, hes] at hq
    obtain ⟨q₁, _, hq₁, ⟨_, q₂, rfl, hq₂, rfl⟩, rfl⟩ := hq
    obtain ⟨gs, -, rfl⟩ := scripts_suffixed.mp hq₁
    exact .later gs (ih has hq₂)

/-- A comment that has to wait is shown as if it did not, for all that is printed in front of the
next line break waits as well. -/
theorem strings_waiting {a : AttachedComment} (ha : a.waits = true)
    (hstops : ∀ q, ScriptsAll ds q → Stops q) (hds : StringsAll (some 0) ds vs e) :
    StringsAll (some 0) (a.trailingParts ++ ds) (a.comment.spots ++ vs) e := by
  have hstops' : ∀ q, ScriptsAll (.breakParent :: ds) q → Stops q := by
    rintro _ ⟨_, q, rfl, hq, rfl⟩
    exact hstops _ hq
  have hshown : ∀ b, StringsAll b (a.comment.doc :: breakParent :: ds) (a.comment.spots ++ vs) e :=
    fun b => .cons ((places_comment a.comment).free b) (.skip strings_breakParent hds)
  unfold AttachedComment.trailingParts
  split
  · have hblank : Slack (if a.blankLinesBefore = 0 then .text "" else hardline) := by
      split
      · exact slack_nothing
      · exact slack_hardline
    exact .suffixed_cons hstops' (.slack slack_hardline (.slack hblank (hshown none)))
  · rename_i hown
    split
    · exact .suffixed_cons hstops' (.skip strings_blank (hshown (some 0)))
    · rename_i hline
      simp [AttachedComment.waits, hown, hline] at ha

/-- Comments behind documents that show spots, in front of others. -/
theorem strings_trailing (has : KeepsWaiting as)
    (hds : Continues (as.any AttachedComment.waits) ds vs e) :
    StringsAll (some 0) (as.flatMap AttachedComment.trailingParts ++ ds)
      (as.flatMap (·.comment.spots) ++ vs) e := by
  induction as with
  | nil => exact hds
  | cons a as ih =>
    obtain ⟨hwait, has⟩ := List.pairwise_cons.mp has
    rw [List.flatMap_cons, List.flatMap_cons, List.append_assoc, List.append_assoc]
    rw [List.any_cons] at hds
    cases ha : a.waits with
    | false =>
      rw [ha, Bool.false_or] at hds
      obtain ⟨hline, hown⟩ := Bool.or_eq_false_iff.mp ha
      have hparts : a.trailingParts = [.text " ", a.comment.doc] := by
        simp [AttachedComment.trailingParts, hline, hown]
      rw [hparts]
      exact .skip strings_blank (.cons ((places_comment a.comment).free _) (ih has hds))
    | true =>
      rw [ha, Bool.true_or] at hds
      obtain ⟨es, rfl, hes⟩ := hds
      exact strings_waiting ha (fun _ hq => stops_of_waits (fun a' ha' => hwait a' ha' ha) hq)
        (ih has (continues_hardline _ hes))

end Trailing

/-! ## Pieces -/

section Wrap

variable {p : Piece} {d : Doc} {ws : List Spot}

/-- What is printed for a node with its comments around it, if none inside it are left to be
printed. -/
theorem scriptsAll_of_wrap (h : p.comments.dangling = [] ∨ printsDangling p.kind = true)
    {q : List Cue} (hq : (p.wrap true d).Scripts q) :
    ScriptsAll (p.comments.leading.flatMap AttachedComment.leadingParts ++
      d :: p.comments.trailing.flatMap AttachedComment.trailingParts) q := by
  have hinside : (!p.comments.dangling.isEmpty && !printsDangling p.kind) = false := by
    rcases h with h | h <;> simp [h]
  rw [scriptsAll_append]
  unfold Piece.wrap at hq
  rw [hinside] at hq
  split at hq
  · rename_i hempty
    simp only [NodeComments.isEmpty, Bool.and_eq_true, List.isEmpty_iff] at hempty
    obtain ⟨⟨hleading, htrailing⟩, -⟩ := hempty
    rw [hleading, htrailing]
    exact ⟨[], q, rfl, ⟨q, [], hq, rfl, by simp⟩, rfl⟩
  · obtain ⟨_, behind, hinner, hbehind, rfl⟩ := scriptsAll_append.mp (scripts_cat.mp hq)
    obtain ⟨_, _, houter, rfl, rfl⟩ := scriptsAll_append.mp hinner
    obtain ⟨front, _, hfront, ⟨own, _, hown, rfl, rfl⟩, rfl⟩ := scriptsAll_append.mp houter
    refine ⟨front, own ++ behind, ?_, ⟨own, behind, hown, ?_, rfl⟩, by simp⟩
    · cases hleading : p.comments.leading with
      | nil => simpa [hleading] using hfront
      | cons => simpa [hleading, NodeComments.leadingDoc] using hfront
    · cases htrailing : p.comments.trailing with
      | nil => simpa [htrailing] using hbehind
      | cons => simpa [htrailing, trailingDoc] using hbehind

/-- The comments of a node around its document. -/
theorem precedes_wrap (h : p.comments.dangling = [] ∨ printsDangling p.kind = true)
    (htrailing : KeepsWaiting p.comments.trailing) (hd : Places d ws) :
    Precedes p.hasBreakingTrailing [p.wrap true d] (p.comments.frame Comment.spots ws) := by
  have hbehind : Precedes p.hasBreakingTrailing
      (d :: p.comments.trailing.flatMap AttachedComment.trailingParts)
      (ws ++ p.comments.trailing.flatMap (·.comment.spots)) := by
    refine ⟨by simp [hd.ne_nil], fun {b k} hb es vs e hes => ?_⟩
    rw [Spot.behind_append hd.ne_nil, List.append_assoc]
    exact .cons (hd.strings b k hb) (strings_trailing htrailing hes)
  have hall := hbehind.behind_leading p.comments.leading
  refine ⟨hall.ne_nil, fun hb es vs e hes => ?_⟩
  rintro _ ⟨q, q', hq, hq', rfl⟩
  exact hall.strings hb hes _ (scriptsAll_append.mpr ⟨q, q', scriptsAll_of_wrap h hq, hq', rfl⟩)

end Wrap

end Layout

/-! ## Trees with comments -/

/-- Nodes whose children may have comments behind them: what follows a child begins on a new line.
-/
def NodeKind.holdsMembers (k : NodeKind) : Bool := k == .program || k.isBody && k != .enumBody

/-- Neighbours between which comments are shown in order: none behind the first one that a semicolon
would be put in front of, and none in front of what follows modifiers, for there the layout looks
at the lines of the nodes themselves. -/
structure Attachments.Parts (as : Attachments) (t u : Tree) : Prop where
  semicolon : u.isToken ";" = true → (as.at t.index).trailing = []
  modifiers : t.kind = .modifiers → (as.at u.index).leading = []

/-- The comments of a node and of its children are shown in the order of the tree, and the layout
sees all of them where it looks at lines. There are comments in front of nodes, behind those that
have lines of their own, and inside bodies; but a token has none, a call and an operation none of
their own, and there are none in front of the parts of a call, in front of modifiers, in front of a
first child or behind a last one, since such a comment is in front of the node itself or behind it.
-/
structure Attachments.Orderly (as : Attachments) (t : Tree) : Prop where
  own : t.kind = .token ∨ t.kind = .program ∨ t.kind = .binaryExpression ∨
    t.kind = .methodInvocation → as.at t.index = {}
  dangling : t.kind.isBody = false → (as.at t.index).dangling = []
  waiting : Layout.KeepsWaiting (as.at t.index).trailing
  first : t.kind ≠ .program → ∀ u ∈ t.children.head?, (as.at u.index).leading = []
  last : t.kind ≠ .program → ∀ u ∈ t.children.getLast?, (as.at u.index).trailing = []
  leading : t.kind = .modifiers ∨ t.kind = .methodInvocation →
    ∀ u ∈ t.children, (as.at u.index).leading = []
  trailing : t.kind.holdsMembers = false → ∀ u ∈ t.children, (as.at u.index).trailing = []
  neighbours : t.children.IsChain as.Parts

/-- What stands in a source: a leaf or a comment. -/
inductive Item
  | leaf (t : Tree)
  | comment (c : Comment)

/-- The texts that are shown of a leaf or a comment. -/
def Item.rows : Item → List String
  | .leaf t => [t.text]
  | .comment c => c.rows

namespace Attachments

mutual

/-- The leaves of a tree and the comments of its nodes, in the order in which they are shown. -/
def items (as : Attachments) : Tree → List Item
  | .leaf info written =>
    (as.at info.index).frame (fun c => [.comment c]) [.leaf (.leaf info written)]
  | .branch info ts => (as.at info.index).frame (fun c => [.comment c])
      ((as.at info.index).tuck (fun c => [.comment c]) (itemsOfAll as ts)).flatten

/-- The leaves and comments of each of several trees. -/
def itemsOfAll (as : Attachments) : List Tree → List (List Item)
  | [] => []
  | t :: ts => items as t :: itemsOfAll as ts

end

/-- The leaves and comments of several trees are listed tree by tree. -/
theorem itemsOfAll_eq_map (as : Attachments) (ts : List Tree) :
    as.itemsOfAll ts = ts.map as.items := by
  induction ts with
  | nil => rfl
  | cons t ts ih => rw [itemsOfAll, ih, List.map_cons]

end Attachments

namespace NodeComments

variable {c : NodeComments} {ws : List Spot} {is : List Item}

/-- The spots of comments have the texts that are shown of them. -/
theorem map_text_spots (as : List AttachedComment) :
    (as.flatMap (·.comment.spots)).map Spot.text =
      (as.flatMap fun a => [Item.comment a.comment]).flatMap Item.rows := by
  rw [List.map_flatMap, List.flatMap_assoc]
  refine List.flatMap_congr fun a _ => ?_
  simp [Comment.spots, Item.rows, Function.comp_def]

/-- The texts around a node are the same for spots and for what they are spots of. -/
theorem map_text_frame (h : ws.map Spot.text = is.flatMap Item.rows) :
    (c.frame Comment.spots ws).map Spot.text =
      (c.frame (fun c => [.comment c]) is).flatMap Item.rows := by
  simp only [frame, List.map_append, List.flatMap_append, map_text_spots, h]

/-- The texts inside a node are the same for spots and for what they are spots of. -/
theorem flatMap_text_tuck {wss : List (List Spot)} {iss : List (List Item)}
    (h : wss.map (·.map Spot.text) = iss.map (·.flatMap Item.rows)) :
    (c.tuck Comment.spots wss).flatMap (·.map Spot.text) =
      (c.tuck (fun c => [.comment c]) iss).flatten.flatMap Item.rows := by
  cases wss with
  | nil =>
    rw [List.map_eq_nil_iff.mp h.symm]
    rfl
  | cons ws wss =>
    obtain ⟨is, iss, rfl, hfirst, hrest⟩ := List.map_eq_cons_iff.mp h.symm
    have hflat : wss.flatMap (·.map Spot.text) = iss.flatten.flatMap Item.rows := by
      rw [List.flatMap_def, ← hrest, ← List.flatMap_def, List.flatten_eq_flatMap,
        List.flatMap_assoc]
      rfl
    simp only [tuck, List.flatMap_cons, List.map_append, List.flatten_cons, List.flatMap_append,
      map_text_spots, hfirst, hflat]

end NodeComments

end JavaFormat
