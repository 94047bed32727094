import JavaFormat.Layout.Members
import JavaFormat.Proofs.Layout.Complete
import JavaFormat.Proofs.Layout.Sites

/-!
# Members lose nothing

The members of a body are all printed, and the braces around them are written
anew: no other child is written as a brace.
-/

namespace JavaFormat.Layout

open Doc

variable {share : Tree → Multiset Remark}

/-- What goes in front of a member is nothing but breaks. -/
theorem weavesAll_memberBreak (blank : Bool) : WeavesAll (memberBreak blank) [] 0 := by
  unfold memberBreak
  split
  · exact .skip empty_hardline (.single empty_hardline)
  · exact .single empty_hardline

/-- Members behind another one are printed with their leaves in order and their comments. -/
theorem yieldsAll_membersAfter (source : Source) (gap : Gap) (previous : Tree) {ps : List Piece}
    (h : ∀ p ∈ ps, p.Complete share) :
    YieldsAll (membersAfter source gap previous ps) (texts ps) (shares share ps) := by
  induction ps generalizing previous with
  | nil => exact .pure .nil
  | cons p ps ih =>
    obtain ⟨hp, hps⟩ := List.forall_mem_cons.mp h
    rw [membersAfter, texts_cons, shares_cons]
    refine hp.doc.bind fun d hd => ?_
    split
    · exact (ih previous hps).bind fun ds hds => .pure (.cons hd hds)
    · refine (ih p.node hps).bind fun ds hds => .pure ?_
      have hbreak := weavesAll_memberBreak (hasBlankLineBefore source p || gap previous p.node)
      exact (hbreak.append (.cons hd hds)).congr (by simp) (by simp)

/-- Members print all of their leaves and comments. -/
theorem yields_members (source : Source) (gap : Gap) {ps : List Piece}
    (h : ∀ p ∈ ps, p.Complete share) :
    Yields (members source gap ps) (texts ps) (shares share ps) := by
  cases ps with
  | nil => exact .pure (Each.cat .nil)
  | cons p ps =>
    obtain ⟨hp, hps⟩ := List.forall_mem_cons.mp h
    rw [members, texts_cons, shares_cons]
    exact hp.doc.bind fun d hd => (yieldsAll_membersAfter source gap p.node hps).bind
      fun ds hds => .pure (Each.cons hd hds).cat

/-- Members, if there are any, are printed with their leaves in order and their comments. -/
theorem succeeds_members? (source : Source) (gap : Gap) {ps : List Piece}
    (h : ∀ p ∈ ps, p.Complete share) :
    Succeeds (members? source gap ps) (WeavesAll ·.toList (texts ps) (shares share ps)) := by
  cases ps with
  | nil => exact .pure .nil
  | cons p ps => exact (yields_members source gap h).map fun d hd => .single hd

/-- Braces are put around the comments inside a node and its contents. -/
theorem weaves_braces (comments : NodeComments) (contents : Option Doc) {ls : List String}
    {cs : Multiset Remark} (h : WeavesAll contents.toList ls cs) :
    Weaves (braces comments contents) ("\x7b" :: (ls ++ ["\x7d"]))
      (remarks comments.dangling + cs) := by
  have hbody := (each_danglingBlock comments).append (h.mono Weaves.awaits)
  unfold braces
  split
  · rename_i he
    rw [he] at hbody
    obtain ⟨hls, hcs⟩ := Each.nil_iff.mp hbody
    rw [hcs]
    have hl : ls = [] := hls
    rw [hl]
    exact weaves_text_append "\x7b" "\x7d"
  · have hopen := (Each.single (weaves_text "\x7b")).concat
    have hclose := (Each.single (weaves_text "\x7d")).concat
    have hbreak := (Each.single empty_hardline).concat
    have hinner := (hbreak.append_awaits hbody.join_awaits.single).indented
    have hall := hopen.concat_append (hinner.single.close.concat_append hclose)
    exact hall.cat.congr (by simp) (by simp)

namespace Site.Ready

variable {s : Site}

/-- The children between the braces are complete. -/
theorem complete_unbraced (h : s.Ready share) : ∀ p ∈ s.unbraced, p.Complete share :=
  fun p hp => h.complete p (List.mem_of_mem_filter hp)

/-- The children of a body are braces around what is printed between them. -/
theorem children_braced (h : s.Ready share) {first last : Tree} {items : List Tree}
    (hc : s.node.children = first :: (items ++ [last])) (hopen : first.isToken "\x7b")
    (hclose : last.isToken "\x7d") (hitems : Shape.Unbraced items) :
    s.unbraced.map Piece.node = items ∧
      texts s.children = "\x7b" :: (texts s.unbraced ++ ["\x7d"]) ∧
      shares share s.children = shares share s.unbraced := by
  obtain ⟨hnodes, f, l, hframe, hopen, hclose⟩ := Site.exists_braced h.nodes hc hopen hclose hitems
  obtain ⟨hft, hfs⟩ := (h.inner f (by simp [hframe])).of_isToken hopen
  obtain ⟨hlt, hls⟩ := (h.inner l (by simp [hframe])).of_isToken hclose
  rw [hframe]
  exact ⟨hnodes, by simp [hft, hlt], by simp [hfs, hls]⟩

/-- A body prints its members and the comments inside it. -/
theorem yields_body (h : s.Ready share) (hs : Shape.Braced s.node.children) (gap : Gap) :
    Yields (s.body gap) (texts s.children)
      (remarks s.comments.dangling + shares share s.children) := by
  obtain ⟨first, items, last, hc, hopen, hclose, hitems⟩ := hs
  obtain ⟨-, ht, hsh⟩ := h.children_braced hc hopen hclose hitems
  rw [ht, hsh]
  exact (succeeds_members? s.source gap h.complete_unbraced).bind fun contents hcontents =>
    .pure (weaves_braces s.comments contents hcontents)

/-- A compilation unit prints its parts and the comments inside it. -/
theorem yields_program (h : s.Ready share) :
    Yields s.program (texts s.children)
      (remarks s.comments.dangling + shares share s.children) := by
  refine (succeeds_members? s.source Gap.ofProgram h.complete).bind fun contents hcontents => ?_
  have hbody := (each_danglingBlock s.comments).append (hcontents.mono Weaves.awaits)
  split
  · rename_i he
    rw [he] at hbody
    obtain ⟨hls, hcs⟩ := Each.nil_iff.mp hbody
    rw [hcs]
    have hl : texts s.children = [] := hls
    rw [hl]
    exact .pure empty_text
  · exact .pure (hbody.join_awaits.single.close.cat.congr (by simp) (by simp))

end Site.Ready

end JavaFormat.Layout
