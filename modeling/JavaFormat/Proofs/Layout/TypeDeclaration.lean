import JavaFormat.Layout.TypeDeclaration
import JavaFormat.Proofs.Layout.Members
import JavaFormat.Proofs.Layout.Sites
import JavaFormat.Proofs.Layout.Spacing

/-!
# Declarations of types lose nothing

The children of a declaration are sorted into modifiers, head, clauses and body. As
they come in this order, sorting them and printing the parts one after the other
leaves all of them in place.
-/

namespace JavaFormat.Layout

open Doc

variable {share : Tree → Multiset Remark}

/-! ## Sorting the parts -/

namespace Site.Ready

variable {s : Site}

/-- The parts that a declaration is sorted into have all of its leaves and comments. -/
theorem succeeds_typeParts (h : s.Ready share) (hs : Shape.TypeDeclared s.node.children)
    (kind : NodeKind) :
    Succeeds (typeParts kind s.children) fun parts =>
      ∃ ls₁ ls₂ ls₃ cs₁ cs₂ cs₃, WeavesAll parts.modifiers ls₁ cs₁ ∧
        (∀ p ∈ parts.head, p.Complete share) ∧ WeavesAll parts.clauses ls₂ cs₂ ∧
        (∃ d, parts.body = some d ∧ Weaves d ls₃ cs₃) ∧
        texts s.children = ls₁ ++ (texts parts.head ++ (ls₂ ++ ls₃)) ∧
        shares share s.children = cs₁ + (shares share parts.head + (cs₂ + cs₃)) := by
  obtain ⟨ms, hs, ks, body, hps, hmodifiers, hhead, hclauses, hbody⟩ :=
    Site.exists_typeDeclared h.nodes hs
  have hks : ∀ p ∈ ks, p.Complete share := fun p hp => h.complete p (by simp [hps, hp])
  have hb := h.complete body (by simp [hps])
  have hunmodified : Succeeds (typeParts kind (hs ++ (ks ++ [body]))) fun parts =>
      parts.modifiers = [] ∧ parts.head = hs ∧
        WeavesAll parts.clauses (texts ks) (shares share ks) ∧
        ∃ d, parts.body = some d ∧ Weaves d body.node.leafTexts (share body.node) := by
    rw [typeParts_unmodified kind hhead hclauses hbody]
    exact (yieldsAll_docs hks).bind fun ds hds => hb.doc.bind fun d hd =>
      .pure ⟨rfl, rfl, hds, d, rfl, hd⟩
  have hplain : ∀ p ∈ hs, p.Complete share := fun p hp => h.complete p (by simp [hps, hp])
  rw [hps]
  rcases hmodifiers with rfl | ⟨p, rfl, hkind⟩
  · obtain ⟨parts, hok, hm, hh, hk, hd⟩ := hunmodified
    refine ⟨parts, hok, [], _, _, 0, _, _, ?_, ?_, hk, hd, ?_, ?_⟩
    · rw [hm]
      exact .nil
    · rw [hh]
      exact hplain
    · simp [hh]
    · simp [hh]
  · have hp := h.complete p (by simp [hps])
    obtain ⟨next, more, hnext⟩ : ∃ next more, hs ++ (ks ++ [body]) = next :: more :=
      List.exists_cons_of_ne_nil (by simp)
    have hmodified : Succeeds (typeParts kind ([p] ++ (hs ++ (ks ++ [body])))) fun parts =>
        WeavesAll parts.modifiers p.node.leafTexts (share p.node) ∧ parts.head = hs ∧
          WeavesAll parts.clauses (texts ks) (shares share ks) ∧
          ∃ d, parts.body = some d ∧ Weaves d body.node.leafTexts (share body.node) := by
      rw [hnext] at hunmodified ⊢
      rw [List.singleton_append, typeParts_modified _ hkind]
      refine hp.doc.bind fun d hd => hunmodified.bind ?_
      rintro parts ⟨hm, hh, hk, hbody⟩
      refine .pure ⟨?_, hh, hk, hbody⟩
      have hgap := empty_separator (some kind) .standard (some next.node) p next
      have hall := Each.cons hd (.skip hgap (.nil : WeavesAll [] [] 0))
      dsimp only
      rw [hm]
      exact hall.congr (by simp) (by simp)
    obtain ⟨parts, hok, hm, hh, hk, hd⟩ := hmodified
    refine ⟨parts, hok, _, _, _, _, _, _, hm, ?_, hk, hd, ?_, ?_⟩
    · rw [hh]
      exact hplain
    · simp [hh]
    · simp [hh]

/-- The declaration of a type prints its modifiers, its head, its clauses and its
body. -/
theorem yields_typeDeclaration (h : s.Ready share) (hs : Shape.TypeDeclared s.node.children) :
    Yields s.typeDeclaration (texts s.children) (shares share s.children) := by
  refine (h.succeeds_typeParts hs s.node.kind).bind ?_
  rintro parts ⟨ls₁, ls₂, ls₃, cs₁, cs₂, cs₃, hm, hcomplete, hk, ⟨body, hbody, hb⟩, ht, hsh⟩
  rw [ht, hsh]
  refine (yields_sequence s.node.kind .ofTypeHead hcomplete).bind fun head hh => .pure ?_
  have hspaced : ∀ {d ls cs}, Weaves d ls cs → Weaves (cat [space, d]) ls cs :=
    fun hd => (Each.skip empty_space (.single hd)).cat.congr (by simp) (by simp)
  have hheader : Weaves (if parts.clauses.isEmpty then head
      else grouped [head, indented (parts.clauses.map fun clause => cat [space, clause])])
      (texts parts.head ++ ls₂) (shares share parts.head + cs₂) := by
    cases hclauses : parts.clauses with
    | nil =>
      rw [hclauses] at hk
      obtain ⟨hls, hcs⟩ := Each.nil_iff.mp hk
      exact hh.congr (by simp [hls]) (by simp [hcs])
    | cons d ds =>
      have hindented := (hk.map hspaced).indented
      rw [hclauses] at hindented
      exact (Each.cons hh (.single hindented)).grouped
  rw [hbody]
  have hall := (hm.append (.cons hheader (.skip empty_blank (.single hb)))).cat
  exact hall.congr (by simp) (by simp [add_assoc])

end Site.Ready

/-! ## Enumerations -/

/-- Constants come with the commas behind them; what is declared behind them is left
out. -/
theorem yieldsAll_enumConstants (source : Source) (current : Option Doc) {ls : List String}
    {cs : Multiset Remark} (hcurrent : WeavesAll current.toList ls cs) {ps qs : List Piece}
    (h : ∀ p ∈ ps, p.Inner share) (hps : ∀ p ∈ ps, p.kind ≠ .enumBodyDeclarations)
    (hqs : ∀ q ∈ qs, q.kind = .enumBodyDeclarations) :
    YieldsAll (enumConstants source current (ps ++ qs)) (ls ++ texts ps)
      (cs + shares share ps) := by
  induction ps generalizing current ls cs with
  | nil =>
    exact ⟨current.toList, enumConstants_of_declarations source current hqs,
      hcurrent.congr (by simp) (by simp)⟩
  | cons p ps ih =>
    obtain ⟨hp, hrest⟩ := List.forall_mem_cons.mp h
    obtain ⟨hkind, hkinds⟩ := List.forall_mem_cons.mp hps
    rw [List.cons_append]
    rcases enumConstants_cons source current (ps ++ qs) hkind with
      ⟨d, rfl, hcomma, heq⟩ | ⟨-, heq⟩
    all_goals rw [heq]
    · obtain ⟨htext, hshare⟩ := hp.of_isToken hcomma
      have hclosed : Weaves (cat [d, ","]) (ls ++ [","]) (cs + 0) :=
        (hcurrent.append (.single (weaves_text ","))).cat
      refine (ih (some _) (.single hclosed) hrest hkinds).mono fun ds hds =>
        hds.congr ?_ ?_
      · simp [htext]
      · simp [hshare]
    · refine hp.doc.bind fun d hd => ?_
      have hspaced : Weaves (if current.isSome && hasBlankLineBefore source p
          then cat [hardline, d] else d) p.node.leafTexts (share p.node) := by
        split
        · exact (Each.skip empty_hardline (.single hd)).cat.congr (by simp) (by simp)
        · exact hd
      refine (ih (some _) (.single hspaced) hrest hkinds).bind fun ds hds => .pure ?_
      exact (hcurrent.append hds).congr (by simp) (by simp)

namespace Site.Ready

variable {s : Site}

/-- The body of an enumeration prints its constants and what is declared behind
them. -/
theorem yields_enumBody (h : s.Ready share) (hs : Shape.EnumBraced s.node.children) :
    Yields s.enumBody (texts s.children)
      (remarks s.comments.dangling + shares share s.children) := by
  obtain ⟨ps, qs, hps, hconstant, hdeclared, f, l, hframe, hopen, hclose⟩ :=
    Site.exists_enumBraced h.nodes hs
  obtain ⟨hft, hfs⟩ := (h.inner f (by simp [hframe])).of_isToken hopen
  obtain ⟨hlt, hls⟩ := (h.inner l (by simp [hframe])).of_isToken hclose
  have ht : texts s.children = "\x7b" :: (texts (ps ++ qs) ++ ["\x7d"]) := by
    rw [hframe, hps]
    simp [hft, hlt]
  have hsh : shares share s.children = shares share (ps ++ qs) := by
    rw [hframe, hps]
    simp [hfs, hls]
  have hinner : ∀ p ∈ ps ++ qs, p.Inner share := by
    rw [← hps]
    exact fun p hp => h.inner p (List.mem_of_mem_filter hp)
  rw [ht, hsh, Site.enumBody, hps]
  rcases hdeclared with rfl | ⟨q, rfl, hkind⟩
  · have hconstants : YieldsAll (enumConstants s.source none (ps ++ [])) ([] ++ texts ps)
        (0 + shares share ps) :=
      yieldsAll_enumConstants s.source none .nil (fun p hp => hinner p (by simp [hp])) hconstant
        (by simp)
    rw [List.nil_append, zero_add] at hconstants
    refine hconstants.bind fun ds hds => ?_
    rw [List.append_nil, find?_declarations hconstant]
    refine .pure (weaves_braces _ _ ?_)
    cases ds with
    | nil => exact hds
    | cons d ds => exact .single (Each.join empty_hardline hds)
  · have hconstants : YieldsAll (enumConstants s.source none (ps ++ [q])) ([] ++ texts ps)
        (0 + shares share ps) :=
      yieldsAll_enumConstants s.source none .nil (fun p hp => hinner p (by simp [hp])) hconstant
        (by simpa using hkind)
    have hfound : (ps ++ [q]).reverse.find? (·.kind == .enumBodyDeclarations) = some q := by
      simp [hkind]
    have hq := (hinner q (by simp)).doc
    rw [hfound]
    refine hconstants.bind fun ds hds => hq.bind fun d hd => .pure ?_
    have hcontents := (Each.cons (hds.join empty_hardline) (.single hd)).cat
    have hall := weaves_braces s.comments (some _) (.single hcontents)
    exact hall.congr (by simp) (by simp)

/-- What is declared behind the constants of an enumeration is printed behind a
semicolon. -/
theorem yields_enumDeclarations (h : s.Ready share)
    (hs : Shape.Allowed .enumBodyDeclarations s.node.children) :
    Yields s.enumDeclarations (texts s.children) (shares share s.children) := by
  obtain ⟨semicolon, items, hc, hsemicolon⟩ := hs
  rw [← h.nodes] at hc
  obtain ⟨p, ps, hps, rfl, rfl⟩ := List.map_eq_cons_iff.mp hc
  obtain ⟨htext, hshare⟩ := (h.inner p (by simp [hps])).of_isToken hsemicolon
  have hcomplete : ∀ q ∈ ps, q.Complete share := fun q hq => h.complete q (by simp [hps, hq])
  have hmembers := yields_members s.source Gap.ofMembers hcomplete
  have hmark := weaves_text ";"
  rw [Site.enumDeclarations, hps, List.drop_one, List.tail_cons]
  cases ps with
  | nil => exact .pure (hmark.congr (by simp [htext]) (by simp [hshare]))
  | cons q qs =>
    refine hmembers.bind fun d hd => .pure ?_
    have hall := (Each.cons hmark (.skip empty_hardline (.skip empty_hardline (.single hd)))).cat
    exact hall.congr (by simp [htext]) (by simp [hshare])

/-- Dimensions are printed, set off or not. -/
theorem yields_dimensions (h : s.Ready share) :
    Yields s.dimensions (texts s.children) (shares share s.children) := by
  refine (yields_tight h.complete).bind fun d hd => ?_
  split
  · exact .pure ((Each.skip empty_blank (.single hd)).cat.congr (by simp) (by simp))
  · exact .pure hd

end Site.Ready

end JavaFormat.Layout
