import JavaFormat.Proofs.Layout.Tokens

/-!
# Comments that wait

Comments that are put off wait for the next line break. Wherever the printing of a
stitched script has got to, what waits are comments of the part behind it, and leaves and
comments are met in their places (`Stitched.exists_leaf`, `Stitched.exists_comment`).
What waits is printed in one piece, and nothing but comments put off later comes between
it and the break (`Stitched.flushes`).
-/

namespace JavaFormat.Layout

open Doc

/-- The glyphs of comments that wait, the oldest first. -/
inductive Waits : List Remark → List Glyph → Prop
  | nil : Waits [] []
  | cons {a as gs hs} (ha : PutOff a gs) (has : Waits as hs) : Waits (a :: as) (gs ++ hs)

section Waits

variable {a : Remark} {as bs : List Remark} {gs hs : List Glyph}

/-- The comments that wait in two stretches wait one stretch after the other. -/
theorem Waits.append (has : Waits as gs) (hbs : Waits bs hs) : Waits (as ++ bs) (gs ++ hs) := by
  induction has with
  | nil => exact hbs
  | cons ha _ ih =>
    rw [List.append_assoc]
    exact .cons ha ih

/-- One more comment waits. -/
theorem Waits.concat (has : Waits as gs) (ha : PutOff a hs) : Waits (as ++ [a]) (gs ++ hs) := by
  have hone := Waits.cons ha .nil
  rw [List.append_nil] at hone
  exact has.append hone

/-- What waits is woven from comments. -/
theorem Waits.woven (h : Waits as gs) : Woven [] as gs := by
  induction h with
  | nil => exact .done
  | cons ha _ ih =>
    rw [← Multiset.cons_coe, ← Multiset.singleton_add]
    exact ha.woven.append ih

/-- A comment that is put off ends what is put off. -/
theorem PutOff.exists_scripts (h : PutOff a gs) :
    ∃ front hs, gs = front ++ hs ∧ a.comment.doc.Scripts (prompt hs) := by
  cases h with
  | behind hline => exact ⟨[.char ' '], _, rfl, (scripts_of_isLine hline).mpr rfl⟩
  | below _ ha => exact ⟨.stop :: _, _, rfl, ha⟩

/-- Printing goes on behind what is not put off, and no more waits than before. -/
theorem Waits.exists_advance {w : List Glyph} (hw : Waits as w) (gs : List Glyph) (q : List Cue) :
    ∃ r w' as', settle w (prompt gs ++ q) = r ++ settle w' q ∧ Waits as' w' ∧
      (as' : Multiset Remark) ≤ as := by
  rcases settle_prompt_cases gs w q with h | ⟨gs₁, g, gs₂, -, -, -, h⟩
  · exact ⟨gs, w, as, h, hw, le_rfl⟩
  · exact ⟨gs₁ ++ (w ++ g :: gs₂), [], [], by simp [h], .nil, Multiset.zero_le _⟩

end Waits

/-- A leaf stands in one piece among woven glyphs. -/
theorem Woven.exists_leaf {ls : List String} {cs : Multiset Remark} {gs : List Glyph}
    (h : Woven ls cs gs) {s : String} (hs : s ∈ ls) :
    ∃ gs₁ hs gs₂, gs = gs₁ ++ (hs ++ gs₂) ∧ Spells s hs := by
  induction h with
  | done => cases hs
  | gap _ ih | stop _ ih | blank _ ih =>
    obtain ⟨gs₁, hs, gs₂, rfl, hspells⟩ := ih hs
    exact ⟨_ :: gs₁, hs, gs₂, rfl, hspells⟩
  | leaf t ht _ ih =>
    rcases List.mem_cons.mp hs with rfl | hs
    · exact ⟨[], _, _, rfl, ht⟩
    · obtain ⟨gs₁, hs, gs₂, rfl, hspells⟩ := ih hs
      exact ⟨_ ++ gs₁, hs, gs₂, (List.append_assoc ..).symm, hspells⟩
  | comment b _ _ ih =>
    obtain ⟨gs₁, hs, gs₂, rfl, hspells⟩ := ih hs
    exact ⟨_ ++ gs₁, hs, gs₂, (List.append_assoc ..).symm, hspells⟩

section Stitched

variable {ls : List String} {cs : Multiset Remark} {q : List Cue}
  {as : List Remark} {w : List Glyph}

/-- A leaf is met in its place. -/
theorem Stitched.exists_leaf (h : Stitched ls cs q) (hw : Waits as w) {s : String} (hs : s ∈ ls) :
    ∃ r w' as' gs q', settle w q = r ++ settle w' (prompt gs ++ q') ∧ Waits as' w' ∧
      (as' : Multiset Remark) ≤ as + cs ∧ Spells s gs := by
  induction h generalizing w as with
  | done => cases hs
  | @plain ls₁ ls₂ cs gs q hgs _ ih =>
    rcases List.mem_append.mp hs with hs | hs
    · obtain ⟨gs₁, hs, gs₂, rfl, hspells⟩ := hgs.exists_leaf hs
      rw [prompt_append, prompt_append, List.append_assoc, List.append_assoc]
      obtain ⟨r, w', as', hr, hw', hle⟩ := hw.exists_advance gs₁ (prompt hs ++ (prompt gs₂ ++ q))
      exact ⟨r, w', as', hs, _, hr, hw', hle.trans (Multiset.le_add_right _ _), hspells⟩
    · obtain ⟨r₁, w₁, as₁, hr₁, hw₁, hle₁⟩ := hw.exists_advance gs q
      obtain ⟨r, w', as', hs', q', hr, hw', hle, hspells⟩ := ih hw₁ hs
      refine ⟨r₁ ++ r, w', as', hs', q', ?_, hw', hle.trans (by gcongr), hspells⟩
      rw [hr₁, hr, List.append_assoc]
  | @comment ls cs gs q b hb hend _ ih =>
    obtain ⟨r₁, w₁, as₁, hr₁, hw₁, hle₁⟩ := hw.exists_advance gs q
    obtain ⟨r, w', as', hs', q', hr, hw', hle, hspells⟩ := ih hw₁ hs
    refine ⟨r₁ ++ r, w', as', hs', q', ?_, hw', ?_, hspells⟩
    · rw [hr₁, hr, List.append_assoc]
    · exact hle.trans (add_le_add hle₁ (Multiset.le_cons_self cs b))
  | @later ls cs gs q b hb _ ih =>
    obtain ⟨r, w', as', hs', q', hr, hw', hle, hspells⟩ := ih (hw.concat hb) hs
    refine ⟨r, w', as', hs', q', hr, hw', hle.trans (le_of_eq ?_), hspells⟩
    rw [← Multiset.coe_add, add_assoc]
    rfl

/-- A comment is met in its place, where it is printed or put off. -/
theorem Stitched.exists_comment (h : Stitched ls cs q) (hw : Waits as w) {a : Remark}
    (ha : a ∈ cs) :
    ∃ r w' as' ls' cs' c q', settle w q = r ++ settle w' (c ++ q') ∧ Waits as' w' ∧
      Stitched ls' cs' q' ∧ as' + a ::ₘ cs' ≤ as + cs ∧
      ((∃ gs, c = prompt gs ∧ a.comment.doc.Scripts (prompt gs) ∧
          (a.EndsLine → ∃ q'', q' = .now .stop :: q'')) ∨
        ∃ gs, c = [.later gs] ∧ PutOff a gs) := by
  induction h generalizing w as with
  | done => simp at ha
  | @plain ls₁ ls₂ cs gs q hgs _ ih =>
    obtain ⟨r₁, w₁, as₁, hr₁, hw₁, hle₁⟩ := hw.exists_advance gs q
    obtain ⟨r, w', as', ls', cs', c, q', hr, hw', hq', hle, hc⟩ := ih hw₁ ha
    refine ⟨r₁ ++ r, w', as', ls', cs', c, q', ?_, hw', hq', hle.trans (by gcongr), hc⟩
    rw [hr₁, hr, List.append_assoc]
  | @comment ls cs gs q b hb hend hq ih =>
    rcases Multiset.mem_cons.mp ha with rfl | ha
    · exact ⟨[], w, as, ls, cs, _, q, rfl, hw, hq, le_rfl, .inl ⟨gs, rfl, hb, hend⟩⟩
    · obtain ⟨r₁, w₁, as₁, hr₁, hw₁, hle₁⟩ := hw.exists_advance gs q
      obtain ⟨r, w', as', ls', cs', c, q', hr, hw', hq', hle, hc⟩ := ih hw₁ ha
      refine ⟨r₁ ++ r, w', as', ls', cs', c, q', ?_, hw', hq', ?_, hc⟩
      · rw [hr₁, hr, List.append_assoc]
      · exact hle.trans (add_le_add hle₁ (Multiset.le_cons_self cs b))
  | @later ls cs gs q b hb hq ih =>
    rcases Multiset.mem_cons.mp ha with rfl | ha
    · exact ⟨[], w, as, ls, cs, _, q, rfl, hw, hq, le_rfl, .inr ⟨gs, rfl, hb⟩⟩
    · obtain ⟨r, w', as', ls', cs', c, q', hr, hw', hq', hle, hc⟩ := ih (hw.concat hb) ha
      refine ⟨r, w', as', ls', cs', c, q', hr, hw', hq', hle.trans (le_of_eq ?_), hc⟩
      rw [← Multiset.coe_add, add_assoc]
      rfl

/-- Glyphs at the end of a line: there are none, or the first is a break. -/
def AtBreak (gs : List Glyph) : Prop := ∀ g ∈ gs.head?, g.IsBreak

/-- Two stretches that end at breaks do so together. -/
theorem AtBreak.append {gs hs : List Glyph} (hgs : AtBreak gs) (hhs : AtBreak hs) :
    AtBreak (gs ++ hs) := by
  cases gs with
  | nil => exact hhs
  | cons g gs => exact hgs

/-- A stretch that begins with a break ends at one. -/
theorem atBreak_cons {g : Glyph} (hg : g.IsBreak) (gs : List Glyph) : AtBreak (g :: gs) := by
  rintro x hx
  obtain rfl := Option.some.inj hx
  exact hg

/-- Glyphs in which `w` stands in one piece, with nothing but some of the comments `cs`
between it and the end of a line. -/
def Flushes (w : List Glyph) (cs : Multiset Remark) (gs : List Glyph) : Prop :=
  ∃ before more bs after, gs = before ++ (w ++ (more ++ after)) ∧ Waits bs more ∧
    (bs : Multiset Remark) ≤ cs ∧ AtBreak after

/-- What waits comes in at a break of what is printed now, or further on. -/
theorem Flushes.prompt (h : Flushes w cs (settle w q)) (gs : List Glyph) :
    Flushes w cs (settle w (prompt gs ++ q)) := by
  rcases settle_prompt_cases gs w q with hgs | ⟨gs₁, g, gs₂, -, -, hg, hgs⟩
  · obtain ⟨before, more, bs, after, hbefore, hrest⟩ := h
    refine ⟨gs ++ before, more, bs, after, ?_, hrest⟩
    rw [hgs, hbefore, List.append_assoc]
  · exact ⟨gs₁, [], [], g :: (gs₂ ++ settle [] q), hgs, .nil, Multiset.zero_le cs,
      atBreak_cons hg _⟩

/-- What waits is printed in one piece in front of the next break. -/
theorem Stitched.flushes (h : Stitched ls cs q) (w : List Glyph) : Flushes w cs (settle w q) := by
  induction h generalizing w with
  | done => exact ⟨[], [], [], [], by simp [settle], .nil, le_rfl, by simp [AtBreak]⟩
  | @plain ls₁ ls₂ cs gs q _ _ ih => exact (ih w).prompt gs
  | @comment ls cs gs q b _ _ _ ih =>
    obtain ⟨before, more, bs, after, hgs, hmore, hle, hafter⟩ := (ih w).prompt gs
    exact ⟨before, more, bs, after, hgs, hmore, hle.trans (Multiset.le_cons_self cs b), hafter⟩
  | @later ls cs gs q b hb _ ih =>
    obtain ⟨before, more, bs, after, hgs, hmore, hle, hafter⟩ := ih (w ++ gs)
    refine ⟨before, gs ++ more, b :: bs, after, ?_, .cons hb hmore, ?_, hafter⟩
    · rw [settle, hgs]
      simp
    · exact Multiset.cons_le_cons b hle

end Stitched

end JavaFormat.Layout
