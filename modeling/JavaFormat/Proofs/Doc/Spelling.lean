import JavaFormat.Proofs.Doc.Filling

/-!
# Documents that leave no choice

A document of texts and certain breaks is printed in one way only, whatever the width is and
whatever stands around it: each text as it stands, and each break as a line feed and the
indentation. `spell` says what that makes of the characters printed so far.
-/

namespace JavaFormat.Doc

variable {options : Options}

mutual

/-- Whether a document is made of texts and certain breaks alone. -/
@[simp] def Rigid : Doc → Prop
  | .text _ => True
  | .concat parts => RigidAll parts
  | .group _ _ => False
  | .choice _ => False
  | .indent _ => False
  | .fill _ => False
  | .line style => style.hard = true
  | .suffix _ => False
  | .breakParent => True

/-- Whether several documents are made of texts and certain breaks alone. -/
@[simp] def RigidAll : List Doc → Prop
  | [] => True
  | d :: ds => Rigid d ∧ RigidAll ds

end

mutual

/-- The characters printed so far, the last one first, once a rigid document has been printed
behind them. -/
def spell (indentation : Nat) (printed : List Char) : Doc → List Char
  | .text s => s.toList.reverse ++ printed
  | .concat parts => spellAll indentation printed parts
  | .line style =>
    if style.literal then '\n' :: printed
    else List.replicate indentation ' ' ++ '\n' :: printed.dropWhile Text.isPadding
  | .group _ _ => printed
  | .choice _ => printed
  | .indent _ => printed
  | .fill _ => printed
  | .suffix _ => printed
  | .breakParent => printed

/-- The same for documents that stand side by side. -/
def spellAll (indentation : Nat) (printed : List Char) : List Doc → List Char
  | [] => printed
  | d :: ds => spellAll indentation (spell indentation printed d) ds

end

/-! ## Printing -/

mutual

/-- A rigid document is spelled out. -/
theorem exists_steps_spell (k : Nat) (rest : List Command) (remeasure : Bool) :
    ∀ {d : Doc}, d.Rigid → ∀ (printed : List Char) (column : Nat),
    ∃ column', State.Steps options
      ⟨⟨k, .broken, d⟩ :: rest, [], printed, column, remeasure⟩
      ⟨rest, [], spell (k * options.tabWidth) printed d, column', remeasure⟩
  | .text _, _, _, _ => ⟨_, .single rfl⟩
  | .breakParent, _, _, _ => ⟨_, .single rfl⟩
  | .concat _, h, printed, column => by
    obtain ⟨column', hsteps⟩ := exists_steps_spellAll k rest remeasure h printed column
    exact ⟨column', .head rfl hsteps⟩
  | .line style, _, printed, column => by
    refine ⟨if style.literal then 0 else k * options.tabWidth, .single ?_⟩
    cases hliteral : style.literal with
    | true => simp [State.step, State.execute, State.takeBreak, State.breakLine, spell, hliteral]
    | false => simp [State.step, State.execute, State.takeBreak, State.breakLine, spell, hliteral]

/-- Rigid documents that are next on the stack are spelled out. -/
theorem exists_steps_spellAll (k : Nat) (rest : List Command) (remeasure : Bool) :
    ∀ {ds : List Doc}, RigidAll ds → ∀ (printed : List Char) (column : Nat),
    ∃ column', State.Steps options
      ⟨ds.map (⟨k, .broken, ·⟩) ++ rest, [], printed, column, remeasure⟩
      ⟨rest, [], spellAll (k * options.tabWidth) printed ds, column', remeasure⟩
  | [], _, _, column => ⟨column, .refl⟩
  | d :: ds, ⟨hd, hds⟩, printed, column => by
    obtain ⟨column₁, hfirst⟩ := exists_steps_spell k (ds.map (⟨k, .broken, ·⟩) ++ rest) remeasure
      hd printed column
    obtain ⟨column₂, hrest⟩ := exists_steps_spellAll k rest remeasure hds _ column₁
    exact ⟨column₂, hfirst.trans hrest⟩

end

mutual

/-- A rigid document has no groups to be marked. -/
theorem markBreaks_of_rigid : ∀ {d : Doc}, d.Rigid → d.markBreaks = d
  | .text _, _ => rfl
  | .breakParent, _ => rfl
  | .line _, _ => rfl
  | .concat _, h => congrArg Doc.concat (markBreaksAll_of_rigid h)

/-- Rigid documents have no groups to mark. -/
theorem markBreaksAll_of_rigid : ∀ {ds : List Doc}, RigidAll ds → markBreaksAll ds = ds
  | [], _ => rfl
  | _ :: _, ⟨hd, hds⟩ => congrArg₂ List.cons (markBreaks_of_rigid hd) (markBreaksAll_of_rigid hds)

end

/-- A rigid document is rendered as it is spelled, at any depth. -/
theorem render_of_rigid (options : Options) (k : Nat) {d : Doc} (hd : d.Rigid) :
    render? options (Doc.indent^[k] d) =
      some (String.ofList (spell (k * options.tabWidth) [] d).reverse) := by
  obtain ⟨column, hspell⟩ := @exists_steps_spell options k [] false d hd [] 0
  have hindents : State.Steps options (.initial (Doc.indent^[k] d))
      ⟨[⟨k, .broken, d⟩], [], [], 0, false⟩ := by
    simpa [State.initial] using steps_indents k 0 .broken d ⟨[], [], [], 0, false⟩
  have hrun := State.Steps.run (hindents.trans hspell) rfl rfl (Nat.le_refl _)
  rw [render?, markBreaks_indents, markBreaks_of_rigid hd, hrun]
  rfl

/-! ## Documents put together -/

section Together

variable {indentation : Nat}

/-- The documents of a list are rigid if each of them is. -/
theorem rigidAll_iff {ds : List Doc} : RigidAll ds ↔ ∀ d ∈ ds, d.Rigid := by
  induction ds with
  | nil => simp
  | cons d ds ih => simp [ih]

/-- Two lists are spelled one after the other. -/
theorem spellAll_append (printed : List Char) (ds es : List Doc) :
    spellAll indentation printed (ds ++ es) =
      spellAll indentation (spellAll indentation printed ds) es := by
  induction ds generalizing printed with
  | nil => rfl
  | cons d ds ih => exact ih _

/-- A part adds the same to a flat concatenation as by itself. -/
theorem spellAll_flatten (printed : List Char) (d : Doc) :
    spellAll indentation printed (flatten d) = spell indentation printed d := by
  rcases flatten_cases d with ⟨rfl, h⟩ | ⟨parts, rfl, h⟩ | h
  all_goals rw [h]
  all_goals rfl

/-- Joined documents are spelled one by one. -/
theorem spell_cat (printed : List Char) (ds : List Doc) :
    spell indentation printed (cat ds) = spellAll indentation printed ds := by
  have hparts (ps : List Doc) : spell indentation printed (ofParts ps) =
      spellAll indentation printed ps := by
    unfold ofParts
    split <;> rfl
  rw [cat, hparts]
  clear hparts
  induction ds generalizing printed with
  | nil => rfl
  | cons d ds ih => rw [List.flatMap_cons, spellAll_append, spellAll_flatten, ih, spellAll]

/-- Joined rigid documents are rigid. -/
theorem rigid_cat {ds : List Doc} (h : ∀ d ∈ ds, d.Rigid) : (cat ds).Rigid := by
  have hflat : ∀ p ∈ ds.flatMap flatten, p.Rigid := by
    intro p hp
    obtain ⟨d, hd, hp⟩ := List.mem_flatMap.mp hp
    have hrigid := h d hd
    rcases flatten_cases d with ⟨rfl, hflat⟩ | ⟨parts, rfl, hflat⟩ | hflat
    all_goals rw [hflat] at hp
    · cases hp
    · exact rigidAll_iff.mp hrigid p hp
    · exact List.mem_singleton.mp hp ▸ hrigid
  unfold cat ofParts
  split
  · rename_i d hd
    exact hflat d (by simp [hd])
  · exact rigidAll_iff.mpr hflat

/-- Texts with a separator between them that always adds the same characters behind a text. -/
theorem spellAll_interleave {separator : Doc} {gap : List Char} {ls : List String}
    (hgap : ∀ l ∈ ls, ∀ printed : List Char,
      spell indentation (l.toList.reverse ++ printed) separator =
        gap.reverse ++ (l.toList.reverse ++ printed)) (printed : List Char) :
    spellAll indentation printed (interleave separator (ls.map .text)) =
      (gap.intercalate (ls.map String.toList)).reverse ++ printed := by
  induction ls generalizing printed with
  | nil => rfl
  | cons l ls ih =>
    obtain ⟨hl, hls⟩ := List.forall_mem_cons.mp hgap
    cases ls with
    | nil => simp [interleave, spellAll, spell, List.intercalate]
    | cons m ms =>
      have hrest := ih hls (gap.reverse ++ (l.toList.reverse ++ printed))
      simp only [List.map_cons, interleave, spellAll, spell, hl] at hrest ⊢
      rw [hrest]
      simp [List.intercalate]

/-- Rigid documents are rigid with a rigid separator between them. -/
theorem rigidAll_interleave {separator : Doc} (hs : separator.Rigid) {ds : List Doc}
    (h : RigidAll ds) : RigidAll (interleave separator ds) := by
  refine rigidAll_iff.mpr fun d hmem => ?_
  rcases mem_interleave hmem with rfl | hmem
  · exact hs
  · exact rigidAll_iff.mp h d hmem

/-- Lines joined with a rigid separator are rigid. -/
theorem rigid_join {separator : Doc} (hs : separator.Rigid) (ls : List String) :
    (join separator (ls.map .text)).Rigid := by
  refine rigid_cat (rigidAll_iff.mp (rigidAll_interleave hs (rigidAll_iff.mpr fun d hd => ?_)))
  obtain ⟨l, -, rfl⟩ := List.mem_map.mp hd
  trivial

end Together

end JavaFormat.Doc
