import JavaFormat.Doc.Pieces
import JavaFormat.Proofs.Doc.Closing
import JavaFormat.Proofs.Doc.Width
import Mathlib.Data.List.TakeWhile

/-!
# No blanks in front of a line feed

A break that is not literal takes away the blanks at the end of the line that it ends, and
that is all the renderer ever takes away: every other step adds to what has been printed.
Blanks are taken away from behind the last line feed only, so what stands in front of a line
feed stays as it is (`exists_later`), and a line feed of the output that stands behind a
blank was printed for a literal break. The blanks are taken from the pieces that have been put
out, one piece after the other, which comes to the same (`renderOut?_eq`).
-/

namespace JavaFormat.Doc

open Text (isPadding)

mutual

/-- The texts of a document, those of all states and suffixes included. -/
def texts : Doc → List String
  | .text s => [s]
  | .concat parts => textsAll parts
  | .group _ contents => texts contents
  | .choice states => textsAll states
  | .indent contents => texts contents
  | .fill parts => textsAll parts
  | .line _ => []
  | .suffix contents => texts contents
  | .breakParent => []

/-- The texts of several documents. -/
def textsAll : List Doc → List String
  | [] => []
  | d :: ds => texts d ++ textsAll ds

end

/-- The texts of a list are those of its documents. -/
theorem mem_textsAll {w : String} {ds : List Doc} : w ∈ textsAll ds ↔ ∃ d ∈ ds, w ∈ d.texts := by
  induction ds with
  | nil => simp [textsAll]
  | cons d ds ih => simp [textsAll, ih]

mutual

/-- Marking groups changes no text. -/
theorem texts_markBreaks : ∀ d : Doc, d.markBreaks.texts = d.texts
  | .text _ | .line _ | .suffix _ | .breakParent => rfl
  | .concat ds | .choice ds | .fill ds => textsAll_markBreaksAll ds
  | .group _ contents | .indent contents => texts_markBreaks contents

/-- Marking the groups of a list changes none of its texts. -/
theorem textsAll_markBreaksAll : ∀ ds : List Doc, textsAll (markBreaksAll ds) = textsAll ds
  | [] => rfl
  | d :: ds => by
    rw [markBreaksAll, textsAll, textsAll, texts_markBreaks d, textsAll_markBreaksAll ds]

end

/-- The commands in the place of a command have no texts but its own. -/
theorem Expansion.mem_texts {c c' : Command} {cs : List Command} (h : Expansion c cs)
    (hc' : c' ∈ cs) {w : String} (hw : w ∈ c'.doc.texts) : w ∈ c.doc.texts := by
  cases h with
  | concat =>
    obtain ⟨d, hd, rfl⟩ := List.mem_map.mp hc'
    exact mem_textsAll.mpr ⟨d, hd, hw⟩
  | choice hd m' =>
    obtain rfl := List.mem_singleton.mp hc'
    exact mem_textsAll.mpr ⟨_, hd, hw⟩
  | indent | group =>
    obtain rfl := List.mem_singleton.mp hc'
    exact hw
  | fillNone | breakParent => cases hc'
  | fillOne | fillTwo | fillMore =>
    simp only [List.mem_cons, List.not_mem_nil, or_false] at hc'
    rcases hc' with rfl | rfl | rfl <;> simp_all [texts, textsAll]

/-! ## What a step prints -/

/-- No text of a document has a line feed. -/
def SingleLined (d : Doc) : Prop := ∀ w ∈ d.texts, '\n' ∉ w.toList

/-- No text that is still to be printed has a line feed. -/
structure State.SingleLined (s : State) : Prop where
  stack : ∀ c ∈ s.stack, c.doc.SingleLined
  suffixes : ∀ c ∈ s.suffixes, c.doc.SingleLined

/-- Texts stay free of line feeds. -/
theorem Move.singleLined {options : Options} {s s' : State} (h : Move options s s')
    (hs : s.SingleLined) : s'.SingleLined := by
  obtain ⟨hstack, hsuffixes⟩ := h.forall_docs Doc.SingleLined Doc.SingleLined
    (fun hc h _ hc' w hw => h w (hc.mem_texts hc' hw)) id id hs.stack hs.suffixes
  exact ⟨hstack, hsuffixes⟩

/-- What a step makes of the characters printed so far, the last one first. -/
inductive State.Writes (options : Options) (s s' : State) : Prop
  /-- Characters are added to the line. -/
  | line (added : List Char) (hadded : '\n' ∉ added) (hprinted : s'.printed = added ++ s.printed)
  /-- A literal break adds a line feed. -/
  | feed {l m style rest} (hs : s.stack = ⟨l, m, .line style⟩ :: rest)
    (hliteral : style.literal = true) (hprinted : s'.printed = '\n' :: s.printed)
  /-- Any other break takes away the blanks at the end of the line, adds a line feed and
  indents the next line. -/
  | trim {l m style rest} (dropped kept : List Char) (hs : s.stack = ⟨l, m, .line style⟩ :: rest)
    (hliteral : style.literal = false) (hsplit : s.printed = dropped ++ kept)
    (hdropped : ∀ c ∈ dropped, c = ' ' ∨ c = '\t')
    (hkept : ∀ c ∈ kept.head?, c ≠ ' ' ∧ c ≠ '\t')
    (hprinted : s'.printed = List.replicate (l * options.tabWidth) ' ' ++ '\n' :: kept)

/-- Padding is spaces and tabs. -/
theorem isPadding_iff {c : Char} : isPadding c = true ↔ c = ' ' ∨ c = '\t' := by
  simp [isPadding]

/-- A new line for a break that is not literal. -/
theorem State.writes_breakLine {options : Options} {s s' : State} {l : Nat} {m : Mode}
    {style : LineStyle} {rest : List Command} (hs : s.stack = ⟨l, m, .line style⟩ :: rest)
    (hprinted : s'.printed = (s.breakLine options l style.literal).printed) :
    s.Writes options s' := by
  unfold State.breakLine at hprinted
  cases hliteral : style.literal with
  | true =>
    rw [hliteral] at hprinted
    exact .feed hs hliteral hprinted
  | false =>
    rw [hliteral] at hprinted
    refine .trim (s.printed.takeWhile isPadding) (s.printed.dropWhile isPadding) hs hliteral
      List.takeWhile_append_dropWhile.symm ?_ ?_ hprinted
    · intro c hc
      exact isPadding_iff.mp (List.mem_takeWhile_imp hc)
    · intro c hc
      have hvisible := not_isPadding_head?_dropWhile s.printed c hc
      exact not_or.mp fun h => by simp [isPadding_iff.mpr h] at hvisible

/-- What a move makes of the characters printed so far. -/
theorem Move.writes {options : Options} {s s' : State} (h : Move options s s')
    (hs : s.SingleLined) : s.Writes options s' := by
  cases h with
  | expand hstack hc again => exact .line [] (by simp) rfl
  | @text l m w rest hstack =>
    have hw : '\n' ∉ w.toList := hs.stack _ (hstack ▸ List.mem_cons_self) w (by simp [texts])
    exact .line w.toList.reverse (by simpa using hw) rfl
  | defer hstack => exact .line [] (by simp) rfl
  | glue hstack hh hsoft => exact .line [] (by simp) rfl
  | blank hstack hh hsoft => exact .line [' '] (by decide) rfl
  | flush hstack hb hw again => exact .line [] (by simp) rfl
  | @newline l m style rest hstack hb hw again =>
    refine State.writes_breakLine hstack ?_
    unfold State.breakLine
    split <;> rfl
  | last hstack hw => exact .line [] (by simp) rfl

/-! ## Pieces -/

/-- The characters of some pieces, the last one first. -/
def Pieces.chars (pieces : Pieces) : List Char := pieces.flatMap (·.toList.reverse)

namespace Pieces

/-- The characters of the last piece come first. -/
@[simp] theorem chars_cons (piece : String) (pieces : Pieces) :
    chars (piece :: pieces) = piece.toList.reverse ++ chars pieces := rfl

/-- The characters of joined pieces. -/
theorem join_eq (pieces : Pieces) : pieces.join = String.ofList pieces.chars.reverse := by
  apply String.toList_injective
  rw [String.toList_ofList, join, String.toList_join, chars, List.reverse_flatMap]
  simp [List.flatMap, Function.comp_def]

/-- Trimming piece by piece takes away the blanks at the end of what the pieces are together. -/
theorem chars_trim (pieces : Pieces) : pieces.trim.chars = pieces.chars.dropWhile isPadding := by
  induction pieces with
  | nil => rfl
  | cons piece pieces ih =>
    rw [trim, chars_cons, List.dropWhile_append]
    cases hkept : piece.toList.reverse.dropWhile isPadding with
    | nil => simpa [Text.dropEndWhile, hkept] using ih
    | cons c kept => simp [Text.dropEndWhile, hkept]

end Pieces

/-- What a move makes of the pieces is what it makes of their characters. -/
theorem Move.chars_putOut {options : Options} {s s' : State} (h : Move options s s')
    {pieces : Pieces} (hpieces : pieces.chars = s.printed) :
    (s.putOut options pieces).chars = s'.printed := by
  cases h with
  | expand hs hc again => cases hc <;> simp [State.putOut, hs, hpieces]
  | text hs => simp [State.putOut, hs, hpieces, State.print]
  | defer hs => simp [State.putOut, hs, hpieces]
  | glue hs hh hsoft => simp [State.putOut, hs, hh, hsoft, hpieces]
  | blank hs hh hsoft => simp [State.putOut, hs, hh, hsoft, hpieces, State.print]
  | @flush l m style rest hs hb hw again =>
    have hwaits : s.suffixes.isEmpty = false := by simpa using hw
    simp [State.putOut, hs, isTaken_of_or hb, hwaits, hpieces]
  | @newline l m style rest hs hb hw again =>
    cases hliteral : style.literal <;>
      simp [State.putOut, State.breakLine, hs, isTaken_of_or hb, hw, hliteral, hpieces,
        Pieces.chars_trim]
  | last hs hw => simp [State.putOut, hs, hpieces]

/-- The pieces put out by a run are what it prints. -/
theorem State.map_chars_runOut (options : Options) (fuel : Nat) (s : State) {pieces : Pieces}
    (hpieces : pieces.chars = s.printed) :
    (s.runOut options fuel pieces).map Pieces.chars = (s.run options fuel).map State.printed := by
  induction fuel generalizing s pieces with
  | zero => simp [runOut, run, hpieces]
  | succ fuel ih =>
    rw [runOut, run]
    cases hstep : s.step options with
    | next s' => exact ih s' ((move_of_step hstep).chars_putOut hpieces)
    | done => simp [hpieces]
    | stateless => rfl

/-- The text put out piece by piece is the text of the document. -/
theorem renderOut?_eq (options : Options) (d : Doc) : renderOut? options d = render? options d := by
  let start := State.initial d.markBreaks
  calc renderOut? options d
      = ((start.runOut options start.weight []).map Pieces.chars).map fun cs =>
          String.ofList cs.reverse := by
        rw [Option.map_map]
        exact Option.map_congr fun pieces _ => pieces.join_eq
    _ = ((start.run options start.weight).map State.printed).map fun cs =>
          String.ofList cs.reverse := by rw [State.map_chars_runOut options _ start rfl]
    _ = render? options d := Option.map_map ..

/-! ## What stays -/

section Later

variable {options : Options} {s s' t : State} {c : Char} {before after : List Char}

/-- Blanks that are dropped behind a character that is none are behind it. -/
theorem dropWhile_isPadding_append (hc : isPadding c = false) (before after : List Char) :
    (after ++ c :: before).dropWhile isPadding = after.dropWhile isPadding ++ c :: before := by
  induction after with
  | nil => simp [hc]
  | cons c' after ih =>
    cases hc' : isPadding c' with
    | true => simpa [hc'] using ih
    | false => simp [hc']

/-- What has been printed up to a character that is no blank of a line stays as it is in a
move. -/
theorem Move.exists_later (h : Move options s s') (hc : isPadding c = false)
    (hs : s.printed = after ++ c :: before) : ∃ later, s'.printed = later ++ c :: before := by
  cases h with
  | @text l m w rest hstack => exact ⟨w.toList.reverse ++ after, by simp [State.print, hs]⟩
  | blank hstack hh hsoft => exact ⟨' ' :: after, by simp [State.print, hs]⟩
  | @newline l m style rest hstack hb hw again =>
    unfold State.breakLine
    split
    · exact ⟨'\n' :: after, by simp [hs]⟩
    · exact ⟨List.replicate (l * options.tabWidth) ' ' ++ '\n' :: after.dropWhile isPadding,
        by simp [hs, dropWhile_isPadding_append hc]⟩
  | _ => exact ⟨after, hs⟩

/-- It stays as it is however far the renderer goes on. -/
theorem State.Steps.exists_later (h : State.Steps options s t) (hc : isPadding c = false)
    (hs : s.printed = after ++ c :: before) : ∃ later, t.printed = later ++ c :: before := by
  induction h with
  | refl => exact ⟨after, hs⟩
  | tail _ hstep ih =>
    obtain ⟨later, hlater⟩ := ih
    exact (move_of_step hstep).exists_later hc hlater

end Later

/-! ## Line feeds behind a blank -/

/-- Whether the renderer prints a line feed for a literal break right behind some characters,
the last one first, when it prints a document. -/
def FedBehind (options : Options) (d : Doc) (before : List Char) : Prop :=
  ∃ s s' l m style rest, State.Steps options (.initial d.markBreaks) s ∧
    s.stack = ⟨l, m, .line style⟩ :: rest ∧ style.literal = true ∧
    s.step options = .next s' ∧ s.printed = before ∧ s'.printed = '\n' :: before

/-- A line feed behind characters without one is in what they stand behind. -/
theorem exists_of_append_eq {added printed before after : List Char} (hadded : '\n' ∉ added)
    (h : added ++ printed = after ++ '\n' :: before) :
    ∃ after', printed = after' ++ '\n' :: before := by
  rcases List.append_eq_append_iff.mp h with ⟨more, -, hmore⟩ | ⟨more, hafter, hmore⟩
  · exact ⟨more, hmore⟩
  · cases more with
    | nil => exact ⟨[], hmore.symm⟩
    | cons c more =>
      obtain ⟨rfl, -⟩ := List.cons_eq_cons.mp hmore
      exact absurd (by simp [hafter]) hadded

/-- A line feed that has been printed behind a blank was printed for a literal break. -/
theorem fedBehind_of_padding {options : Options} {d : Doc} (hd : d.SingleLined)
    {s : State} (hs : State.Steps options (.initial d.markBreaks) s) :
    s.SingleLined ∧ ∀ before after, s.printed = after ++ '\n' :: before →
      (∃ c ∈ before.head?, c = ' ' ∨ c = '\t') → FedBehind options d before := by
  induction hs with
  | refl =>
    refine ⟨⟨List.forall_mem_singleton.mpr ?_, List.forall_mem_nil _⟩, ?_⟩
    · rwa [Doc.SingleLined, texts_markBreaks]
    · intro before after h
      simp [State.initial] at h
  | @tail s s' hsteps hstep ih =>
    obtain ⟨hsingle, ih⟩ := ih
    have hmove := move_of_step hstep
    refine ⟨hmove.singleLined hsingle, fun before after h hblank => ?_⟩
    cases hmove.writes hsingle with
    | line added hadded hprinted =>
      obtain ⟨after', hafter⟩ := exists_of_append_eq hadded (hprinted.symm.trans h)
      exact ih before after' hafter hblank
    | @feed l m style rest hstack hliteral hprinted =>
      cases after with
      | nil =>
        obtain ⟨-, rfl⟩ := List.cons_eq_cons.mp (hprinted.symm.trans h)
        exact ⟨s, s', l, m, style, rest, hsteps, hstack, hliteral, hstep, rfl, hprinted⟩
      | cons c after =>
        obtain ⟨-, hafter⟩ := List.cons_eq_cons.mp (hprinted.symm.trans h)
        exact ih before after hafter hblank
    | @trim l m style rest dropped kept hstack hliteral hsplit hdropped hkept hprinted =>
      obtain ⟨after', hafter⟩ := exists_of_append_eq (by simp) (hprinted.symm.trans h)
      cases after' with
      | nil =>
        obtain ⟨-, rfl⟩ := List.cons_eq_cons.mp hafter
        obtain ⟨c, hc, hpadding⟩ := hblank
        obtain ⟨hspace, htab⟩ := hkept c hc
        exact (hpadding.elim hspace htab).elim
      | cons c after' =>
        obtain ⟨-, hafter⟩ := List.cons_eq_cons.mp hafter
        refine ih before (dropped ++ after') ?_ hblank
        rw [hsplit, hafter, List.append_assoc]
        rfl

/-- No line feed stands behind a blank but for those of literal breaks. A step of the renderer
adds characters to the line, or it ends the line. If it ends it for a break that is not
literal, what it takes away for that are spaces and tabs at the end of the line, what is left
does not end in one, and this stays so; so a line feed of the output that stands behind a
space or a tab was printed for a literal break. All this is done piece by piece: what a step
makes of the pieces put out so far is what it makes of their characters. -/
theorem line_feeds_behind_no_blanks (options : Options) {d : Doc}
    (hd : ∀ w ∈ d.texts, '
' ∉ w.toList) :
    (∀ s s', State.Steps options (.initial d.markBreaks) s → s.step options = .next s' →
      s.Writes options s' ∧
      (∀ pieces : Pieces, pieces.chars = s.printed →
        (s.putOut options pieces).chars = s'.printed) ∧
      ∀ t, State.Steps options s' t → ∀ before after,
        s'.printed = after ++ '
' :: before → ∃ later, t.printed = later ++ '
' :: before) ∧
    renderOut? options d = render? options d ∧
    ∀ out, render? options d = some out → ∀ before after c, c = ' ' ∨ c = '	' →
      out.toList = before ++ c :: '
' :: after → FedBehind options d (c :: before.reverse) := by
  refine ⟨fun s s' hs hstep => ⟨?_, fun pieces hpieces => ?_, fun t ht before after h => ?_⟩,
    renderOut?_eq options d, ?_⟩
  · exact (move_of_step hstep).writes (fedBehind_of_padding hd hs).1
  · exact (move_of_step hstep).chars_putOut hpieces
  · exact ht.exists_later (by decide) h
  · intro out hout before after c hc hsplit
    obtain ⟨t, hrun, rfl⟩ := Option.map_eq_some_iff.mp hout
    have hprinted : t.printed = after.reverse ++ '
' :: (c :: before.reverse) := by
      rw [String.toList_ofList] at hsplit
      simpa using congrArg List.reverse hsplit
    exact (fedBehind_of_padding hd (steps_of_run _ hrun)).2 _ _ hprinted ⟨c, rfl, hc⟩

/-- A line that ends in a tab and a suffix, and one that holds a blank and ends in a literal
break. -/
def blankEnds : Doc := .concat ["a\t", .suffix " ", hardline, " ", literalline, "b"]

/-- The tab and the blank suffix are taken away, the blank in front of the literal break is not:
it is there that the literal break prints its line feed. -/
theorem line_feeds_behind_no_blanks_blankEnds :
    (∀ w ∈ blankEnds.texts, '\n' ∉ w.toList) ∧ renderOut? {} blankEnds = some "a\n \nb" ∧
      FedBehind {} blankEnds [' ', '\n', 'a'] := by
  have htexts : ∀ w ∈ blankEnds.texts, '\n' ∉ w.toList := by decide
  have hout : render? {} blankEnds = some "a\n \nb" := by decide
  obtain ⟨-, hpieces, hfed⟩ := line_feeds_behind_no_blanks {} htexts
  exact ⟨htexts, hpieces.trans hout, hfed _ hout ['a', '\n'] ['b'] ' ' (.inl rfl) rfl⟩

end JavaFormat.Doc
