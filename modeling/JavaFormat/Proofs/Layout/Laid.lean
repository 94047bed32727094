import JavaFormat.Proofs.Doc.Shows
import JavaFormat.Proofs.Layout.Tokens
import JavaFormat.Proofs.Syntax.Words

/-!
# Words kept apart

What a document shows is laid out if it is the words that it should be, spaces and breaks,
and no word stands directly behind one that it would fuse with. Such statements are put
together like triples: `Lays letters b d ws e` says that behind the word `b` the document `d`
shows the words `ws`, and that the next text may stand directly behind `e`. Without a word
in front there is a gap, so a space turns any `b` into none.

The renderer trims a line only in front of a break, so words that are laid out are apart in
the output as well.
-/

namespace JavaFormat

variable {letters : Char → Bool}

/-- A text with the given words in it, one after the other, and spaces and line feeds before,
between and behind them, behind the word `b`: no word is directly behind one that it fuses
with. -/
inductive Apart (letters : Char → Bool) : Option Word → List Word → List Char → Prop
  | done {b} : Apart letters b [] []
  | gap {b ws cs} (c : Char) (hc : isSpacing c) (h : Apart letters none ws cs) :
    Apart letters b ws (c :: cs)
  | word {b ws cs} (w : Word) (hw : ∀ v ∈ b, v.fuses letters w = false)
    (h : Apart letters (some w) ws cs) : Apart letters b (w :: ws) (w.text.toList ++ cs)

/-- A gap in front of a text keeps it apart from what is before. -/
theorem Apart.behind_gap {b : Option Word} {ws : List Word} {cs : List Char}
    (h : Apart letters none ws cs) {gap : List Char} (hgap : ∀ c ∈ gap, isSpacing c)
    (hdirect : gap = [] → Apart letters b ws cs) : Apart letters b ws (gap ++ cs) := by
  induction gap generalizing b with
  | nil => exact hdirect rfl
  | cons c gap ih =>
    obtain ⟨hc, hgap⟩ := List.forall_mem_cons.mp hgap
    exact .gap c hc (ih hgap fun _ => h)

/-- Words that are apart are spaced like the leaves that they are. -/
theorem Apart.spaced {b : Option Word} {ws : List Word} {cs : List Char}
    (h : Apart letters b ws cs) : Spaced (ws.map Word.text) cs := by
  induction h with
  | done => exact .done
  | gap c hc _ ih => exact .gap c hc ih
  | word w _ _ ih => exact .leaf w.text ih

/-- A text of words begins with its first word, behind a gap unless the word before allows none. -/
theorem Apart.uncons {b : Option Word} {w : Word} {ws : List Word} {cs : List Char}
    (h : Apart letters b (w :: ws) cs) :
    ∃ gap rest, cs = gap ++ (w.text.toList ++ rest) ∧ (∀ c ∈ gap, isSpacing c) ∧
      (gap = [] → ∀ v ∈ b, v.fuses letters w = false) ∧ Apart letters (some w) ws rest := by
  generalize hws : w :: ws = vs at h
  induction h with
  | done => cases hws
  | gap c hc _ ih =>
    obtain ⟨gap, rest, rfl, hgap, -, hrest⟩ := ih hws
    exact ⟨c :: gap, rest, rfl, List.forall_mem_cons.mpr ⟨hc, hgap⟩, by simp, hrest⟩
  | @word _ _ cs _ hw hrest _ =>
    obtain ⟨rfl, rfl⟩ := List.cons_eq_cons.mp hws
    exact ⟨[], cs, rfl, by simp, fun _ => hw, hrest⟩

/-- Between two neighbours that fuse there is a space or a line feed. -/
theorem Apart.exists_gap {b : Option Word} {us ws : List Word} {v w : Word} {cs : List Char}
    (h : Apart letters b (us ++ v :: w :: ws) cs) (hfuses : v.fuses letters w = true) :
    ∃ front gap rest, cs = front ++ (v.text.toList ++ (gap ++ (w.text.toList ++ rest))) ∧
      gap ≠ [] ∧ ∀ c ∈ gap, isSpacing c := by
  induction us generalizing b cs with
  | nil =>
    obtain ⟨front, behind, rfl, -, -, hbehind⟩ := h.uncons
    obtain ⟨gap, rest, rfl, hgap, hdirect, -⟩ := hbehind.uncons
    refine ⟨front, gap, rest, rfl, fun hnil => ?_, hgap⟩
    rw [hdirect hnil v rfl] at hfuses
    cases hfuses
  | cons u us ih =>
    obtain ⟨gap, behind, rfl, -, -, hbehind⟩ := h.uncons
    obtain ⟨front, gap', rest, rfl, hne, hgap'⟩ := ih hbehind
    exact ⟨gap ++ (u.text.toList ++ front), gap', rest, by simp, hne, hgap'⟩

namespace Layout

open Doc

/-- Glyphs that show the words `ws` behind the word `b`, with spaces and breaks around them:
no word is directly behind one that it fuses with. What follows may be directly behind `e`. -/
inductive Laid (letters : Char → Bool) : Option Word → List Word → List Glyph → Option Word → Prop
  | done {b e} (h : ∀ v ∈ b, e = some v) : Laid letters b [] [] e
  | blank {b ws gs e} (h : Laid letters none ws gs e) : Laid letters b ws (.char ' ' :: gs) e
  | stop {b ws gs e} (h : Laid letters none ws gs e) : Laid letters b ws (.stop :: gs) e
  | word {b ws hs gs e} (w : Word) (hw : ∀ v ∈ b, v.fuses letters w = false)
    (hspells : Spells w.text hs) (h : Laid letters (some w) ws gs e) :
    Laid letters b (w :: ws) (hs ++ gs) e

/-- Glyphs that begin with a text, but for spaces and breaks in front of it. -/
def BeginsWith (text : String) (gs : List Glyph) : Prop :=
  ∃ front hs rest, gs = front ++ (hs ++ rest) ∧ (∀ g ∈ front, g = .char ' ' ∨ g = .stop) ∧
    Spells text hs

section Laid

variable {b c e e' : Option Word} {ws ws' : List Word} {gs gs' : List Glyph}

/-- What may stand directly behind a word may stand behind a gap. -/
theorem Laid.free (h : Laid letters b ws gs e) : Laid letters none ws gs e := by
  cases h with
  | done => exact .done (by simp)
  | blank h => exact .blank h
  | stop h => exact .stop h
  | word w _ hspells h => exact .word w (by simp) hspells h

/-- A gap at the end need not be counted on. -/
theorem Laid.loosen (h : Laid letters b ws gs e) (he : ∀ v ∈ e, e' = some v) :
    Laid letters b ws gs e' := by
  induction h with
  | done hb =>
    refine .done fun v hv => he v ?_
    rw [hb v hv]
    rfl
  | blank _ ih => exact .blank (ih he)
  | stop _ ih => exact .stop (ih he)
  | word w hw hspells _ ih => exact .word w hw hspells (ih he)

/-- Glyphs that are laid out stand one after the other. -/
theorem Laid.append (h : Laid letters b ws gs c) (h' : Laid letters c ws' gs' e) :
    Laid letters b (ws ++ ws') (gs ++ gs') e := by
  induction h with
  | @done b c hb =>
    cases b with
    | none => exact h'.free
    | some v =>
      rw [hb v rfl] at h'
      exact h'
  | blank _ ih => exact .blank (ih h')
  | stop _ ih => exact .stop (ih h')
  | word w hw hspells _ ih =>
    rw [List.append_assoc]
    exact .word w hw hspells (ih h')

/-- What is laid out begins with its first word. -/
theorem Laid.beginsWith {w : Word} (h : Laid letters b (w :: ws) gs e) : BeginsWith w.text gs := by
  generalize hws : w :: ws = vs at h
  induction h with
  | done => cases hws
  | blank _ ih =>
    obtain ⟨front, hs, rest, rfl, hfront, hspells⟩ := ih hws
    exact ⟨.char ' ' :: front, hs, rest, rfl, List.forall_mem_cons.mpr ⟨.inl rfl, hfront⟩, hspells⟩
  | stop _ ih =>
    obtain ⟨front, hs, rest, rfl, hfront, hspells⟩ := ih hws
    exact ⟨.stop :: front, hs, rest, rfl, List.forall_mem_cons.mpr ⟨.inr rfl, hfront⟩, hspells⟩
  | @word _ _ hs gs _ w' _ hspells _ _ =>
    obtain ⟨rfl, -⟩ := List.cons_eq_cons.mp hws
    exact ⟨[], hs, gs, rfl, by simp, hspells⟩

end Laid

/-! ## From glyphs to characters -/

/-- What is printed for glyphs that are laid out: the words are apart. The output so far is closed
by the word `last`, which a gap follows if `b` is not that word. Without a gap that word is the one
that the glyphs are laid out behind. -/
theorem exists_apart {b e : Option Word} {ws : List Word} {gs : List Glyph} {out : List Char}
    (h : Laid letters b ws gs e) (hws : ∀ w ∈ ws, Text.EndsVisibly w.text) (last : Option Word)
    (gap closed : List Char) (hgap : ∀ c ∈ gap, isSpacing c)
    (hb : gap = [] → ∀ v ∈ last, b = some v) (hclosed : Closed closed)
    (he : Emits (gap ++ closed) gs out) :
    ∃ rest, out.reverse = closed.reverse ++ rest ∧ Apart letters last ws rest := by
  have hreverse : ∀ {gap : List Char}, (∀ c ∈ gap, isSpacing c) → ∀ c ∈ gap.reverse, isSpacing c :=
    fun hgap c hc => hgap c (List.mem_reverse.mp hc)
  induction h generalizing last gap closed with
  | done _ =>
    refine ⟨gap.reverse, ?_, ?_⟩
    · rw [he.eq_of_nil, List.reverse_append]
    · simpa using Apart.done.behind_gap (hreverse hgap) fun _ => .done
  | blank _ ih =>
    obtain ⟨hmore, he⟩ := behind_blank he hgap
    exact ih hws last (' ' :: gap) closed hmore (by simp) hclosed he
  | stop _ ih =>
    obtain ⟨pad, gap', width, rfl, -, hmore, he⟩ := exists_behind_stop he hclosed hgap
    exact ih hws last _ closed hmore (by simp) hclosed he
  | @word b _ _ _ _ w hw hspells _ ih =>
    obtain ⟨hvisible, hws⟩ := List.forall_mem_cons.mp hws
    have hnext := closed_of_endsVisibly hvisible (gap ++ closed)
    obtain ⟨rest, hout, hrest⟩ :=
      ih hws (some w) [] _ (by simp) (by simp) hnext (he.of_inked hspells.readOff)
    refine ⟨gap.reverse ++ (w.text.toList ++ rest), ?_, ?_⟩
    · rw [hout]
      simp
    · refine (Apart.word w (by simp) hrest).behind_gap (hreverse hgap) fun hnil => ?_
      refine .word w (fun v hv => hw v ?_) hrest
      rw [hb (List.reverse_eq_nil_iff.mp hnil) v hv]
      rfl

/-! ## Documents -/

/-- Behind the word `b` a document shows the words `ws`, whichever way it is printed; what
follows may be directly behind `e`. -/
def Lays (letters : Char → Bool) (b : Option Word) (d : Doc) (ws : List Word)
    (e : Option Word) : Prop :=
  ∀ gs, d.Shows gs → Laid letters b ws gs e

/-- The same of documents that stand one after the other. -/
def LaysAll (letters : Char → Bool) (b : Option Word) (ds : List Doc) (ws : List Word)
    (e : Option Word) : Prop :=
  ∀ gs, ShowsAll ds gs → Laid letters b ws gs e

section Lays

variable {b c e e' : Option Word} {d : Doc} {ds ds' : List Doc} {ws ws' : List Word}

/-- A document may be taken to leave more words behind it than it does. -/
theorem Lays.loosen (h : Lays letters b d ws e) (he : ∀ v ∈ e, e' = some v) :
    Lays letters b d ws e' :=
  fun gs hgs => (h gs hgs).loosen he

/-- Several documents may be taken to leave more words behind them than they do. -/
theorem LaysAll.loosen (h : LaysAll letters b ds ws e) (he : ∀ v ∈ e, e' = some v) :
    LaysAll letters b ds ws e' :=
  fun gs hgs => (h gs hgs).loosen he

/-- No documents lay out no words. -/
theorem LaysAll.nil : LaysAll letters b [] [] b := by
  rintro _ rfl
  exact .done fun v hv => hv

/-- A document lays out its words in front of those of the documents behind it. -/
theorem LaysAll.cons (hd : Lays letters b d ws c) (hds : LaysAll letters c ds ws' e) :
    LaysAll letters b (d :: ds) (ws ++ ws') e := by
  rintro _ ⟨gs, gs', hgs, hgs', rfl⟩
  exact (hd gs hgs).append (hds gs' hgs')

/-- A document lays out the same words on its own. -/
theorem LaysAll.single (hd : Lays letters b d ws e) : LaysAll letters b [d] ws e := by
  have hall := LaysAll.cons hd .nil
  rwa [List.append_nil] at hall

/-- A document with one behind it that has no words. -/
theorem LaysAll.pair (hd : Lays letters b d ws c) {d' : Doc} (hd' : Lays letters c d' [] e) :
    LaysAll letters b [d, d'] ws e := by
  have hall := LaysAll.cons hd (LaysAll.single hd')
  rwa [List.append_nil] at hall

/-- Two lists lay out their words one list after the other. -/
theorem LaysAll.append (h : LaysAll letters b ds ws c) (h' : LaysAll letters c ds' ws' e) :
    LaysAll letters b (ds ++ ds') (ws ++ ws') e := by
  intro gs hgs
  obtain ⟨gs₁, gs₂, h₁, h₂, rfl⟩ := showsAll_append.mp hgs
  exact (h gs₁ h₁).append (h' gs₂ h₂)

/-- A document without words between others. -/
theorem LaysAll.skip (hd : Lays letters b d [] c) (hds : LaysAll letters c ds ws e) :
    LaysAll letters b (d :: ds) ws e :=
  LaysAll.cons hd hds

/-- Joined documents lay out the words of the list of them. -/
theorem LaysAll.cat (h : LaysAll letters b ds ws e) : Lays letters b (cat ds) ws e :=
  fun gs hgs => h gs (shows_cat.mp hgs)

/-- A group of documents lays out the words of the list of them. -/
theorem LaysAll.grouped (h : LaysAll letters b ds ws e) : Lays letters b (grouped ds) ws e :=
  fun gs hgs => h gs (shows_grouped.mp hgs)

/-- Indented documents lay out the words of the list of them. -/
theorem LaysAll.indented (h : LaysAll letters b ds ws e) : Lays letters b (indented ds) ws e :=
  fun gs hgs => h gs (shows_indented.mp hgs)

/-- A fill lays out the words of the list of its parts. -/
theorem LaysAll.fill (h : LaysAll letters b ds ws e) : Lays letters b (.fill ds) ws e := h

/-- Two states of a choice that show the same words. -/
theorem Lays.choice {d' : Doc} (h : Lays letters b d ws e) (h' : Lays letters b d' ws e) :
    Lays letters b (.choice [d, d']) ws e := by
  rintro gs (hgs | hgs | hgs)
  · exact h gs hgs
  · exact h' gs hgs
  · exact hgs.elim

/-! ## What stands between words -/

/-- The empty text lays out no words and makes no gap. -/
theorem lays_nothing : Lays letters b (.text "") [] b := by
  rintro _ rfl
  exact .done fun v hv => hv

/-- A blank lays out no words and makes a gap. -/
theorem lays_blank : Lays letters b (.text " ") [] none := by
  rintro _ rfl
  exact .blank (.done (by simp))

/-- A space lays out no words and makes a gap. -/
theorem lays_space : Lays letters b space [] none := by
  intro gs hgs
  rcases shows_space.mp hgs with rfl | rfl
  · exact .stop (.done (by simp))
  · exact .blank (.done (by simp))

/-- A hard line break lays out no words and makes a gap. -/
theorem lays_hardline : Lays letters b hardline [] none := by
  intro gs hgs
  rw [shows_hardline.mp hgs]
  exact .stop (.done (by simp))

/-- A soft line break lays out no words and need not make a gap. -/
theorem lays_softline : Lays letters b softline [] b := by
  intro gs hgs
  rcases shows_softline.mp hgs with rfl | rfl
  · exact .stop (.done (by simp))
  · exact .done fun v hv => hv

/-! ## Words -/

/-- A text is printed as a word. -/
theorem lays_text {w : Word} (hw : ∀ v ∈ b, v.fuses letters w = false) :
    Lays letters b (.text w.text) [w] (some w) := by
  rintro _ rfl
  simpa using Laid.word w hw (.inl rfl) (.done fun v hv => hv)

/-- A text is printed as a word, line by line. -/
theorem lays_ofLines {w : Word} (hw : ∀ v ∈ b, v.fuses letters w = false) :
    Lays letters b (ofLines w.text) [w] (some w) := by
  intro gs hgs
  rw [eq_of_shows_ofLines hgs]
  simpa using Laid.word w hw (.inr rfl) (.done fun v hv => hv)

/-- Two words in one text. -/
theorem lays_text_append {v w : Word} (hv : ∀ u ∈ b, u.fuses letters v = false)
    (hw : v.fuses letters w = false) :
    Lays letters b (.text (v.text ++ w.text)) [v, w] (some w) := by
  rintro _ rfl
  rw [typed_append]
  have hlast : Laid letters (some v) [w] (typed w.text ++ []) (some w) :=
    .word w (by rintro _ ⟨⟩; exact hw) (.inl rfl) (.done fun u hu => hu)
  rw [List.append_nil] at hlast
  exact .word v hv (.inl rfl) hlast

/-- A word with a space behind it in one text. -/
theorem lays_text_blank {w : Word} (hw : ∀ v ∈ b, v.fuses letters w = false) :
    Lays letters b (.text (w.text ++ " ")) [w] none := by
  rintro _ rfl
  rw [typed_append]
  exact .word w hw (.inl rfl) (.blank (.done (by simp)))

end Lays

/-! ## Words between any others -/

/-- The word that a text may be directly behind once the words `ws` are printed behind `b`. -/
def after (b : Option Word) (ws : List Word) : Option Word := ws.getLast?.or b

/-- Behind no words stands what stood there before. -/
@[simp] theorem after_nil (b : Option Word) : after b [] = b := rfl

/-- Behind a word and others stands what stands behind the others. -/
@[simp] theorem after_cons (b : Option Word) (w : Word) (ws : List Word) :
    after b (w :: ws) = after (some w) ws := by
  cases ws <;> simp [after, List.getLast?_cons]

/-- Behind two lists of words stands what stands behind the second one. -/
@[simp] theorem after_append (b : Option Word) (ws ws' : List Word) :
    after b (ws ++ ws') = after (after b ws) ws' := by
  simp [after, List.getLast?_append, Option.or_assoc]

/-- Behind some words stands the last of them. -/
theorem after_of_ne_nil (b : Option Word) {ws : List Word} (h : ws ≠ []) :
    after b ws = ws.getLast? := by
  rw [after, List.getLast?_eq_some_getLast h, Option.some_or]

/-- The first of the words `ws` does not fuse with the word in front of them. -/
def Joins (letters : Char → Bool) (b : Option Word) (ws : List Word) : Prop :=
  ∀ v ∈ b, ∀ w ∈ ws.head?, v.fuses letters w = false

section Joins

variable {b : Option Word} {v w : Word} {ws ws' : List Word}

/-- Words may stand behind a gap. -/
theorem joins_none : Joins letters none ws := by simp [Joins]

/-- A word may stand behind one that it does not fuse with. -/
theorem joins_cons : Joins letters b (w :: ws) ↔ ∀ v ∈ b, v.fuses letters w = false := by
  simp [Joins]

/-- A word joins others if it joins the first of them, if there is any. -/
theorem Joins.left (h : Joins letters b (ws ++ ws')) : Joins letters b ws := by
  cases ws with
  | nil => simp [Joins]
  | cons w ws => exact joins_cons.mpr (joins_cons.mp h)

/-- What is behind the first words does not matter. -/
theorem Joins.extend (h : Joins letters b ws) (hne : ws ≠ []) : Joins letters b (ws ++ ws') := by
  obtain ⟨w, ws, rfl⟩ := List.exists_cons_of_ne_nil hne
  exact joins_cons.mpr (joins_cons.mp h)

/-- Nothing fuses with a word that stands off. -/
theorem joins_of_standsOff (h : Text.standsOff w.text = true) : Joins letters b (w :: ws) :=
  joins_cons.mpr fun _ _ => Word.fuses_of_standsOff h

/-- A word that ends with punctuation fuses with nothing. -/
theorem joins_of_closesOff (hv : v.isSign = false) (h : Text.closesOff v.text = true) :
    Joins letters (some v) ws := by
  rintro _ ⟨⟩ w _
  exact Word.fuses_of_closesOff hv h

end Joins

/-- Behind any word that they do not fuse with, a document sets the words `ws`. -/
def Sets (letters : Char → Bool) (d : Doc) (ws : List Word) : Prop :=
  ∀ b, Joins letters b ws → Lays letters b d ws (after b ws)

/-- Behind the word `b`, documents set the words `ws`. -/
abbrev SetsAll (letters : Char → Bool) (b : Option Word) (ds : List Doc) (ws : List Word) : Prop :=
  LaysAll letters b ds ws (after b ws)

section Sets

variable {b : Option Word} {d e : Doc} {ds es : List Doc} {w : Word} {ws ws' : List Word}

/-- A gap in front of words need not be counted on behind them. -/
theorem loosens (b : Option Word) (ws : List Word) : ∀ v ∈ after none ws, after b ws = some v := by
  intro v hv
  rw [after, Option.or_none] at hv
  rw [after, hv, Option.some_or]

/-- Words behind a gap. -/
theorem Sets.free (h : Sets letters d ws) : Lays letters none d ws (after none ws) :=
  h none joins_none

/-- A document sets its words in front of those of the documents behind it. -/
theorem SetsAll.cons (hd : Lays letters b d ws (after b ws))
    (hds : SetsAll letters (after b ws) ds ws') : SetsAll letters b (d :: ds) (ws ++ ws') := by
  have hall := LaysAll.cons hd hds
  rwa [← after_append] at hall

/-- Two lists set their words one list after the other. -/
theorem SetsAll.append (hds : SetsAll letters b ds ws)
    (hes : SetsAll letters (after b ws) es ws') : SetsAll letters b (ds ++ es) (ws ++ ws') := by
  have hall := LaysAll.append hds hes
  rwa [← after_append] at hall

/-- A gap between documents: nothing in front of it matters. -/
theorem SetsAll.gap (hd : Lays letters b d [] none) (hds : SetsAll letters none ds ws) :
    SetsAll letters b (d :: ds) ws :=
  (LaysAll.skip hd hds).loosen (loosens b ws)

/-- A text between documents. -/
theorem SetsAll.text (hw : ∀ v ∈ b, v.fuses letters w = false)
    (hds : SetsAll letters (some w) ds ws) :
    SetsAll letters b (.text w.text :: ds) (w :: ws) :=
  SetsAll.cons (lays_text hw) hds

/-- A word with a gap behind it. -/
theorem SetsAll.mark (hd : Lays letters b d [w] none) (hds : SetsAll letters none ds ws) :
    SetsAll letters b (d :: ds) (w :: ws) := by
  have hall := (LaysAll.cons hd hds).loosen (loosens (some w) ws)
  rwa [← after_cons b w ws] at hall

/-- What is in front of words does not matter behind them. -/
theorem SetsAll.behind {c : Option Word} (hds : LaysAll letters b ds ws c)
    (hes : SetsAll letters c es ws') (hne : ws' ≠ []) :
    SetsAll letters b (ds ++ es) (ws ++ ws') := by
  have hall := LaysAll.append hds hes
  unfold SetsAll
  rwa [after_append, after_of_ne_nil _ hne, ← after_of_ne_nil c hne]

/-- A document without words in front of others. -/
theorem SetsAll.separated {c : Option Word} (hd : Lays letters b d [] c)
    (hds : SetsAll letters c ds ws) (hne : ws ≠ []) : SetsAll letters b (d :: ds) ws :=
  SetsAll.behind (.single hd) hds hne

/-- Joined documents set the words of the list of them. -/
theorem sets_cat (h : ∀ b, Joins letters b ws → SetsAll letters b ds ws) :
    Sets letters (cat ds) ws :=
  fun b hb => (h b hb).cat

/-- A group of documents sets the words of the list of them. -/
theorem sets_grouped (h : ∀ b, Joins letters b ws → SetsAll letters b ds ws) :
    Sets letters (grouped ds) ws :=
  fun b hb => (h b hb).grouped

end Sets

end Layout

end JavaFormat
