import JavaFormat.Proofs.Doc.Printing
import JavaFormat.Proofs.Layout.Tokens
import Mathlib.Data.List.Forall2

/-!
# Line breaks between leaves

Most line breaks are up to the renderer, but a few are up to the layout, and those decide what
the layout does when it sees its own output. A spot is a leaf, or a row of a comment, with the
number of line breaks between it and what is shown in front of it, where the layout fixes that
number. Statements about spots are put together like triples: with `b` breaks behind the last
spot, `Strings b d ws e` says, a document shows the spots `ws`, and `e` breaks behind the last of
them. A number that is not known is not given.

The renderer takes away no line break and adds none, so what is fixed is what stands in the
output.
-/

namespace JavaFormat

/-- A leaf or a row of a comment, with the number of line breaks between it and what is shown in
front of it if that is fixed. -/
structure Spot where
  breaks : Option Nat
  text : String

/-- The first spot is put behind a given number of line breaks, if one is given. -/
def Spot.behind : Option Nat → List Spot → List Spot
  | some n, w :: ws => { w with breaks := some n } :: ws
  | _, ws => ws

namespace Spot

variable {k : Option Nat} {ws vs : List Spot}

/-- Behind no known breaks the spots are what they are. -/
@[simp] theorem behind_none (ws : List Spot) : behind none ws = ws := rfl

/-- Known breaks are those of the first spot. -/
@[simp] theorem behind_cons (k : Option Nat) (text : String) (ws : List Spot) :
    behind k (⟨none, text⟩ :: ws) = ⟨k, text⟩ :: ws := by
  cases k <;> rfl

/-- Known breaks belong to the first of two lists of spots. -/
theorem behind_append (hne : ws ≠ []) : behind k (ws ++ vs) = behind k ws ++ vs := by
  cases ws with
  | nil => exact absurd rfl hne
  | cons w ws => cases k <;> rfl

/-- Behind breaks there are no spots just if there are none. -/
@[simp] theorem behind_eq_nil : behind k ws = [] ↔ ws = [] := by
  cases ws <;> cases k <;> simp [behind]

/-- Known breaks change no text. -/
@[simp] theorem map_text_behind : (behind k ws).map text = ws.map text := by
  cases ws <;> cases k <;> rfl

/-- Known breaks are counted for the first spot, and no others. -/
@[simp] theorem map_breaks_behind_cons (k : Option Nat) (w : Spot) (ws : List Spot) :
    (behind k (w :: ws)).map breaks = k.or w.breaks :: ws.map breaks := by
  cases k <;> rfl

end Spot

/-- A text with leaves in it, spaces and line feeds before, between and behind them, and `n`
line feeds in front of it since the last leaf: in front of each leaf there are as many as its
spot says. -/
inductive Broken : Nat → List Spot → List Char → Prop
  | done {n} : Broken n [] []
  | gap {n ws cs} (c : Char) (hc : isSpacing c)
    (h : Broken (if c = '\n' then n + 1 else n) ws cs) : Broken n ws (c :: cs)
  | leaf {n ws cs} (w : Spot) (hw : ∀ k ∈ w.breaks, n = k) (h : Broken 0 ws cs) :
    Broken n (w :: ws) (w.text.toList ++ cs)

/-- A gap adds its line feeds. -/
theorem Broken.gaps {n : Nat} {ws : List Spot} {gap cs : List Char}
    (h : Broken (n + gap.count '\n') ws cs) (hgap : ∀ c ∈ gap, isSpacing c) :
    Broken n ws (gap ++ cs) := by
  induction gap generalizing n with
  | nil => exact h
  | cons c gap ih =>
    obtain ⟨hc, hgap⟩ := List.forall_mem_cons.mp hgap
    refine .gap c hc (ih ?_ hgap)
    rw [List.count_cons] at h
    by_cases hfeed : c = '\n'
    · simpa [hfeed, Nat.add_assoc, Nat.add_comm 1] using h
    · simpa [hfeed] using h

namespace Layout

open Doc

/-- A script in front of whose first line break nothing is printed but what is put off. -/
inductive Stops : List Cue → Prop
  | stop (q : List Cue) : Stops (.now .stop :: q)
  | later (gs : List Glyph) {q} (h : Stops q) : Stops (.later gs :: q)

namespace Stops

variable {q : List Cue}

/-- A line break stays in front of what comes behind. -/
theorem append (h : Stops q) (q' : List Cue) : Stops (q ++ q') := by
  induction h with
  | stop q => exact .stop (q ++ q')
  | later gs _ ih => exact .later gs ih

/-- What waits is printed at once. -/
theorem settle_eq (h : Stops q) (w : List Glyph) : settle w q = w ++ settle [] q := by
  induction h generalizing w with
  | stop q => rfl
  | later gs _ ih => rw [settle, ih (w ++ gs), settle, List.nil_append, ih gs, List.append_assoc]

end Stops

/-- A script that shows the spots `ws` with spaces and breaks around them, `b` breaks since the
last leaf being in front, and `e` at the end. Something is put off only in front of a break. -/
inductive Strung : Option Nat → List Spot → List Cue → Option Nat → Prop
  | done {b e} (h : ∀ n ∈ e, b = some n) : Strung b [] [] e
  | blank {b ws q e} (h : Strung b ws q e) : Strung b ws (.now (.char ' ') :: q) e
  | gap {b ws q e} (h : Strung b ws q e) : Strung b ws (.now .gap :: q) e
  | stop {b ws q e} (h : Strung (b.map (· + 1)) ws q e) : Strung b ws (.now .stop :: q) e
  | leaf {b ws gs q e} (w : Spot) (hw : ∀ n ∈ w.breaks, b = some n) (hspells : Spells w.text gs)
    (h : Strung (some 0) ws q e) : Strung b (w :: ws) (prompt gs ++ q) e
  | later {b ws gs q e} (hq : Stops q) (h : Strung b ws (prompt gs ++ q) e) :
    Strung b ws (.later gs :: q) e

section Strung

variable {b c e e' : Option Nat} {ws ws' : List Spot} {q q' : List Cue}

/-- What may stand behind any number of breaks may stand behind a known one. -/
theorem Strung.known (h : Strung none ws q e) (b : Option Nat) : Strung b ws q e := by
  generalize hb : (none : Option Nat) = a at h
  induction h generalizing b with
  | done he =>
    subst hb
    refine .done fun n hn => ?_
    cases he n hn
  | blank _ ih => exact .blank (ih b hb)
  | gap _ ih => exact .gap (ih b hb)
  | stop _ ih =>
    subst hb
    exact .stop (ih _ rfl)
  | leaf w hw hspells h _ =>
    subst hb
    refine .leaf w (fun n hn => ?_) hspells h
    cases hw n hn
  | later hq _ ih => exact .later hq (ih b hb)

/-- Scripts stand one after the other. -/
theorem Strung.append (h : Strung b ws q c) (h' : Strung c ws' q' e) :
    Strung b (ws ++ ws') (q ++ q') e := by
  induction h with
  | @done b c hb =>
    cases c with
    | none => exact h'.known b
    | some n =>
      rw [hb n rfl]
      exact h'
  | blank _ ih => exact .blank (ih h')
  | gap _ ih => exact .gap (ih h')
  | stop _ ih => exact .stop (ih h')
  | leaf w hw hspells _ ih =>
    rw [List.append_assoc]
    exact .leaf w hw hspells (ih h')
  | later hq _ ih =>
    have hrest := ih h'
    rw [List.append_assoc] at hrest
    exact .later (hq.append _) hrest

end Strung

/-! ## From scripts to characters -/

/-- What is printed for a script: the leaves with as many line feeds in front of them as there are
breaks. The output so far is closed by the last leaf, which a gap follows. -/
theorem exists_broken {b e : Option Nat} {ws : List Spot} {q : List Cue} {out : List Char}
    (h : Strung b ws q e) (hws : ∀ w ∈ ws, Text.EndsVisibly w.text) (gap closed : List Char)
    (hgap : ∀ c ∈ gap, isSpacing c) (hb : ∀ n ∈ b, gap.count '\n' = n) (hclosed : Closed closed)
    (he : Emits (gap ++ closed) (settle [] q) out) :
    ∃ rest, out.reverse = closed.reverse ++ rest ∧ Broken 0 ws rest := by
  have hreverse : ∀ {gap : List Char}, (∀ c ∈ gap, isSpacing c) → ∀ c ∈ gap.reverse, isSpacing c :=
    fun hgap c hc => hgap c (List.mem_reverse.mp hc)
  induction h generalizing gap closed with
  | done _ =>
    refine ⟨gap.reverse, ?_, ?_⟩
    · rw [he.eq_of_nil, List.reverse_append]
    · simpa using Broken.gaps .done (hreverse hgap)
  | blank _ ih =>
    obtain ⟨hmore, he⟩ := behind_blank he hgap
    exact ih hws (' ' :: gap) closed hmore (by simpa using hb) hclosed he
  | gap _ ih =>
    rcases Emits.gap_cases he with he | he
    · exact ih hws gap closed hgap hb hclosed he
    · have hmore : ∀ c ∈ ' ' :: gap, isSpacing c := List.forall_mem_cons.mpr ⟨.inl rfl, hgap⟩
      exact ih hws (' ' :: gap) closed hmore (by simpa using hb) hclosed he
  | @stop b _ _ _ _ ih =>
    obtain ⟨pad, gap', width, rfl, hpad, hmore, he⟩ := exists_behind_stop he hclosed hgap
    have hnone : pad.count '\n' = 0 := by
      rw [List.count_eq_zero]
      intro hmem
      cases hpad _ hmem
    have hcount : ∀ n ∈ b.map (· + 1),
        (List.replicate width ' ' ++ '\n' :: gap').count '\n' = n := by
      intro n hn
      obtain ⟨m, hm, rfl⟩ := Option.mem_map.mp hn
      have hbefore := hb m hm
      rw [List.count_append, hnone, Nat.zero_add] at hbefore
      simp [List.count_append, List.count_replicate, hbefore]
    exact ih hws _ closed hmore hcount hclosed he
  | leaf w hw hspells _ ih =>
    obtain ⟨hvisible, hws⟩ := List.forall_mem_cons.mp hws
    have hnext := closed_of_endsVisibly hvisible (gap ++ closed)
    rw [settle_prompt] at he
    obtain ⟨rest, hout, hrest⟩ :=
      ih hws [] _ (by simp) (by simp) hnext (he.of_inked hspells.readOff)
    refine ⟨gap.reverse ++ (w.text.toList ++ rest), ?_, ?_⟩
    · rw [hout]
      simp
    · refine Broken.gaps (.leaf w (fun n hn => ?_) hrest) (hreverse hgap)
      rw [Nat.zero_add, List.count_reverse]
      exact hb n (hw n hn)
  | later hq _ ih =>
    rw [settle, List.nil_append, hq.settle_eq, ← settle_prompt] at he
    exact ih hws gap closed hgap hb hclosed he

/-! ## Documents -/

/-- With `b` breaks behind the last leaf, a document shows the spots `ws`, whichever way it is
printed, and `e` breaks behind the last of them, and nothing waits at its end. -/
def Strings (b : Option Nat) (d : Doc) (ws : List Spot) (e : Option Nat) : Prop :=
  ∀ q, d.Scripts q → Strung b ws q e

/-- The same of documents that stand one after the other. -/
def StringsAll (b : Option Nat) (ds : List Doc) (ws : List Spot) (e : Option Nat) : Prop :=
  ∀ q, ScriptsAll ds q → Strung b ws q e

section Strings

variable {b c e : Option Nat} {d : Doc} {ds ds' : List Doc} {ws ws' : List Spot}

/-- A document that fixes its spots behind anything does so behind known breaks. -/
theorem Strings.known (h : Strings none d ws e) (b : Option Nat) : Strings b d ws e :=
  fun q hq => (h q hq).known b

/-- Documents that fix their spots behind anything do so behind known breaks. -/
theorem StringsAll.known (h : StringsAll none ds ws e) (b : Option Nat) : StringsAll b ds ws e :=
  fun q hq => (h q hq).known b

/-- No documents fix no spots. -/
theorem StringsAll.nil : StringsAll b [] [] b := by
  rintro _ rfl
  exact .done fun n hn => hn

/-- Of no documents the number of breaks behind them may be forgotten. -/
theorem StringsAll.nil_none : StringsAll b [] [] none := by
  rintro _ rfl
  exact .done (by simp)

/-- A document fixes its spots in front of those of the documents behind it. -/
theorem StringsAll.cons (hd : Strings b d ws c) (hds : StringsAll c ds ws' e) :
    StringsAll b (d :: ds) (ws ++ ws') e := by
  rintro _ ⟨q, q', hq, hq', rfl⟩
  exact (hd q hq).append (hds q' hq')

/-- A document fixes the same spots on its own. -/
theorem StringsAll.single (hd : Strings b d ws e) : StringsAll b [d] ws e := by
  have hall := StringsAll.cons hd .nil
  rwa [List.append_nil] at hall

/-- Two lists fix their spots one list after the other. -/
theorem StringsAll.append (h : StringsAll b ds ws c) (h' : StringsAll c ds' ws' e) :
    StringsAll b (ds ++ ds') (ws ++ ws') e := by
  intro q hq
  obtain ⟨q₁, q₂, h₁, h₂, rfl⟩ := scriptsAll_append.mp hq
  exact (h q₁ h₁).append (h' q₂ h₂)

/-- A document without leaves in front of others. -/
theorem StringsAll.skip (hd : Strings b d [] c) (hds : StringsAll c ds ws e) :
    StringsAll b (d :: ds) ws e :=
  StringsAll.cons hd hds

/-- Joined documents fix the spots of the list of them. -/
theorem StringsAll.cat (h : StringsAll b ds ws e) : Strings b (cat ds) ws e :=
  fun q hq => h q (scripts_cat.mp hq)

/-- A group of documents fixes the spots of the list of them. -/
theorem StringsAll.grouped (h : StringsAll b ds ws e) : Strings b (grouped ds) ws e :=
  fun q hq => h q (scripts_grouped.mp hq)

/-- Indented documents fix the spots of the list of them. -/
theorem StringsAll.indented (h : StringsAll b ds ws e) : Strings b (indented ds) ws e :=
  fun q hq => h q (scripts_indented.mp hq)

/-- A fill fixes the spots of the list of its parts. -/
theorem StringsAll.fill (h : StringsAll b ds ws e) : Strings b (.fill ds) ws e := h

/-- Joined documents in front of others fix the spots of all of them. -/
theorem StringsAll.cat_cons (h : StringsAll b (ds ++ ds') ws e) :
    StringsAll b (JavaFormat.Doc.cat ds :: ds') ws e := by
  rintro _ ⟨q, q', hq, hq', rfl⟩
  exact h _ (scriptsAll_append.mpr ⟨q, q', scripts_cat.mp hq, hq', rfl⟩)

/-- Indented documents in front of others fix the spots of all of them. -/
theorem StringsAll.indented_cons (h : StringsAll b (ds ++ ds') ws e) :
    StringsAll b (JavaFormat.Doc.indented ds :: ds') ws e := by
  rintro _ ⟨q, q', hq, hq', rfl⟩
  exact h _ (scriptsAll_append.mpr ⟨q, q', scripts_indented.mp hq, hq', rfl⟩)

/-- Documents that are put off in front of a line break are printed where they stand. -/
theorem StringsAll.suffixed_cons (hstops : ∀ q, ScriptsAll ds' q → Stops q)
    (h : StringsAll b (ds ++ ds') ws e) : StringsAll b (suffixed ds :: ds') ws e := by
  rintro _ ⟨q, q', hq, hq', rfl⟩
  obtain ⟨gs, hgs, rfl⟩ := scripts_suffixed.mp hq
  exact .later (hstops q' hq') (h _ (scriptsAll_append.mpr ⟨prompt gs, q', hgs, hq', rfl⟩))

/-- Two states of a choice that show the same spots. -/
theorem Strings.choice {d' : Doc} (h : Strings b d ws e) (h' : Strings b d' ws e) :
    Strings b (.choice [d, d']) ws e := by
  rintro q (hq | hq | hq)
  · exact h q hq
  · exact h' q hq
  · exact hq.elim

/-! ## What stands between leaves -/

/-- The empty text adds no break. -/
theorem strings_nothing : Strings b (.text "") [] b := by
  rintro _ rfl
  exact .done fun n hn => hn

/-- A blank adds no break. -/
theorem strings_blank : Strings b (.text " ") [] b := by
  rintro _ rfl
  exact .blank (.done fun n hn => hn)

/-- A hard line break adds one break. -/
theorem strings_hardline : Strings b hardline [] (b.map (· + 1)) := by
  intro q hq
  rw [scripts_hardline.mp hq]
  exact .stop (.done fun n hn => hn)

/-- A document without leaves that may break a line or not. -/
def Slack (d : Doc) : Prop := ∀ b, Strings b d [] none

/-- What leaves the number of breaks as it is may break a line or not. -/
theorem slack_of_strings (h : ∀ b, Strings b d [] b) : Slack d := by
  intro b q hq
  have hall := (h b q hq).append (Strung.done (e := none) (by simp))
  simpa using hall

/-- A blank fixes no break. -/
theorem slack_blank : Slack (.text " ") := slack_of_strings fun _ => strings_blank

/-- The empty text fixes no break. -/
theorem slack_nothing : Slack (.text "") := slack_of_strings fun _ => strings_nothing

/-- A space fixes no break. -/
theorem slack_space : Slack space := by
  intro b q hq
  rcases scripts_space.mp hq with rfl | rfl
  · exact .stop (.done (by simp))
  · exact .gap (.done (by simp))

/-- A soft line break fixes no break. -/
theorem slack_softline : Slack softline := by
  intro b q hq
  rcases scripts_softline.mp hq with rfl | rfl
  · exact .stop (.done (by simp))
  · exact .gap (.done (by simp))

/-- A hard line break where the number of breaks may be unknown. -/
theorem slack_hardline : Slack hardline := by
  intro b q hq
  rw [scripts_hardline.mp hq]
  exact .stop (.done (by simp))

end Strings

/-! ## Documents that begin and end with a leaf -/

/-- A document that shows the spots `ws` with no break behind the last of them. The first of them
may be put behind any number of breaks. -/
structure Places (d : Doc) (ws : List Spot) : Prop where
  ne_nil : ws ≠ []
  strings : ∀ b k, (∀ n ∈ k, b = some n) → Strings b d (Spot.behind k ws) (some 0)

/-- The same of documents that stand one after the other. -/
structure PlacesAll (ds : List Doc) (ws : List Spot) : Prop where
  ne_nil : ws ≠ []
  strings : ∀ b k, (∀ n ∈ k, b = some n) → StringsAll b ds (Spot.behind k ws) (some 0)

section Places

variable {b : Option Nat} {d e : Doc} {ds es : List Doc} {ws vs : List Spot}

/-- Spots behind any number of breaks. -/
theorem Places.free (h : Places d ws) (b : Option Nat) : Strings b d ws (some 0) :=
  h.strings b none (by simp)

/-- Spots behind a known number of breaks. -/
theorem Places.fixed (h : Places d ws) (n : Nat) :
    Strings (some n) d (Spot.behind (some n) ws) (some 0) :=
  h.strings (some n) (some n) fun _ hm => hm

/-- Documents that go on behind one that begins with a leaf. -/
theorem Places.cons (hd : Places d ws) (hds : StringsAll (some 0) ds vs (some 0)) :
    PlacesAll (d :: ds) (ws ++ vs) where
  ne_nil := by simp [hd.ne_nil]
  strings b k hb := by
    rw [Spot.behind_append hd.ne_nil]
    exact .cons (hd.strings b k hb) hds

/-- A document places the same spots on its own. -/
theorem Places.single (hd : Places d ws) : PlacesAll [d] ws := by
  have hall := hd.cons .nil
  rwa [List.append_nil] at hall

/-- Joined documents place the spots of the list of them. -/
theorem PlacesAll.cat (h : PlacesAll ds ws) : Places (cat ds) ws :=
  ⟨h.ne_nil, fun b k hb => (h.strings b k hb).cat⟩

/-- A group of documents places the spots of the list of them. -/
theorem PlacesAll.grouped (h : PlacesAll ds ws) : Places (grouped ds) ws :=
  ⟨h.ne_nil, fun b k hb => (h.strings b k hb).grouped⟩

/-- A fill places the spots of the list of its parts. -/
theorem PlacesAll.fill (h : PlacesAll ds ws) : Places (.fill ds) ws :=
  ⟨h.ne_nil, fun b k hb => (h.strings b k hb).fill⟩

/-- Two states of a choice that begin with the same leaf. -/
theorem Places.choice (hd : Places d ws) (he : Places e ws) : Places (.choice [d, e]) ws :=
  ⟨hd.ne_nil, fun b k hb => (hd.strings b k hb).choice (he.strings b k hb)⟩

/-- A blank in front of a document does not matter. -/
theorem PlacesAll.behind_blank (h : PlacesAll ds ws) : PlacesAll (.text " " :: ds) ws :=
  ⟨h.ne_nil, fun b k hb => .skip strings_blank (h.strings b k hb)⟩

/-- Documents without leaves in front of others that go on. -/
theorem StringsAll.slack {e : Option Nat} (hd : Slack d) (hds : StringsAll none ds ws e) :
    StringsAll b (d :: ds) ws e :=
  .skip (hd b) hds

/-- A document behind others, whatever number of breaks they end with. -/
theorem Places.then (hd : Places d ws) (hds : StringsAll (some 0) ds vs (some 0)) :
    StringsAll b (d :: ds) (ws ++ vs) (some 0) :=
  .cons (hd.free b) hds

/-- No break stands behind what a document places. -/
theorem Places.last (hd : Places d ws) : StringsAll b [d] ws (some 0) :=
  .single (hd.free b)

/-- A text is a leaf. -/
theorem places_text (s : String) : Places (.text s) [⟨none, s⟩] where
  ne_nil := by simp
  strings := by
    rintro b k hb _ rfl
    simpa using Strung.leaf ⟨k, s⟩ hb (.inl rfl) (.done fun n hn => hn)

/-- A text is a leaf, printed line by line. -/
theorem places_ofLines (s : String) : Places (ofLines s) [⟨none, s⟩] where
  ne_nil := by simp
  strings := by
    intro b k hb q hq
    rw [scripts_ofLines.mp hq]
    simpa using Strung.leaf ⟨k, s⟩ hb (.inr rfl) (.done fun n hn => hn)

/-- Two leaves in one text. -/
theorem places_text_append (s t : String) : Places (.text (s ++ t)) [⟨none, s⟩, ⟨none, t⟩] where
  ne_nil := by simp
  strings := by
    rintro b k hb _ rfl
    rw [typed_append, prompt_append, Spot.behind_cons]
    have hlast : Strung (some 0) [⟨none, t⟩] (prompt (typed t) ++ []) (some 0) :=
      .leaf ⟨none, t⟩ (by simp) (.inl rfl) (.done fun n hn => hn)
    rw [List.append_nil] at hlast
    exact .leaf ⟨k, s⟩ hb (.inl rfl) hlast

/-- A leaf with a space behind it in one text. -/
theorem places_text_blank (s : String) : Places (.text (s ++ " ")) [⟨none, s⟩] where
  ne_nil := by simp
  strings := by
    rintro b k hb _ rfl
    rw [typed_append, prompt_append, Spot.behind_cons]
    exact .leaf ⟨k, s⟩ hb (.inl rfl) (.blank (.done fun n hn => hn))

/-- A text with a blank in front of it. -/
theorem places_blank_text (s : String) : Places (.text (" " ++ s)) [⟨none, s⟩] where
  ne_nil := by simp
  strings := by
    rintro b k hb _ rfl
    rw [typed_append, prompt_append, Spot.behind_cons]
    have hlast : Strung b [⟨k, s⟩] (prompt (typed s) ++ []) (some 0) :=
      .leaf ⟨k, s⟩ hb (.inl rfl) (.done fun n hn => hn)
    rw [List.append_nil] at hlast
    exact .blank hlast

/-- Documents each of which begins and ends with a leaf. -/
abbrev PlacesEach : List Doc → List (List Spot) → Prop := List.Forall₂ Places

/-- Documents with a gap between any two of them. -/
theorem PlacesEach.join {e : Doc} (he : Slack e) {ds : List Doc} {wss : List (List Spot)}
    (h : PlacesEach ds wss) (hne : ds ≠ []) : Places (join e ds) wss.flatten := by
  suffices hall : PlacesAll (interleave e ds) wss.flatten from hall.cat
  induction h with
  | nil => exact absurd rfl hne
  | @cons d ws ds wss hd hds ih =>
    cases hds with
    | nil => exact hd.cons .nil
    | cons hd' hds' => exact hd.cons (.slack he ((ih (by simp)).strings none none (by simp)))

end Places

/-! ## Documents at the end of which something may wait -/

/-- Documents that show the spots `vs` behind a leaf, and `e` breaks behind the last of them. If
something waits to be printed, a line break comes first. -/
def Continues : Bool → List Doc → List Spot → Option Nat → Prop
  | false, ds, vs, e => StringsAll (some 0) ds vs e
  | true, ds, vs, e => ∃ es, ds = hardline :: es ∧ StringsAll (some 1) es vs e

/-- Documents that show the spots `ws` in front of others, as far as nothing waits at their end. The
first of the spots may be put behind any number of breaks. -/
structure Precedes (waits : Bool) (ds : List Doc) (ws : List Spot) : Prop where
  ne_nil : ws ≠ []
  strings : ∀ {b k}, (∀ n ∈ k, b = some n) → ∀ {es vs e}, Continues waits es vs e →
    StringsAll b (ds ++ es) (Spot.behind k ws ++ vs) e

section Waiting

variable {waits : Bool} {b e : Option Nat} {d : Doc} {ds es : List Doc} {ws vs : List Spot}

/-- Behind a line break anything may go on. -/
theorem continues_hardline (waits : Bool) (h : StringsAll (some 1) ds vs e) :
    Continues waits (hardline :: ds) vs e := by
  cases waits with
  | false => exact .skip strings_hardline h
  | true => exact ⟨ds, rfl, h⟩

/-- What goes on behind something that waits goes on behind a leaf. -/
theorem Continues.strings (h : Continues waits ds vs e) : StringsAll (some 0) ds vs e := by
  cases waits with
  | false => exact h
  | true =>
    obtain ⟨es, rfl, hes⟩ := h
    exact .skip strings_hardline hes

/-- A document at the end of which nothing waits. -/
theorem Places.precedes (h : Places d ws) (waits : Bool) : Precedes waits [d] ws :=
  ⟨h.ne_nil, fun {b k} hb _ _ _ hes => .cons (h.strings b k hb) hes.strings⟩

namespace Precedes

/-- Documents at the end of which nothing waits. -/
theorem placesAll (h : Precedes false ds ws) : PlacesAll ds ws where
  ne_nil := h.ne_nil
  strings b k hb := by
    have hnil : Continues false [] [] (some 0) := StringsAll.nil
    have hall := h.strings hb hnil
    rwa [List.append_nil, List.append_nil] at hall

/-- A document at the end of which nothing waits. -/
theorem places (h : Precedes false [d] ws) : Places d ws :=
  ⟨h.ne_nil, fun b k hb q hq => h.placesAll.strings b k hb q ⟨q, [], hq, rfl, by simp⟩⟩

/-- A line break may stand behind anything. -/
theorem waiting (h : Precedes waits ds ws) : Precedes true ds ws where
  ne_nil := h.ne_nil
  strings hb _ _ _ hes := by
    obtain ⟨es, rfl, hes⟩ := hes
    exact h.strings hb (continues_hardline waits hes)

/-- Joined documents are in front of others like the list of them. -/
theorem cat (h : Precedes waits ds ws) : Precedes waits [cat ds] ws where
  ne_nil := h.ne_nil
  strings hb _ _ _ hes := .cat_cons (h.strings hb hes)

/-- Documents behind a line break. -/
theorem stop (h : Precedes waits ds ws) (hes : StringsAll (some 1) es vs e) :
    StringsAll b (ds ++ hardline :: es) (ws ++ vs) e :=
  h.strings (k := none) (by simp) (continues_hardline waits hes)

end Precedes

end Waiting

end Layout

end JavaFormat
