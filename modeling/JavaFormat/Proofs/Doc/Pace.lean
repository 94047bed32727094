import JavaFormat.Proofs.Doc.Printing
import JavaFormat.Proofs.Text.Pace

/-!
# Line feeds of a document

How many line feeds there have been since the last visible character can be followed
through the scripts of a document. What is put off is printed in front of a line break
further on; it does no harm if it stands behind something visible and ends visibly
itself, because then the break meets the same count with and without it.

A document keeps a count if each of its scripts, begun with no more than `n` line feeds,
goes through and ends with no more than `m`. This is all that the layout of a node says of
its document, and it adds up along concatenations.
-/

namespace JavaFormat.Doc

open Text (Pace)

/-! ## Glyphs and cues -/

/-- Go on by a glyph. A text that is printed in one piece has no line feed. -/
def Glyph.advance (s : Pace) : Glyph → Option Pace
  | .char c => if c = '\n' then none else s.step c
  | .gap => some s
  | .stop => s.step '\n'
  | .feed => s.step '\n'

/-- Go on by some glyphs. -/
def advance (s : Pace) (gs : List Glyph) : Option Pace := gs.foldlM Glyph.advance s

/-- Go on by a cue. What is put off has to stand behind something visible and end visibly. -/
def Cue.advance (s : Pace) : Cue → Option Pace
  | .now g => g.advance s
  | .later gs => if s = .clear 0 ∧ Doc.advance s gs = some (.clear 0) then some (.clear 0) else none

/-- Go on by a script. -/
def follow (s : Pace) (q : List Cue) : Option Pace := q.foldlM Cue.advance s

section Advance

variable {s t : Pace} {g : Glyph} {gs hs : List Glyph} {c : Cue} {q r : List Cue}

/-- No glyphs leave a walk where it is. -/
@[simp] theorem advance_nil : advance s [] = some s := rfl

/-- A walk goes on by the first glyph and then by the others. -/
@[simp] theorem advance_cons : advance s (g :: gs) = (g.advance s).bind fun t => advance t gs := rfl

/-- A walk goes on by one stretch of glyphs and then by the other. -/
@[simp] theorem advance_append :
    advance s (gs ++ hs) = (advance s gs).bind fun t => advance t hs := by
  rw [advance, List.foldlM_append]
  rfl

/-- An empty script leaves a walk where it is. -/
@[simp] theorem follow_nil : follow s [] = some s := rfl

/-- A walk goes on by the first cue and then by the others. -/
@[simp] theorem follow_cons : follow s (c :: q) = (c.advance s).bind fun t => follow t q := rfl

/-- A walk goes on by one script and then by the other. -/
@[simp] theorem follow_append : follow s (q ++ r) = (follow s q).bind fun t => follow t r := by
  rw [follow, List.foldlM_append]
  rfl

/-- A script that puts nothing off is gone through like its glyphs. -/
@[simp] theorem follow_prompt : follow s (prompt gs) = advance s gs := by
  induction gs generalizing s with
  | nil => rfl
  | cons g gs ih =>
    rw [prompt_cons, follow_cons, advance_cons]
    exact congrArg _ (funext fun t => ih)

/-- A text without a line feed is gone through like its characters. -/
theorem advance_typed {w : String} (hw : '\n' ∉ w.toList) : advance s (typed w) = s.run w.toList := by
  unfold typed
  revert hw
  induction w.toList generalizing s with
  | nil => exact fun _ => rfl
  | cons c cs ih =>
    intro hw
    obtain ⟨hc, hcs⟩ : '\n' ≠ c ∧ '\n' ∉ cs := by simpa using hw
    rw [List.map_cons, advance_cons, Pace.run_cons, Glyph.advance, if_neg (Ne.symm hc)]
    exact congrArg _ (funext fun t => ih hcs)

/-- A break is gone through like a line feed. -/
theorem advance_of_isBreak (hg : g.IsBreak) : g.advance s = s.step '\n' := by
  rcases hg with rfl | rfl <;> rfl

/-- Something visible, or a blank behind it, leaves what waits in its place. -/
theorem advance_of_not_isBreak (hg : ¬g.IsBreak) (hs : s = .clear 0 ∨ s = .midway)
    (h : g.advance s = some t) : t = .clear 0 ∨ t = .midway := by
  cases g with
  | stop => exact absurd (.inl rfl) hg
  | feed => exact absurd (.inr rfl) hg
  | gap =>
    obtain rfl := Option.some.inj h
    exact hs
  | char c =>
    rw [Glyph.advance] at h
    split at h
    · cases h
    · rename_i hfeed
      cases hb : Text.isBlank c with
      | false =>
        rw [Pace.step_of_visible hb] at h
        exact .inl (Option.some.inj h).symm
      | true =>
        cases hp : Text.isPadding c with
        | true =>
          rw [Pace.step_of_isPadding hp] at h
          obtain rfl := Option.some.inj h
          exact hs
        | false =>
          rw [Pace.step_of_isBlank hb hp hfeed] at h
          exact .inr (Option.some.inj h).symm

/-- What waits can be printed in front of the next break: nothing waits, or it stands behind
something visible and ends visibly. -/
def Idle (w : List Glyph) (s : Pace) : Prop :=
  w = [] ∨ advance (.clear 0) w = some (.clear 0) ∧ (s = .clear 0 ∨ s = .midway)

/-- In front of a break that may come, what waits changes nothing. -/
theorem Idle.advance_feed {w : List Glyph} (hw : Idle w s) (h : s.step '\n' = some t) :
    advance s w = some s := by
  rcases hw with rfl | ⟨hw, rfl | rfl⟩
  · rfl
  · exact hw
  · cases h

/-- A script that goes through to a count is printed in an order that does. -/
theorem advance_settle {w : List Glyph} {n : Nat} (hw : Idle w s)
    (h : follow s q = some (.clear n)) : advance s (settle w q) = some (.clear n) := by
  induction q generalizing s w with
  | nil =>
    obtain rfl := Option.some.inj h
    rcases hw with rfl | ⟨hw, hzero | hmidway⟩
    · rfl
    · rw [hzero]
      exact hw
    · cases hmidway
  | cons c q ih =>
    obtain ⟨t, ht, hrest⟩ := Option.bind_eq_some_iff.mp h
    cases c with
    | later gs =>
      rw [Cue.advance] at ht
      split at ht
      · rename_i hgs
        obtain ⟨rfl, hgs⟩ := hgs
        obtain rfl := Option.some.inj ht
        refine ih (w := w ++ gs) (.inr ⟨?_, .inl rfl⟩) hrest
        rcases hw with rfl | ⟨hw, -⟩
        · exact hgs
        · rw [advance_append, hw]
          exact hgs
      · cases ht
    | now g =>
      have ht : g.advance s = some t := ht
      by_cases hg : g.IsBreak
      · rw [settle_of_isBreak hg, advance_append,
          hw.advance_feed ((advance_of_isBreak hg).symm.trans ht), Option.bind_some, advance_cons, ht]
        exact ih (.inl rfl) hrest
      · rw [settle_of_not_isBreak hg, advance_cons, ht]
        refine ih ?_ hrest
        rcases hw with rfl | ⟨hw, hs⟩
        · exact .inl rfl
        · exact .inr ⟨hw, advance_of_not_isBreak hg hs ht⟩

/-- What is printed for glyphs that go through is a text that does. -/
theorem Emits.run {start : Pace} {out end' : List Char} (h : Emits out gs end')
    (hout : start.run out.reverse = some s) (hgs : advance s gs = some t) :
    start.run end'.reverse = some t := by
  induction h generalizing s with
  | done =>
    rw [hout]
    exact hgs
  | @char out gs end' c _ ih =>
    obtain ⟨u, hu, hrest⟩ := Option.bind_eq_some_iff.mp hgs
    rw [Glyph.advance] at hu
    split at hu
    · cases hu
    · refine ih ?_ hrest
      rw [List.reverse_cons, Pace.run_append, hout]
      simpa using hu
  | glue _ ih => exact ih hout hgs
  | blank _ ih =>
    refine ih ?_ hgs
    rw [List.reverse_cons, Pace.run_append, hout]
    exact Pace.run_of_isPadding fun c hc => by rw [List.mem_singleton.mp hc]; rfl
  | @stop pad out gs end' width hpad _ ih =>
    obtain ⟨u, hu, hrest⟩ := Option.bind_eq_some_iff.mp hgs
    rw [List.reverse_append, Pace.run_append] at hout
    obtain ⟨v, hv, hpadded⟩ := Option.bind_eq_some_iff.mp hout
    rw [Pace.run_of_isPadding (by simpa using hpad)] at hpadded
    obtain rfl := Option.some.inj hpadded
    have hu : v.step '\n' = some u := hu
    have hindent : u.run (List.replicate width ' ') = some u := by
      refine Pace.run_of_isPadding fun c hc => ?_
      rw [List.eq_of_mem_replicate hc]
      rfl
    exact ih (by simp [hv, hu, hindent]) hrest
  | @feed out gs end' _ ih =>
    obtain ⟨u, hu, hrest⟩ := Option.bind_eq_some_iff.mp hgs
    have hu : s.step '\n' = some u := hu
    exact ih (by simp [hout, hu]) hrest

end Advance

/-! ## Documents that keep a count -/

/-- Scripts that go through from a count of at most `n` to one of at most `m`. -/
def Paced (n m : Nat) (scripts : List Cue → Prop) : Prop :=
  ∀ q, scripts q → ∀ k ≤ n, ∃ j ≤ m, follow (.clear k) q = some (.clear j)

/-- A document that leads from a count of at most `n` to one of at most `m`. -/
abbrev Keeps (n m : Nat) (d : Doc) : Prop := Paced n m d.Scripts

/-- Documents that lead from a count of at most `n` to one of at most `m` one after the
other. -/
abbrev KeepsAll (n m : Nat) (ds : List Doc) : Prop := Paced n m (ScriptsAll ds)

/-- A document that begins and ends visibly, as far as line feeds go. -/
abbrev Firm (d : Doc) : Prop := Keeps 2 0 d

section Keeps

variable {n m p : Nat} {d e : Doc} {ds es : List Doc}

/-- Scripts that go through from many line feeds to few go through from fewer to more. -/
theorem Paced.mono {scripts : List Cue → Prop} {n' m' : Nat} (h : Paced n m scripts) (hn : n' ≤ n)
    (hm : m ≤ m') : Paced n' m' scripts := by
  intro q hq k hk
  obtain ⟨j, hj, hfollow⟩ := h q hq k (hk.trans hn)
  exact ⟨j, hj.trans hm, hfollow⟩

/-- A firm document may stand anywhere. -/
theorem Paced.at {scripts : List Cue → Prop} (h : Paced 2 0 scripts) (hn : n ≤ 2) :
    Paced n 0 scripts :=
  h.mono hn le_rfl

/-- A firm document behind something visible. -/
theorem Paced.behind {scripts : List Cue → Prop} (h : Paced 2 0 scripts) : Paced 0 0 scripts :=
  h.at (Nat.zero_le 2)

/-- A firm document below a line break. -/
theorem Paced.below {scripts : List Cue → Prop} (h : Paced 2 0 scripts) : Paced 1 0 scripts :=
  h.at (by decide)

/-- No documents leave a count as it is. -/
theorem KeepsAll.nil : KeepsAll n n [] := by
  rintro q rfl k hk
  exact ⟨k, hk, rfl⟩

/-- Two lists lead on one after the other. -/
theorem KeepsAll.append (h : KeepsAll n m ds) (h' : KeepsAll m p es) : KeepsAll n p (ds ++ es) := by
  intro q hq k hk
  obtain ⟨a, b, ha, hb, rfl⟩ := scriptsAll_append.mp hq
  obtain ⟨j, hj, hfirst⟩ := h a ha k hk
  obtain ⟨i, hi, hrest⟩ := h' b hb j hj
  exact ⟨i, hi, by rw [follow_append, hfirst, Option.bind_some, hrest]⟩

/-- A list of one document leads where the document does. -/
theorem keepsAll_singleton : KeepsAll n m [d] ↔ Keeps n m d := by
  simp [Paced]

/-- A document and those behind it lead on one after the other. -/
theorem KeepsAll.cons (h : Keeps n m d) (h' : KeepsAll m p ds) : KeepsAll n p (d :: ds) :=
  (keepsAll_singleton.mpr h).append h'

/-- A document leads where it does on its own. -/
theorem KeepsAll.single (h : Keeps n m d) : KeepsAll n m [d] := keepsAll_singleton.mpr h

/-- Joined documents lead where the list of them does. -/
@[simp] theorem keeps_cat : Keeps n m (cat ds) ↔ KeepsAll n m ds := by simp [Paced]

/-- A group of documents leads where the list of them does. -/
@[simp] theorem keeps_grouped : Keeps n m (grouped ds) ↔ KeepsAll n m ds := by simp [Paced]

/-- Indented documents lead where the list of them does. -/
@[simp] theorem keeps_indented : Keeps n m (indented ds) ↔ KeepsAll n m ds := by simp [Paced]

/-- A fill leads where the list of its parts does. -/
@[simp] theorem keeps_fill : Keeps n m (.fill ds) ↔ KeepsAll n m ds := by simp [Paced]

/-- Documents joined with a separator lead where they do with it between them. -/
@[simp] theorem keeps_join : Keeps n m (join d ds) ↔ KeepsAll n m (interleave d ds) := by
  simp [Paced]

/-- Either of two states. -/
theorem Paced.choice (h : Keeps n m d) (h' : Keeps n m e) : Keeps n m (.choice [d, e]) := by
  rintro q (hq | hq | hq)
  · exact h q hq
  · exact h' q hq
  · cases hq

/-- Documents each of which keeps the count. -/
theorem KeepsAll.of_forall (h : ∀ d ∈ ds, Keeps n n d) : KeepsAll n n ds := by
  induction ds with
  | nil => exact .nil
  | cons d ds ih =>
    obtain ⟨hd, hds⟩ := List.forall_mem_cons.mp h
    exact .cons hd (ih hds)

/-- Firm documents, if there are any. -/
theorem KeepsAll.of_firm (h : ∀ d ∈ ds, Firm d) (hne : ds ≠ []) : KeepsAll 2 0 ds := by
  cases ds with
  | nil => exact absurd rfl hne
  | cons d ds =>
    obtain ⟨hd, hds⟩ := List.forall_mem_cons.mp h
    exact .cons hd (.of_forall fun e he => (hds e he).behind)

/-- Documents with a separator between neighbours that each of them copes with. -/
theorem KeepsAll.interleave (hd : Keeps n 0 d) (he : Keeps 0 m e) (hds : ∀ d ∈ ds, Keeps m 0 d) :
    KeepsAll n 0 (interleave e (d :: ds)) := by
  induction ds generalizing d n with
  | nil => exact .single hd
  | cons d' ds ih =>
    obtain ⟨hd', hds⟩ := List.forall_mem_cons.mp hds
    exact .cons hd (.cons he (ih hd' hds))

/-- Firm documents with a separator between neighbours, if there are any. -/
theorem Firm.join (he : Keeps 0 m e) (hm : m ≤ 2) (hds : ∀ d ∈ ds, Firm d) (hne : ds ≠ []) :
    Firm (join e ds) := by
  rw [Firm, keeps_join]
  cases ds with
  | nil => exact absurd rfl hne
  | cons d ds =>
    obtain ⟨hd, hds⟩ := List.forall_mem_cons.mp hds
    exact .interleave hd he fun d hd => (hds d hd).at hm

/-- The empty text leaves a count as it is. -/
theorem keeps_empty : Keeps n n (.text "") := by
  rintro q rfl k hk
  exact ⟨k, hk, rfl⟩

/-- A blank leaves a count as it is. -/
theorem keeps_blank : Keeps n n (.text " ") := by
  rintro q rfl k hk
  exact ⟨k, hk, rfl⟩

/-- A forced break leaves a count as it is. -/
theorem keeps_breakParent : Keeps n n .breakParent := by
  rintro q rfl k hk
  exact ⟨k, hk, rfl⟩

/-- A break is counted. -/
theorem follow_stop {k : Nat} (hk : k ≤ 1) :
    follow (.clear k) [.now .stop] = some (.clear (k + 1)) := by
  have hlow : k < 2 := by omega
  simp [Cue.advance, Glyph.advance, Pace.step, hlow]

/-- A break adds one line feed, if there are not two already. -/
theorem paced_stop (hn : n ≤ 1) : Paced n (n + 1) (· = [.now .stop]) := by
  rintro q rfl k hk
  exact ⟨k + 1, by omega, follow_stop (hk.trans hn)⟩

/-- Behind something visible a hard line break is the first line feed. -/
theorem keeps_hardline : Keeps 0 1 hardline :=
  fun q hq => paced_stop (Nat.zero_le 1) q (scripts_hardline.mp hq)

/-- A line break below another one leaves a blank line. -/
theorem keeps_blankLine : Keeps 1 2 hardline :=
  fun q hq => paced_stop le_rfl q (scripts_hardline.mp hq)

/-- Behind something visible a space is one line feed at most. -/
theorem keeps_space : Keeps 0 1 space := by
  intro q hq k hk
  rcases scripts_space.mp hq with rfl | rfl
  · exact paced_stop (Nat.zero_le 1) _ rfl k hk
  · exact ⟨k, by omega, rfl⟩

/-- A soft line break, which may be nothing, below at most one line break. -/
theorem paced_softline (hn : n ≤ 1) : Keeps n (n + 1) softline := by
  intro q hq k hk
  rcases scripts_softline.mp hq with rfl | rfl
  · exact paced_stop hn _ rfl k hk
  · exact ⟨k, by omega, rfl⟩

/-- Behind something visible a soft line break is one line feed at most. -/
theorem keeps_softline : Keeps 0 1 softline := paced_softline (Nat.zero_le 1)

/-- What is put off keeps the count if it ends visibly where it stands. -/
theorem keeps_suffixed (h : KeepsAll 0 0 ds) : Keeps 0 0 (suffixed ds) := by
  intro q hq k hk
  obtain ⟨gs, hgs, rfl⟩ := scripts_suffixed.mp hq
  obtain rfl := Nat.le_zero.mp hk
  obtain ⟨j, hj, hfollow⟩ := h _ hgs 0 le_rfl
  obtain rfl := Nat.le_zero.mp hj
  exact ⟨0, le_rfl, by simpa [Cue.advance] using hfollow⟩

/-- A text whose characters lead to a visible one. -/
theorem firm_text {w : String} (hw : '\n' ∉ w.toList)
    (hrun : ∀ k ≤ 2, (Pace.clear k).run w.toList = some (.clear 0)) : Firm (.text w) := by
  rintro q rfl k hk
  exact ⟨0, le_rfl, by rw [follow_prompt, advance_typed hw, hrun k hk]⟩

end Keeps

/-- The output of a sound and shallow document that leads to a count, as a text. -/
theorem exists_paced (options : Options) {p : Prop} {n m : Nat} {d : Doc} (hd : d.Sound p)
    (hshallow : d.Shallow) (h : Keeps n m d) :
    ∃ out, ∃ j ≤ m, render? options d = some out ∧
      (Pace.clear n).run out.toList = some (.clear j) := by
  obtain ⟨out, q, hrender, hq, he⟩ := exists_settled options hd hshallow
  obtain ⟨j, hj, hfollow⟩ := h q hq n le_rfl
  refine ⟨out, j, hj, hrender, ?_⟩
  have hsettled := advance_settle (.inl rfl) hfollow
  have hrun : (Pace.clear n).run out.toList.reverse.reverse = some (.clear j) := he.run rfl hsettled
  rwa [List.reverse_reverse] at hrun

end JavaFormat.Doc
