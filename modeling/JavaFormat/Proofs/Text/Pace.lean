import JavaFormat.Proofs.Text.Visible
import JavaFormat.Text.Lines

/-!
# Blank lines of a text

Whether two blank lines meet in a text is told by a walk through it that remembers how
many line feeds there have been since the last visible character. Two line feeds make
one blank line, so a third one may come only behind something visible. Blanks at the end
of a line are padding, unless they are of another kind than the renderer takes away:
behind such a blank something visible has to come before the line ends.
-/

namespace JavaFormat.Text

/-- Where a walk through a text has got to. -/
inductive Pace
  /-- Since the last visible character there have been so many line feeds, and nothing
  else but padding. -/
  | clear (feeds : Nat)
  /-- There has been a blank that is no padding, and no line feed since. -/
  | midway
deriving DecidableEq

namespace Pace

/-- Go on by one character; `none` if a line feed comes where none may. -/
def step : Pace → Char → Option Pace
  | .clear feeds, c =>
    if c = '\n' then if feeds < 2 then some (.clear (feeds + 1)) else none
    else if isPadding c then some (.clear feeds)
    else if isBlank c then some .midway
    else some (.clear 0)
  | .midway, c =>
    if c = '\n' then none else if isBlank c then some .midway else some (.clear 0)

/-- Go on by some characters. -/
def run (s : Pace) (cs : List Char) : Option Pace := cs.foldlM step s

section Run

variable {s : Pace} {c : Char} {cs ds : List Char}

/-- Over no characters a walk stays where it is. -/
@[simp] theorem run_nil : s.run [] = some s := rfl

/-- A walk takes the first character and then the others. -/
@[simp] theorem run_cons : s.run (c :: cs) = (s.step c).bind fun t => t.run cs := rfl

/-- A walk over two texts goes over one and then over the other. -/
@[simp] theorem run_append : s.run (cs ++ ds) = (s.run cs).bind fun t => t.run ds := by
  rw [run, List.foldlM_append]
  rfl

/-- A visible character begins anew. -/
theorem step_of_visible (hc : isBlank c = false) : s.step c = some (.clear 0) := by
  have hpadding : isPadding c = false := by
    by_contra h
    rw [isBlank_of_isPadding (by simpa using h)] at hc
    cases hc
  have hfeed : c ≠ '\n' := by
    rintro rfl
    cases hc
  cases s <;> simp [step, hc, hpadding, hfeed]

/-- Padding leaves everything as it is. -/
theorem step_of_isPadding (hc : isPadding c = true) : s.step c = some s := by
  have hfeed : c ≠ '\n' := by
    rintro rfl
    cases hc
  cases s <;> simp [step, hc, isBlank_of_isPadding hc, hfeed]

/-- Behind a blank that is no padding, something visible has to come. -/
theorem step_of_isBlank (hc : isBlank c = true) (hpadding : isPadding c = false)
    (hfeed : c ≠ '\n') : s.step c = some .midway := by
  cases s <;> simp [step, hc, hpadding, hfeed]

/-- A line feed is counted. -/
theorem step_feed_eq_some {t : Pace} :
    s.step '\n' = some t ↔ ∃ n < 2, s = .clear n ∧ t = .clear (n + 1) := by
  constructor
  · intro h
    cases s with
    | clear n =>
      by_cases hn : n < 2
      · rw [step, if_pos rfl, if_pos hn] at h
        exact ⟨n, hn, rfl, (Option.some.inj h).symm⟩
      · rw [step, if_pos rfl, if_neg hn] at h
        cases h
    | midway => cases h
  · rintro ⟨n, hn, rfl, rfl⟩
    rw [step, if_pos rfl, if_pos hn]

/-- Padding leaves a walk where it is. -/
theorem run_of_isPadding (hcs : ∀ c ∈ cs, isPadding c = true) : s.run cs = some s := by
  induction cs with
  | nil => rfl
  | cons c cs ih =>
    obtain ⟨hc, hcs⟩ := List.forall_mem_cons.mp hcs
    rw [run_cons, step_of_isPadding hc]
    exact ih hcs

/-- Without a line feed nothing stands in the way. -/
theorem exists_run (hcs : '\n' ∉ cs) (s : Pace) : ∃ t, s.run cs = some t := by
  induction cs generalizing s with
  | nil => exact ⟨s, rfl⟩
  | cons c cs ih =>
    obtain ⟨hc, hcs⟩ := List.ne_and_not_mem_of_not_mem_cons hcs
    have hstep : ∃ t, s.step c = some t := by
      cases hb : isBlank c with
      | false => exact ⟨_, step_of_visible hb⟩
      | true =>
        cases hp : isPadding c with
        | true => exact ⟨_, step_of_isPadding hp⟩
        | false => exact ⟨_, step_of_isBlank hb hp (Ne.symm hc)⟩
    obtain ⟨t, ht⟩ := hstep
    obtain ⟨u, hu⟩ := ih hcs t
    exact ⟨u, by rw [run_cons, ht, Option.bind_some, hu]⟩

/-- The count begins anew at a visible character only. -/
theorem visible_of_step (h : s.step c = some (.clear 0)) (hpadding : isPadding c = false) :
    isBlank c = false := by
  by_contra hb
  rw [Bool.not_eq_false] at hb
  by_cases hfeed : c = '\n'
  · subst hfeed
    obtain ⟨n, -, -, hn⟩ := step_feed_eq_some.mp h
    simp at hn
  · rw [step_of_isBlank hb hpadding hfeed] at h
    simp at h

end Run

end Pace

/-! ## Lines -/

/-- Nothing is seen of a line. -/
def IsBlankLine (line : List Char) : Prop := ∀ c ∈ line, isBlank c = true

/-- Not both of two lines are blank. -/
def Apart (line next : List Char) : Prop := ¬(IsBlankLine line ∧ IsBlankLine next)

/-- The empty line is blank. -/
@[simp] theorem isBlankLine_nil : IsBlankLine [] := by simp [IsBlankLine]

/-- A line is blank if each of its characters is. -/
@[simp] theorem isBlankLine_cons {c : Char} {line : List Char} :
    IsBlankLine (c :: line) ↔ isBlank c = true ∧ IsBlankLine line :=
  List.forall_mem_cons

/-- No two neighbours among some lines are blank. -/
abbrev Spread (lines : List (List Char)) : Prop := lines.IsChain Apart

/-- A line on which something is seen may stand anywhere. -/
theorem Spread.cons {line : List Char} {lines : List (List Char)} (h : Spread lines)
    (hline : ¬IsBlankLine line) : Spread (line :: lines) := by
  cases lines with
  | nil => simp [Spread]
  | cons next lines => exact List.isChain_cons_cons.mpr ⟨fun hboth => hline hboth.1, h⟩

/-- Behind a line that is not blank any line may stand. -/
theorem Spread.cons_cons {line next : List Char} {lines : List (List Char)}
    (h : Spread (next :: lines)) (hnext : ¬IsBlankLine next) : Spread (line :: next :: lines) :=
  List.isChain_cons_cons.mpr ⟨fun hboth => hnext hboth.2, h⟩

/-- Whether a line is blank is all that matters. -/
theorem Spread.congr {line line' : List Char} {lines : List (List Char)} (h : Spread (line :: lines))
    (hline : IsBlankLine line' → IsBlankLine line) : Spread (line' :: lines) := by
  cases lines with
  | nil => simp [Spread]
  | cons next lines =>
    obtain ⟨hapart, hrest⟩ := List.isChain_cons_cons.mp h
    exact List.isChain_cons_cons.mpr ⟨fun hboth => hapart ⟨hline hboth.1, hboth.2⟩, hrest⟩

/-- What a walk that goes through says of the lines it has still in front of it: the line
it stands on is cut off, so it says of that line whether something has to be seen. -/
structure Pace.Lays (s : Pace) (line : List Char) (lines : List (List Char)) : Prop where
  below : Spread lines
  spread : s ≠ .clear 0 → Spread (line :: lines)
  visible : s ≠ .clear 0 → s ≠ .clear 1 → ¬IsBlankLine line

/-- The lines of a text that a walk goes through to its end, one line feed behind the last visible
character. A line feed that follows another ends a blank line. -/
theorem Pace.exists_lays {s : Pace} {cs : List Char} (h : s.run cs = some (.clear 1)) :
    ∃ line lines, cs.splitOn '\n' = line :: lines ∧ s.Lays line lines := by
  induction cs generalizing s with
  | nil =>
    obtain rfl := Option.some.inj h
    exact ⟨[], [], by simp, by simp [Spread], by simp [Spread], by simp⟩
  | cons c cs ih =>
    obtain ⟨t, ht, hrun⟩ := Option.bind_eq_some_iff.mp h
    obtain ⟨line, lines, hlines, hlays⟩ := ih hrun
    rw [List.splitOn_cons_eq_if_modifyHead, hlines]
    by_cases hfeed : c = '\n'
    · subst hfeed
      obtain ⟨n, hn, rfl, rfl⟩ := step_feed_eq_some.mp ht
      have hspread : Spread (line :: lines) := hlays.spread (by simp)
      refine ⟨[], line :: lines, by simp, hspread, fun hs => ?_, fun hzero hone => ?_⟩
      · have hvisible : ¬IsBlankLine line := hlays.visible (by simp) (by simpa using hs)
        exact hspread.cons_cons hvisible
      · have hzero : n ≠ 0 := by simpa using hzero
        have hone : n ≠ 1 := by simpa using hone
        omega
    · have hne : (c == '\n') = false := by simpa using hfeed
      refine ⟨c :: line, lines, by simp [hne], ?_⟩
      cases hb : isBlank c with
      | false =>
        have hvisible : ¬IsBlankLine (c :: line) := by simp [hb]
        exact ⟨hlays.below, fun _ => hlays.below.cons hvisible, fun _ _ => hvisible⟩
      | true =>
        have hkept : IsBlankLine (c :: line) → IsBlankLine line := fun h => (isBlankLine_cons.mp h).2
        cases hp : isPadding c with
        | true =>
          rw [step_of_isPadding hp] at ht
          obtain rfl := Option.some.inj ht
          exact ⟨hlays.below, fun hs => (hlays.spread hs).congr hkept,
            fun hzero hone h => hlays.visible hzero hone (hkept h)⟩
        | false =>
          rw [step_of_isBlank hb hp hfeed] at ht
          obtain rfl := Option.some.inj ht
          have hvisible : ¬IsBlankLine (c :: line) :=
            fun h => hlays.visible (by simp) (by simp) (hkept h)
          exact ⟨hlays.below, fun _ => hlays.below.cons hvisible, fun _ _ => hvisible⟩

/-- A text that begins with no line feed, never has two blank lines one below the other, and
ends with one line feed behind a visible character. -/
structure Neat (s : String) : Prop where
  begins : s.toList.head? ≠ some '\n'
  spread : Spread ((lines s).map String.toList)
  ends : ∃ cs c, s.toList = cs ++ [c, '\n'] ∧ isBlank c = false

/-- A text whose last line feed has no padding in front of it is neat if a walk through it
meets no more than one line feed behind the last visible character. -/
theorem neat_of_run {s : String} {n : Nat} (h : (Pace.clear 2).run s.toList = some (.clear n))
    (hn : n ≤ 1) {cs : List Char} (hs : s.toList = cs ++ ['\n'])
    (hcs : ∀ c ∈ cs.getLast?, isPadding c = false) : Neat s := by
  obtain ⟨t, ht, hfeed⟩ : ∃ t, (Pace.clear 2).run cs = some t ∧ t.step '\n' = some (.clear n) := by
    simpa [hs, Option.bind_eq_some_iff] using h
  obtain ⟨m, -, rfl, hcount⟩ := Pace.step_feed_eq_some.mp hfeed
  obtain rfl : n = m + 1 := by simpa using hcount
  obtain rfl : m = 0 := by omega
  obtain ⟨line, lines, hlines, hlays⟩ := Pace.exists_lays h
  refine ⟨fun hhead => ?_, ?_, ?_⟩
  · obtain ⟨rest, hrest⟩ := List.head?_eq_some_iff.mp hhead
    rw [hrest] at h
    simp [Pace.step] at h
  · have hcut : (Text.lines s).map String.toList = line :: lines := by
      simpa [Text.lines, Function.comp_def] using hlines
    rw [hcut]
    exact hlays.spread (by simp)
  · rcases List.eq_nil_or_concat cs with rfl | ⟨before, c, rfl⟩
    · simp at ht
    · rw [List.concat_eq_append] at ht hcs hs
      have hpadding : isPadding c = false := hcs c (by simp)
      obtain ⟨u, -, hu⟩ : ∃ u, (Pace.clear 2).run before = some u ∧ u.step c = some (.clear 0) := by
        simpa [Option.bind_eq_some_iff] using ht
      exact ⟨before, c, by simp [hs], Pace.visible_of_step hu hpadding⟩

end JavaFormat.Text
