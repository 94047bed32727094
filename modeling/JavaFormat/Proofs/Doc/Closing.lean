import JavaFormat.Proofs.Doc.Machine
import JavaFormat.Proofs.Text.Visible

/-!
# The last line break

A document that ends with a certain break at the left margin is printed with that line
feed at the end: whatever comes before it, the break stays at the bottom of the stack until
it is taken, and then nothing is left to do. The blanks in front of it are taken away.
-/

namespace JavaFormat.Doc

/-- The parts of a certain break. -/
def breakParts : List Doc := [.line { hard := true }, .breakParent]

/-- A document that ends with a certain break. -/
def Terminated (d : Doc) : Prop := ∃ ds, d = .concat (ds ++ breakParts)

/-- A concatenation whose last part is a certain break. -/
theorem terminated_cat (ds : List Doc) : Terminated (cat (ds ++ [hardline])) := by
  refine ⟨ds.flatMap flatten, ?_⟩
  have hparts : (ds ++ [hardline]).flatMap flatten = ds.flatMap flatten ++ breakParts := by
    rw [List.flatMap_append]
    rfl
  rw [cat, hparts]
  cases ds.flatMap flatten with
  | nil => rfl
  | cons e es => cases es <;> rfl

/-- The forced breaks of two lists are marked one list after the other. -/
theorem markBreaksAll_append (ds es : List Doc) :
    markBreaksAll (ds ++ es) = markBreaksAll ds ++ markBreaksAll es := by
  induction ds with
  | nil => rfl
  | cons d ds ih => rw [List.cons_append, markBreaksAll, ih, markBreaksAll, List.cons_append]

/-- Marking groups leaves the break at the end. -/
theorem Terminated.markBreaks {d : Doc} (h : Terminated d) : Terminated d.markBreaks := by
  obtain ⟨ds, rfl⟩ := h
  refine ⟨markBreaksAll ds, ?_⟩
  rw [Doc.markBreaks, markBreaksAll_append]
  rfl

/-- How far the printing of a terminated document has got. -/
inductive Closing (s : State) : Prop
  /-- Nothing has been done yet. -/
  | whole (m ds) (hs : s.stack = [⟨0, m, .concat (ds ++ breakParts)⟩])
  /-- The last break is still to come. -/
  | ahead (cs m) (hs : s.stack = cs ++ breakParts.map (⟨0, m, ·⟩))
  /-- The last break has been taken. -/
  | behind (out) (hprinted : s.printed = '\n' :: out)
    (hout : ∀ c ∈ out.head?, Text.isPadding c = false)
    (hstack : ∀ c ∈ s.stack, c.doc = .breakParent) (hsuffixes : s.suffixes = [])

/-- Padding is taken away from the end of a line. -/
theorem not_isPadding_head?_dropWhile (cs : List Char) :
    ∀ c ∈ (cs.dropWhile Text.isPadding).head?, Text.isPadding c = false := by
  intro c hc
  have hkept := List.head?_dropWhile_not Text.isPadding cs
  rw [hc] at hkept
  simpa using hkept

/-- While the last break is ahead, it stays at the bottom of the stack or is taken. -/
theorem Move.closing_of_ahead {options : Options} {s s' : State} (hm : Move options s s')
    {cs : List Command} {m : Mode} (hs : s.stack = cs ++ breakParts.map (⟨0, m, ·⟩)) :
    Closing s' := by
  cases cs with
  | nil =>
    have hs : s.stack = [⟨0, m, .line { hard := true }⟩, ⟨0, m, .breakParent⟩] := hs
    cases hm with
    | @expand c front rest hstack hc again =>
      obtain ⟨rfl, -⟩ := List.cons_eq_cons.mp (hs.symm.trans hstack)
      cases hc
    | text hstack => simp [hs] at hstack
    | defer hstack => simp [hs] at hstack
    | glue hstack hh =>
      have htop := (List.cons_eq_cons.mp (hs.symm.trans hstack)).1
      simp only [Command.mk.injEq, Doc.line.injEq] at htop
      simp [← htop.2.2] at hh
    | blank hstack hh =>
      have htop := (List.cons_eq_cons.mp (hs.symm.trans hstack)).1
      simp only [Command.mk.injEq, Doc.line.injEq] at htop
      simp [← htop.2.2] at hh
    | flush hstack hb hwaits again => exact .ahead s.suffixes m (by rw [hs]; rfl)
    | @newline l m' style rest hstack hb hwaits again =>
      obtain ⟨htop, hrest⟩ := List.cons_eq_cons.mp (hs.symm.trans hstack)
      simp only [Command.mk.injEq, Doc.line.injEq] at htop
      obtain ⟨rfl, -, rfl⟩ := htop
      refine .behind (s.printed.dropWhile Text.isPadding) ?_
        (not_isPadding_head?_dropWhile s.printed) ?_ ?_
      · simp [State.breakLine]
      · rw [State.breakLine_stack]
        simp [← hrest]
      · rw [State.breakLine_suffixes]
        exact hwaits
    | last hstack => simp [hs] at hstack
  | cons c cs =>
    have hbottom : ∀ {x rest}, s.stack = x :: rest → rest = cs ++ breakParts.map (⟨0, m, ·⟩) :=
      fun hstack => ((List.cons_eq_cons.mp (hs.symm.trans hstack)).2).symm
    cases hm with
    | @expand _ front rest hstack hc again =>
      exact .ahead (front ++ cs) m (by simp [hbottom hstack])
    | text hstack => exact .ahead cs m (hbottom hstack)
    | defer hstack => exact .ahead cs m (hbottom hstack)
    | glue hstack => exact .ahead cs m (hbottom hstack)
    | blank hstack => exact .ahead cs m (hbottom hstack)
    | flush hstack hb hwaits again =>
      exact .ahead (s.suffixes ++ c :: cs) m (by simp [hs])
    | newline hstack =>
      refine .ahead cs m ?_
      rw [State.breakLine_stack]
      exact hbottom hstack
    | last hstack => simp [hs] at hstack

/-- Printing a terminated document leads to its last break and past it. The commands below its
document print nothing. -/
theorem Move.closing {options : Options} {s s' : State} (hm : Move options s s')
    (h : Closing s) : Closing s' := by
  cases h with
  | ahead cs m hs => exact hm.closing_of_ahead hs
  | whole m ds hs =>
    cases hm with
    | @expand c front rest hstack hc again =>
      obtain ⟨rfl, rfl⟩ := List.cons_eq_cons.mp (hs.symm.trans hstack)
      cases hc with
      | concat => exact .ahead (ds.map (⟨0, m, ·⟩)) m (by simp)
    | text hstack => simp [hs] at hstack
    | defer hstack => simp [hs] at hstack
    | glue hstack => simp [hs] at hstack
    | blank hstack => simp [hs] at hstack
    | flush hstack => simp [hs] at hstack
    | newline hstack => simp [hs] at hstack
    | last hstack => simp [hs] at hstack
  | behind out hprinted hout hstack hsuffixes =>
    have htop : ∀ {x rest}, s.stack = x :: rest → x.doc = .breakParent :=
      fun hs => hstack _ (by simp [hs])
    cases hm with
    | @expand c front rest hs hc again =>
      obtain ⟨l, m, d⟩ := c
      obtain rfl : d = .breakParent := htop hs
      cases hc
      exact .behind _ hprinted hout (fun c hc => hstack c (by simp_all)) hsuffixes
    | text hs => cases htop hs
    | defer hs => cases htop hs
    | glue hs => cases htop hs
    | blank hs => cases htop hs
    | flush hs => cases htop hs
    | newline hs => cases htop hs
    | last hs hwaits => exact absurd hsuffixes hwaits

/-- A terminated document is printed with a line feed at the end and no padding in front of
it. -/
theorem exists_terminated (options : Options) {p : Prop} {d : Doc} (hd : d.Sound p)
    (h : Terminated d) :
    ∃ out cs, render? options d = some out ∧ out.toList = cs ++ ['\n'] ∧
      ∀ c ∈ cs.getLast?, Text.isPadding c = false := by
  obtain ⟨s, hrender, hmoves, hstack, hsuffixes⟩ := exists_moves options hd
  have hclosing : Closing s := by
    clear hrender hstack hsuffixes
    induction hmoves with
    | refl =>
      obtain ⟨ds, hds⟩ := h.markBreaks
      exact .whole .broken ds (by rw [State.initial, hds])
    | tail _ hm ih => exact hm.closing ih
  cases hclosing with
  | whole m ds hs => simp [hs] at hstack
  | ahead cs m hs => simp [hs, breakParts] at hstack
  | behind out hprinted hout _ _ =>
    refine ⟨_, out.reverse, hrender, by simp [hprinted], fun c hc => hout c ?_⟩
    simpa using hc

end JavaFormat.Doc
