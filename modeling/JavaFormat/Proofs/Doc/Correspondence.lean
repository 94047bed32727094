import JavaFormat.Proofs.Doc.Machine
import Mathlib.Data.List.Forall2

/-!
# Steps that correspond

Different documents may be worked off in the same way. What the renderer puts in the
place of a composite document depends on measures only, so documents that are built
alike from parts which measuring does not tell apart are replaced by commands that
correspond (`Correspondence.execute`), whatever the relation between the parts is.
-/

namespace JavaFormat.Doc

/-- A relation of documents that measuring does not see and that concatenations and fills
keep, with the relation of commands that goes with it. -/
structure Correspondence (R : Doc → Doc → Prop) (C : Command → Command → Prop) : Prop where
  concat {ds es : List Doc} (h : List.Forall₂ R ds es) : R (.concat ds) (.concat es)
  fill {ds es : List Doc} (h : List.Forall₂ R ds es) : R (.fill ds) (.fill es)
  fit {d e : Doc} (strict : Bool) (mode : Mode) (width : Nat) (h : R d e) :
    d.fit strict mode width = e.fit strict mode width
  command {d e : Doc} (level : Nat) (mode : Mode) (h : R d e) : C ⟨level, mode, d⟩ ⟨level, mode, e⟩

/-- Composite documents of one kind with parts that are related. -/
inductive BuiltAlike (R : Doc → Doc → Prop) : Doc → Doc → Prop
  | concat {ds es} (h : List.Forall₂ R ds es) : BuiltAlike R (.concat ds) (.concat es)
  | group {marked d e} (h : R d e) : BuiltAlike R (.group marked d) (.group marked e)
  | choice {ds es} (h : List.Forall₂ R ds es) : BuiltAlike R (.choice ds) (.choice es)
  | indent {d e} (h : R d e) : BuiltAlike R (.indent d) (.indent e)
  | fill {ds es} (h : List.Forall₂ R ds es) : BuiltAlike R (.fill ds) (.fill es)
  | breakParent : BuiltAlike R .breakParent .breakParent

/-- What steps from related states come to. -/
inductive Step.Related (S : State → State → Prop) : Step → Step → Prop
  | next {t t' : State} (h : S t t') : Step.Related S (.next t) (.next t')
  | done : Step.Related S .done .done
  | stateless : Step.Related S .stateless .stateless

namespace Correspondence

variable {R : Doc → Doc → Prop} {C : Command → Command → Prop} {ds es : List Doc}

/-- Corresponding states of a choice are printed, and in the same mode. -/
theorem chooseState (hR : Correspondence R C) (room : Int) (level : Nat)
    {rest rest' : List Command}
    (hrest : ∀ width, fitCommands false width rest = fitCommands false width rest')
    (h : List.Forall₂ R ds es) :
    Option.Rel C (chooseState room level rest ds) (chooseState room level rest' es) := by
  induction h with
  | nil => exact .none
  | @cons d e ds es hd hs ih =>
    cases hs with
    | nil => exact .some (hR.command level .broken hd)
    | cons hd' hs' =>
      have hfits : fits? false room (⟨level, .flat, d⟩ :: rest) =
          fits? false room (⟨level, .flat, e⟩ :: rest') :=
        fits_congr (fun width => hR.fit false .flat width hd) hrest
      simp only [Doc.chooseState, hfits]
      split
      · exact .some (hR.command level .flat hd)
      · exact ih
      · exact .none

/-- Fills of corresponding parts are taken apart in the same way. The modes of the first part and of
the separator depend on the answers of the fit tests, which are the same. -/
theorem fillCommands (hR : Correspondence R C) (room : Int) (level : Nat) (mode : Mode)
    (h : List.Forall₂ R ds es) :
    Option.Rel (List.Forall₂ C) (fillCommands room level mode ds)
      (fillCommands room level mode es) := by
  have hfits : ∀ {d e : Doc}, R d e →
      fits? true room [⟨level, .flat, d⟩] = fits? true room [⟨level, .flat, e⟩] :=
    fun h => fits_congr (fun width => hR.fit true .flat width h) fun _ => rfl
  cases h with
  | nil => exact .some .nil
  | @cons a a' ds es ha h =>
    cases h with
    | nil =>
      rw [Doc.fillCommands, Doc.fillCommands, hfits ha]
      cases fits? true room [⟨level, .flat, a'⟩] with
      | none => exact .none
      | some fits => exact .some (.cons (hR.command level _ ha) .nil)
    | @cons s s' ds es hs h =>
      cases h with
      | nil =>
        rw [Doc.fillCommands, Doc.fillCommands, hfits ha]
        cases fits? true room [⟨level, .flat, a'⟩] with
        | none => exact .none
        | some fits =>
          exact .some (.cons (hR.command level _ ha) (.cons (hR.command level _ hs) .nil))
      | @cons c c' ds es hc h =>
        have hpair : R (.concat [a, s, c]) (.concat [a', s', c']) :=
          hR.concat (.cons ha (.cons hs (.cons hc .nil)))
        have hrest : List.Forall₂ C [⟨level, mode, .fill (c :: ds)⟩]
            [⟨level, mode, .fill (c' :: es)⟩] :=
          .cons (hR.command level mode (hR.fill (.cons hc h))) .nil
        rw [Doc.fillCommands, Doc.fillCommands, hfits ha, hfits hpair]
        cases fits? true room [⟨level, .flat, a'⟩] with
        | none => exact .none
        | some fits =>
          cases fits? true room [⟨level, .flat, .concat [a', s', c']⟩] with
          | none => exact .none
          | some pairFits =>
            cases pairFits <;>
              exact .some (.cons (hR.command level _ ha) (.cons (hR.command level _ hs) hrest))

/-- Composite documents that are built alike are replaced by corresponding commands, on
stacks that are measured alike and in states that agree in their column and in whether the
next group is measured again. So the states stay related if replacing them keeps that. -/
theorem execute (hR : Correspondence R C) (S : State → State → Prop) (options : Options)
    {s s' : State} {l : Nat} {m : Mode} {d e : Doc} (hde : BuiltAlike R d e)
    (hcolumn : s.column = s'.column) (hremeasure : s.remeasure = s'.remeasure)
    (hstack : ∀ width, fitCommands false width s.stack = fitCommands false width s'.stack)
    (hpush : ∀ (cs cs' : List Command) (again : Bool), List.Forall₂ C cs cs' →
      S { s with stack := cs ++ s.stack, remeasure := again }
        { s' with stack := cs' ++ s'.stack, remeasure := again }) :
    Step.Related S (s.execute options ⟨l, m, d⟩) (s'.execute options ⟨l, m, e⟩) := by
  obtain ⟨stack, suffixes, printed, column, remeasure⟩ := s
  obtain ⟨stack', suffixes', printed', column', remeasure'⟩ := s'
  obtain rfl : column = column' := hcolumn
  obtain rfl : remeasure = remeasure' := hremeasure
  have hsingle : ∀ {d e : Doc} (l : Nat) (m : Mode), R d e →
      List.Forall₂ C [⟨l, m, d⟩] [⟨l, m, e⟩] := fun l m h => .cons (hR.command l m h) .nil
  cases hde with
  | @concat ds es h =>
    have hmap : List.Forall₂ C (ds.map (⟨l, m, ·⟩)) (es.map (⟨l, m, ·⟩)) := by
      rw [List.forall₂_map_left_iff, List.forall₂_map_right_iff]
      exact h.imp fun _ _ => hR.command l m
    exact .next (hpush _ _ remeasure hmap)
  | indent h => exact .next (hpush _ _ remeasure (hsingle (l + 1) m h))
  | breakParent => exact .next (hpush [] [] remeasure .nil)
  | fill h =>
    have hcommands := hR.fillCommands ((options.printWidth : Int) - column) l m h
    simp only [State.execute, State.room]
    generalize Doc.fillCommands _ l m _ = found at hcommands ⊢
    generalize Doc.fillCommands _ l m _ = found' at hcommands ⊢
    cases hcommands with
    | none => exact .stateless
    | some hcs => exact .next (hpush _ _ remeasure hcs)
  | @group marked d e h =>
    simp only [State.execute, State.room]
    split
    · exact .next (hpush _ _ remeasure (hsingle l _ h))
    · split
      · exact .next (hpush _ _ false (hsingle l _ h))
      · have hfits : ∀ room, fits? false room (⟨l, .flat, d⟩ :: stack) =
            fits? false room (⟨l, .flat, e⟩ :: stack') :=
          fun _ => fits_congr (fun width => hR.fit false .flat width h) hstack
        rw [hfits]
        split
        · exact .next (hpush _ _ false (hsingle l _ h))
        · exact .stateless
  | choice h =>
    simp only [State.execute, State.room]
    split
    · cases h with
      | nil => exact .stateless
      | cons hd _ => exact .next (hpush _ _ remeasure (hsingle l _ hd))
    · have hchoice := hR.chooseState ((options.printWidth : Int) - column) l hstack h
      generalize Doc.chooseState _ l stack _ = found at hchoice ⊢
      generalize Doc.chooseState _ l stack' _ = found' at hchoice ⊢
      cases hchoice with
      | none => exact .stateless
      | some hchosen => exact .next (hpush [_] [_] false (.cons hchosen .nil))

end Correspondence

end JavaFormat.Doc
