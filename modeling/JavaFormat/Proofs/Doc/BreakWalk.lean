import JavaFormat.Doc.BreakWalk
import Mathlib.Data.List.Basic

/-!
# What the walk finds

The walk over a document finds what structural recursion finds: a group breaks if a
`breakParent` stands below it, not counting what is inside a suffix. The invariant is that of
one visit (`run_enter`): whatever is on the stacks, a visit to a document leaves the stacks
below as they are, sets the flag on top if the document holds a break, and adds the groups
inside that break. So a stack is never popped when it is empty, and what is found in a group
reaches the groups around it when all that is inside has been seen.
-/

namespace JavaFormat.Doc

mutual

/-- Whether a document holds a break outside its suffixes, whatever the marks of its groups
are. -/
def holdsBreak : Doc → Bool
  | .text _ => false
  | .concat parts => anyHoldsBreak parts
  | .group _ contents => holdsBreak contents
  | .choice states => anyHoldsBreak states
  | .indent contents => holdsBreak contents
  | .fill parts => anyHoldsBreak parts
  | .line _ => false
  | .suffix _ => false
  | .breakParent => true

/-- Whether one of several documents holds a break. -/
def anyHoldsBreak : List Doc → Bool
  | [] => false
  | d :: ds => holdsBreak d || anyHoldsBreak ds

end

mutual

/-- The groups of a document at a place that hold a break, the one that is left last first. -/
def brokenFrom (place : Place) : Doc → List Place
  | .text _ => []
  | .concat parts => brokenFromAll place 0 parts
  | .group _ contents =>
    if contents.holdsBreak then place :: brokenFrom (place ++ [0]) contents
    else brokenFrom (place ++ [0]) contents
  | .choice states => brokenFromAll place 0 states
  | .indent contents => brokenFrom (place ++ [0]) contents
  | .fill parts => brokenFromAll place 0 parts
  | .line _ => []
  | .suffix _ => []
  | .breakParent => []

/-- The same for documents that stand side by side, the first of them being number `i`. -/
def brokenFromAll (place : Place) (i : Nat) : List Doc → List Place
  | [] => []
  | d :: ds => brokenFromAll place (i + 1) ds ++ brokenFrom (place ++ [i]) d

end

/-! ## A visit -/

section Run

variable {fuel : Nat} {w w' : Walk} {visits : List Visit} {groups broken : List Place}
  {met : Bool} {outer : List Bool}

/-- A step of the walk costs one unit of fuel. -/
theorem Walk.run_of_step (h : w.step = .next w') : Walk.run (fuel + 1) w = Walk.run fuel w' := by
  rw [Walk.run, h]

/-- Leaving a group in which a break may have been met. -/
theorem run_leave {place : Place} {inner : Bool} :
    Walk.run (fuel + 1) ⟨.leave :: visits, place :: groups, inner :: met :: outer, broken⟩ =
      Walk.run fuel ⟨visits, groups, (met || inner) :: outer,
        if inner then place :: broken else broken⟩ := by
  refine Walk.run_of_step ?_
  cases inner with
  | true => simp [Walk.step, Walk.leave, Walk.note]
  | false => simp [Walk.step, Walk.leave]

mutual

/-- A visit to a document sets the flag on top if there is a break in the document, adds the
groups in it that break, and leaves all else as it was. -/
theorem run_enter : ∀ (d : Doc) (place : Place) (fuel : Nat) (visits : List Visit)
    (groups broken : List Place) (met : Bool) (outer : List Bool),
    Walk.run (fuel + d.visitCount) ⟨.enter place d :: visits, groups, met :: outer, broken⟩ =
      Walk.run fuel ⟨visits, groups, (met || d.holdsBreak) :: outer,
        d.brokenFrom place ++ broken⟩
  | .text _, _, _, _, _, _, _, _
  | .line _, _, _, _, _, _, _, _
  | .suffix _, _, _, _, _, _, _, _ => by
    refine Walk.run_of_step ?_
    simp [Walk.step, Walk.enter, holdsBreak, brokenFrom]
  | .breakParent, _, _, _, _, _, _, _ => by
    refine Walk.run_of_step ?_
    simp [Walk.step, Walk.enter, Walk.note, holdsBreak, brokenFrom]
  | .concat parts, place, fuel, visits, groups, broken, met, outer
  | .fill parts, place, fuel, visits, groups, broken, met, outer
  | .choice parts, place, fuel, visits, groups, broken, met, outer => by
    rw [visitCount, Nat.add_comm 1, ← Nat.add_assoc]
    refine (Walk.run_of_step rfl).trans ?_
    exact run_enterAll parts place 0 fuel visits groups broken met outer
  | .indent contents, place, fuel, visits, groups, broken, met, outer => by
    rw [visitCount, Nat.add_comm 1, ← Nat.add_assoc]
    refine (Walk.run_of_step rfl).trans ?_
    exact run_enter contents (place ++ [0]) fuel visits groups broken met outer
  | .group _ contents, place, fuel, visits, groups, broken, met, outer => by
    have hcount : fuel + (2 + contents.visitCount) = fuel + 1 + contents.visitCount + 1 := by omega
    rw [visitCount, hcount]
    refine (Walk.run_of_step rfl).trans ?_
    refine (run_enter contents (place ++ [0]) (fuel + 1) (.leave :: visits) (place :: groups) broken
      false (met :: outer)).trans ?_
    rw [Bool.false_or, run_leave, holdsBreak, brokenFrom]
    split <;> simp

/-- Visits to documents that stand side by side. -/
theorem run_enterAll : ∀ (ds : List Doc) (place : Place) (i fuel : Nat) (visits : List Visit)
    (groups broken : List Place) (met : Bool) (outer : List Bool),
    Walk.run (fuel + visitCountAll ds)
        ⟨enterAll place i ds ++ visits, groups, met :: outer, broken⟩ =
      Walk.run fuel ⟨visits, groups, (met || anyHoldsBreak ds) :: outer,
        brokenFromAll place i ds ++ broken⟩
  | [], _, _, _, _, _, _, _, _ => by
    simp [enterAll, visitCountAll, anyHoldsBreak, brokenFromAll]
  | d :: ds, place, i, fuel, visits, groups, broken, met, outer => by
    have hcount : fuel + visitCountAll (d :: ds) = fuel + visitCountAll ds + d.visitCount := by
      rw [visitCountAll]
      omega
    rw [hcount]
    refine (run_enter d (place ++ [i]) _ (enterAll place (i + 1) ds ++ visits) groups broken met
      outer).trans ?_
    refine (run_enterAll ds place (i + 1) fuel visits groups _ _ outer).trans ?_
    rw [anyHoldsBreak, brokenFromAll, Bool.or_assoc, List.append_assoc]

end

end Run

/-- The walk comes to its end, with the groups that structural recursion finds. -/
theorem breakWalk?_eq_some (d : Doc) : d.breakWalk? = some (d.brokenFrom []) := by
  rw [breakWalk?, Nat.add_comm]
  refine (run_enter d [] 1 [] [] [] false []).trans ?_
  rw [Walk.run, List.append_nil]
  rfl

/-! ## What is reached -/

/-- Whether a group stands at a place and holds a break, both reached without going into a
suffix. -/
def Breaks (d : Doc) (place : Place) : Prop :=
  ∃ marked contents, d.reach? place = some (.group marked contents) ∧
    ∃ below, contents.reach? below = some .breakParent

section Reached

variable {d e : Doc} {place q : Place} {i : Nat}

/-- A place with one more index is reached through the part of that index. -/
theorem reach?_cons : d.reach? (i :: place) = some e ↔
    ∃ f, d.openParts[i]? = some f ∧ f.reach? place = some e := by
  rw [reach?, Option.bind_eq_some_iff]

/-- A place with one more index breaks if it does in the part of that index. -/
theorem breaks_cons : d.Breaks (i :: place) ↔
    ∃ f, d.openParts[i]? = some f ∧ f.Breaks place := by
  simp only [Breaks, reach?_cons]
  constructor
  · rintro ⟨marked, contents, ⟨f, hf, hgroup⟩, hbelow⟩
    exact ⟨f, hf, marked, contents, hgroup, hbelow⟩
  · rintro ⟨f, hf, marked, contents, hgroup, hbelow⟩
    exact ⟨marked, contents, ⟨f, hf, hgroup⟩, hbelow⟩

/-- The only part of a document with one part. -/
theorem getElem?_single : [d][i]? = some e ↔ i = 0 ∧ d = e := by
  cases i <;> simp

/-- Only a group breaks itself. -/
theorem not_breaks_nil (h : ∀ marked contents, d ≠ .group marked contents) : ¬d.Breaks [] := by
  rintro ⟨marked, contents, hgroup, -⟩
  exact h marked contents (Option.some.inj hgroup)

/-- A group breaks where it stands if a forced break is reached below it. -/
theorem breaks_group_nil {marked : Bool} {contents : Doc} : (group marked contents).Breaks [] ↔
    ∃ below, contents.reach? below = some .breakParent := by
  constructor
  · rintro ⟨_, _, ⟨⟩, hbelow⟩
    exact hbelow
  · exact fun hbelow => ⟨marked, contents, rfl, hbelow⟩

/-- What is reached below a place is reached from the document there. -/
theorem reach?_append (below : Place) :
    d.reach? (place ++ below) = (d.reach? place).bind (·.reach? below) := by
  induction place generalizing d with
  | nil => rfl
  | cons i place ih =>
    rw [List.cons_append, reach?, reach?, Option.bind_assoc]
    exact congrArg _ (funext fun f => ih)

end Reached

mutual

/-- A document holds a break if one is reached in it. -/
theorem holdsBreak_iff : ∀ d : Doc,
    d.holdsBreak = true ↔ ∃ below, d.reach? below = some .breakParent
  | .text _ | .line _ | .suffix _ => by
    refine ⟨fun h => by simp [holdsBreak] at h, ?_⟩
    rintro ⟨_ | ⟨i, below⟩, hbelow⟩
    · cases hbelow
    · obtain ⟨f, hf, -⟩ := reach?_cons.mp hbelow
      simp [openParts, parts] at hf
  | .breakParent => ⟨fun _ => ⟨[], rfl⟩, fun _ => rfl⟩
  | .concat ds | .fill ds | .choice ds => by
    rw [holdsBreak, anyHoldsBreak_iff ds]
    constructor
    · rintro ⟨i, f, below, hf, hbelow⟩
      exact ⟨i :: below, reach?_cons.mpr ⟨f, hf, hbelow⟩⟩
    · rintro ⟨_ | ⟨i, below⟩, hbelow⟩
      · cases hbelow
      · obtain ⟨f, hf, hbelow⟩ := reach?_cons.mp hbelow
        exact ⟨i, f, below, hf, hbelow⟩
  | .group _ contents | .indent contents => by
    rw [holdsBreak, holdsBreak_iff contents]
    constructor
    · rintro ⟨below, hbelow⟩
      exact ⟨0 :: below, reach?_cons.mpr ⟨contents, rfl, hbelow⟩⟩
    · rintro ⟨_ | ⟨i, below⟩, hbelow⟩
      · cases hbelow
      · obtain ⟨f, hf, hbelow⟩ := reach?_cons.mp hbelow
        obtain ⟨-, rfl⟩ := getElem?_single.mp hf
        exact ⟨below, hbelow⟩

/-- One of several documents holds a forced break if such a break is reached in it. -/
theorem anyHoldsBreak_iff : ∀ ds : List Doc, anyHoldsBreak ds = true ↔
    ∃ (i : Nat) (f : Doc) (below : Place), ds[i]? = some f ∧ f.reach? below = some .breakParent
  | [] => by simp [anyHoldsBreak]
  | d :: ds => by
    rw [anyHoldsBreak, Bool.or_eq_true, holdsBreak_iff d, anyHoldsBreak_iff ds]
    constructor
    · rintro (⟨below, hbelow⟩ | ⟨i, f, below, hf, hbelow⟩)
      · exact ⟨0, d, below, rfl, hbelow⟩
      · exact ⟨i + 1, f, below, hf, hbelow⟩
    · rintro ⟨_ | i, f, below, hf, hbelow⟩
      · obtain rfl := Option.some.inj hf
        exact .inl ⟨below, hbelow⟩
      · exact .inr ⟨i, f, below, hf, hbelow⟩

end

/-- A group breaks itself if its contents hold a break. -/
theorem breaks_group_nil_iff {marked : Bool} {contents : Doc} :
    (group marked contents).Breaks [] ↔ contents.holdsBreak = true :=
  breaks_group_nil.trans (holdsBreak_iff contents).symm

/-- The groups that a document inside another one adds to those found. -/
theorem exists_breaks_iff {d : Doc} {place q : Place} :
    (∃ p, q = place ++ p ∧ d.Breaks p) ↔ q = place ∧ d.Breaks [] ∨
      ∃ (i : Nat) (f : Doc) (p : Place), d.openParts[i]? = some f ∧ q = place ++ i :: p ∧
        f.Breaks p := by
  constructor
  · rintro ⟨_ | ⟨i, p⟩, rfl, hp⟩
    · exact .inl ⟨List.append_nil place, hp⟩
    · obtain ⟨f, hf, hp⟩ := breaks_cons.mp hp
      exact .inr ⟨i, f, p, hf, rfl, hp⟩
  · rintro (⟨rfl, hp⟩ | ⟨i, f, p, hf, rfl, hp⟩)
    · exact ⟨[], (List.append_nil q).symm, hp⟩
    · exact ⟨i :: p, rfl, breaks_cons.mpr ⟨f, hf, hp⟩⟩

mutual

/-- What is found in a document at a place are its groups that break. -/
theorem mem_brokenFrom : ∀ (d : Doc) (place q : Place),
    q ∈ d.brokenFrom place ↔ ∃ p, q = place ++ p ∧ d.Breaks p
  | .text _, _, _ | .line _, _, _ | .suffix _, _, _ | .breakParent, _, _ => by
    rw [exists_breaks_iff]
    simp [brokenFrom, openParts, parts, not_breaks_nil]
  | .concat ds, place, q | .fill ds, place, q | .choice ds, place, q => by
    rw [exists_breaks_iff, brokenFrom, mem_brokenFromAll ds place 0 q]
    simp only [Nat.zero_add, openParts, parts, not_breaks_nil, ne_eq, reduceCtorEq,
      not_false_eq_true, implies_true, and_false, false_or]
  | .indent contents, place, q => by
    rw [exists_breaks_iff, brokenFrom, mem_brokenFrom contents (place ++ [0]) q]
    simp only [openParts, parts, getElem?_single, not_breaks_nil, ne_eq, reduceCtorEq,
      not_false_eq_true, implies_true, and_false, false_or]
    constructor
    · rintro ⟨p, rfl, hp⟩
      exact ⟨0, contents, p, ⟨rfl, rfl⟩, List.append_assoc .., hp⟩
    · rintro ⟨_, _, p, ⟨rfl, rfl⟩, rfl, hp⟩
      exact ⟨p, List.append_cons .., hp⟩
  | .group _ contents, place, q => by
    have hrest := mem_brokenFrom contents (place ++ [0]) q
    rw [exists_breaks_iff, brokenFrom, breaks_group_nil_iff]
    simp only [openParts, parts, getElem?_single]
    have hinside : q ∈ brokenFrom (place ++ [0]) contents ↔ ∃ (i : Nat) (f : Doc) (p : Place),
        (i = 0 ∧ contents = f) ∧ q = place ++ i :: p ∧ f.Breaks p := by
      rw [hrest]
      constructor
      · rintro ⟨p, rfl, hp⟩
        exact ⟨0, contents, p, ⟨rfl, rfl⟩, List.append_assoc .., hp⟩
      · rintro ⟨_, _, p, ⟨rfl, rfl⟩, rfl, hp⟩
        exact ⟨p, List.append_cons .., hp⟩
    rw [← hinside]
    split
    · rename_i hbreak
      simp [hbreak]
    · rename_i hbreak
      simp [hbreak]

/-- The broken groups of several documents are those of each, behind its index. -/
theorem mem_brokenFromAll : ∀ (ds : List Doc) (place : Place) (i : Nat) (q : Place),
    q ∈ brokenFromAll place i ds ↔ ∃ (j : Nat) (f : Doc) (p : Place), ds[j]? = some f ∧
      q = place ++ (i + j) :: p ∧ f.Breaks p
  | [], _, _, _ => by simp [brokenFromAll]
  | d :: ds, place, i, q => by
    rw [brokenFromAll, List.mem_append, mem_brokenFromAll ds place (i + 1) q,
      mem_brokenFrom d (place ++ [i]) q]
    constructor
    · rintro (⟨j, f, p, hf, rfl, hp⟩ | ⟨p, rfl, hp⟩)
      · exact ⟨j + 1, f, p, hf, by rw [Nat.add_assoc, Nat.add_comm 1], hp⟩
      · exact ⟨0, d, p, rfl, List.append_assoc .., hp⟩
    · rintro ⟨_ | j, f, p, hf, rfl, hp⟩
      · obtain rfl := Option.some.inj hf
        exact .inr ⟨p, List.append_cons .., hp⟩
      · exact .inl ⟨j, f, p, hf, by rw [Nat.add_assoc, Nat.add_comm 1], hp⟩

end

/-! ## The marks that rendering goes by -/

/-- No group of a document is marked yet. -/
def Unmarked (d : Doc) : Prop := ∀ m ∈ d.groupMarks, m = false

mutual

/-- Marking an unmarked document makes it break the groups around it if it holds a break. -/
theorem breaks_markBreaks : ∀ d : Doc, d.Unmarked → d.markBreaks.breaks = d.holdsBreak
  | .text _, _ | .line _, _ | .suffix _, _ | .breakParent, _ => rfl
  | .concat ds, h | .fill ds, h | .choice ds, h => breaksAny_markBreaksAll ds h
  | .indent contents, h => breaks_markBreaks contents h
  | .group broken contents, h => by
    obtain ⟨hbroken, hcontents⟩ := List.forall_mem_cons.mp h
    obtain rfl : broken = false := hbroken
    have hinside := breaks_markBreaks contents hcontents
    simp only [markBreaks, breaks, holdsBreak, hinside, Bool.false_or, Bool.or_self]

/-- Once marked, several documents break if they held a forced break. -/
theorem breaksAny_markBreaksAll : ∀ ds : List Doc, (∀ m ∈ groupMarksAll ds, m = false) →
    breaksAny (markBreaksAll ds) = anyHoldsBreak ds
  | [], _ => rfl
  | d :: ds, h => by
    obtain ⟨hd, hds⟩ := List.forall_mem_append.mp h
    rw [markBreaksAll, breaksAny, anyHoldsBreak, breaks_markBreaks d hd,
      breaksAny_markBreaksAll ds hds]

end

mutual

/-- Where no place is among the given ones, no group is marked. -/
theorem marksAt_of_not_mem {broken : List Place} : ∀ (d : Doc) (place : Place), d.Unmarked →
    (∀ p, place ++ p ∉ broken) → d.marksAt broken place = d.groupMarks
  | .text _, _, _, _ | .line _, _, _, _ | .breakParent, _, _, _ => rfl
  | .concat ds, place, h, hout | .fill ds, place, h, hout | .choice ds, place, h, hout =>
    marksAtAll_of_not_mem ds place 0 h hout
  | .indent contents, place, h, hout | .suffix contents, place, h, hout =>
    marksAt_of_not_mem contents (place ++ [0]) h fun p => by
      rw [List.append_assoc]
      exact hout _
  | .group marked contents, place, h, hout => by
    obtain ⟨hmarked, hcontents⟩ := List.forall_mem_cons.mp h
    have hself : place ∉ broken := by simpa using hout []
    have hinside := marksAt_of_not_mem contents (place ++ [0]) hcontents fun p => by
      rw [List.append_assoc]
      exact hout _
    rw [marksAt, groupMarks, hinside, hmarked]
    simpa using hself

/-- Groups at places that are not broken keep their marks. -/
theorem marksAtAll_of_not_mem {broken : List Place} : ∀ (ds : List Doc) (place : Place) (i : Nat),
    (∀ m ∈ groupMarksAll ds, m = false) → (∀ p, place ++ p ∉ broken) →
      marksAtAll broken place i ds = groupMarksAll ds
  | [], _, _, _, _ => rfl
  | d :: ds, place, i, h, hout => by
    obtain ⟨hd, hds⟩ := List.forall_mem_append.mp h
    rw [marksAtAll, groupMarksAll, marksAtAll_of_not_mem ds place (i + 1) hds hout,
      marksAt_of_not_mem d (place ++ [i]) hd fun p => by
        rw [List.append_assoc]
        exact hout _]

end

mutual

/-- Where the given places are those of the groups that break, the marks are the ones that
rendering goes by. -/
theorem marksAt_eq {broken : List Place} : ∀ (d : Doc) (place : Place), d.Unmarked →
    (∀ p, place ++ p ∈ broken ↔ d.Breaks p) → d.marksAt broken place = d.markBreaks.groupMarks
  | .text _, _, _, _ | .line _, _, _, _ | .breakParent, _, _, _ => rfl
  | .concat ds, place, h, hin | .fill ds, place, h, hin | .choice ds, place, h, hin =>
    marksAtAll_eq ds place 0 h fun j p => by
      rw [Nat.zero_add, hin, breaks_cons]
      rfl
  | .indent contents, place, h, hin =>
    marksAt_eq contents (place ++ [0]) h fun p => by
      rw [List.append_assoc]
      refine (hin _).trans (breaks_cons.trans ?_)
      simp [openParts, parts]
  | .suffix contents, place, h, hin =>
    marksAt_of_not_mem contents (place ++ [0]) h fun p hp => by
      rw [List.append_assoc] at hp
      obtain ⟨f, hf, -⟩ := breaks_cons.mp ((hin _).mp hp)
      cases hf
  | .group marked contents, place, h, hin => by
    obtain ⟨hmarked, hcontents⟩ := List.forall_mem_cons.mp h
    obtain rfl : marked = false := hmarked
    have hinside := @marksAt_eq broken contents (place ++ [0]) hcontents fun p => by
      rw [List.append_assoc]
      refine (hin _).trans (breaks_cons.trans ?_)
      simp [openParts, parts]
    have hself : place ∈ broken ↔ contents.holdsBreak = true := by
      rw [← @breaks_group_nil_iff false contents, ← hin, List.append_nil]
    rw [marksAt, markBreaks, groupMarks, hinside, breaks_markBreaks contents hcontents,
      Bool.false_or]
    congr 1
    rw [Bool.eq_iff_iff, List.contains_iff_mem]
    exact hself

/-- If the places are those that break, the marks by place are the marks of the marked documents. -/
theorem marksAtAll_eq {broken : List Place} : ∀ (ds : List Doc) (place : Place) (i : Nat),
    (∀ m ∈ groupMarksAll ds, m = false) →
    (∀ (j : Nat) (p : Place), place ++ (i + j) :: p ∈ broken ↔
      ∃ f, ds[j]? = some f ∧ f.Breaks p) →
      marksAtAll broken place i ds = groupMarksAll (markBreaksAll ds)
  | [], _, _, _, _ => rfl
  | d :: ds, place, i, h, hin => by
    obtain ⟨hd, hds⟩ := List.forall_mem_append.mp h
    have hfirst := @marksAt_eq broken d (place ++ [i]) hd fun p => by
      rw [List.append_assoc]
      refine (hin 0 p).trans ?_
      simp
    have hrest := @marksAtAll_eq broken ds place (i + 1) hds fun j p => by
      rw [Nat.add_assoc, Nat.add_comm 1]
      refine (hin (j + 1) p).trans ?_
      simp
    rw [marksAtAll, markBreaksAll, groupMarksAll, hfirst, hrest]

end

/-! ## The walk -/

/-- The walk over a document finds the groups that break. -/
theorem mem_brokenFrom_nil {d : Doc} {place : Place} :
    place ∈ d.brokenFrom [] ↔ d.Breaks place :=
  (mem_brokenFrom d [] place).trans (by simp)

/-- In a document that no group of is marked yet, the walk finds the groups that rendering
takes as marked. -/
theorem walkedMarks?_of_unmarked {d : Doc} (h : d.Unmarked) :
    d.walkedMarks? = some d.markBreaks.groupMarks := by
  rw [walkedMarks?, breakWalk?_eq_some, Option.map_some,
    marksAt_eq d [] h fun p => by
      rw [List.nil_append]
      exact mem_brokenFrom_nil]

/-- The walk over a document comes to its end without popping an empty stack. The groups that
it finds are those outside suffixes below which a break is reached, not counting what is inside
a suffix; so a group with one of them in it is one of them itself. They are the groups that
rendering takes as marked. -/
theorem breaking_groups_found (d : Doc) :
    ∃ broken, d.breakWalk? = some broken ∧
      (∀ place, place ∈ broken ↔ ∃ marked contents, d.reach? place = some (.group marked contents) ∧
        ∃ below, contents.reach? below = some .breakParent) ∧
      (∀ place below, place ++ below ∈ broken →
        (∃ marked contents, d.reach? place = some (.group marked contents)) → place ∈ broken) ∧
      (d.Unmarked → d.walkedMarks? = some d.markBreaks.groupMarks) := by
  refine ⟨d.brokenFrom [], breakWalk?_eq_some d, fun _ => mem_brokenFrom_nil, ?_,
    walkedMarks?_of_unmarked⟩
  · rintro place below hbelow ⟨marked, contents, hgroup⟩
    obtain ⟨_, inner, hinner, last, hbreak⟩ := mem_brokenFrom_nil.mp hbelow
    refine mem_brokenFrom_nil.mpr ⟨marked, contents, hgroup, ?_⟩
    rw [reach?_append, hgroup, Option.bind_some] at hinner
    cases below with
    | nil =>
      obtain ⟨-, rfl⟩ := Doc.group.inj (Option.some.inj hinner)
      exact ⟨last, hbreak⟩
    | cons i below =>
      obtain ⟨f, hf, hinner⟩ := reach?_cons.mp hinner
      obtain ⟨-, rfl⟩ := getElem?_single.mp hf
      exact ⟨below ++ 0 :: last, by
        rw [reach?_append, hinner]
        exact hbreak⟩

/-- A group that breaks because of another one in a state of a choice, and a group in a suffix. -/
def brokenTwice : Doc :=
  .concat [.group false (.choice ["a", .indent (.group false hardline)]),
    .suffix (.group false hardline)]

/-- The two groups that a break is reached below are found, and the one in the suffix is not. -/
theorem breaking_groups_found_brokenTwice :
    brokenTwice.Unmarked ∧ ∃ broken, brokenTwice.breakWalk? = some broken ∧
      [0, 0, 1, 0] ∈ broken ∧ [0] ∈ broken ∧ [1, 0] ∉ broken ∧
      brokenTwice.walkedMarks? = some [true, true, false] := by
  have hunmarked : brokenTwice.Unmarked := by simp [Unmarked, brokenTwice, groupMarks,
    groupMarksAll, hardline]
  obtain ⟨broken, hwalk, hfound, haround, hmarks⟩ := breaking_groups_found brokenTwice
  have hinner : [0, 0, 1, 0] ∈ broken := (hfound _).mpr ⟨false, hardline, rfl, [1], rfl⟩
  refine ⟨hunmarked, broken, hwalk, hinner, ?_, ?_, hmarks hunmarked⟩
  · exact haround [0] [0, 1, 0] hinner ⟨false, _, rfl⟩
  · intro hsuffix
    obtain ⟨_, _, hreach, -⟩ := (hfound _).mp hsuffix
    cases hreach

/-- Of a group in a suffix it is not true that it is found if it holds a break. -/
theorem suffixed_group_left_out : ¬∀ d : Doc, ∃ broken, d.breakWalk? = some broken ∧
    ∀ place marked contents, d.at? place = some (.group marked contents) →
      (place ∈ broken ↔ ∃ below, contents.reach? below = some .breakParent) := by
  intro h
  obtain ⟨broken, hwalk, hfound⟩ := h (.suffix (.group false hardline))
  obtain rfl : [] = broken := Option.some.inj hwalk
  exact List.not_mem_nil ((hfound [0] false hardline rfl).mpr ⟨[1], rfl⟩)

end JavaFormat.Doc
