import JavaFormat.Proofs.Layout.Verbatim

/-!
# What is seen of a stretch of a script

A stretch of a script is printed with the comments in it that are not put off, and with
those that have waited for a break in it, wherever that break is: inside a leaf, or inside
another comment. `Mingled` says what is seen of it then: the characters of the leaves in
their order, with whole comments in between, in which others may stand in turn.
-/

namespace JavaFormat

/-- Characters `xs` in their order with what is seen of the comments `cs` in between, in which
others of the comments may stand in turn. -/
inductive Mingled : List Char → Multiset Comment → List Char → Prop
  | done : Mingled [] 0 []
  | char {xs cs ys} (x : Char) (h : Mingled xs cs ys) : Mingled (x :: xs) cs (x :: ys)
  | comment {xs cs₁ cs₂ ys zs} (c : Comment) (hc : Mingled (Text.visible c.text) cs₁ zs)
    (h : Mingled xs cs₂ ys) : Mingled xs (c ::ₘ (cs₁ + cs₂)) (zs ++ ys)

section Mingled

variable {xs xs' ys ys' zs : List Char} {cs cs' : Multiset Comment}

/-- Characters without comments. -/
theorem mingled_self (xs : List Char) : Mingled xs 0 xs := by
  induction xs with
  | nil => exact .done
  | cons x xs ih => exact .char x ih

/-- Two minglings, one behind the other. -/
theorem Mingled.append (h : Mingled xs cs ys) (h' : Mingled xs' cs' ys') :
    Mingled (xs ++ xs') (cs + cs') (ys ++ ys') := by
  induction h with
  | done => simpa using h'
  | char x _ ih => exact .char x ih
  | comment c hc _ _ ih =>
    rw [List.append_assoc, Multiset.cons_add, add_assoc]
    exact .comment c hc ih

/-- More comments come in somewhere, inside another comment or not. -/
theorem Mingled.insert (h : Mingled xs cs ys) (hzs : Mingled [] cs' zs) {ys₁ ys₂ : List Char}
    (hys : ys = ys₁ ++ ys₂) : Mingled xs (cs + cs') (ys₁ ++ (zs ++ ys₂)) := by
  induction h generalizing ys₁ ys₂ with
  | done =>
    obtain ⟨rfl, rfl⟩ := List.append_eq_nil_iff.mp hys.symm
    simpa using hzs
  | @char xs cs ys x h ih =>
    rcases List.cons_eq_append_iff.mp hys with ⟨rfl, rfl⟩ | ⟨ys₃, rfl, rfl⟩
    · rw [add_comm]
      exact hzs.append (.char x h)
    · exact .char x (ih rfl)
  | @comment xs cs₁ cs₂ ys us c hc h ihc ih =>
    rcases List.append_eq_append_iff.mp hys with ⟨vs, rfl, rfl⟩ | ⟨vs, rfl, rfl⟩
    · have hbehind := Mingled.comment c hc (ih rfl)
      rwa [← add_assoc, ← Multiset.cons_add, ← List.append_assoc] at hbehind
    · have hinside := Mingled.comment c (ihc rfl) h
      rw [add_right_comm, ← Multiset.cons_add] at hinside
      simpa using hinside

end Mingled

namespace Layout

open Doc

/-- The comments of remarks. -/
abbrev commentsOf (cs : Multiset Remark) : Multiset Comment := cs.map Remark.comment

/-- What is seen of leaves and comments with spaces and breaks between them. -/
theorem Woven.mingled {ls : List String} {cs : Multiset Remark} {gs : List Glyph}
    (h : Woven ls cs gs) :
    Mingled (ls.flatMap Text.visible) (commentsOf cs) (visible (readOff gs)) := by
  induction h with
  | done => exact .done
  | gap _ ih | stop _ ih => simpa [Glyph.reading] using ih
  | blank _ ih => simpa [Glyph.reading] using ih
  | leaf s hspells _ ih =>
    rw [readOff_append, visible_append, hspells.readOff, visible_inked, List.flatMap_cons]
    simpa using (mingled_self (Text.visible s)).append ih
  | comment a ha _ ih =>
    rw [readOff_append, visible_append, visible_of_scripts ha, commentsOf, Multiset.map_cons]
    simpa using Mingled.comment a.comment (mingled_self (Text.visible a.comment.text)) ih

/-! ## Stretches of a script -/

/-- Comments that wait, with their glyphs. -/
structure Backlog where
  remarks : List Remark
  glyphs : List Glyph
  waits : Waits remarks glyphs

namespace Backlog

/-- Nothing waits. -/
def empty : Backlog := ⟨[], [], .nil⟩

/-- One more comment waits. -/
def push (s : Backlog) {a : Remark} {gs : List Glyph} (ha : PutOff a gs) : Backlog :=
  ⟨s.remarks ++ [a], s.glyphs ++ gs, s.waits.concat ha⟩

end Backlog

/-- The stretch `q` of a script, in front of `rest`, is printed as the glyphs `r`. With the
comments that waited in front of it and those in it, `cs`, these print the comments `bs` and leave
the others to wait. -/
structure Settles (s : Backlog) (q rest : List Cue) (cs : Multiset Remark) (r : List Glyph)
    (bs : Multiset Remark) (s' : Backlog) : Prop where
  settle : settle s.glyphs (q ++ rest) = r ++ settle s'.glyphs rest
  share : bs + s'.remarks = s.remarks + cs

/-- A stretch without leaves in which a comment is printed: it is not put off, or there is a
break behind it. -/
inductive Brings (a : Remark) : Multiset Remark → List Cue → Prop
  | here {cs₁ cs₂ cs₃ q₁ gs q₂} (h₁ : Stitched [] cs₁ q₁) (hgs : Woven [] cs₂ gs) (ha : a ∈ cs₂)
    (h₂ : Stitched [] cs₃ q₂) : Brings a (cs₁ + (cs₂ + cs₃)) (q₁ ++ (prompt gs ++ q₂))
  | flushed {cs₁ cs₂ q₁ q₂} (h₁ : Stitched [] cs₁ q₁) (ha : a ∈ cs₁) (h₂ : Stitched [] cs₂ q₂) :
    Brings a (cs₁ + cs₂) (q₁ ++ .now .stop :: q₂)

section Settles

variable {s s₁ s₂ : Backlog} {q q₁ q₂ rest : List Cue} {cs cs₁ cs₂ bs bs₁ bs₂ : Multiset Remark}
  {r r₁ r₂ : List Glyph} {ls : List String} {a : Remark}

/-- Two stretches stand one after the other. -/
theorem Settles.append (h₁ : Settles s q₁ (q₂ ++ rest) cs₁ r₁ bs₁ s₁)
    (h₂ : Settles s₁ q₂ rest cs₂ r₂ bs₂ s₂) :
    Settles s (q₁ ++ q₂) rest (cs₁ + cs₂) (r₁ ++ r₂) (bs₁ + bs₂) s₂ where
  settle := by rw [List.append_assoc, h₁.settle, h₂.settle, List.append_assoc]
  share := by rw [add_assoc, h₂.share, ← add_assoc, h₁.share, add_assoc]

/-- The comments that are settled may be counted in another way. -/
theorem Settles.congr (h : Settles s q rest cs₁ r bs s₁) (hcs : cs₁ = cs₂) :
    Settles s q rest cs₂ r bs s₁ := hcs ▸ h

/-- What is printed comes from the comments that waited and those of the stretch. -/
theorem Settles.mem_or_mem (h : Settles s q rest cs r bs s₁) (ha : a ∈ bs) :
    a ∈ s.remarks ∨ a ∈ cs := by
  have hall : a ∈ (s.remarks : Multiset Remark) + cs :=
    h.share ▸ Multiset.mem_add.mpr (.inl ha)
  exact (Multiset.mem_add.mp hall).imp_left Multiset.mem_coe.mp

/-- All that waited is printed with the first break, and nothing waits behind it. -/
theorem exists_settles_stop (s : Backlog) (rest : List Cue) :
    ∃ r, Settles s [.now .stop] rest 0 r s.remarks .empty ∧
      Mingled [] (commentsOf s.remarks) (visible (readOff r)) := by
  refine ⟨s.glyphs ++ [.stop], ⟨?_, rfl⟩, ?_⟩
  · rw [List.singleton_append, settle_of_isBreak (.inl rfl : Glyph.stop.IsBreak)]
    simp [Backlog.empty]
  · simpa [Glyph.reading] using s.waits.woven.mingled

/-- What stands in one place is printed with all of its comments, and with what has waited for the
first break in it. -/
theorem Woven.exists_settles {gs : List Glyph} (h : Woven ls cs gs) (s : Backlog)
    (rest : List Cue) :
    ∃ r, ∃ bs : Multiset Remark, ∃ s', Settles s (prompt gs) rest cs r (cs + bs) s' ∧
      Mingled (ls.flatMap Text.visible) (commentsOf (cs + bs)) (visible (readOff r)) := by
  rcases settle_prompt_cases gs s.glyphs rest with hgs | ⟨gs₁, g, gs₂, rfl, -, -, hgs⟩
  · exact ⟨gs, 0, s, ⟨hgs, by rw [add_zero, add_comm]⟩, by simpa using h.mingled⟩
  · refine ⟨gs₁ ++ (s.glyphs ++ g :: gs₂), s.remarks, .empty, ⟨hgs.trans ?_, ?_⟩, ?_⟩
    · simp [Backlog.empty]
    · rw [add_comm cs]
      exact add_zero _
    · have hsplit : visible (readOff (gs₁ ++ g :: gs₂)) =
          visible (readOff gs₁) ++ visible (readOff (g :: gs₂)) := by
        rw [readOff_append, visible_append]
      have hall := h.mingled.insert s.waits.woven.mingled hsplit
      simpa only [readOff_append, visible_append, commentsOf, Multiset.map_add] using hall

/-- What is seen of a stretch: its leaves, with some of the comments in it and of those that
waited; the others wait behind it. -/
theorem Stitched.exists_settles (h : Stitched ls cs q) (s : Backlog) (rest : List Cue) :
    ∃ r bs s', Settles s q rest cs r bs s' ∧
      Mingled (ls.flatMap Text.visible) (commentsOf bs) (visible (readOff r)) := by
  induction h generalizing s with
  | done => exact ⟨[], 0, s, ⟨rfl, by simp⟩, .done⟩
  | @plain ls₁ ls₂ cs gs q hgs _ ih =>
    obtain ⟨r₁, bs₁, s₁, h₁, hm₁⟩ := hgs.exists_settles s (q ++ rest)
    obtain ⟨r₂, bs₂, s₂, h₂, hm₂⟩ := ih s₁
    refine ⟨r₁ ++ r₂, _, s₂, (h₁.append h₂).congr (zero_add cs), ?_⟩
    rw [List.flatMap_append, readOff_append, visible_append, commentsOf, Multiset.map_add]
    exact hm₁.append hm₂
  | @comment ls cs gs q a ha _ _ ih =>
    have hone : Woven [] {a} gs := by simpa using Woven.comment a ha .done
    obtain ⟨r₁, bs₁, s₁, h₁, hm₁⟩ := hone.exists_settles s (q ++ rest)
    obtain ⟨r₂, bs₂, s₂, h₂, hm₂⟩ := ih s₁
    refine ⟨r₁ ++ r₂, _, s₂, (h₁.append h₂).congr (Multiset.singleton_add a cs), ?_⟩
    rw [readOff_append, visible_append, commentsOf, Multiset.map_add]
    exact hm₁.append hm₂
  | @later ls cs gs q a ha _ ih =>
    obtain ⟨r, bs, s', h, hm⟩ := ih (s.push ha)
    refine ⟨r, bs, s', ⟨h.settle, h.share.trans ?_⟩, hm⟩
    rw [Backlog.push, ← Multiset.coe_add, add_assoc]
    rfl

/-- The comments around one may be counted in another way. -/
theorem Brings.congr (h : Brings a cs₁ q) (hcs : cs₁ = cs₂) : Brings a cs₂ q := hcs ▸ h

/-- The comment is among those that are seen of the stretch. A comment of a stretch is printed at
once, or it has waited for the break. -/
theorem Brings.exists_settles (h : Brings a cs q) (s : Backlog) (rest : List Cue) :
    ∃ r bs s', Settles s q rest cs r bs s' ∧ Mingled [] (commentsOf bs) (visible (readOff r)) ∧
      a ∈ bs := by
  cases h with
  | @here cs₁ cs₂ cs₃ q₁ gs q₂ h₁ hgs ha h₂ =>
    obtain ⟨r₁, bs₁, s₁, hs₁, hm₁⟩ := h₁.exists_settles s (prompt gs ++ q₂ ++ rest)
    obtain ⟨r₂, bs₂, s₂, hs₂, hm₂⟩ := hgs.exists_settles s₁ (q₂ ++ rest)
    obtain ⟨r₃, bs₃, s₃, hs₃, hm₃⟩ := h₂.exists_settles s₂ rest
    refine ⟨_, _, s₃, hs₁.append (hs₂.append hs₃), ?_, by simp [ha]⟩
    simp only [readOff_append, visible_append, commentsOf, Multiset.map_add] at hm₂ ⊢
    exact hm₁.append (hm₂.append hm₃)
  | @flushed cs₁ cs₂ q₁ q₂ h₁ ha h₂ =>
    obtain ⟨r₁, bs₁, s₁, hs₁, hm₁⟩ := h₁.exists_settles s ([.now .stop] ++ q₂ ++ rest)
    obtain ⟨r₂, hs₂, hm₂⟩ := exists_settles_stop s₁ (q₂ ++ rest)
    obtain ⟨r₃, bs₃, s₃, hs₃, hm₃⟩ := h₂.exists_settles .empty rest
    refine ⟨_, _, s₃, (hs₁.append (hs₂.append hs₃)).congr (by rw [zero_add]), ?_, ?_⟩
    · simp only [readOff_append, visible_append, commentsOf, Multiset.map_add]
      exact hm₁.append (hm₂.append hm₃)
    · have hall : a ∈ bs₁ + s₁.remarks := hs₁.share ▸ Multiset.mem_add.mpr (.inr ha)
      rw [← add_assoc]
      exact Multiset.mem_add.mpr (.inl hall)

end Settles

/-- What a stretch puts off are comments of the stretch. -/
theorem Stitched.putOff {ls : List String} {cs : Multiset Remark} {q : List Cue}
    (h : Stitched ls cs q) {gs : List Glyph} (hgs : .later gs ∈ q) : ∃ a ∈ cs, PutOff a gs := by
  induction h with
  | done => cases hgs
  | plain _ _ ih =>
    rcases List.mem_append.mp hgs with hgs | hgs
    · simp [prompt] at hgs
    · exact ih hgs
  | comment a _ _ _ ih =>
    rcases List.mem_append.mp hgs with hgs | hgs
    · simp [prompt] at hgs
    · obtain ⟨b, hb, hput⟩ := ih hgs
      exact ⟨b, Multiset.mem_cons_of_mem hb, hput⟩
  | later a ha _ ih =>
    rcases List.mem_cons.mp hgs with heq | hgs
    · obtain rfl := Cue.later.inj heq
      exact ⟨a, Multiset.mem_cons_self a _, ha⟩
    · obtain ⟨b, hb, hput⟩ := ih hgs
      exact ⟨b, Multiset.mem_cons_of_mem hb, hput⟩

/-- Wherever a script has got to, what waits are comments that it has put off. -/
theorem exists_backlog {P : Remark → Prop} {q : List Cue}
    (h : ∀ gs, .later gs ∈ q → ∃ a, P a ∧ PutOff a gs) (s : Backlog) (hs : ∀ a ∈ s.remarks, P a)
    (rest : List Cue) :
    ∃ r, ∃ s' : Backlog, settle s.glyphs (q ++ rest) = r ++ settle s'.glyphs rest ∧
      ∀ a ∈ s'.remarks, P a := by
  induction q generalizing s with
  | nil => exact ⟨[], s, rfl, hs⟩
  | cons cue q ih =>
    have hlater : ∀ gs, .later gs ∈ q → ∃ a, P a ∧ PutOff a gs :=
      fun gs hgs => h gs (List.mem_cons_of_mem cue hgs)
    cases cue with
    | now g =>
      by_cases hg : g.IsBreak
      · obtain ⟨r, s', hr, hs'⟩ := ih hlater .empty (by simp [Backlog.empty])
        refine ⟨s.glyphs ++ g :: r, s', ?_, hs'⟩
        rw [List.cons_append, settle_of_isBreak hg, List.append_assoc]
        exact congrArg (s.glyphs ++ g :: ·) hr
      · obtain ⟨r, s', hr, hs'⟩ := ih hlater s hs
        refine ⟨g :: r, s', ?_, hs'⟩
        rw [List.cons_append, settle_of_not_isBreak hg, hr]
        rfl
    | later gs =>
      obtain ⟨a, ha, hput⟩ := h gs List.mem_cons_self
      exact ih hlater (s.push hput)
        (List.forall_mem_append.mpr ⟨hs, List.forall_mem_singleton.mpr ha⟩)

/-- What is seen of the output is what is seen of the glyphs. -/
theorem seen_of_emits {gs : List Glyph} {out : List Char} (h : Emits [] gs out) :
    Text.seen out.reverse = visible (readOff gs) := by
  have hempty : Closed [] := by simp [Closed]
  obtain ⟨more, rfl, hseen⟩ := exists_behind [] hempty h
  have hnone : Text.seen [] = [] := rfl
  rw [List.append_nil, Text.seen_reverse, hseen, hnone, List.append_nil, List.reverse_reverse]

end Layout

end JavaFormat
