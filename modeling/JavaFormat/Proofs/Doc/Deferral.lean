import JavaFormat.Proofs.Doc.Machine
import Mathlib.Data.List.Flatten
import Mathlib.Data.List.Perm.Basic

/-!
# The order in which texts are printed

Every text of a document is printed once. A text inside suffixes waits for line breaks,
once for every suffix around it, so it may come out behind texts that stand after it in
the document. `Deferred` says how far the order can change: the next text that is
printed has only deeper ones in front of it, where the depth of a text is the number of
suffixes around it. In particular the texts outside suffixes keep their order.

The commands on the stack need not be of one depth: those that come out of suffixes
stand above a break that is certain to be taken, and the commands from this break on are
less deep. `Layered` is that shape, and every move keeps it.
-/

namespace JavaFormat

namespace Text

/-- Whether a character separates texts: a space, a tab or a line feed. -/
def isGap (c : Char) : Bool := isPadding c || c == '\n'

/-- The characters of a text but for spaces, tabs and line feeds. -/
def marks (s : String) : List Char := s.toList.filter fun c => !isGap c

end Text

namespace Doc

/-- A text of a document. -/
structure Strand where
  /-- The number of suffixes around it. -/
  depth : Nat
  text : String
deriving DecidableEq, Repr

mutual

/-- Whether strands are the texts of a document that stands inside `depth` suffixes, in
their order, with a state picked of every choice. -/
def Strands (depth : Nat) : Doc → List Strand → Prop
  | .text s, ts => ts = [⟨depth, s⟩]
  | .concat parts, ts => StrandsAll depth parts ts
  | .group _ contents, ts => Strands depth contents ts
  | .choice states, ts => StrandsAny depth states ts
  | .indent contents, ts => Strands depth contents ts
  | .fill parts, ts => StrandsAll depth parts ts
  | .line _, ts => ts = []
  | .suffix contents, ts => Strands (depth + 1) contents ts
  | .breakParent, ts => ts = []

/-- Whether strands are the texts of documents that stand one after the other. -/
def StrandsAll (depth : Nat) : List Doc → List Strand → Prop
  | [], ts => ts = []
  | d :: ds, ts => ∃ us vs, Strands depth d us ∧ StrandsAll depth ds vs ∧ ts = us ++ vs

/-- Whether strands are the texts of one of several documents. -/
def StrandsAny (depth : Nat) : List Doc → List Strand → Prop
  | [], _ => False
  | d :: ds, ts => Strands depth d ts ∨ StrandsAny depth ds ts

end

attribute [simp] Strands StrandsAll StrandsAny

section Strands

variable {depth : Nat} {ds es : List Doc} {ts : List Strand}

/-- The strands of a state are strands of the choice. -/
theorem strandsAny_of_mem {d : Doc} (hd : d ∈ ds) (h : d.Strands depth ts) :
    StrandsAny depth ds ts := by
  induction ds with
  | nil => cases hd
  | cons e es ih =>
    rcases List.mem_cons.mp hd with rfl | hd
    · exact Or.inl h
    · exact Or.inr (ih hd)

/-- The strands of two lists of documents are those of the first and those of the
second. -/
theorem strandsAll_append : StrandsAll depth (ds ++ es) ts ↔
    ∃ us vs, StrandsAll depth ds us ∧ StrandsAll depth es vs ∧ ts = us ++ vs := by
  induction ds generalizing ts with
  | nil => simp
  | cons d ds ih =>
    simp only [List.cons_append, StrandsAll, ih]
    constructor
    · rintro ⟨us, vs, hu, ⟨vs₁, vs₂, h₁, h₂, rfl⟩, rfl⟩
      exact ⟨us ++ vs₁, vs₂, ⟨us, vs₁, hu, h₁, rfl⟩, h₂, (List.append_assoc ..).symm⟩
    · rintro ⟨us, vs₂, ⟨us₁, vs₁, hu, h₁, rfl⟩, h₂, rfl⟩
      exact ⟨us₁, vs₁ ++ vs₂, hu, ⟨vs₁, vs₂, h₁, h₂, rfl⟩, List.append_assoc ..⟩

mutual

/-- A strand is as deep as its document at least. -/
theorem Strands.le_depth : ∀ {d : Doc} {depth : Nat} {ts : List Strand}, d.Strands depth ts →
    ∀ t ∈ ts, depth ≤ t.depth
  | .text s, depth, ts, h, t, ht => by
    obtain rfl : ts = [⟨depth, s⟩] := h
    obtain rfl := List.mem_singleton.mp ht
    exact Nat.le_refl _
  | .concat _, _, _, h, t, ht => StrandsAll.le_depth h t ht
  | .group _ contents, _, _, h, t, ht => Strands.le_depth (d := contents) h t ht
  | .choice _, _, _, h, t, ht => StrandsAny.le_depth h t ht
  | .indent contents, _, _, h, t, ht => Strands.le_depth (d := contents) h t ht
  | .fill _, _, _, h, t, ht => StrandsAll.le_depth h t ht
  | .line _, _, ts, h, t, ht => by
    obtain rfl : ts = [] := h
    cases ht
  | .suffix contents, _, _, h, t, ht =>
    Nat.le_of_succ_le (Strands.le_depth (d := contents) h t ht)
  | .breakParent, _, ts, h, t, ht => by
    obtain rfl : ts = [] := h
    cases ht

/-- The strands of a list are at least as deep as the list. -/
theorem StrandsAll.le_depth : ∀ {ds : List Doc} {depth : Nat} {ts : List Strand},
    StrandsAll depth ds ts → ∀ t ∈ ts, depth ≤ t.depth
  | [], _, ts, h, t, ht => by
    obtain rfl : ts = [] := h
    cases ht
  | d :: ds, _, _, h, t, ht => by
    obtain ⟨us, vs, hu, hv, rfl⟩ := h
    rcases List.mem_append.mp ht with ht | ht
    · exact Strands.le_depth hu t ht
    · exact StrandsAll.le_depth hv t ht

/-- The strands of one of several documents are at least as deep as these. -/
theorem StrandsAny.le_depth : ∀ {ds : List Doc} {depth : Nat} {ts : List Strand},
    StrandsAny depth ds ts → ∀ t ∈ ts, depth ≤ t.depth
  | [], _, _, h, _, _ => h.elim
  | d :: ds, _, _, h, t, ht => by
    rcases h with h | h
    · exact Strands.le_depth h t ht
    · exact StrandsAny.le_depth h t ht

end

mutual

/-- Marking groups changes no strands. -/
theorem strands_markBreaks : ∀ (d : Doc) {depth : Nat} {ts : List Strand},
    d.markBreaks.Strands depth ts ↔ d.Strands depth ts
  | .text _, _, _ => Iff.rfl
  | .concat parts, _, _ => by simpa [markBreaks] using strandsAll_markBreaksAll parts
  | .group _ contents, _, _ => by simpa [markBreaks] using strands_markBreaks contents
  | .choice states, _, _ => by simpa [markBreaks] using strandsAny_markBreaksAll states
  | .indent contents, _, _ => by simpa [markBreaks] using strands_markBreaks contents
  | .fill parts, _, _ => by simpa [markBreaks] using strandsAll_markBreaksAll parts
  | .line _, _, _ => Iff.rfl
  | .suffix _, _, _ => Iff.rfl
  | .breakParent, _, _ => Iff.rfl

/-- Marking the groups of a list changes no strands. -/
theorem strandsAll_markBreaksAll : ∀ (ds : List Doc) {depth : Nat} {ts : List Strand},
    StrandsAll depth (markBreaksAll ds) ts ↔ StrandsAll depth ds ts
  | [], _, _ => Iff.rfl
  | d :: ds, _, _ => by
    simp only [markBreaksAll, StrandsAll, strands_markBreaks d, strandsAll_markBreaksAll ds]

/-- Marking the groups of several documents changes no strands of one of them. -/
theorem strandsAny_markBreaksAll : ∀ (ds : List Doc) {depth : Nat} {ts : List Strand},
    StrandsAny depth (markBreaksAll ds) ts ↔ StrandsAny depth ds ts
  | [], _, _ => Iff.rfl
  | d :: ds, _, _ => by
    simp only [markBreaksAll, StrandsAny, strands_markBreaks d, strandsAny_markBreaksAll ds]

end

/-- The strands of the commands in the place of a command are strands of the command. -/
theorem Expansion.strands {c : Command} {cs : List Command} (h : Expansion c cs)
    (hts : StrandsAll depth (cs.map Command.doc) ts) : c.doc.Strands depth ts := by
  cases h with
  | @concat l m ds =>
    have hdocs : (ds.map (⟨l, m, ·⟩ : Doc → Command)).map Command.doc = ds := by
      simp [Function.comp_def]
    rw [hdocs] at hts
    exact hts
  | choice hd m' =>
    obtain ⟨us, vs, hu, rfl, rfl⟩ := hts
    rw [List.append_nil]
    exact strandsAny_of_mem hd hu
  | fillMore m₁ m₂ =>
    obtain ⟨us₁, vs₁, h₁, ⟨us₂, vs₂, h₂, ⟨us₃, vs₃, h₃, rfl, rfl⟩, rfl⟩, rfl⟩ := hts
    rw [List.append_nil]
    exact ⟨us₁, us₂ ++ us₃, h₁, ⟨us₂, us₃, h₂, h₃, rfl⟩, rfl⟩
  | group marked m' =>
    obtain ⟨us, vs, hu, rfl, rfl⟩ := hts
    rw [List.append_nil]
    exact hu
  | indent =>
    obtain ⟨us, vs, hu, rfl, rfl⟩ := hts
    rw [List.append_nil]
    exact hu
  | _ => exact hts

end Strands

/-! ## What may come out behind what -/

/-- The second list has the elements of the first, each taken out when only deeper ones
are left in front of it. -/
inductive Deferred {α : Type} (depth : α → Nat) : List α → List α → Prop
  | done : Deferred depth [] []
  | print {before x after out} (hbefore : ∀ y ∈ before, depth x < depth y)
    (h : Deferred depth (before ++ after) out) : Deferred depth (before ++ x :: after) (x :: out)

section Deferred

variable {α β : Type} {depth : α → Nat} {xs ys : List α}

/-- What is deferred is a permutation. -/
theorem Deferred.perm (h : Deferred depth xs ys) : ys.Perm xs := by
  induction h with
  | done => exact .refl _
  | @print before x after out _ _ ih =>
    have hmiddle : (before ++ x :: after).Perm (x :: (before ++ after)) := List.perm_middle
    exact (ih.cons x).trans hmiddle.symm

/-- Of two elements, the one that comes out first was in front, or it is less deep. -/
theorem Deferred.pairwise {r : α → α → Prop} (h : Deferred depth xs ys) (hxs : xs.Pairwise r) :
    ys.Pairwise fun x y => r x y ∨ depth x < depth y := by
  induction h with
  | done => exact .nil
  | @print before x after out hbefore hrest ih =>
    have hkept : (before ++ after).Pairwise r := by
      refine hxs.sublist ?_
      exact (List.sublist_cons_self x after).append_left before
    refine List.pairwise_cons.mpr ⟨fun y hy => ?_, ih hkept⟩
    rcases List.mem_append.mp (hrest.perm.mem_iff.mp hy) with hy | hy
    · exact Or.inr (hbefore y hy)
    · obtain ⟨-, htail, -⟩ := List.pairwise_append.mp hxs
      exact Or.inl (List.rel_of_pairwise_cons htail hy)

/-- Elements that go by what they are mapped to come out as what they are mapped to
does. -/
theorem Deferred.exists_of_map {f : β → α} {zs : List β} (h : Deferred depth xs ys)
    (hzs : zs.map f = xs) : ∃ ws, Deferred (depth ∘ f) zs ws ∧ ws.map f = ys := by
  induction h generalizing zs with
  | done =>
    obtain rfl := List.map_eq_nil_iff.mp hzs
    exact ⟨[], .done, rfl⟩
  | print hbefore _ ih =>
    obtain ⟨before, rest, rfl, rfl, hrest⟩ := List.map_eq_append_iff.mp hzs
    obtain ⟨z, after, rfl, rfl, rfl⟩ := List.map_eq_cons_iff.mp hrest
    obtain ⟨ws, hws, rfl⟩ := ih List.map_append
    exact ⟨z :: ws, .print (fun y hy => hbefore _ (List.mem_map_of_mem hy)) hws, rfl⟩

end Deferred

/-! ## Stacks of several depths -/

/-- A stack whose commands are as deep as the number they stand with, `depth` at the
top; where the depth falls, it does so at a break that will be taken. -/
def Layered (depth : Nat) : List (Nat × Command) → Prop
  | [] => True
  | (k, c) :: cs => (k = depth ∨ k < depth ∧ c.IsCertain) ∧ Layered k cs

/-- Commands of the same depth put on a stack. -/
theorem Layered.append {depth : Nat} {cs : List (Nat × Command)} (h : Layered depth cs)
    (ds : List Command) : Layered depth (ds.map (depth, ·) ++ cs) := by
  induction ds with
  | nil => exact h
  | cons d ds ih => exact ⟨Or.inl rfl, ih⟩

/-- Whether strands are the texts of the commands on a stack. -/
def StackStrands : List (Nat × Command) → List Strand → Prop
  | [], ts => ts = []
  | (k, c) :: cs, ts => ∃ us vs, c.doc.Strands k us ∧ StackStrands cs vs ∧ ts = us ++ vs

/-- The strands of a stack are those of its top and of what is below. -/
theorem stackStrands_append {depth : Nat} {ds : List Command} {cs : List (Nat × Command)}
    {ts : List Strand} : StackStrands (ds.map (depth, ·) ++ cs) ts ↔
      ∃ us vs, StrandsAll depth (ds.map Command.doc) us ∧ StackStrands cs vs ∧ ts = us ++ vs := by
  induction ds generalizing ts with
  | nil => simp
  | cons d ds ih =>
    simp only [List.map_cons, List.cons_append, StackStrands, StrandsAll, ih]
    constructor
    · rintro ⟨us, vs, hu, ⟨vs₁, vs₂, h₁, h₂, rfl⟩, rfl⟩
      exact ⟨us ++ vs₁, vs₂, ⟨us, vs₁, hu, h₁, rfl⟩, h₂, (List.append_assoc ..).symm⟩
    · rintro ⟨us, vs₂, ⟨us₁, vs₁, hu, h₁, rfl⟩, h₂, rfl⟩
      exact ⟨us₁, vs₁ ++ vs₂, hu, ⟨vs₁, vs₂, h₁, h₂, rfl⟩, List.append_assoc ..⟩

/-- Whether strands that come out in the order `out` are left to a state: the suffixes
wait one level deeper than the top of the stack. -/
def Remains (depth : Nat) (cs : List (Nat × Command)) (waiting : List Command)
    (out : List Strand) : Prop :=
  ∃ ws ss, StrandsAll (depth + 1) (waiting.map Command.doc) ws ∧ StackStrands cs ss ∧
    Deferred Strand.depth (ws ++ ss) out

/-- The characters of what is printed, last one first, but for spaces, tabs and line
feeds. -/
def printedMarks (printed : List Char) : List Char :=
  printed.reverse.filter fun c => !Text.isGap c

/-- Printing a text adds the marks of the text. -/
theorem printedMarks_print (s : State) (w : String) :
    printedMarks (s.print w).printed = printedMarks s.printed ++ Text.marks w := by
  simp [printedMarks, State.print, Text.marks]

/-- A space that is printed is no mark. -/
theorem printedMarks_blank (s : State) :
    printedMarks (s.print " ").printed = printedMarks s.printed := by
  have hblank : Text.marks " " = [] := by decide
  rw [printedMarks_print, hblank, List.append_nil]

/-- A new line adds no mark, and what it takes away is none either. -/
theorem printedMarks_breakLine (options : Options) (s : State) (level : Nat) (literal : Bool) :
    printedMarks (s.breakLine options level literal).printed = printedMarks s.printed := by
  have hgap : ∀ c, Text.isPadding c = true → (!Text.isGap c) = false := by
    intro c hc
    simp [Text.isGap, hc]
  have hfeed : Text.isGap '\n' = true := by decide
  simp [printedMarks, List.filter_reverse, filter_printed_breakLine _ _ _ _ hgap, hfeed]

/-- The command on top of a layered stack. -/
theorem Layered.exists_top {depth : Nat} {cs : List (Nat × Command)} {c : Command}
    {rest : List Command} (h : Layered depth cs) (hcs : cs.map Prod.snd = c :: rest) :
    ∃ k ls, cs = (k, c) :: ls ∧ ls.map Prod.snd = rest ∧
      (k = depth ∨ k < depth ∧ c.IsCertain) ∧ Layered k ls := by
  obtain ⟨⟨k, c'⟩, ls, rfl, rfl, hrest⟩ := List.map_eq_cons_iff.mp hcs
  exact ⟨k, ls, rfl, hrest, h.1, h.2⟩

/-- A command on top of a layered stack that is no certain break is as deep as the top. -/
theorem Layered.exists_rest {depth : Nat} {cs : List (Nat × Command)} {c : Command}
    {rest : List Command} (h : Layered depth cs) (hcs : cs.map Prod.snd = c :: rest)
    (hc : ¬c.IsCertain) :
    ∃ ls, cs = (depth, c) :: ls ∧ ls.map Prod.snd = rest ∧ Layered depth ls := by
  obtain ⟨k, ls, rfl, hrest, hk, hls⟩ := h.exists_top hcs
  obtain rfl : k = depth := hk.resolve_right fun hfalls => hc hfalls.2
  exact ⟨ls, rfl, hrest, hls⟩

/-- Strands that are left after a move were left before it, behind what it printed. A break that
sets strands free stays below them, where the depth falls. -/
theorem Move.remains {options : Options} {s s' : State} (hm : Move options s s') {depth : Nat}
    {cs : List (Nat × Command)} (hcs : cs.map Prod.snd = s.stack) (hlayered : Layered depth cs) :
    ∃ depth' cs', cs'.map Prod.snd = s'.stack ∧ Layered depth' cs' ∧
      ∀ out, Remains depth' cs' s'.suffixes out → ∃ out', Remains depth cs s.suffixes out' ∧
        printedMarks s.printed ++ out'.flatMap (fun t => Text.marks t.text) =
          printedMarks s'.printed ++ out.flatMap fun t => Text.marks t.text := by
  cases hm with
  | @expand c new rest hs hc again =>
    obtain ⟨ls, rfl, rfl, hls⟩ := hlayered.exists_rest (hcs.trans hs) hc.not_isCertain
    refine ⟨depth, new.map (depth, ·) ++ ls, by simp [Function.comp_def], hls.append new, ?_⟩
    rintro out ⟨ws, ss, hws, hss, hout⟩
    obtain ⟨us, vs, hu, hv, rfl⟩ := stackStrands_append.mp hss
    exact ⟨out, ⟨ws, us ++ vs, hws, ⟨us, vs, hc.strands hu, hv, rfl⟩, hout⟩, rfl⟩
  | @text l m w rest hs =>
    have hkept : ¬Command.IsCertain ⟨l, m, .text w⟩ := by simp [Command.IsCertain]
    obtain ⟨ls, rfl, rfl, hls⟩ := hlayered.exists_rest (hcs.trans hs) hkept
    refine ⟨depth, ls, rfl, hls, ?_⟩
    rintro out ⟨ws, ss, hws, hss, hout⟩
    have hprinted : Deferred Strand.depth (ws ++ ⟨depth, w⟩ :: ss) (⟨depth, w⟩ :: out) :=
      .print (fun t ht => hws.le_depth t ht) hout
    refine ⟨⟨depth, w⟩ :: out, ⟨ws, ⟨depth, w⟩ :: ss, hws, ⟨_, ss, rfl, hss, rfl⟩, hprinted⟩, ?_⟩
    rw [printedMarks_print, List.flatMap_cons, List.append_assoc]
  | @defer l m d rest hs =>
    have hkept : ¬Command.IsCertain ⟨l, m, .suffix d⟩ := by simp [Command.IsCertain]
    obtain ⟨ls, rfl, rfl, hls⟩ := hlayered.exists_rest (hcs.trans hs) hkept
    refine ⟨depth, ls, rfl, hls, ?_⟩
    rintro out ⟨ws, ss, hws, hss, hout⟩
    rw [List.map_append] at hws
    obtain ⟨us, vs, hu, ⟨vs', _, hv, rfl, rfl⟩, rfl⟩ := strandsAll_append.mp hws
    rw [List.append_nil, List.append_assoc] at hout
    exact ⟨out, ⟨us, vs' ++ ss, hu, ⟨vs', ss, hv, hss, rfl⟩, hout⟩, rfl⟩
  | @glue l style rest hs hh hsoft =>
    have hkept : ¬Command.IsCertain ⟨l, .flat, .line style⟩ := by simp [Command.IsCertain, hh]
    obtain ⟨ls, rfl, rfl, hls⟩ := hlayered.exists_rest (hcs.trans hs) hkept
    refine ⟨depth, ls, rfl, hls, ?_⟩
    rintro out ⟨ws, ss, hws, hss, hout⟩
    exact ⟨out, ⟨ws, ss, hws, ⟨[], ss, rfl, hss, rfl⟩, hout⟩, rfl⟩
  | @blank l style rest hs hh hsoft =>
    have hkept : ¬Command.IsCertain ⟨l, .flat, .line style⟩ := by simp [Command.IsCertain, hh]
    obtain ⟨ls, rfl, rfl, hls⟩ := hlayered.exists_rest (hcs.trans hs) hkept
    refine ⟨depth, ls, rfl, hls, ?_⟩
    rintro out ⟨ws, ss, hws, hss, hout⟩
    refine ⟨out, ⟨ws, ss, hws, ⟨[], ss, rfl, hss, rfl⟩, hout⟩, ?_⟩
    rw [printedMarks_blank]
  | @flush l m style rest hs hb hw again =>
    obtain ⟨k, ls, rfl, rfl, hk, hls⟩ := hlayered.exists_top (hcs.trans hs)
    have htop : Layered (depth + 1) ((k, ⟨l, m, .line style⟩) :: ls) :=
      ⟨Or.inr ⟨by omega, style, rfl, hb⟩, hls⟩
    refine ⟨depth + 1, s.suffixes.map (depth + 1, ·) ++ (k, ⟨l, m, .line style⟩) :: ls,
      by simp [Function.comp_def, hs], htop.append s.suffixes, ?_⟩
    rintro out ⟨_, ss, rfl, hss, hout⟩
    obtain ⟨us, vs, hu, hv, rfl⟩ := stackStrands_append.mp hss
    exact ⟨out, ⟨us, vs, hu, hv, hout⟩, rfl⟩
  | @newline l m style rest hs hb hw again =>
    obtain ⟨k, ls, rfl, rfl, -, hls⟩ := hlayered.exists_top (hcs.trans hs)
    refine ⟨k, ls, by rw [State.breakLine_stack], hls, ?_⟩
    rw [State.breakLine_suffixes, printedMarks_breakLine, hw]
    rintro out ⟨_, ss, rfl, hss, hout⟩
    exact ⟨out, ⟨[], ss, rfl, ⟨[], ss, rfl, hss, rfl⟩, hout⟩, rfl⟩
  | last hs hw =>
    obtain rfl : cs = [] := List.map_eq_nil_iff.mp (hcs.trans hs)
    have hempty : Layered (depth + 1) [] := trivial
    refine ⟨depth + 1, s.suffixes.map (depth + 1, ·) ++ [], by simp [Function.comp_def],
      hempty.append s.suffixes, ?_⟩
    rintro out ⟨_, ss, rfl, hss, hout⟩
    obtain ⟨us, vs, hu, hv, rfl⟩ := stackStrands_append.mp hss
    exact ⟨out, ⟨us, vs, hu, hv, hout⟩, rfl⟩

/-- A run prints the strands that were left to the state it began in. -/
theorem exists_remains {options : Options} {s s' : State}
    (hmoves : Relation.ReflTransGen (Move options) s s') (hstack : s'.stack = [])
    (hsuffixes : s'.suffixes = []) {depth : Nat} {cs : List (Nat × Command)}
    (hcs : cs.map Prod.snd = s.stack) (hlayered : Layered depth cs) :
    ∃ out, Remains depth cs s.suffixes out ∧
      printedMarks s'.printed =
        printedMarks s.printed ++ out.flatMap fun t => Text.marks t.text := by
  induction hmoves using Relation.ReflTransGen.head_induction_on generalizing depth cs with
  | refl =>
    obtain rfl : cs = [] := List.map_eq_nil_iff.mp (hcs.trans hstack)
    rw [hsuffixes]
    exact ⟨[], ⟨[], [], rfl, rfl, .done⟩, by simp⟩
  | head hm _ ih =>
    obtain ⟨depth', cs', hcs', hlayered', hremains⟩ := hm.remains hcs hlayered
    obtain ⟨out, hout, hprinted⟩ := ih hcs' hlayered'
    obtain ⟨out', hout', heq⟩ := hremains out hout
    exact ⟨out', hout', hprinted.trans heq.symm⟩

/-- Nothing is lost and nothing invented: but for spaces, tabs and line feeds the output
is made of the texts of the document, some state being picked of every choice. Each text
is printed once, and of two texts the one printed first stands in front of the other in
the document or is inside fewer suffixes. -/
theorem render_prints_strands (options : Options) {d : Doc} (hd : d.Sound True) :
    ∃ out ts, ∃ printed : List (Strand × Nat), render? options d = some out ∧
      d.Strands 0 ts ∧ printed.Perm ts.zipIdx ∧
      (printed.Pairwise fun x y => x.2 < y.2 ∨ x.1.depth < y.1.depth) ∧
      Text.marks out = printed.flatMap fun x => Text.marks x.1.text := by
  obtain ⟨s, hrender, hmoves, hstack, hsuffixes⟩ := exists_moves options hd
  have hlayered : Layered 0 [(0, ⟨0, .broken, d.markBreaks⟩)] := ⟨Or.inl rfl, trivial⟩
  obtain ⟨out, ⟨_, ts, rfl, ⟨us, _, hu, rfl, rfl⟩, hout⟩, hprinted⟩ :=
    exists_remains hmoves hstack hsuffixes rfl hlayered
  rw [List.append_nil] at hout
  obtain ⟨printed, hdeferred, rfl⟩ := hout.exists_of_map (List.zipIdx_map_fst 0 us)
  have hordered : us.zipIdx.Pairwise fun x y => x.2 < y.2 := by
    rw [← List.pairwise_map (f := Prod.snd), List.zipIdx_map_snd]
    exact List.pairwise_lt_range'
  refine ⟨_, us, printed, hrender, (strands_markBreaks d).mp hu, hdeferred.perm,
    hdeferred.pairwise hordered, ?_⟩
  rw [List.flatMap_map] at hprinted
  simpa [printedMarks, Text.marks, State.initial] using hprinted

/-- A suffix with another one in it. -/
def nestedSuffix : Doc := .suffix (.concat ["a", .suffix "n"])

/-- The three texts of two suffixes, one of them nested, are printed once each. -/
theorem render_prints_strands_nestedSuffix :
    (concat [nestedSuffix, .suffix "b", hardline]).Sound True ∧
      ∃ ts, ∃ printed : List (Strand × Nat),
        render? {} (.concat [nestedSuffix, .suffix "b", hardline]) = some "abn\n" ∧
        (concat [nestedSuffix, .suffix "b", hardline]).Strands 0 ts ∧ printed.Perm ts.zipIdx ∧
        (printed.Pairwise fun x y => x.2 < y.2 ∨ x.1.depth < y.1.depth) ∧
        ['a', 'b', 'n'] = printed.flatMap fun x => Text.marks x.1.text := by
  have hsound : (concat [nestedSuffix, .suffix "b", hardline]).Sound True := by
    simp [nestedSuffix]
  have hrender : render? {} (.concat [nestedSuffix, .suffix "b", hardline]) = some "abn\n" := by
    decide
  obtain ⟨out, ts, printed, hout, hts, hperm, hordered, hmarks⟩ := render_prints_strands {} hsound
  obtain rfl : out = "abn\n" := Option.some.inj (hout.symm.trans hrender)
  exact ⟨hsound, ts, printed, hrender, hts, hperm, hordered, hmarks⟩

/-- Not every text in front of a suffix is printed before what is in the suffix: one that
is deeper may come out behind it. -/
theorem nestedSuffix_printed_behind :
    ¬∃ out ts us vs, ∃ printed : List Strand,
      render? {} (.concat [nestedSuffix, .suffix "b", hardline]) = some out ∧
      nestedSuffix.Strands 0 ts ∧ (text "b").Strands 1 us ∧ hardline.Strands 0 vs ∧
      printed.Perm (ts ++ us ++ vs) ∧ (∀ t ∈ ts, ∀ u ∈ us, [t, u].Sublist printed) ∧
      Text.marks out = printed.flatMap fun t => Text.marks t.text := by
  rintro ⟨out, ts, us, vs, printed, hrender, hts, rfl, -, -, hbefore, hmarks⟩
  obtain rfl : ts = [⟨1, "a"⟩, ⟨2, "n"⟩] := by simpa [nestedSuffix] using hts
  have hout : render? {} (.concat [nestedSuffix, .suffix "b", hardline]) = some "abn\n" := by
    decide
  obtain rfl : out = "abn\n" := Option.some.inj (hrender.symm.trans hout)
  have hsub := (hbefore ⟨2, "n"⟩ (by simp) ⟨1, "b"⟩ (by simp)).flatMap fun t => Text.marks t.text
  rw [← hmarks] at hsub
  exact absurd hsub (by decide)

end Doc

end JavaFormat
