import JavaFormat.Proofs.Layout.Steady

/-!
# Texts in a printed text

A source bears marks if their texts stand in it one behind the other, with white space around
them. In a printed text each of them can stand in one place only, since it begins with no white
space and nothing but white space is put between texts. So there are as many line breaks between
two of them as were printed there (`Source.Bears.heeds`).
-/

namespace JavaFormat

open Layout

/-- A text and where it stands. -/
structure Mark where
  text : String
  span : Span

/-- Marks stand in a text one behind the other, with white space before, between and behind them,
the text being what a source has at an offset. -/
inductive Source.Bears (source : Source) : Nat → List Char → List Mark → Prop
  | done {o} : source.Bears o [] []
  | gap {o c cs ms} (hc : Text.isBlank c = true)
    (h : source.Bears (o + (String.utf8EncodeChar c).length) cs ms) : source.Bears o (c :: cs) ms
  | mark {o m cs ms} (hspan : m.span = source.span o (o + (Text.Utf8.encode m.text).length))
    (h : source.Bears (o + (Text.Utf8.encode m.text).length) cs ms) :
    source.Bears o (m.text.toList ++ cs) (m :: ms)

section Bears

variable {source : Source} {m : Mark} {ms : List Mark} {cs : List Char}

/-- Spacing is blank. -/
theorem isBlank_of_isSpacing {c : Char} (h : isSpacing c) : Text.isBlank c = true := by
  rcases h with rfl | rfl <;> decide

/-- A character of a gap is a byte of its own. -/
theorem exists_gapByte {c : Char} (h : isSpacing c) : ∃ b, String.utf8EncodeChar c = [b] ∧
    Source.isGapByte b = true ∧ [b].count Source.lineFeed = if c = '\n' then 1 else 0 := by
  rcases h with rfl | rfl
  · exact ⟨32, by decide, by decide, by decide⟩
  · exact ⟨10, by decide, by decide, by decide⟩

/-- The last byte of a text that ends visibly is no white space. -/
theorem exists_last_byte_of_endsVisibly {s : String} (h : Text.EndsVisibly s) :
    ∃ front b, Text.Utf8.encode s = front ++ [b] ∧ Text.isBlankByte b = false := by
  obtain ⟨cs, c, hs, hc⟩ := h
  obtain ⟨front, b, hlast, hb⟩ := Text.Utf8.exists_last_byte hc
  refine ⟨cs.flatMap String.utf8EncodeChar ++ front, b, ?_, hb⟩
  rw [Text.Utf8.encode, hs, List.flatMap_append, List.flatMap_singleton, hlast, List.append_assoc]

/-- A mark that is given by its text. -/
theorem Source.Bears.text {o : Nat} {text : String}
    (h : source.Bears (o + (Text.Utf8.encode text).length) cs ms) : source.Bears o
      (text.toList ++ cs) (⟨text, source.span o (o + (Text.Utf8.encode text).length)⟩ :: ms) :=
  .mark (m := ⟨text, source.span o (o + (Text.Utf8.encode text).length)⟩) rfl h

/-- What stands at a space is a gap. -/
theorem Source.Bears.of_spacing {o : Nat} {c : Char} (hc : isSpacing c)
    (h : source.Bears o (c :: cs) ms) (hms : ∀ m ∈ ms, Text.BeginsVisibly m.text) :
    source.Bears (o + (String.utf8EncodeChar c).length) cs ms := by
  generalize hall : c :: cs = all at h
  cases h with
  | done => cases hall
  | gap _ h =>
    obtain ⟨rfl, rfl⟩ := List.cons.inj hall
    exact h
  | mark hspan h =>
    obtain ⟨d, ds, htext, hd⟩ := hms _ List.mem_cons_self
    rw [htext, List.cons_append] at hall
    rw [← (List.cons.inj hall).1, isBlank_of_isSpacing hc] at hd
    cases hd

/-- What stands at a text that begins visibly is the mark with that text. -/
theorem Source.Bears.of_text {o : Nat} {text : String} (htext : Text.BeginsVisibly text)
    (h : source.Bears o (text.toList ++ cs) (m :: ms)) (hm : m.text = text) :
    m.span = source.span o (o + (Text.Utf8.encode text).length) ∧
      source.Bears (o + (Text.Utf8.encode text).length) cs ms := by
  subst hm
  generalize hall : m.text.toList ++ cs = all at h
  cases h with
  | gap hc h =>
    obtain ⟨d, ds, htext, hd⟩ := htext
    rw [htext, List.cons_append] at hall
    rw [(List.cons.inj hall).1, hc] at hd
    cases hd
  | mark hspan h =>
    rw [List.append_cancel_left hall]
    exact ⟨hspan, h⟩

end Bears

/-! ## Behind a text -/

/-- What has the span `t` ends in a source with the byte `b`, which is no white space, and is
followed by a gap of spaces and line feeds. -/
structure Source.Passed (source : Source) (t : Span) (front : List UInt8) (b : UInt8)
    (gap back : List UInt8) : Prop where
  bytes : source.bytes = front ++ [b] ++ gap ++ back
  visible : Text.isBlankByte b = false
  spacing : ∀ c ∈ gap, isGapByte c = true
  stop : t.stop = source.position (front ++ [b]).length

section Passed

variable {source : Source} {t u : Span} {front gap back : List UInt8} {b : UInt8}

/-- What begins behind the gap is as many breaks away as there are line feeds in it. -/
theorem Source.Passed.divides (h : source.Passed t front b gap back)
    (hu : u.start = source.position (front ++ [b] ++ gap).length) :
    source.Divides (some (gap.count lineFeed)) t u := by
  have hsource : source = ⟨front ++ [b] ++ gap ++ back⟩ := by rw [← h.bytes]
  have hfirst : source.bytes = front ++ [b] ++ (gap ++ back) := by
    rw [h.bytes, List.append_assoc (front ++ [b])]
  intro n hn
  obtain rfl := Option.some.inj hn
  constructor
  · have hlines : (front ++ [b] ++ gap).count lineFeed =
        (front ++ [b]).count lineFeed + gap.count lineFeed := List.count_append
    rw [hu, h.stop, line_position hfirst, line_position h.bytes, hlines]
    omega
  · rw [hu, hsource]
    exact blankAbove_position_iff h.visible h.spacing front back

/-- The gap goes on. -/
theorem Source.Passed.more {c : UInt8} (h : source.Passed t front b gap (c :: back))
    (hc : isGapByte c = true) : source.Passed t front b (gap ++ [c]) back where
  bytes := by rw [h.bytes, List.append_cons, List.append_assoc (front ++ [b]) gap]
  visible := h.visible
  spacing := List.forall_mem_append.mpr ⟨h.spacing, List.forall_mem_singleton.mpr hc⟩
  stop := h.stop

/-- A text that ends visibly is passed at its end. -/
theorem exists_passed {text : String} (htext : Text.EndsVisibly text) {before : List UInt8}
    (hbytes : source.bytes = before ++ (Text.Utf8.encode text ++ back))
    (hu : u.stop = source.position (before.length + (Text.Utf8.encode text).length)) :
    ∃ front b, source.Passed u front b [] back ∧
      (front ++ [b] ++ []).length = before.length + (Text.Utf8.encode text).length := by
  obtain ⟨init, last, hlast, hblank⟩ := exists_last_byte_of_endsVisibly htext
  have hlength : (before ++ init ++ [last]).length =
      before.length + (Text.Utf8.encode text).length := by
    rw [hlast, List.append_assoc, List.length_append]
  refine ⟨before ++ init, last, ⟨?_, hblank, by simp, ?_⟩, by rw [List.append_nil, hlength]⟩
  · rw [hbytes, hlast]
    simp
  · rw [hu, hlength]

end Passed

/-! ## Texts of spots -/

section Texts

variable {source : Source} {t : Span} {ms : List Mark} {cs : List Char} {ws : List Spot}
  {back : List UInt8} {n : Nat}

/-- Marks with the texts of spots that begin visibly begin visibly. -/
theorem beginsVisibly_of_map_text (htexts : ms.map Mark.text = ws.map Spot.text)
    (hsolid : ∀ w ∈ ws, Text.Solid w.text) : ∀ m ∈ ms, Text.BeginsVisibly m.text := by
  intro m hm
  have hmem := List.mem_map_of_mem hm (f := Mark.text)
  rw [htexts] at hmem
  obtain ⟨w, hw, heq⟩ := List.mem_map.mp hmem
  rw [← heq]
  exact (hsolid w hw).begins

/-- Behind a text and a gap, marks are as many breaks apart as were printed. -/
theorem Source.Bears.dividesAll {front gap : List UInt8} {b : UInt8}
    (hpassed : source.Passed t front b gap (cs.flatMap String.utf8EncodeChar ++ back))
    (hn : gap.count lineFeed = n) (hbroken : Broken n ws cs)
    (htexts : ms.map Mark.text = ws.map Spot.text) (hsolid : ∀ w ∈ ws, Text.Solid w.text)
    (h : source.Bears (front ++ [b] ++ gap).length cs ms) :
    source.DividesAll t (ws.map Spot.breaks) (ms.map Mark.span) := by
  induction hbroken generalizing t ms front b gap with
  | done =>
    rw [List.map_eq_nil_iff.mp htexts]
    trivial
  | @gap n ws cs c hc _ ih =>
    obtain ⟨byte, hbyte, hspacing, hfeeds⟩ := exists_gapByte hc
    have hrest := h.of_spacing hc (beginsVisibly_of_map_text htexts hsolid)
    rw [List.flatMap_cons, hbyte, List.singleton_append, List.cons_append] at hpassed
    rw [hbyte] at hrest
    refine ih (hpassed.more hspacing) ?_ htexts hsolid ?_
    · rw [List.count_append, hn, hfeeds]
      split <;> rfl
    · rw [← List.append_assoc, List.length_append]
      exact hrest
  | @leaf n ws cs w hw hbroken ih =>
    obtain ⟨m, ms, rfl, hm, htexts⟩ := List.map_eq_cons_iff.mp htexts
    obtain ⟨hsolid, hsolids⟩ := List.forall_mem_cons.mp hsolid
    obtain ⟨hspan, hrest⟩ := h.of_text hsolid.begins hm
    rw [List.flatMap_append, List.append_assoc] at hpassed
    obtain ⟨init, last, hnext, hlength⟩ :=
      exists_passed (u := m.span) hsolid.ends hpassed.bytes (by rw [hspan]; rfl)
    rw [← hlength] at hrest
    refine ⟨fun k hk => ?_, ih hnext rfl htexts hsolids hrest⟩
    obtain rfl : n = k := hw k hk
    rw [← hn]
    exact hpassed.divides (by rw [hspan]; rfl) _ rfl

/-- Marks in a printed text are as many breaks apart as were printed. -/
theorem Source.Bears.heeds {before : List UInt8}
    (hbytes : source.bytes = before ++ (cs.flatMap String.utf8EncodeChar ++ back))
    (hbroken : Broken n ws cs) (htexts : ms.map Mark.text = ws.map Spot.text)
    (hsolid : ∀ w ∈ ws, Text.Solid w.text) (h : source.Bears before.length cs ms) :
    source.Heeds (ws.map Spot.breaks) (ms.map Mark.span) := by
  induction hbroken generalizing before with
  | done =>
    rw [List.map_eq_nil_iff.mp htexts]
    trivial
  | @gap n ws cs c hc _ ih =>
    have hrest := h.of_spacing hc (beginsVisibly_of_map_text htexts hsolid)
    rw [← List.length_append] at hrest
    refine ih ?_ htexts hsolid hrest
    rw [hbytes, List.flatMap_cons]
    simp
  | @leaf n ws cs w hw hbroken _ =>
    obtain ⟨m, ms, rfl, hm, htexts⟩ := List.map_eq_cons_iff.mp htexts
    obtain ⟨hsolid, hsolids⟩ := List.forall_mem_cons.mp hsolid
    obtain ⟨hspan, hrest⟩ := h.of_text hsolid.begins hm
    rw [List.flatMap_append, List.append_assoc] at hbytes
    obtain ⟨init, last, hnext, hlength⟩ :=
      exists_passed (u := m.span) hsolid.ends hbytes (by rw [hspan]; rfl)
    rw [← hlength] at hrest
    exact hrest.dividesAll hnext rfl hbroken htexts hsolids

end Texts

end JavaFormat
