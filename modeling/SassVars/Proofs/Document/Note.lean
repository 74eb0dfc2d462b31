import SassVars.Declaration.Parse
import SassVars.Proofs.Document.Item
import SassVars.Token

/-!
# Reading a note back

A note is a marker comment, and its labels are the markers in it. It holds nothing else that
extraction looks for: no brace, no flag and no section marker.

## Main definitions

* `Document.Label.marker`: the marker of a label.
-/

namespace SassVars

open Reader

namespace Document

/-! ## Labels and markers -/

def Label.marker (l : Label) : Marker :=
  ⟨l.tag, '"' :: (l.literal ++ ['"'])⟩

theorem Label.written_marker (l : Label) : l.marker.written = l.written := rfl

theorem Label.isValid_marker (l : Label) : l.marker.IsValid where
  tag_ne_nil := l.tag_ne_nil
  tag_word := List.all_eq_true.1 l.tag_word
  tag_allowed h := l.tag_ne_subsection (by
    have htag : l.tag = Marker.reservedTag := h
    rw [htag]
    decide)
  quoted := by
    refine ⟨l.literal, l.literal_ne_nil, fun c hc => ?_, rfl⟩
    have hne : c ≠ '"' := l.literal_clean.ne hc (by decide)
    simp [hne, List.any_eq_false.1 l.literal_line c hc]

/-- The quotes of a literal come off again. -/
theorem Label.unquote_quoted (l : Label) : Text.unquote l.marker.quoted = l.literal := by
  simp [Label.marker, Text.unquote, l.literal_line, Text.isQuote]

/-! ## Notes and comments -/

theorem isSeries_writtenLabels {gap : Char → Bool} (hgap : gap ' ' = true)
    (labels : List Label) :
    MarkerComment.IsSeries gap (labels.map Label.marker) (writtenLabels labels) := by
  induction labels with
  | nil => exact .nil
  | cons l labels ih =>
    have hseries := MarkerComment.IsSeries.cons (w := [' ']) (by simpa using hgap)
      l.isValid_marker ih
    rw [l.written_marker] at hseries
    simpa [writtenLabels] using hseries

theorem Note.isBlock {n : Note} (h : n.style = .block) :
    MarkerComment.IsBlock (n.labels.map Label.marker) n.written := by
  refine ⟨writtenLabels n.labels, [' '], isSeries_writtenLabels (by decide) _,
    List.all_eq_true.1 rfl, ?_⟩
  rw [Note.written, h]
  rfl

theorem Note.isLine {n : Note} (h : n.style = .line) :
    MarkerComment.IsLine (n.labels.map Label.marker) n.written := by
  refine ⟨by simpa using n.labels_ne_nil, writtenLabels n.labels,
    isSeries_writtenLabels (by decide) _, ?_⟩
  rw [Note.written, h]

theorem Note.collect_written (n : Note) :
    Marker.collect n.written = n.labels.map Label.marker := by
  cases h : n.style with
  | block => exact MarkerComment.collect_of_isBlock (n.isBlock h)
  | line => exact MarkerComment.collect_of_isLine (n.isLine h)

/-- Attaching the markers of labels attaches the labels. -/
theorem attach_markers (d : Declaration) (labels : List Label) :
    d.attach (labels.map Label.marker) = attachLabels d labels := by
  induction labels generalizing d with
  | nil => rfl
  | cons l labels ih =>
    have hfield : d.setField l.marker.tag (Text.unquote l.marker.quoted) =
        d.setField l.tag l.literal := by
      rw [l.unquote_quoted]
      rfl
    rw [attachLabels, List.foldl_cons, ← hfield]
    exact ih _

/-- In front of anything but a further marker, a note ends a statement. -/
theorem Note.isTail (n : Note) {rest : Text}
    (hrest : ∀ c ∈ rest.head?, Text.isInline c = false ∧ c ≠ '@') :
    Statement.IsTail (some n.written) (' ' :: n.written) rest := by
  have hblank : ∀ c ∈ [' '], Text.isInline c = true := List.all_eq_true.1 rfl
  cases h : n.style with
  | block => exact .block (w := [' ']) (List.all_eq_true.1 rfl) (n.isBlock h)
  | line => exact .line hblank (n.isLine h) (Marker.not_startsBehind (w := []) rfl (by simp) hrest)

/-! ## Characters that a note avoids -/

/-- A label behind its `@`. -/
def Label.body (l : Label) : Text :=
  "sass-export-".toList ++ (l.tag ++ ("=\"".toList ++ (l.literal ++ "\"".toList)))

theorem Label.written_eq (l : Label) : l.written = '@' :: l.body := rfl

theorem Label.avoids_body (l : Label) : Avoids ['{', '}', '!', '@'] l.body := by
  have htag : Avoids ['{', '}', '!', '@'] l.tag := avoids_of_class l.tag_word (by decide)
  have hliteral : Avoids ['{', '}', '!', '@'] l.literal := l.literal_clean.mono (by decide)
  unfold Label.body
  refine avoids_append.2 ⟨by decide, avoids_append.2 ⟨htag, ?_⟩⟩
  exact avoids_append.2 ⟨by decide, avoids_append.2 ⟨hliteral, by decide⟩⟩

theorem Label.avoids_written (l : Label) : Avoids ['{', '}', '!'] l.written := by
  rw [l.written_eq, avoids_cons]
  exact ⟨by decide, l.avoids_body.mono (by decide)⟩

theorem avoids_writtenLabels (labels : List Label) :
    Avoids ['{', '}', '!'] (writtenLabels labels) := by
  induction labels with
  | nil => exact avoids_nil
  | cons l labels ih =>
    rw [writtenLabels, List.flatMap_cons, avoids_append, avoids_cons]
    exact ⟨⟨by decide, l.avoids_written⟩, ih⟩

theorem Note.avoids_written (n : Note) : Avoids ['{', '}', '!'] n.written := by
  have hlabels := avoids_writtenLabels n.labels
  rw [Note.written]
  split <;> simp only [avoids_append]
  · exact ⟨by decide, hlabels, by decide⟩
  · exact ⟨by decide, hlabels⟩

/-! ## No section marker inside -/

/-- A reader that asks for one character is refused throughout a text without it. -/
theorem Avoids.refuses {α : Type} {p : Reader α} {d : Char} {t : Text} (h : Avoids [d] t)
    (hp : ∀ c, c ≠ d → p.Refuses c) : ∀ c ∈ t, p.Refuses c :=
  fun c hc => hp c (h.ne hc (by simp))

end Document

namespace Marker

/-- Only the tag tells a start marker from other markers. -/
theorem not_embeddedStart {m : Marker} (hword : ∀ c ∈ m.tag, Text.isWordChar c = true)
    (htag : Text.lower m.tag ≠ "subsection".toList) (t : Text) (r : Reading Text) :
    SectionMarker.embeddedStart.read (m.written ++ t) ≠ .ok r := by
  intro h
  obtain ⟨_, _, ha, _⟩ := read_bind_eq_ok_iff.1 h
  obtain ⟨u, rest, hu, heq, _⟩ := read_literalAnyCase_eq_ok_iff.1 ha
  have hv : m.written ++ t = opening ++ (m.tag ++ '=' :: (m.quoted ++ t)) := by simp [written]
  have hlower := congrArg Text.lower (hv.symm.trans heq)
  rw [Text.lower_append, Text.lower_append, Text.lower_append, hu] at hlower
  have hopening : opening ++ (Text.lower m.tag ++ '=' :: Text.lower (m.quoted ++ t)) =
      opening ++ ("subsection".toList ++ '=' :: Text.lower rest) := hlower
  have heqtag := List.append_cancel_left hopening
  have hrun : Text.IsRun (· != '=') (Text.lower m.tag) ('=' :: Text.lower (m.quoted ++ t)) := by
    refine .of_cons (fun c hc => ?_) (by decide)
    obtain ⟨d, hd, rfl⟩ := List.mem_map.1 hc
    refine bne_iff_ne.2 fun hequal => ?_
    have hd := hword d hd
    rw [Text.eq_of_toLower_eq hequal (by decide)] at hd
    exact absurd hd (by decide)
  have hrun' : Text.IsRun (· != '=') "subsection".toList ('=' :: Text.lower rest) :=
    .of_cons (List.all_eq_true.1 rfl) (by decide)
  exact htag (hrun.unique hrun' heqtag).1

/-- Behind its `@` a marker goes on otherwise than an end marker. -/
theorem not_embeddedStop (m : Marker) (t : Text) (r : Reading Text) :
    (literalAnyCase SectionMarker.endText).read (m.written ++ t) ≠ .ok r := by
  intro h
  obtain ⟨u, rest, hu, heq, _⟩ := read_literalAnyCase_eq_ok_iff.1 h
  have hlower : Text.lower (m.written ++ t) = SectionMarker.endText ++ Text.lower rest := by
    rw [heq, Text.lower_append, hu]
  have hsecond : some 's' = some 'e' := congrArg (fun t : Text => t[1]?) hlower
  exact absurd hsecond (by decide)

end Marker

namespace Document

theorem Label.not_embeddedStart (l : Label) (t : Text) (r : Reading Text) :
    SectionMarker.embeddedStart.read (l.written ++ t) ≠ .ok r :=
  l.written_marker ▸
    Marker.not_embeddedStart (List.all_eq_true.1 l.tag_word) l.tag_ne_subsection t r

theorem Label.not_embeddedStop (l : Label) (t : Text) (r : Reading Text) :
    (literalAnyCase SectionMarker.endText).read (l.written ++ t) ≠ .ok r :=
  l.written_marker ▸ l.marker.not_embeddedStop t r

section Find

variable {α : Type} {p : Reader α} (hp : ∀ c, c ≠ '@' → p.Refuses c) (hnil : p.find? [] = none)
  (hlabel : ∀ (l : Label) (t : Text) (r : Reading α), p.read (l.written ++ t) ≠ .ok r)

include hp

theorem find?_eq_none_of_avoids {u t : Text} (hu : Avoids ['@'] u) (ht : p.find? t = none) :
    p.find? (u ++ t) = none :=
  find?_append_eq_none (hu.refuses hp) ht

include hlabel

theorem find?_writtenLabels (labels : List Label) {t : Text} (ht : p.find? t = none) :
    p.find? (writtenLabels labels ++ t) = none := by
  induction labels with
  | nil => exact ht
  | cons l labels ih =>
    have hsplit : writtenLabels (l :: labels) ++ t =
        ' ' :: (l.written ++ (writtenLabels labels ++ t)) := by
      simp [writtenLabels]
    have hbody := find?_eq_none_of_avoids hp (l.avoids_body.mono (by decide)) ih
    have hfails := hlabel l (writtenLabels labels ++ t)
    rw [l.written_eq, List.cons_append] at hfails
    rw [hsplit, find?_cons_of_fails (hp ' ' (by decide) _), l.written_eq, List.cons_append,
      find?_cons_of_fails hfails, hbody]
    rfl

include hnil

theorem find?_note (n : Note) : p.find? (' ' :: n.written) = none := by
  cases h : n.style with
  | block =>
    have hend := find?_eq_none_of_avoids (u := " */".toList) hp (by decide) hnil
    rw [List.append_nil] at hend
    have hlabels := find?_writtenLabels hp hlabel n.labels hend
    have hnote := find?_eq_none_of_avoids (u := " /*".toList) hp (by decide) hlabels
    rw [Note.written, h]
    exact hnote
  | line =>
    have hlabels := find?_writtenLabels hp hlabel n.labels hnil
    have hnote := find?_eq_none_of_avoids (u := " //".toList) hp (by decide) hlabels
    rw [List.append_nil] at hnote
    rw [Note.written, h]
    exact hnote

end Find

end Document

end SassVars
