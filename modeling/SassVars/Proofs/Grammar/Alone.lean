import SassVars.Proofs.Grammar.Entry
import SassVars.Proofs.Scan.AnyCase

/-!
# Reading once more what was taken

A reader of the grammar takes a beginning of the text. When what it took stands alone it is taken
again as a whole, with the same value. A greedy reader could take less there, or another form
could come first, so the grammar of each reader is what decides.

## Main definitions

* `Reader.Takes`: texts of one form are taken with their value, and taken again alone.
* `Reader.Recognizes`: the same where the text itself is the value.
-/

namespace SassVars

namespace Reader

variable {α : Type}

/-- What `p` takes it takes again alone, and alone it takes the texts with `Form`. -/
structure Takes (p : Reader α) (Form : α → Text → Prop) : Prop where
  again : ∀ {t : Text} {r : Reading α}, p.read t = .ok r →
    t = r.text ++ r.rest ∧ r.text ≠ [] ∧ p.read r.text = .ok ⟨r.value, r.text, []⟩
  alone_iff : ∀ {x : α} {s : Text}, p.read s = .ok ⟨x, s, []⟩ ↔ Form x s

/-- As `Takes`, for a reader that gives the text it takes. -/
structure Recognizes (p : Reader Text) (Form : Text → Prop) : Prop where
  again : ∀ {t : Text} {r : Reading Text}, p.read t = .ok r →
    t = r.value ++ r.rest ∧ r.value ≠ [] ∧ p.read r.value = .ok ⟨r.value, r.value, []⟩
  alone_iff : ∀ {s : Text}, p.read s = .ok ⟨s, s, []⟩ ↔ Form s

/-- Reading alone goes by the form, so it is enough that only texts of this form are taken. -/
theorem Takes.of_form {p : Reader α} {Form : α → Text → Prop}
    (hform : ∀ {t r}, p.read t = .ok r → Form r.value r.text)
    (halone : ∀ {x s}, Form x s → s ≠ [] ∧ p.read s = .ok ⟨x, s, []⟩) : Takes p Form where
  again h := ⟨p.split h, halone (hform h)⟩
  alone_iff := ⟨fun h => hform h, fun h => (halone h).2⟩

theorem Takes.consumed {p : Reader α} {Form : α → Text → Prop} (h : Takes p Form) :
    Recognizes p.consumed fun s => ∃ x, Form x s where
  again hr := by
    obtain ⟨a, ha, rfl⟩ := read_consumed_eq_ok_iff.1 hr
    obtain ⟨hsplit, hne, halone⟩ := h.again ha
    exact ⟨hsplit, hne, read_consumed_eq_ok_iff.2 ⟨_, halone, rfl⟩⟩
  alone_iff := by
    intro s
    rw [read_consumed_eq_ok_iff]
    constructor
    · rintro ⟨⟨x, _, _⟩, ha, heq⟩
      cases heq
      exact ⟨x, h.alone_iff.1 ha⟩
    · rintro ⟨x, hx⟩
      exact ⟨_, h.alone_iff.2 hx, rfl⟩

end Reader

open Reader

/-! ## Names -/

theorem IsIdentifier.ne_nil {n : Text} (h : IsIdentifier n) : n ≠ [] := by
  obtain ⟨c, cs, rfl, _, _⟩ := h
  exact List.cons_ne_nil c cs

theorem Identifier.read_self {n : Text} (h : IsIdentifier n) :
    Identifier.reader.read n = .ok ⟨n, n, []⟩ := by
  have hread : Identifier.reader.read (n ++ []) = .ok ⟨n, n, []⟩ :=
    read_of_isIdentifier h (by simp)
  rwa [List.append_nil] at hread

theorem VariableName.read_self {name text : Text} (h : IsVariableName name text) :
    VariableName.reader.read text = .ok ⟨name, text, []⟩ := by
  have hread : VariableName.reader.read (text ++ []) = .ok ⟨name, text, []⟩ :=
    read_of_isVariableName h (by simp)
  rwa [List.append_nil] at hread

theorem Identifier.recognizes_reader : Recognizes Identifier.reader IsIdentifier where
  again h := by
    obtain ⟨hname, htext⟩ := isIdentifier_of_read h
    exact ⟨htext ▸ Identifier.reader.split h, hname.ne_nil, read_self hname⟩
  alone_iff := ⟨fun h => (isIdentifier_of_read h).1, read_self⟩

theorem VariableName.takes_reader : Takes VariableName.reader IsVariableName := by
  refine .of_form isVariableName_of_read fun {name text} h => ⟨?_, read_self h⟩
  obtain ⟨q₁, q₂, _, hname, _, rfl⟩ := h
  simp [hname.ne_nil]

/-! ## Markers and comments -/

theorem Marker.takes_reader : Takes Marker.reader fun m s => m.IsValid ∧ s = m.written := by
  refine .of_form (fun h => ?_) ?_
  · obtain ⟨m, rest, hm, _, rfl⟩ := Marker.read_eq_ok_iff.1 h
    exact ⟨hm, rfl⟩
  · rintro m _ ⟨hm, rfl⟩
    exact ⟨m.written_ne_nil, Marker.read_eq_ok_iff.2 ⟨m, [], hm, by simp, rfl⟩⟩

namespace MarkerComment

theorem takes_block : Takes block IsBlock := by
  refine .of_form (fun h => ?_) fun {ms s} hs => ⟨IsComment.ne_nil (.inl hs), ?_⟩
  · obtain ⟨ms, s, rest, hs, _, rfl⟩ := read_block_eq_ok_iff.1 h
    exact hs
  · exact read_block_eq_ok_iff.2 ⟨ms, s, [], hs, by simp, rfl⟩

theorem takes_line : Takes line IsLine := by
  refine .of_form (fun h => ?_) fun {ms s} hs => ⟨IsComment.ne_nil (.inr hs), ?_⟩
  · obtain ⟨ms, s, rest, hs, _, _, rfl⟩ := read_line_eq_ok_iff.1 h
    exact hs
  · exact read_line_eq_ok_iff.2
      ⟨ms, s, [], hs, Marker.not_startsBehind_nil rfl, by simp, rfl⟩

theorem takes_reader : Takes reader IsComment := by
  refine .of_form (fun h => ?_) fun hs => ⟨hs.ne_nil, hs.read_self⟩
  obtain ⟨ms, s, rest, hs, _, rfl⟩ := read_reader_eq_ok_iff.1 h
  exact hs.isComment

end MarkerComment

/-! ## Section markers -/

/-- A name that runs to the last quote of its line runs to the last one of all it took. -/
theorem SectionMarker.IsQuotedName.alone {raw rest : Text} (h : IsQuotedName raw rest) :
    IsQuotedName raw [] :=
  ⟨h.quoted, h.one_line, by simp [Text.firstLine]⟩

theorem SectionMarker.takes_start :
    Takes start fun raw s => IsQuotedName raw [] ∧ s = startOpening ++ raw := by
  refine .of_form (fun h => ?_) ?_
  · obtain ⟨raw, rest, hraw, _, rfl⟩ := read_start_eq_ok_iff.1 h
    exact ⟨hraw.alone, rfl⟩
  · rintro raw _ ⟨hraw, rfl⟩
    exact ⟨by simp [startOpening], read_start_eq_ok_iff.2 ⟨raw, [], hraw, by simp, rfl⟩⟩

/-! ## Map entries -/

theorem Text.IsRun.of_append {p : Char → Bool} {run u rest : Text} (h : IsRun p run (u ++ rest)) :
    IsRun p run u :=
  ⟨h.all, fun c hc => h.stops c (List.mem_head?_append_of_mem_head? hc)⟩

namespace MapLiteral.Entry

/-- A value stays the value when the end of what follows it is cut off. -/
theorem IsValue.of_append {value text u rest : Text} (h : IsValue value text (u ++ rest)) :
    IsValue value text u := by
  cases h with
  | call hw hs => exact .call hw hs
  | bare hw hne hv hcall =>
    rw [← List.append_assoc] at hw hcall
    refine .bare hw.of_append hne hv.of_append fun s v heq => hcall s (v ++ rest) ?_
    rw [heq, List.append_assoc]
  | group hw hs => exact .group hw hs
  | layout hne hw hbare hgroup =>
    refine .layout hne hw.of_append (fun c hc => hbare c ?_) fun s v heq =>
      hgroup s (v ++ rest) ?_
    · exact List.mem_head?_append_of_mem_head? hc
    · rw [heq, List.append_assoc]

theorem IsTrailing.alone {comment : Option Text} {text rest : Text}
    (h : IsTrailing comment text rest) : IsTrailing comment text [] := by
  cases h with
  | comment hw hs => exact .comment hw hs.isComment.ends_nil
  | none _ => exact .none fun ⟨_, _, _, _, _, _, heq⟩ => by simp at heq

theorem IsEntry.alone {e : Entry} {text rest : Text} (h : IsEntry e text rest) :
    IsEntry e text [] := by
  obtain ⟨n, w, value, trailing, hn, hw, hvalue, htrailing, rfl⟩ := h
  refine ⟨n, w, value, trailing, hn, hw, ?_, htrailing.alone, rfl⟩
  rw [List.append_nil]
  exact hvalue.of_append

theorem takes_reader : Takes Entry.reader fun e s => IsEntry e s [] := by
  refine .of_form (fun h => (read_eq_ok_iff.1 h).2.alone) fun {e s} h => ⟨?_, ?_⟩
  · obtain ⟨n, w, value, trailing, _, _, _, _, rfl⟩ := h
    simp
  · exact read_eq_ok_iff.2 ⟨by simp, h⟩

end MapLiteral.Entry

/-- Every reader of the grammar takes a beginning of the text that is not empty and reads it again
alone, to the same value with nothing left. -/
theorem readers_take_again :
    Recognizes Identifier.reader IsIdentifier ∧
    Recognizes MarkerComment.block.consumed (fun s => ∃ ms, MarkerComment.IsBlock ms s) ∧
    Recognizes MarkerComment.line.consumed (fun s => ∃ ms, MarkerComment.IsLine ms s) ∧
    Recognizes MarkerComment.reader.consumed (fun s => ∃ ms, MarkerComment.IsComment ms s) ∧
    Recognizes MapLiteral.Entry.reader.consumed (fun s => ∃ e, MapLiteral.Entry.IsEntry e s []) ∧
    Takes SectionMarker.start (fun raw s =>
      SectionMarker.IsQuotedName raw [] ∧ s = SectionMarker.startOpening ++ raw) ∧
    Takes Marker.reader (fun m s => m.IsValid ∧ s = m.written) ∧
    Takes VariableName.reader IsVariableName :=
  ⟨Identifier.recognizes_reader, MarkerComment.takes_block.consumed,
    MarkerComment.takes_line.consumed, MarkerComment.takes_reader.consumed,
    MapLiteral.Entry.takes_reader.consumed, SectionMarker.takes_start, Marker.takes_reader,
    VariableName.takes_reader⟩

/-- The comma behind an entry is left out, and the entry reads the same without it. -/
theorem readers_take_again_entry :
    MapLiteral.Entry.reader.consumed.read "a: (b), c".toList =
        .ok ⟨"a: (b)".toList, "a: (b)".toList, ", c".toList⟩ ∧
      MapLiteral.Entry.reader.consumed.read "a: (b)".toList =
        .ok ⟨"a: (b)".toList, "a: (b)".toList, []⟩ := by
  obtain ⟨-, -, -, -, hentry, -⟩ := readers_take_again
  have hread : MapLiteral.Entry.reader.consumed.read "a: (b), c".toList =
      .ok ⟨"a: (b)".toList, "a: (b)".toList, ", c".toList⟩ := by decide
  exact ⟨hread, (hentry.again hread).2.2⟩

end SassVars
