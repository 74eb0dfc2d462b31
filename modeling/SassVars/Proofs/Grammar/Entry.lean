import SassVars.MapLiteral
import SassVars.Proofs.Grammar.Statement

/-!
# The grammar of map entries

The shape of an entry, said without a reader: a name, a colon, a value of one of three forms or
the space in its place, and a comma with a marker comment if one follows. The reader accepts
exactly the texts of this shape.

## Main definitions

* `MapLiteral.Entry.IsCall`, `MapLiteral.Entry.IsGroup`: the two forms of a value in parentheses.
* `MapLiteral.Entry.IsValue`, `MapLiteral.Entry.IsTrailing`: the two parts behind the colon.
* `MapLiteral.Entry.IsEntry`: the parts in a row.
-/

namespace SassVars

open Reader

/-! ## Comments of either form -/

namespace MarkerComment

/-- A marker comment with its markers. -/
def IsComment (ms : List Marker) (s : Text) : Prop :=
  IsBlock ms s ∨ IsLine ms s

/-- A line comment ends where no further marker follows, a block comment where it is closed. -/
def Ends (ms : List Marker) (s rest : Text) : Prop :=
  IsBlock ms s ∨ IsLine ms s ∧ ¬ Marker.StartsBehind Text.isInline rest

theorem read_reader_eq_ok_iff {t : Text} {r : Reading (List Marker)} :
    reader.read t = .ok r ↔
      ∃ ms s rest, Ends ms s rest ∧ t = s ++ rest ∧ r = ⟨ms, s, rest⟩ := by
  rw [reader, read_orElse_eq_ok_iff, read_block_eq_ok_iff, read_line_eq_ok_iff]
  constructor
  · rintro (⟨ms, s, rest, hs, rfl, rfl⟩ | ⟨_, ms, s, rest, hs, hstop, rfl, rfl⟩)
    · exact ⟨ms, s, rest, .inl hs, rfl, rfl⟩
    · exact ⟨ms, s, rest, .inr ⟨hs, hstop⟩, rfl, rfl⟩
  · rintro ⟨ms, s, rest, hs | ⟨hs, hstop⟩, rfl, rfl⟩
    · exact .inl ⟨ms, s, rest, hs, rfl, rfl⟩
    · refine .inr ⟨fun r hr => ?_, ms, s, rest, hs, hstop, rfl, rfl⟩
      obtain ⟨ms', s', rest', hs', heq, _⟩ := read_block_eq_ok_iff.1 hr
      exact Statement.block_ne_line (List.forall_mem_nil _) hs' (List.forall_mem_nil _) hs heq.symm

/-- A comment can always be read. A line comment may turn out longer. -/
theorem exists_read_reader {ms : List Marker} {s : Text} (h : IsComment ms s) (rest : Text) :
    ∃ r, reader.read (s ++ rest) = .ok r := by
  rw [reader, exists_read_orElse_iff]
  rcases h with h | h
  · exact .inl ⟨_, read_block_eq_ok_iff.2 ⟨ms, s, rest, h, rfl, rfl⟩⟩
  · exact .inr (exists_read_line h rest)

theorem IsComment.ends_nil {ms : List Marker} {s : Text} (h : IsComment ms s) : Ends ms s [] :=
  h.imp_right fun hline => ⟨hline, Marker.not_startsBehind_nil rfl⟩

/-- A comment that stands alone is read to its end. -/
theorem IsComment.read_self {ms : List Marker} {s : Text} (h : IsComment ms s) :
    reader.read s = .ok ⟨ms, s, []⟩ :=
  read_reader_eq_ok_iff.2 ⟨ms, s, [], h.ends_nil, (List.append_nil s).symm, rfl⟩

theorem IsComment.isRun {ms : List Marker} {s w : Text} (h : IsComment ms s)
    (hw : ∀ c ∈ w, Text.isLayout c = true) (rest : Text) :
    Text.IsRun Text.isLayout w (s ++ rest) := by
  rcases h with h | h
  · exact h.isRun hw rest (by decide)
  · exact h.isRun hw rest (by decide)

theorem Ends.isComment {ms : List Marker} {s rest : Text} (h : Ends ms s rest) :
    IsComment ms s :=
  h.imp_right And.left

theorem IsComment.collect_eq {ms : List Marker} {s : Text} (h : IsComment ms s) :
    Marker.collect s = ms := by
  rcases h with h | h
  · exact collect_of_isBlock h
  · exact collect_of_isLine h

/-- Every comment opens with a slash. -/
theorem IsComment.head? {ms : List Marker} {s : Text} (h : IsComment ms s) :
    s.head? = some '/' := by
  rcases h with ⟨_, _, _, _, rfl⟩ | ⟨_, _, _, rfl⟩ <;> rfl

theorem IsComment.ne_nil {ms : List Marker} {s : Text} (h : IsComment ms s) : s ≠ [] := by
  rintro rfl
  exact absurd h.head? (by decide)

end MarkerComment

namespace MapLiteral.Entry

open MarkerComment (IsComment Ends)

/-! ## Values in parentheses -/

def isCallChar (c : Char) : Bool :=
  c.isAlpha || c == '-'

def isBareChar (c : Char) : Bool :=
  !(c == ')' || c == '(' || c == ',' || c == '/')

/-- `name(…)` up to the first `)`. -/
def IsCall (s : Text) : Prop :=
  ∃ f args, f ≠ [] ∧ (∀ c ∈ f, isCallChar c = true) ∧ args ≠ [] ∧ ')' ∉ args ∧
    s = f ++ '(' :: (args ++ [')'])

/-- `(…)` up to the first `)`. -/
def IsGroup (s : Text) : Prop :=
  ∃ inner, inner ≠ [] ∧ ')' ∉ inner ∧ s = '(' :: (inner ++ [')'])

theorem read_until_close_eq_ok_iff {t : Text} {r : Reading Text} :
    (until1 (· == ')')).read t = .ok r ↔
      ∃ u rest, u ≠ [] ∧ Text.IsRun (· != ')') u rest ∧ t = u ++ rest ∧ r = ⟨u, u, rest⟩ := by
  simp only [until1, read_check_eq_ok_iff, read_span_eq_ok_iff]
  constructor
  · rintro ⟨⟨u, rest, hu, rfl, rfl⟩, hne⟩
    exact ⟨u, rest, by simpa using hne, hu, rfl, rfl⟩
  · rintro ⟨u, rest, hne, hu, rfl, rfl⟩
    exact ⟨⟨u, rest, hu, rfl, rfl⟩, by simpa using hne⟩

theorem read_call_eq_ok_iff {t : Text} {r : Reading Text} :
    call.read t = .ok r ↔ ∃ s rest, IsCall s ∧ t = s ++ rest ∧ r = ⟨s, s, rest⟩ := by
  simp only [call, span1, read_consumed_eq_ok_iff, read_bind_eq_ok_iff, read_char_eq_ok_iff,
    read_until_close_eq_ok_iff, read_check_eq_ok_iff, read_span_eq_ok_iff]
  constructor
  · rintro ⟨_, ⟨_, _, ⟨⟨f, _, hf, rfl, rfl⟩, hne⟩, ⟨_, _, ⟨_, rfl, rfl⟩,
      ⟨_, _, ⟨args, _, hargs, hrun, rfl, rfl⟩, ⟨rest, rfl, rfl⟩, rfl⟩, rfl⟩, rfl⟩, rfl⟩
    refine ⟨f ++ '(' :: (args ++ [')']), rest,
      ⟨f, args, by simpa using hne, hf.all, hargs, fun hc => ?_, rfl⟩, by simp, by simp⟩
    simpa using hrun.all _ hc
  · rintro ⟨_, rest, ⟨f, args, hne, hf, hargs, hclose, rfl⟩, rfl, rfl⟩
    have hrun : Text.IsRun isCallChar f ('(' :: (args ++ ')' :: rest)) := .of_cons hf (by decide)
    exact ⟨_, ⟨_, _, ⟨⟨f, _, hrun, by simp, rfl⟩, by simpa using hne⟩, ⟨_, _, ⟨_, rfl, rfl⟩,
      ⟨_, _, ⟨args, ')' :: rest, hargs, .of_not_mem hclose rest, rfl, rfl⟩, ⟨rest, rfl, rfl⟩,
      rfl⟩, rfl⟩, rfl⟩, by simp⟩

theorem read_group_eq_ok_iff {t : Text} {r : Reading Text} :
    group.read t = .ok r ↔ ∃ s rest, IsGroup s ∧ t = s ++ rest ∧ r = ⟨s, s, rest⟩ := by
  simp only [group, read_consumed_eq_ok_iff, read_bind_eq_ok_iff, read_char_eq_ok_iff,
    read_until_close_eq_ok_iff]
  constructor
  · rintro ⟨_, ⟨_, _, ⟨_, rfl, rfl⟩, ⟨_, _, ⟨inner, _, hne, hrun, rfl, rfl⟩, ⟨rest, rfl, rfl⟩,
      rfl⟩, rfl⟩, rfl⟩
    refine ⟨'(' :: (inner ++ [')']), rest, ⟨inner, hne, fun hc => ?_, rfl⟩, by simp, by simp⟩
    simpa using hrun.all _ hc
  · rintro ⟨_, rest, ⟨inner, hne, hclose, rfl⟩, rfl, rfl⟩
    exact ⟨_, ⟨_, _, ⟨_, rfl, rfl⟩, ⟨_, _, ⟨inner, ')' :: rest, hne, .of_not_mem hclose rest,
      by simp, rfl⟩, ⟨rest, rfl, rfl⟩, rfl⟩, rfl⟩, by simp⟩

theorem read_bare_eq_ok_iff {t : Text} {r : Reading Text} :
    bare.read t = .ok r ↔
      ∃ v rest, v ≠ [] ∧ Text.IsRun isBareChar v rest ∧ t = v ++ rest ∧ r = ⟨v, v, rest⟩ := by
  simp only [bare, span1, read_check_eq_ok_iff, read_span_eq_ok_iff]
  constructor
  · rintro ⟨⟨v, rest, hv, rfl, rfl⟩, hne⟩
    exact ⟨v, rest, by simpa using hne, hv, rfl, rfl⟩
  · rintro ⟨v, rest, hne, hv, rfl, rfl⟩
    exact ⟨⟨v, rest, hv, rfl, rfl⟩, by simpa using hne⟩

/-- What ends a bare value belongs to no other class. -/
theorem isBareChar_of_class {p : Char → Bool} {c : Char} (hc : p c = true)
    (hp : [')', '(', ',', '/'].all (!p ·) = true) : isBareChar c = true := by
  refine Classical.byContradiction fun hbare => ?_
  have hmem : c ∈ [')', '(', ',', '/'] := by grind [isBareChar]
  simpa [hc] using List.all_eq_true.1 hp c hmem

/-- A call starts as a bare value would. -/
theorem IsCall.head? {s : Text} (h : IsCall s) : ∃ c ∈ s.head?, isBareChar c = true := by
  obtain ⟨f, args, hne, hf, _, _, rfl⟩ := h
  obtain ⟨c, f, rfl⟩ := List.exists_cons_of_ne_nil hne
  exact ⟨c, rfl, isBareChar_of_class (hf c (by simp)) (by decide)⟩

theorem bare_fails_iff {t : Text} :
    (∀ r, bare.read t ≠ .ok r) ↔ ∀ c ∈ t.head?, isBareChar c = false := by
  constructor
  · intro h c hc
    obtain ⟨u, rfl⟩ := List.head?_eq_some_iff.1 hc
    refine Bool.eq_false_iff.2 fun hbare => ?_
    have hrun := Text.isRun_takeWhile isBareChar (c :: u)
    exact h _ (read_bare_eq_ok_iff.2 ⟨_, _, by simp [hbare], hrun,
      List.takeWhile_append_dropWhile.symm, rfl⟩)
  · intro h r hr
    obtain ⟨v, rest, hne, hv, rfl, _⟩ := read_bare_eq_ok_iff.1 hr
    obtain ⟨c, v, rfl⟩ := List.exists_cons_of_ne_nil hne
    have hc := hv.all c (by simp)
    simp [h c rfl] at hc

theorem call_fails_iff {t : Text} :
    (∀ r, call.read t ≠ .ok r) ↔ ∀ s rest, t = s ++ rest → ¬ IsCall s := by
  constructor
  · intro h s rest heq hs
    exact h _ (read_call_eq_ok_iff.2 ⟨s, rest, hs, heq, rfl⟩)
  · intro h r hr
    obtain ⟨s, rest, hs, heq, _⟩ := read_call_eq_ok_iff.1 hr
    exact h s rest heq hs

theorem group_fails_iff {t : Text} :
    (∀ r, group.read t ≠ .ok r) ↔ ∀ s rest, t = s ++ rest → ¬ IsGroup s := by
  constructor
  · intro h s rest heq hs
    exact h _ (read_group_eq_ok_iff.2 ⟨s, rest, hs, heq, rfl⟩)
  · intro h r hr
    obtain ⟨s, rest, hs, heq, _⟩ := read_group_eq_ok_iff.1 hr
    exact h s rest heq hs

/-! ## Values -/

/-- A value with the layout in front of it, and what follows. Where no value stands, the layout
itself is taken for one. -/
inductive IsValue : Text → Text → Text → Prop where
  | call {w s rest : Text} (hw : ∀ c ∈ w, Text.isLayout c = true) (hs : IsCall s) :
      IsValue s (w ++ s) rest
  | bare {w v rest : Text} (hw : Text.IsRun Text.isLayout w (v ++ rest)) (hne : v ≠ [])
      (hv : Text.IsRun isBareChar v rest) (hcall : ∀ s u, v ++ rest = s ++ u → ¬ IsCall s) :
      IsValue v (w ++ v) rest
  | group {w s rest : Text} (hw : ∀ c ∈ w, Text.isLayout c = true) (hs : IsGroup s) :
      IsValue s (w ++ s) rest
  | layout {w rest : Text} (hne : w ≠ []) (hw : Text.IsRun Text.isLayout w rest)
      (hbare : ∀ c ∈ rest.head?, isBareChar c = false)
      (hgroup : ∀ s u, rest = s ++ u → ¬ IsGroup s) : IsValue w w rest

/-- A value behind layout, in the order of its forms. -/
def written : Reader Text :=
  call <|> Entry.bare <|> Entry.group

theorem valueReader_eq : valueReader = ((do let _ ← layout; written) <|> Entry.bare) := rfl

theorem IsCall.isRun {s w : Text} (h : IsCall s) (hw : ∀ c ∈ w, Text.isLayout c = true)
    (rest : Text) : Text.IsRun Text.isLayout w (s ++ rest) := by
  obtain ⟨f, args, hne, hf, _, _, rfl⟩ := h
  obtain ⟨c, f, rfl⟩ := List.exists_cons_of_ne_nil hne
  refine .of_cons hw (Bool.eq_false_iff.2 fun hlayout => ?_)
  have hc := hf c (by simp)
  simp only [Text.isLayout, Bool.or_eq_true, beq_iff_eq] at hlayout
  rcases hlayout with ((rfl | rfl) | rfl) | rfl <;> exact absurd hc (by decide)

theorem IsGroup.isRun {s w : Text} (h : IsGroup s) (hw : ∀ c ∈ w, Text.isLayout c = true)
    (rest : Text) : Text.IsRun Text.isLayout w (s ++ rest) := by
  obtain ⟨inner, _, _, rfl⟩ := h
  exact .of_cons hw (by decide)

theorem read_written_eq_ok_iff {t : Text} {r : Reading Text} :
    written.read t = .ok r ↔
      ∃ v rest, t = v ++ rest ∧ r = ⟨v, v, rest⟩ ∧
        (IsCall v ∨ (v ≠ [] ∧ Text.IsRun isBareChar v rest ∧
          ∀ s u, v ++ rest = s ++ u → ¬ IsCall s) ∨ IsGroup v) := by
  rw [written, read_orElse_eq_ok_iff, read_orElse_eq_ok_iff, call_fails_iff, bare_fails_iff,
    read_call_eq_ok_iff, read_bare_eq_ok_iff, read_group_eq_ok_iff]
  constructor
  · rintro (⟨s, rest, hs, rfl, rfl⟩ | ⟨hcall, ⟨v, rest, hne, hv, rfl, rfl⟩ |
      ⟨_, s, rest, hs, rfl, rfl⟩⟩)
    · exact ⟨s, rest, rfl, rfl, .inl hs⟩
    · exact ⟨v, rest, rfl, rfl, .inr (.inl ⟨hne, hv, hcall⟩)⟩
    · exact ⟨s, rest, rfl, rfl, .inr (.inr hs)⟩
  · rintro ⟨v, rest, rfl, rfl, hs | ⟨hne, hv, hcall⟩ | hs⟩
    · exact .inl ⟨v, rest, hs, rfl, rfl⟩
    · exact .inr ⟨hcall, .inl ⟨v, rest, hne, hv, rfl, rfl⟩⟩
    · refine .inr ⟨fun s u heq hcall => ?_, .inr ⟨?_, v, rest, hs, rfl, rfl⟩⟩
      · obtain ⟨c, hc, hbare⟩ := hcall.head?
        obtain ⟨inner, _, _, rfl⟩ := hs
        obtain ⟨s, rfl⟩ := List.head?_eq_some_iff.1 hc
        obtain ⟨rfl, _⟩ := List.cons.inj heq
        exact absurd hbare (by decide)
      · obtain ⟨inner, _, _, rfl⟩ := hs
        simp [isBareChar]

theorem written_fails_iff {t : Text} :
    (∀ r, written.read t ≠ .ok r) ↔
      (∀ r, call.read t ≠ .ok r) ∧ (∀ r, Entry.bare.read t ≠ .ok r) ∧
        ∀ r, Entry.group.read t ≠ .ok r := by
  have h : (∃ r, written.read t = .ok r) ↔ _ :=
    exists_read_orElse_iff.trans (or_congr_right exists_read_orElse_iff)
  simpa only [ne_eq, not_exists, not_or] using not_congr h

theorem read_valueReader_eq_ok_iff {t : Text} {r : Reading Text} :
    valueReader.read t = .ok r ↔
      ∃ value text rest, IsValue value text rest ∧ t = text ++ rest ∧
        r = ⟨value, text, rest⟩ := by
  have hbehind {w u : Text} {s : Reading Text} (hw : Text.IsRun Text.isLayout w u) :
      (do let _ ← SassVars.Reader.layout; written : Reader Text).read (w ++ u) = .ok s ↔
        ∃ b, written.read u = .ok b ∧ s = ⟨b.value, w ++ b.text, b.rest⟩ := by
    simp [SassVars.Reader.layout, read_bind_eq_ok_iff, hw.takeWhile_eq, hw.dropWhile_eq]
  rw [valueReader_eq, read_orElse_eq_ok_iff]
  constructor
  · intro h
    obtain ⟨w, u, hw, rfl⟩ : ∃ w u, Text.IsRun Text.isLayout w u ∧ t = w ++ u :=
      ⟨_, _, Text.isRun_takeWhile Text.isLayout t, List.takeWhile_append_dropWhile.symm⟩
    rcases h with h | ⟨hfails, h⟩
    · obtain ⟨b, hb, rfl⟩ := (hbehind hw).1 h
      obtain ⟨v, rest, rfl, rfl, hs | ⟨hne, hv, hcall⟩ | hs⟩ := read_written_eq_ok_iff.1 hb
      · exact ⟨v, w ++ v, rest, .call hw.all hs, by simp, rfl⟩
      · exact ⟨v, w ++ v, rest, .bare hw hne hv hcall, by simp, rfl⟩
      · exact ⟨v, w ++ v, rest, .group hw.all hs, by simp, rfl⟩
    · obtain ⟨_, hbare, hgroup⟩ :=
        written_fails_iff.1 fun s hs => hfails _ ((hbehind hw).2 ⟨s, hs, rfl⟩)
      rw [bare_fails_iff] at hbare
      rw [group_fails_iff] at hgroup
      obtain ⟨v, rest, hne, hv, heq, rfl⟩ := read_bare_eq_ok_iff.1 h
      have hrun : Text.IsRun isBareChar w u :=
        ⟨fun c hc => isBareChar_of_class (hw.all c hc) (by decide), hbare⟩
      obtain ⟨rfl, rfl⟩ := hrun.unique hv heq
      exact ⟨w, w, u, .layout hne hw hbare hgroup, rfl, rfl⟩
  · rintro ⟨value, text, rest, h, rfl, rfl⟩
    cases h with
    | @call w s _ hw hs =>
      left
      rw [List.append_assoc, hbehind (hs.isRun hw rest)]
      exact ⟨_, read_written_eq_ok_iff.2 ⟨value, rest, rfl, rfl, .inl hs⟩, rfl⟩
    | @bare w v _ hw hne hv hcall =>
      left
      rw [List.append_assoc, hbehind hw]
      exact ⟨_, read_written_eq_ok_iff.2 ⟨value, rest, rfl, rfl, .inr (.inl ⟨hne, hv, hcall⟩)⟩, rfl⟩
    | @group w s _ hw hs =>
      left
      rw [List.append_assoc, hbehind (hs.isRun hw rest)]
      exact ⟨_, read_written_eq_ok_iff.2 ⟨value, rest, rfl, rfl, .inr (.inr hs)⟩, rfl⟩
    | layout hne hw hbare hgroup =>
      right
      have hrun : Text.IsRun isBareChar value rest :=
        ⟨fun c hc => isBareChar_of_class (hw.all c hc) (by decide), hbare⟩
      refine ⟨fun s hs => ?_, read_bare_eq_ok_iff.2 ⟨value, rest, hne, hrun, rfl, rfl⟩⟩
      obtain ⟨b, hb, _⟩ := (hbehind hw).1 hs
      refine written_fails_iff.2 ⟨call_fails_iff.2 fun s u heq hcall => ?_, bare_fails_iff.2 hbare,
        group_fails_iff.2 hgroup⟩ b hb
      obtain ⟨c, hc, hbare'⟩ := hcall.head?
      obtain ⟨s, rfl⟩ := List.head?_eq_some_iff.1 hc
      simp [hbare c (by simp [heq])] at hbare'

/-! ## Comments behind a value -/

/-- A comma with a marker comment starts `t`. -/
def StartsTrailing (t : Text) : Prop :=
  ∃ w s rest ms, (∀ c ∈ w, Text.isLayout c = true) ∧ IsComment ms s ∧ t = ',' :: (w ++ (s ++ rest))

/-- A comma with a marker comment, or nothing where none follows. -/
inductive IsTrailing : Option Text → Text → Text → Prop where
  | comment {w s rest : Text} {ms : List Marker} (hw : ∀ c ∈ w, Text.isLayout c = true)
      (hs : Ends ms s rest) : IsTrailing (some s) (',' :: (w ++ s)) rest
  | none {rest : Text} (hrest : ¬ StartsTrailing rest) : IsTrailing none [] rest

theorem read_trailingComment_eq_ok_iff {t : Text} {r : Reading Text} :
    trailingComment.read t = .ok r ↔
      ∃ w ms s rest, (∀ c ∈ w, Text.isLayout c = true) ∧ Ends ms s rest ∧
        t = ',' :: (w ++ (s ++ rest)) ∧ r = ⟨s, ',' :: (w ++ s), rest⟩ := by
  simp only [trailingComment, SassVars.Reader.layout, read_bind_eq_ok_iff, read_char_eq_ok_iff,
    read_span_eq_ok_iff, read_consumed_eq_ok_iff, MarkerComment.read_reader_eq_ok_iff]
  constructor
  · rintro ⟨_, _, ⟨_, rfl, rfl⟩, ⟨_, _, ⟨w, _, hw, rfl, rfl⟩, ⟨_, ⟨ms, s, rest, hs, rfl, rfl⟩, rfl⟩,
      rfl⟩, rfl⟩
    exact ⟨w, ms, s, rest, hw.all, hs, rfl, by simp⟩
  · rintro ⟨w, ms, s, rest, hw, hs, rfl, rfl⟩
    exact ⟨_, _, ⟨_, rfl, rfl⟩, ⟨_, _, ⟨w, _, hs.isComment.isRun hw rest, rfl, rfl⟩,
      ⟨_, ⟨ms, s, rest, hs, rfl, rfl⟩, rfl⟩, rfl⟩, by simp⟩

theorem trailingComment_fails_iff {t : Text} :
    (∀ r, trailingComment.read t ≠ .ok r) ↔ ¬ StartsTrailing t := by
  constructor
  · rintro h ⟨w, s, rest, ms, hw, hs, rfl⟩
    -- Read with the reader itself: a line comment may go on behind `s`.
    obtain ⟨r, hr⟩ := MarkerComment.exists_read_reader hs rest
    obtain ⟨ms', s', rest', hs', heq, _⟩ := MarkerComment.read_reader_eq_ok_iff.1 hr
    exact h _ (read_trailingComment_eq_ok_iff.2 ⟨w, ms', s', rest', hw, hs', by rw [heq], rfl⟩)
  · intro h r hr
    obtain ⟨w, ms, s, rest, hw, hs, rfl, _⟩ := read_trailingComment_eq_ok_iff.1 hr
    exact h ⟨w, s, rest, ms, hw, hs.isComment, rfl⟩

theorem read_optional_trailingComment_eq_ok_iff {t : Text} {r : Reading (Option Text)} :
    (optional trailingComment).read t = .ok r ↔
      ∃ comment text rest, IsTrailing comment text rest ∧ t = text ++ rest ∧
        r = ⟨comment, text, rest⟩ := by
  rw [read_optional_eq_ok_iff, trailingComment_fails_iff]
  constructor
  · rintro (⟨a, ha, rfl⟩ | ⟨h, rfl⟩)
    · obtain ⟨w, ms, s, rest, hw, hs, rfl, rfl⟩ := read_trailingComment_eq_ok_iff.1 ha
      exact ⟨some s, ',' :: (w ++ s), rest, .comment hw hs, by simp, rfl⟩
    · exact ⟨none, [], t, .none h, rfl, rfl⟩
  · rintro ⟨comment, text, rest, h, rfl, rfl⟩
    cases h with
    | comment hw hs =>
      exact .inl ⟨_, read_trailingComment_eq_ok_iff.2 ⟨_, _, _, rest, hw, hs, by simp, rfl⟩, rfl⟩
    | none h => exact .inr ⟨h, rfl⟩

/-! ## The whole entry -/

/-- An entry with its text and what follows it. -/
def IsEntry (e : Entry) (text rest : Text) : Prop :=
  ∃ n w value trailing, IsVariableName e.key n ∧ (∀ c ∈ w, Text.isLayout c = true) ∧
    IsValue e.value value (trailing ++ rest) ∧ IsTrailing e.comment trailing rest ∧
    text = n ++ (w ++ ':' :: (value ++ trailing))

/-- The reader accepts exactly the entries. -/
theorem read_eq_ok_iff {t : Text} {r : Reading Entry} :
    reader.read t = .ok r ↔ t = r.text ++ r.rest ∧ IsEntry r.value r.text r.rest := by
  simp only [reader, SassVars.Reader.layout, read_bind_eq_ok_iff, read_span_eq_ok_iff,
    read_char_eq_ok_iff, read_valueReader_eq_ok_iff, read_optional_trailingComment_eq_ok_iff,
    read_pure, Except.ok.injEq]
  constructor
  · rintro ⟨n, _, hn, ⟨_, _, ⟨w, _, hw, hsplit, rfl⟩, ⟨_, _, ⟨_, rfl, rfl⟩, ⟨_, _,
      ⟨value, text, _, hvalue, rfl, rfl⟩, ⟨_, _, ⟨comment, trailing, rest, htrailing, rfl, rfl⟩,
      rfl, rfl⟩, rfl⟩, rfl⟩, rfl⟩, rfl⟩
    refine ⟨?_, n.text, w, text, trailing, VariableName.isVariableName_of_read hn, hw.all, hvalue,
      htrailing, by simp⟩
    rw [VariableName.reader.split hn, hsplit]
    simp
  · rintro ⟨rfl, n, w, value, trailing, hn, hw, hvalue, htrailing, htext⟩
    obtain ⟨⟨key, v, comment⟩, _, rest⟩ := r
    subst htext
    have hbehind : ∀ c ∈ (w ++ ':' :: (value ++ (trailing ++ rest))).head?,
        Text.isIdentChar c = false ∧ Text.isQuote c = false := by
      cases w with
      | nil => simp; decide
      | cons c w => simpa using Statement.not_name_of_isLayout (hw c (by simp))
    have hname := VariableName.read_of_isVariableName hn hbehind
    have hrun : Text.IsRun Text.isLayout w (':' :: (value ++ (trailing ++ rest))) :=
      .of_cons hw (by decide)
    exact ⟨_, _, by simpa using hname, ⟨_, _, ⟨w, _, hrun, rfl, rfl⟩, ⟨_, _, ⟨_, rfl, rfl⟩, ⟨_, _,
      ⟨v, value, _, hvalue, rfl, rfl⟩, ⟨_, _, ⟨comment, trailing, rest, htrailing, rfl, rfl⟩, rfl,
      rfl⟩, rfl⟩, rfl⟩, rfl⟩, by simp⟩

end MapLiteral.Entry

end SassVars
