import SassVars.Proofs.Grammar.Comment
import SassVars.Proofs.Grammar.Name
import SassVars.Proofs.Grammar.Quoted
import SassVars.Statement

/-!
# The grammar of statements

The whole shape of a statement, said without a reader: `$`, a name, a colon, a value of one
of two forms, and a comment of one of two forms or space. The reader accepts exactly the
texts of this shape, and the shape determines everything it returns.

## Main definitions

* `Statement.IsHead`, `Statement.IsValue`, `Statement.IsTail`: the three parts.
* `Statement.IsStatement`: the parts in a row.
-/

namespace SassVars

open Reader

namespace Statement

/-! ## The three parts -/

/-- A name with what stands around it, up to the value. -/
def IsHead (name text rest : Text) : Prop :=
  ∃ n w₁ w₂, IsVariableName name n ∧ (∀ c ∈ w₁, Text.isLayout c = true) ∧
    Text.IsRun Text.isLayout w₂ rest ∧ text = '$' :: (n ++ (w₁ ++ ':' :: w₂))

/-- A value in its plain form where there is one, else in its quoted form. -/
inductive IsValue : Text → Text → Text → Prop where
  | plain {value text rest : Text} (h : IsPlainValue value text rest) : IsValue value text rest
  | quoted {value text rest : Text}
      (hplain : ∀ value' text' rest', text ++ rest = text' ++ rest' →
        ¬ IsPlainValue value' text' rest')
      (h : IsQuotedValue value text rest) : IsValue value text rest

/-- A comment stands in front of everything else in `t`: a block comment behind space of any
length, or a line comment on the same line. -/
inductive StartsWithComment : Text → Prop where
  | block {w s rest : Text} {ms : List Marker} (hw : ∀ c ∈ w, Text.isLayout c = true)
      (hs : MarkerComment.IsBlock ms s) : StartsWithComment (w ++ (s ++ rest))
  | line {w s rest : Text} {ms : List Marker} (hw : ∀ c ∈ w, Text.isInline c = true)
      (hs : MarkerComment.IsLine ms s) : StartsWithComment (w ++ (s ++ rest))

/-- What follows the value, up to the next thing in the text. -/
inductive IsTail : Option Text → Text → Text → Prop where
  | block {w s rest : Text} {ms : List Marker} (hw : ∀ c ∈ w, Text.isLayout c = true)
      (hs : MarkerComment.IsBlock ms s) : IsTail (some s) (w ++ s) rest
  | line {w s rest : Text} {ms : List Marker} (hw : ∀ c ∈ w, Text.isInline c = true)
      (hs : MarkerComment.IsLine ms s) (hrest : ¬ Marker.StartsBehind Text.isInline rest) :
      IsTail (some s) (w ++ s) rest
  | space {w rest : Text} (hw : Text.IsRun Text.isSpace w rest)
      (hcomment : ¬ StartsWithComment (w ++ rest)) : IsTail none w rest

/-- A statement with its text and what follows it. -/
def IsStatement (s : Statement) (text rest : Text) : Prop :=
  ∃ head value tail, IsHead s.name head (value ++ (tail ++ rest)) ∧
    IsValue s.value value (tail ++ rest) ∧ IsTail s.comment tail rest ∧
    text = head ++ (value ++ tail)

/-! ## The readers of the parts -/

/-- Layout behind a name neither goes on with it nor quotes it. -/
theorem not_name_of_isLayout {c : Char} (h : Text.isLayout c = true) :
    Text.isIdentChar c = false ∧ Text.isQuote c = false := by
  simp only [Text.isLayout, Bool.or_eq_true, beq_iff_eq] at h
  rcases h with ((rfl | rfl) | rfl) | rfl <;> decide

theorem read_head_eq_ok_iff {t : Text} {r : Reading Text} :
    head.read t = .ok r ↔
      ∃ name text rest, IsHead name text rest ∧ t = text ++ rest ∧ r = ⟨name, text, rest⟩ := by
  constructor
  · intro h
    simp only [head, layout, read_bind_eq_ok_iff, read_char_eq_ok_iff, read_span_eq_ok_iff,
      read_pure, Except.ok.injEq] at h
    obtain ⟨_, _, ⟨_, rfl, rfl⟩, ⟨n, _, hn, ⟨_, _, ⟨w₁, _, hw₁, hsplit₁, rfl⟩,
      ⟨_, _, ⟨_, rfl, rfl⟩, ⟨_, _, ⟨w₂, rest, hw₂, rfl, rfl⟩, rfl, rfl⟩, rfl⟩, rfl⟩, rfl⟩, rfl⟩ := h
    have hsplit := VariableName.reader.split hn
    refine ⟨n.value, _, rest, ⟨n.text, w₁, w₂, VariableName.isVariableName_of_read hn, hw₁.all,
      hw₂, rfl⟩, ?_, ?_⟩
    · simp only [List.cons_append, List.append_assoc, ← hsplit₁]
      exact congrArg ('$' :: ·) hsplit
    · simp
  · rintro ⟨name, text, rest, ⟨n, w₁, w₂, hname, hw₁, hw₂, rfl⟩, rfl, rfl⟩
    have hbehind : ∀ c ∈ (w₁ ++ ':' :: (w₂ ++ rest)).head?,
        Text.isIdentChar c = false ∧ Text.isQuote c = false := by
      cases w₁ with
      | nil => simp; decide
      | cons c w₁ => simpa using not_name_of_isLayout (hw₁ c (by simp))
    have hn := VariableName.read_of_isVariableName hname hbehind
    have hspan₁ := read_span_of_isRun
      (.of_cons hw₁ (by decide) : Text.IsRun Text.isLayout w₁ (':' :: (w₂ ++ rest)))
    have hspan₂ := read_span_of_isRun hw₂
    simp only [head, layout, read_bind, List.cons_append, List.append_assoc, read_char_cons, hn,
      hspan₁, hspan₂, read_pure, List.append_nil, List.nil_append]

theorem read_valueReader_eq_ok_iff {t : Text} {r : Reading Text} :
    valueReader.read t = .ok r ↔
      ∃ value text rest, IsValue value text rest ∧ t = text ++ rest ∧
        r = ⟨value, text, rest⟩ := by
  rw [valueReader, read_orElse_eq_ok_iff]
  constructor
  · rintro (h | ⟨hplain, h⟩)
    · obtain ⟨value, text, rest, hvalue, rfl, rfl⟩ := read_plainValue_eq_ok_iff.1 h
      exact ⟨value, text, rest, .plain hvalue, rfl, rfl⟩
    · obtain ⟨value, text, rest, hvalue, rfl, rfl⟩ := read_quotedValue_eq_ok_iff.1 h
      refine ⟨value, text, rest, .quoted (fun value' text' rest' heq h' => ?_) hvalue, rfl, rfl⟩
      exact hplain _ (read_plainValue_eq_ok_iff.2 ⟨value', text', rest', h', heq, rfl⟩)
  · rintro ⟨value, text, rest, h | ⟨hplain, h⟩, rfl, rfl⟩
    · exact .inl (read_plainValue_eq_ok_iff.2 ⟨value, text, rest, h, rfl, rfl⟩)
    · refine .inr ⟨fun s hs => ?_, read_quotedValue_eq_ok_iff.2 ⟨value, text, rest, h, rfl, rfl⟩⟩
      obtain ⟨value', text', rest', h', heq, _⟩ := read_plainValue_eq_ok_iff.1 hs
      exact hplain value' text' rest' heq h'

/-- A block comment behind space. -/
def blockBehind : Reader (Option Text) := do
  let _ ← layout
  return some (← MarkerComment.block.consumed)

/-- A line comment behind space on its line. -/
def lineBehind : Reader (Option Text) := do
  let _ ← inlineSpace
  return some (← MarkerComment.line.consumed)

theorem tail_eq : tail =
    (blockBehind <|> lineBehind <|> do let _ ← span Text.isSpace; return none) := rfl

theorem read_blockBehind_eq_ok_iff {t : Text} {r : Reading (Option Text)} :
    blockBehind.read t = .ok r ↔
      ∃ w ms s rest, (∀ c ∈ w, Text.isLayout c = true) ∧ MarkerComment.IsBlock ms s ∧
        t = w ++ (s ++ rest) ∧ r = ⟨some s, w ++ s, rest⟩ := by
  simp only [blockBehind, layout, read_bind_eq_ok_iff, read_span_eq_ok_iff,
    read_consumed_eq_ok_iff, MarkerComment.read_block_eq_ok_iff, read_pure, Except.ok.injEq]
  constructor
  · rintro ⟨_, _, ⟨w, _, hw, rfl, rfl⟩, ⟨_, _, ⟨_, ⟨ms, s, rest, hs, rfl, rfl⟩, rfl⟩, rfl, rfl⟩,
      rfl⟩
    exact ⟨w, ms, s, rest, hw.all, hs, rfl, by simp⟩
  · rintro ⟨w, ms, s, rest, hw, hs, rfl, rfl⟩
    exact ⟨_, _, ⟨w, _, hs.isRun hw rest (by decide), rfl, rfl⟩,
      ⟨_, _, ⟨_, ⟨ms, s, rest, hs, rfl, rfl⟩, rfl⟩, rfl, rfl⟩, by simp⟩

theorem read_lineBehind_eq_ok_iff {t : Text} {r : Reading (Option Text)} :
    lineBehind.read t = .ok r ↔
      ∃ w ms s rest, (∀ c ∈ w, Text.isInline c = true) ∧ MarkerComment.IsLine ms s ∧
        ¬ Marker.StartsBehind Text.isInline rest ∧ t = w ++ (s ++ rest) ∧
        r = ⟨some s, w ++ s, rest⟩ := by
  simp only [lineBehind, inlineSpace, read_bind_eq_ok_iff, read_span_eq_ok_iff,
    read_consumed_eq_ok_iff, MarkerComment.read_line_eq_ok_iff, read_pure, Except.ok.injEq]
  constructor
  · rintro ⟨_, _, ⟨w, _, hw, rfl, rfl⟩, ⟨_, _, ⟨_, ⟨ms, s, rest, hs, hstop, rfl, rfl⟩, rfl⟩, rfl,
      rfl⟩, rfl⟩
    exact ⟨w, ms, s, rest, hw.all, hs, hstop, rfl, by simp⟩
  · rintro ⟨w, ms, s, rest, hw, hs, hstop, rfl, rfl⟩
    exact ⟨_, _, ⟨w, _, hs.isRun hw rest (by decide), rfl, rfl⟩,
      ⟨_, _, ⟨_, ⟨ms, s, rest, hs, hstop, rfl, rfl⟩, rfl⟩, rfl, rfl⟩, by simp⟩

/-- The second character tells the two forms of a comment apart. -/
theorem block_ne_line {w w' s s' rest rest' : Text} {ms ms' : List Marker}
    (hw : ∀ c ∈ w, Text.isLayout c = true) (hs : MarkerComment.IsBlock ms s)
    (hw' : ∀ c ∈ w', Text.isLayout c = true) (hs' : MarkerComment.IsLine ms' s') :
    w ++ (s ++ rest) ≠ w' ++ (s' ++ rest') := by
  intro heq
  have hrun : Text.IsRun Text.isLayout w (s ++ rest) := hs.isRun hw rest (by decide)
  have hrun' : Text.IsRun Text.isLayout w' (s' ++ rest') := hs'.isRun hw' rest' (by decide)
  have hrest := (hrun.unique hrun' heq).2
  obtain ⟨body, u, _, _, rfl⟩ := hs
  obtain ⟨_, body', _, rfl⟩ := hs'
  have hsecond : some '*' = some '/' := congrArg (fun t : Text => t[1]?) hrest
  exact absurd hsecond (by decide)

theorem comment_fails_iff {t : Text} :
    ((∀ r, blockBehind.read t ≠ .ok r) ∧ ∀ r, lineBehind.read t ≠ .ok r) ↔
      ¬ StartsWithComment t := by
  constructor
  · rintro ⟨hblock, hline⟩ hcomment
    cases hcomment with
    | @block w s rest ms hw hs =>
      exact hblock _ (read_blockBehind_eq_ok_iff.2 ⟨w, ms, s, rest, hw, hs, rfl, rfl⟩)
    | @line w s rest ms hw hs =>
      -- Read with the reader itself: it may go on behind `s`.
      obtain ⟨r, hr⟩ := MarkerComment.exists_read_line hs rest
      obtain ⟨ms', s', rest', hs', hstop, heq, _⟩ := MarkerComment.read_line_eq_ok_iff.1 hr
      exact hline _ (read_lineBehind_eq_ok_iff.2 ⟨w, ms', s', rest', hw, hs', hstop, by rw [heq],
        rfl⟩)
  · intro h
    constructor
    · intro r hr
      obtain ⟨w, ms, s, rest, hw, hs, rfl, _⟩ := read_blockBehind_eq_ok_iff.1 hr
      exact h (.block hw hs)
    · intro r hr
      obtain ⟨w, ms, s, rest, hw, hs, _, rfl, _⟩ := read_lineBehind_eq_ok_iff.1 hr
      exact h (.line hw hs)

theorem read_tail_eq_ok_iff {t : Text} {r : Reading (Option Text)} :
    tail.read t = .ok r ↔
      ∃ comment text rest, IsTail comment text rest ∧ t = text ++ rest ∧
        r = ⟨comment, text, rest⟩ := by
  rw [tail_eq, read_orElse_eq_ok_iff, read_orElse_eq_ok_iff]
  constructor
  · rintro (h | ⟨hblock, h | ⟨hline, h⟩⟩)
    · obtain ⟨w, ms, s, rest, hw, hs, rfl, rfl⟩ := read_blockBehind_eq_ok_iff.1 h
      exact ⟨some s, w ++ s, rest, .block hw hs, by simp, rfl⟩
    · obtain ⟨w, ms, s, rest, hw, hs, hstop, rfl, rfl⟩ := read_lineBehind_eq_ok_iff.1 h
      exact ⟨some s, w ++ s, rest, .line hw hs hstop, by simp, rfl⟩
    · simp only [read_bind_eq_ok_iff, read_span_eq_ok_iff, read_pure, Except.ok.injEq] at h
      obtain ⟨_, _, ⟨w, rest, hw, rfl, rfl⟩, rfl, rfl⟩ := h
      exact ⟨none, w, rest, .space hw (comment_fails_iff.1 ⟨hblock, hline⟩), rfl, by simp⟩
  · rintro ⟨comment, text, rest, h, rfl, rfl⟩
    cases h with
    | @block w s _ ms hw hs =>
      left
      exact read_blockBehind_eq_ok_iff.2 ⟨w, ms, s, rest, hw, hs, by simp, rfl⟩
    | @line w s _ ms hw hs hrest =>
      right
      refine ⟨fun r hr => ?_, .inl ?_⟩
      · obtain ⟨w', ms', s', rest', hw', hs', heq, _⟩ := read_blockBehind_eq_ok_iff.1 hr
        rw [List.append_assoc] at heq
        have hlayout : ∀ c ∈ w, Text.isLayout c = true :=
          fun c hc => Text.isLayout_of_isInline (hw c hc)
        exact block_ne_line hw' hs' hlayout hs heq.symm
      · exact read_lineBehind_eq_ok_iff.2 ⟨w, ms, s, rest, hw, hs, hrest, by simp, rfl⟩
    | @space w _ hw hcomment =>
      obtain ⟨hblock, hline⟩ := comment_fails_iff.2 hcomment
      have hspan := read_span_of_isRun hw
      refine .inr ⟨hblock, .inr ⟨hline, ?_⟩⟩
      simp only [read_bind, hspan, read_pure, List.append_nil]

/-! ## The whole statement -/

/-- The reader accepts exactly the statements. -/
theorem read_eq_ok_iff {t : Text} {r : Reading Statement} :
    reader.read t = .ok r ↔ t = r.text ++ r.rest ∧ IsStatement r.value r.text r.rest := by
  simp only [reader, read_bind_eq_ok_iff, read_head_eq_ok_iff, read_valueReader_eq_ok_iff,
    read_tail_eq_ok_iff, read_pure, Except.ok.injEq]
  constructor
  · rintro ⟨_, _, ⟨name, s₁, _, hhead, rfl, rfl⟩, ⟨_, _, ⟨value, s₂, _, hvalue, rfl, rfl⟩,
      ⟨_, _, ⟨comment, s₃, rest, htail, rfl, rfl⟩, rfl, rfl⟩, rfl⟩, rfl⟩
    exact ⟨by simp, s₁, s₂, s₃, hhead, hvalue, htail, by simp⟩
  · rintro ⟨rfl, s₁, s₂, s₃, hhead, hvalue, htail, htext⟩
    obtain ⟨⟨name, value, comment⟩, _, rest⟩ := r
    subst htext
    refine ⟨_, _, ⟨name, s₁, _, hhead, by simp, rfl⟩, ⟨_, _, ⟨value, s₂, _, hvalue, rfl, rfl⟩,
      ⟨_, _, ⟨comment, s₃, rest, htail, rfl, rfl⟩, rfl, rfl⟩, rfl⟩, by simp⟩

/-- Outside any block a value up to its `;` reads back behind any head. -/
theorem read_of_head {name head value tail rest : Text} {comment : Option Text}
    (hhead : IsHead name head (value ++ ';' :: (tail ++ rest))) (hvalue : ';' ∉ value)
    (hblank : Text.isBlank value = false) (hopen : ¬ ClosesNext (tail ++ rest))
    (htail : IsTail comment tail rest) :
    reader.read (head ++ (value ++ ';' :: (tail ++ rest))) =
      .ok ⟨⟨name, value, comment⟩, head ++ (value ++ ';' :: tail), rest⟩ := by
  have hclean : ∀ c ∈ value, c ≠ ';' := fun c hc h => hvalue (h ▸ hc)
  exact read_eq_ok_iff.2 ⟨by simp, head, value ++ [';'], tail, by simpa using hhead,
    .plain (.topLevel hclean hblank hopen), htail, by simp⟩

/-- A statement outside any block reads back, with the layout in front of its value cut off. -/
theorem read_of_variableName {name n w value tail rest : Text} {comment : Option Text}
    (hname : IsVariableName name n) (hw : ∀ c ∈ w, Text.isLayout c = true) (hvalue : ';' ∉ value)
    (hblank : Text.isBlank value = false) (hopen : ¬ ClosesNext (tail ++ rest))
    (htail : IsTail comment tail rest) :
    reader.read ('$' :: (n ++ (w ++ ':' :: (value ++ ';' :: (tail ++ rest))))) =
      .ok ⟨⟨name, value.dropWhile Text.isLayout, comment⟩,
        '$' :: (n ++ (w ++ ':' :: (value ++ ';' :: tail))), rest⟩ := by
  have hhead : IsHead name ('$' :: (n ++ (w ++ ':' :: value.takeWhile Text.isLayout)))
      (value.dropWhile Text.isLayout ++ ';' :: (tail ++ rest)) :=
    ⟨n, w, _, hname, hw, Text.isRun_layout hblank _, rfl⟩
  have hvalue' : ';' ∉ value.dropWhile Text.isLayout :=
    fun hc => hvalue ((List.dropWhile_suffix Text.isLayout).subset hc)
  have hblank' : Text.isBlank (value.dropWhile Text.isLayout) = false := by
    rw [Text.isBlank_dropWhile_isLayout, hblank]
  have hread := read_of_head hhead hvalue' hblank' hopen htail
  have hsplit (z : Text) :
      value.takeWhile Text.isLayout ++ (value.dropWhile Text.isLayout ++ z) = value ++ z := by
    rw [← List.append_assoc, List.takeWhile_append_dropWhile]
  simpa [hsplit] using hread

theorem read_of_plain {name value tail rest : Text} {comment : Option Text}
    (hname : IsIdentifier name) (hvalue : ';' ∉ value) (hblank : Text.isBlank value = false)
    (hopen : ¬ ClosesNext (tail ++ rest)) (htail : IsTail comment tail rest) :
    reader.read ('$' :: (name ++ (": ".toList ++ (value ++ ';' :: (tail ++ rest))))) =
      .ok ⟨⟨name, value.dropWhile Text.isLayout, comment⟩,
        '$' :: (name ++ (": ".toList ++ (value ++ ';' :: tail))), rest⟩ := by
  have hblank' : Text.isBlank (' ' :: value) = false := by
    rw [← List.singleton_append, Text.isBlank_append, hblank, Bool.and_false]
  exact read_of_variableName (w := []) hname.isVariableName (by simp) (by simpa using hvalue)
    hblank' hopen htail

/-- Between two characters the search reads what follows. -/
theorem atByte?_append (before t : Text) :
    atByte? (before ++ t) (Text.byteLength before) = .ok (reader.read? t) := by
  rw [atByte?, Text.dropBytes?_append]

/-- At every place between two characters the search answers, and it gives a reading exactly
when one of that shape stands there. -/
theorem atByte?_eq_some_iff_isStatement (before t : Text) :
    ∃ result, atByte? (before ++ t) (Text.byteLength before) = .ok result ∧
      ∀ r, result = some r ↔ t = r.text ++ r.rest ∧ IsStatement r.value r.text r.rest := by
  refine ⟨reader.read? t, atByte?_append before t, fun r => ?_⟩
  rw [read?_eq_some_iff, read_eq_ok_iff]

theorem isStatement_of_atByte? {source : Text} {offset : Nat} {m : Reading Statement}
    (h : atByte? source offset = .ok (some m)) : IsStatement m.value m.text m.rest := by
  unfold atByte? at h
  split at h
  · contradiction
  · exact (read_eq_ok_iff.1 (read?_eq_some_iff.1 (Except.ok.inj h))).2

end Statement

end SassVars
